import Retarget.Emit.Z80.Module
import Retarget.Proofs.Emit.Line
import Retarget.Proofs.Emit.Stack

/-!
# A Z80

The registers that emitted code uses, the zero and the carry flag, and memory. Instructions that only compute
and move data have a meaning here, one after the other; jumps, calls and block copies have none.
-/
namespace Retarget.Z80

structure Machine where
  half : Half → Byte
  /-- The lower half of `BC`, which no instruction names by itself. -/
  c : Byte
  ix : Word
  sp : Word
  zero : Bool
  carry : Bool
  memory : Word → Byte

namespace Machine

variable (m : Machine)

def stack : Stack := ⟨m.sp, m.memory⟩

def withStack (s : Stack) : Machine := { m with sp := s.top, memory := s.memory }

def setHalf (r : Half) (value : Byte) : Machine :=
  { m with half := fun other => if other = r then value else m.half other }

def pair : Pair → Word
  | .bc => m.half .b ++ m.c
  | .de => m.half .d ++ m.half .e
  | .hl => m.half .h ++ m.half .l
  | .ix => m.ix
  | .sp => m.sp

def setPair (r : Pair) (value : Word) : Machine :=
  match r with
  | .bc => { m.setHalf .b value.high with c := value.low }
  | .de => (m.setHalf .d value.high).setHalf .e value.low
  | .hl => (m.setHalf .h value.high).setHalf .l value.low
  | .ix => { m with ix := value }
  | .sp => { m with sp := value }

def write (address : Word) (byte : Byte) : Machine :=
  { m with memory := fun other => if other = address then byte else m.memory other }

def wordAt (address : Word) : Word := m.memory (address + 1) ++ m.memory address

def pushWord (value : Word) : Machine := m.withStack (m.stack.load [value.low, value.high])

/-- `A` and the flags after an operation on `A` and a byte. -/
def operate (operation : Alu) (byte : Byte) : Machine :=
  let a := m.half .a
  let result := match operation with
    | .add => a + byte
    | .subtract | .compare => a - byte
    | .and => a &&& byte
    | .or => a ||| byte
    | .xor => a ^^^ byte
  let carry := match operation with
    | .add => decide (255 < a.toNat + byte.toNat)
    | .subtract | .compare => decide (a.toNat < byte.toNat)
    | .and | .or | .xor => false
  { (if operation = .compare then m else m.setHalf .a result) with zero := result = 0, carry := carry }

end Machine

/-- The address of a byte of memory, where labels have the given addresses. -/
def Place.address (labels : String → Word) (m : Machine) : Place → Word
  | .frame offset => m.ix + BitVec.ofInt 16 offset
  | .static label offset => labels label + BitVec.ofNat 16 offset

variable (labels : String → Word)

def exec (i : Instruction) (m : Machine) : Option Machine :=
  match i with
  | .loadByte r place => some (m.setHalf r (m.memory (place.address labels m)))
  | .storeByte place r => some (m.write (place.address labels m) (m.half r))
  | .loadWord r place => some (m.setPair r (m.wordAt (place.address labels m)))
  | .storeWord place r =>
    let address := place.address labels m
    some ((m.write address (m.pair r).low).write (address + 1) (m.pair r).high)
  | .loadIndirect r => some (m.setHalf r (m.memory (m.pair .hl)))
  | .storeIndirect r => some (m.write (m.pair .hl) (m.half r))
  | .setByte r value => some (m.setHalf r (value.word 8))
  | .setWord r value => some (m.setPair r (value.word 16))
  | .setLabel r label => some (m.setPair r (labels label))
  | .copyByte target source => some (m.setHalf target (m.half source))
  | .copyToStackPointer source => some { m with sp := m.pair source }
  | .exchange => some ((m.setPair .de (m.pair .hl)).setPair .hl (m.pair .de))
  | .push r => some (m.pushWord (m.pair r))
  | .pop r => some ({ m with sp := m.sp + 2 }.setPair r (m.wordAt m.sp))
  | .alu operation r => some (m.operate operation (m.half r))
  | .flipSign => some (m.operate .xor 0x80)
  | .addWord target source =>
    some { m.setPair target (m.pair target + m.pair source) with
      carry := decide (65535 < (m.pair target).toNat + (m.pair source).toNat) }
  | .subtractWithCarry =>
    let taken := (m.pair .de).toNat + m.carry.toNat
    let result := m.pair .hl - BitVec.ofNat 16 taken
    some { m.setPair .hl result with zero := result = 0, carry := decide ((m.pair .hl).toNat < taken) }
  | .incrementByte r => some { m.setHalf r (m.half r + 1) with zero := m.half r + 1 = 0 }
  | .decrementByte r => some { m.setHalf r (m.half r - 1) with zero := m.half r - 1 = 0 }
  | .incrementWord => some (m.setPair .hl (m.pair .hl + 1))
  | .decrementWord => some (m.setPair .hl (m.pair .hl - 1))
  | .copyBlock | .jump _ | .jumpIfZero _ | .jumpRelative _ _ | .call _ | .ret | .directive _ => none

def run (lines : Code) (m : Machine) : Option Machine := Line.run (exec labels) lines m

theorem run_append (lines lines' : Code) (m : Machine) :
    run labels (lines ++ lines') m = (run labels lines m).bind (run labels lines') :=
  Line.run_append _ _ _ _

theorem run_append_of (h : run labels lines m = some m') : run labels (lines ++ lines') m = run labels lines' m' := by
  rw [run_append, h, Option.bind_some]

@[simp] theorem Machine.pair_setPair (m : Machine) (r : Pair) (value : Word) : (m.setPair r value).pair r = value := by
  cases r <;> simp [setPair, pair, setHalf, Word.high_append_low]

end Retarget.Z80
