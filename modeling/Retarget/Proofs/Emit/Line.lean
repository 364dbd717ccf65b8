import Retarget.Emit.Line

/-!
# Lines as they run

Lines of code run one after the other on any machine that gives instructions a meaning. Labels and lines that
are written as they are do nothing.
-/
namespace Retarget.Line

variable {ι σ : Type} (exec : ι → σ → Option σ)

def exec? : Line ι → σ → Option σ
  | .code i _, s => exec i s
  | .label _, s | .raw _, s => some s
  | .unknown _, _ => none

def run (lines : List (Line ι)) (s : σ) : Option σ := lines.foldlM (fun s line => line.exec? exec s) s

@[simp] theorem run_nil (s : σ) : run exec [] s = some s := rfl

@[simp] theorem run_cons (line : Line ι) (rest : List (Line ι)) (s : σ) :
    run exec (line :: rest) s = (line.exec? exec s).bind (run exec rest) := rfl

theorem run_append (lines lines' : List (Line ι)) (s : σ) :
    run exec (lines ++ lines') s = (run exec lines s).bind (run exec lines') :=
  List.foldlM_append

end Retarget.Line
