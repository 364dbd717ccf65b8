import Retarget.Document.Build
import Retarget.Document.Code
import Retarget.Document.Source
import Retarget.Proofs.Emit.Arguments
import Retarget.Proofs.Emit.Conversion
import Retarget.Proofs.Emit.Independence
import Retarget.Proofs.Emit.Labels
import Retarget.Proofs.Emit.Literals
import Retarget.Proofs.Emit.Llvm.Reads
import Retarget.Proofs.Emit.Llvm.WellFormed
import Retarget.Proofs.Lower.Reports
import Retarget.Proofs.Meaning.Agreement
import Retarget.Proofs.Meaning.Printing
import Retarget.Proofs.Optimize.Idempotence
import Retarget.Proofs.Optimize.Pace
import Retarget.Proofs.Optimize.Renumbering
import Retarget.Proofs.Run.FixedWidth
import Retarget.Proofs.Run.Limit
import Retarget.Proofs.Run.Locality
