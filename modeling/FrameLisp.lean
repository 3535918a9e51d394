import FrameLisp.Cursor
import FrameLisp.Main
import FrameLisp.Proofs.Effect
import FrameLisp.Proofs.Evaluation.Shape
import FrameLisp.Proofs.Datum.Closures
import FrameLisp.Proofs.Evaluation.Locality
import FrameLisp.Proofs.Evaluation.Reachable
import FrameLisp.Proofs.Semantics.Natural
import FrameLisp.Proofs.Semantics.Sound
import FrameLisp.Proofs.Semantics.Complete
import FrameLisp.Proofs.Evaluation.Lexical
import FrameLisp.Proofs.Evaluation.Scope
import FrameLisp.Proofs.Evaluation.Renumbering
import FrameLisp.Proofs.Reading.Joined
import FrameLisp.Proofs.Reading.Data
import FrameLisp.Proofs.Reading.Boundary
import FrameLisp.Proofs.Reading.Grammar
import FrameLisp.Proofs.Reading.Cursor
import FrameLisp.Proofs.Evaluation.Runs
import FrameLisp.Proofs.Evaluation.Renaming
import FrameLisp.Proofs.Shell.Transcript
import FrameLisp.Proofs.Evaluation.Malformed
import FrameLisp.Proofs.Evaluation.Limits
import FrameLisp.Proofs.Store.History
import FrameLisp.Proofs.Evaluation.Blocks
import FrameLisp.Proofs.Prelude.Loading
import FrameLisp.Proofs.Evaluation.Confined
import FrameLisp.Proofs.Evaluation.Values
import FrameLisp.Proofs.Builtin.Arithmetic
import FrameLisp.Proofs.Shell.Levels
