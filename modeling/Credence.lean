import Credence.Proofs.Batch.Completion
import Credence.Proofs.Batch.Replay
import Credence.Proofs.Engine.Certain
import Credence.Proofs.Inference.Backward.Best
import Credence.Proofs.Inference.Backward.Explanation
import Credence.Proofs.Inference.Backward.Looping
import Credence.Proofs.Inference.Consistency
import Credence.Proofs.Inference.Forward.Grounding
import Credence.Proofs.Inference.Forward.Novelty
import Credence.Proofs.Inference.Forward.Truncation
import Credence.Proofs.Inference.Naming
import Credence.Proofs.Inference.Plausibility
import Credence.Proofs.Inference.Prediction
import Credence.Proofs.Inference.Propagation.Order
import Credence.Proofs.Inference.Widening
import Credence.Proofs.Pattern.Lexing
import Credence.Proofs.Rule.Apart
import Credence.Proofs.Rule.Saving
import Credence.Proofs.Store.Enumeration
import Credence.Proofs.Store.Reuse
import Credence.Proofs.Store.Worklist
import Credence.Proofs.Time.Cycle
import Credence.Time.Notation
import Credence.Proofs.Time.Line
