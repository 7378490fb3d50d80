import StackLift.Bytecode.Assembly
import StackLift.Bytecode.Encoding
import StackLift.Graph.Lemmas
import StackLift.Program
import StackLift.Proofs.Acceptance
import StackLift.Proofs.Access
import StackLift.Proofs.Assignment
import StackLift.Proofs.Balance
import StackLift.Proofs.CallAssembly
import StackLift.Proofs.ComplexAssignment
import StackLift.Proofs.Dominance
import StackLift.Proofs.Edges
import StackLift.Proofs.Emission
import StackLift.Proofs.Encoding
import StackLift.Proofs.Lower.Nested
import StackLift.Proofs.Translation
import StackLift.Proofs.Structured.Advance
import StackLift.Proofs.Structured.Checked
import StackLift.Proofs.Structured.Run
import StackLift.Proofs.Reachability
import StackLift.Proofs.Conduct
import StackLift.Proofs.Graph.PhiElimination
import StackLift.Proofs.Types
import StackLift.Proofs.Structured
import StackLift.Proofs.Switch
import StackLift.Proofs.Program
import StackLift.Proofs.Dispatch.Line
import StackLift.Proofs.Hints
import StackLift.Proofs.Dispatch.Default
import StackLift.Proofs.Dispatch
import StackLift.Proofs.Counting
import StackLift.Proofs.Independence
import StackLift.Proofs.Graph.Pruning
import StackLift.Proofs.Alignment
import StackLift.Proofs.Assembly
import StackLift.Proofs.Place
import StackLift.Proofs.LayerOrder
import StackLift.Proofs.Refusal
import StackLift.Proofs.Sharing
import StackLift.Proofs.Graph.Substitution
