import StackLift.Graph.Prune
import StackLift.Graph.TrivialPhi

/-!
Options of a compilation: what kind of body a unit is, and what is done with
the graph once it is built.
-/

namespace StackLift

inductive UnitKind where
  | function
  | promise
  | topLevel
deriving DecidableEq

structure Options where
  unitKind : UnitKind := .function
  pruneUnreachable : Bool := true
  simplifyPhis : Bool := true
deriving DecidableEq

namespace Options

/-- Keeps the graph as it was built. -/
def raw (o : Options) : Options := { o with pruneUnreachable := false, simplifyPhis := false }

/-- Prunes first, and simplifies phis in what is left. -/
def cleanup (o : Options) (g : Graph) : Graph :=
  let g := if o.pruneUnreachable then g.prune.1 else g
  if o.simplifyPhis then g.simplifyPhis.1 else g

end Options

end StackLift
