import StackLift.Fault

/-!
Dispatches under construction: the fast path is being built, and the slow path
already leads to the block after the construct.
-/

namespace StackLift

structure PendingDispatch where
  kind : DispatchKind
  call : PoolIndex
  after : BlockId
  /-- The value that a write stores. -/
  rhs : Option ValueId
deriving DecidableEq

end StackLift
