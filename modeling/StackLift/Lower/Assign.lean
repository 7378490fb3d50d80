import StackLift.Lower.Call

/-!
Complex assignments. The value assigned stays on the stack; above it, opening
the assignment puts the variable's value and the assigned value again. Each
access takes the arguments of the innermost call and calls it on the value of
its sub-target.
-/

namespace StackLift.Lowering

def startAssign (ctx : Context) (scope : Scope) (symbol call : PoolIndex) : Lowering Unit := do
  let name ← ctx.symbol symbol
  let rhs ← peek
  let e ← constant (ctx.pool.expr call)
  let pending ← ofExcept (PendingAssign.start scope name e)
  let target ← emit (.ldVar name scope false)
  push target
  push rhs
  pushAssign pending

/-- Replaces the sub-target on the stack by what the layer's getter finds. -/
def getterCall (layer : Nat) : Lowering Unit := do
  let site ← accessLayer (·.getter layer)
  let x ← pop
  let c ← popCall
  let result ← emitCall (c.prepend x) site
  push result

/-- Replaces the sub-target and the new value by the updated sub-target. -/
def setterCall (layer : Nat) : Lowering Unit := do
  let site ← accessLayer (·.setter layer)
  let value ← pop
  let x ← pop
  let c ← popCall
  let result ← emitCall ((c.prepend x).addNamed value "value") site
  push result

/-- Stores the updated value of the variable. -/
def endAssign (ctx : Context) (scope : Scope) (symbol : PoolIndex) : Lowering Unit := do
  let name ← ctx.symbol symbol
  let pending ← popAssign
  if pending.name = name ∧ pending.scope = scope then
    let value ← pop
    let _ ← emit (.stVar name scope value)
  else
    fail (.assignMismatch (.closing scope name pending.scope pending.name))

end StackLift.Lowering
