import StackLift.Lower.State

/-!
Calls. The arguments of a call are collected while it is open, and the call is
emitted when it is finished. Builtins are called by position, since they ignore
the names of arguments; a function value is called with names when an argument
has one.
-/

namespace StackLift.Lowering

/-- Opens a call of a function found by name. -/
def startCall (ctx : Context) (lookup : FunLookup) (symbol : PoolIndex) : Lowering Unit := do
  let name ← ctx.symbol symbol
  let callee ← emit (.ldFun name lookup)
  pushCall { callee := .value callee }

def startBuiltin (ctx : Context) (symbol : PoolIndex) : Lowering Unit := do
  let name ← ctx.symbol symbol
  pushCall { callee := .builtin name }

/-- Opens a call of the function value on the stack. -/
def startValueCall : Lowering Unit := do
  let callee ← pop
  pushCall { callee := .value callee }

/-- Opens the call that an instruction begins. -/
def beginCall (ctx : Context) : Instruction → Lowering Unit
  | .getFun lookup symbol => startCall ctx lookup symbol
  | .getBuiltin _ symbol => startBuiltin ctx symbol
  | .checkFun => startValueCall
  | i => fail (.invalid (.beginsNoCall i.mnemonic))

/-- Emits an operation and adds its value to the open call. -/
def addOpArg (op : Op) : Lowering Unit := do
  requireCall
  let v ← emit op
  modifyCall (·.addValue v)

def addPromise (ctx : Context) (code : PoolIndex) : Lowering Unit := do
  let _ ← constant (ctx.pool.code code)
  addOpArg (.mkPromise code)

/-- A literal of the pool has to be in the pool. -/
def checkLiteral (ctx : Context) : Literal → Lowering Unit
  | .pool index => do
    let _ ← constant (ctx.pool.get index)
  | _ => return

def addLiteral (ctx : Context) (literal : Literal) : Lowering Unit := do
  checkLiteral ctx literal
  addOpArg (.const literal)

def addPopped : Lowering Unit := do
  let v ← pop
  modifyCall (·.addValue v)

/-- Names the argument added last. -/
def nameLastArg (ctx : Context) (symbol : PoolIndex) : Lowering Unit := do
  let name ← ctx.symbol symbol
  updateCall (·.nameLast name)

/-- The value of an argument; one left out and `...` are marked by operations. -/
def argValue : ArgValue → Lowering ValueId
  | .value v => return v
  | .missing => emit .missingArg
  | .dots => emit .expandDots

def argValues : List CallArg → Lowering (List ValueId)
  | [] => return []
  | a :: rest => do
    let v ← argValue a.value
    let vs ← argValues rest
    return v :: vs

/-- Emits a call whose arguments are complete. -/
def emitCall (c : PendingCall) (site : CallSite) : Lowering ValueId := do
  let args ← argValues c.args
  match c.callee with
  | .builtin name => emit (.callBuiltin name args site)
  | .value callee =>
    if c.hasNames then emit (.namedCall callee args (c.args.map CallArg.name) site)
    else emit (.call callee args site)

def finishCall (ctx : Context) (call : PoolIndex) : Lowering Unit := do
  let c ← popCall
  let site ← ctx.site call
  let result ← emitCall c site
  push result

end StackLift.Lowering
