import StackLift.Lower.Assign
import StackLift.Lower.Branch
import StackLift.Lower.Dispatch
import StackLift.Lower.Loop

/-!
Lowering one instruction. Code that no edge leads to is skipped; only the end of
a loop is still noticed there.
-/

namespace StackLift.Lowering

def loadVar (ctx : Context) (symbol : PoolIndex) (missingOk : Bool) : Lowering Unit := do
  let name ← ctx.symbol symbol
  let _ ← pushOp (.ldVar name .current missingOk)

def loadDots (ctx : Context) (symbol : PoolIndex) (missingOk : Bool) : Lowering Unit := do
  let name ← ctx.symbol symbol
  let _ ← pushOp (.ldDots name missingOk)

/-- The stored value stays on the stack. -/
def storeVar (ctx : Context) (scope : Scope) (symbol : PoolIndex) : Lowering Unit := do
  let name ← ctx.symbol symbol
  let value ← peek
  let _ ← emit (.stVar name scope value)

def binary (ctx : Context) (op : BinaryOp) (call : PoolIndex) : Lowering Unit := do
  let rhs ← pop
  let lhs ← pop
  let site ← ctx.site call
  let _ ← pushOp (.binary op lhs rhs site)

def unary (ctx : Context) (op : UnaryOp) (call : PoolIndex) : Lowering Unit := do
  let arg ← pop
  let site ← ctx.site call
  let _ ← pushOp (.unary op arg site)

/-- Lowers an instruction that control reaches. -/
def lower (ctx : Context) (offset : Nat) : Instruction → Lowering Unit
  | .load literal => do
    checkLiteral ctx literal
    let _ ← pushOp (.const literal)
  | .getVar symbol missingOk => loadVar ctx symbol missingOk
  | .getDots symbol missingOk => loadDots ctx symbol missingOk
  | .setVar scope symbol => storeVar ctx scope symbol
  | .pop => do
    let _ ← pop
  | .dup => do
    let v ← peek
    push v
  | .dup2nd => do
    let v ← peekNth 1
    push v
  | .swap => swap
  | .setLoopVal => do
    let _ ← popN 2
    let _ ← pushOp (.const .null)
  | .setVisible visible => do
    let _ ← emit (.setVisible visible)
  | .goto label => do
    let b ← ctx.target label
    jump b
  | .branchIfNot call label => branchIfNot ctx call label
  | .ret => do
    let v ← pop
    terminate (.ret v)
  | .returnJump => do
    let v ← pop
    terminate (.nonLocalRet v)
  | .switch call names chrLabels numLabels => switch ctx call names chrLabels numLabels
  | .logicFirst connective call label => logicFirst ctx connective call label
  | .logicSecond connective call => logicSecond ctx connective call
  | .startLoop endLabel => startLoop ctx offset endLabel
  | .startFor call symbol endLabel => startFor ctx call symbol endLabel
  | .stepFor => stepFor
  | .endLoop kind => endLoop kind
  | .leaveLoop exit => leaveLoop ctx exit
  | i@(.getFun _ _) | i@(.getBuiltin _ _) | i@.checkFun => beginCall ctx i
  | .makePromise code => addPromise ctx code
  | .doMissing => modifyCall (·.addMissing)
  | .doDots => modifyCall (·.addDots)
  | .setTag symbol => nameLastArg ctx symbol
  | .pushArg => addPopped
  | .pushLiteral literal => addLiteral ctx literal
  | .finishCall _ call => finishCall ctx call
  | .callSpecial call => do
    let site ← ctx.site call
    let _ ← pushOp (.callSpecial site)
  | .makeClosure code => do
    let _ ← constant (ctx.pool.code code)
    let _ ← pushOp (.mkClosure code)
  | .binary op call => binary ctx op call
  | .unary op call => unary ctx op call
  | .isType test => do
    let arg ← pop
    let _ ← pushOp (.isType test arg)
  | .startAssign scope symbol call => startAssign ctx scope symbol call
  | .endAssign scope symbol => endAssign ctx scope symbol
  | .getterCall layer => getterCall layer.toNat
  | .setterCall layer => setterCall layer.toNat
  | i@(.startDispatch _ _ _) => openDispatch ctx i
  | i@(.endAccess _) | i@.endCombine => closeDispatch ctx offset i none
  | i@(.endAccessN _ count) => closeDispatch ctx offset i (some count.toNat)
  | i@(.dollar _ _) | i@(.dollarAssign _ _) | i@(.baseGuard _ _) =>
    fail (.unsupported (.instruction i.mnemonic))
  | .hint _ => return

/-- What an instruction in skipped code does. -/
def skip (ctx : Context) (offset : Nat) : Instruction → Lowering Unit
  | .endLoop kind => endDeadLoop ctx offset kind
  | _ => return

def step (ctx : Context) (offset : Nat) (i : Instruction) : Lowering Unit := do
  arrive ctx offset
  if (← current).live then
    lower ctx offset i
    if i.diverts then update fun s => { s with live := false }
  else skip ctx offset i

end StackLift.Lowering
