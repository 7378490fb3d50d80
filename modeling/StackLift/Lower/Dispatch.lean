import StackLift.Lower.Call
import StackLift.Lower.Edge

/-!
Dispatch on the class of a target. The opening instruction splits the code: the
slow path calls the builtin on the target, which lets a class override it, and
goes to the block after the construct; the fast path takes the indices and does
the access in place. The result is in the slot of the target on both paths.
-/

namespace StackLift

namespace Instruction

/-- The dispatch that an instruction opens: its kind, its call, and the label after it. -/
def dispatch? : Instruction → Option (DispatchKind × PoolIndex × Label)
  | .startDispatch kind call after => some (kind, call, after)
  | _ => none

/-- The kind of the dispatch that an instruction closes. -/
def closingKind? : Instruction → Option DispatchKind
  | .endAccess access => some (.access access)
  | .endCombine => some .combine
  | .endAccessN access _ => some (.accessN access)
  | _ => none

end Instruction

namespace Lowering

/-- The value that a write stores is popped first. -/
def popRhs (kind : DispatchKind) : Lowering (Option ValueId) :=
  if kind.isWrite then do
    let rhs ← pop
    return some rhs
  else return none

/-- Builds the slow path and leaves the stack as it found it. -/
def slowPath (kind : DispatchKind) (call : PoolIndex) (target : ValueId) (rhs : Option ValueId)
    (after : BlockId) : Lowering Unit := do
  let result ← emit (.callBuiltin kind.builtin (target :: rhs.toList) (.pool call))
  let saved ← replaceTop result
  jump after
  let _ ← replaceTop saved

/-- Indices that are call arguments are added to a call that has the target as
its first argument. -/
def startIndices (kind : DispatchKind) (target : ValueId) : Lowering Unit :=
  if kind.isNary then return
  else pushCall { callee := .builtin kind.builtin, args := [{ value := .value target }] }

def startDispatch (ctx : Context) (kind : DispatchKind) (call : PoolIndex) (after : Label) :
    Lowering Unit := do
  let _ ← constant (ctx.pool.expr call)
  let after ← ctx.target after
  let rhs ← popRhs kind
  let target ← peek
  let plain ← emit (.isPlain target)
  let fast ← newDirect
  let slow ← newDirect
  branch plain fast slow
  enter slow
  slowPath kind call target rhs after
  enter fast
  startIndices kind target
  pushDispatch { kind, call, after, rhs }

/-- Opens the dispatch of an instruction. -/
def openDispatch (ctx : Context) (i : Instruction) : Lowering Unit :=
  match i.dispatch? with
  | some (kind, call, after) => startDispatch ctx kind call after
  | none => fail (.invalid (.opensNoDispatch i.mnemonic))

/-- Closes the innermost dispatch, which has to be of the given kind. -/
def popDispatch (kind : DispatchKind) : Lowering PendingDispatch := fun s =>
  match s.dispatches with
  | [] => .error (.unbalanced (.noOpenDispatch kind)) s
  | d :: rest =>
    let s := { s with dispatches := rest }
    if d.kind = kind then .ok d s else .error (.unbalanced (.dispatchClosedAs d.kind kind)) s

/-- An access done in place. -/
def emitAccess (double : Bool) (target : ValueId) (indices : List ValueId)
    (rhs : Option ValueId) (site : CallSite) : Lowering ValueId :=
  match rhs with
  | some value => emit (.subassign double target indices value site)
  | none => emit (.extract double target indices site)

/-- One to three indices can be accessed in place. -/
def fewIndices (n : Nat) : Bool := 1 ≤ n && n ≤ 3

/-- Calls the builtin as a function value, so that it sees names and `...`. -/
def emitNamedBuiltin (builtin : String) (c : PendingCall) (rhs : Option ValueId)
    (site : CallSite) : Lowering ValueId := do
  let c := match rhs with
    | some v => c.addNamed v "value"
    | none => c
  let callee ← emit (.ldBuiltin builtin)
  let args ← argValues c.args
  emit (.namedCall callee args (c.args.map CallArg.name) site)

/-- The default operation on arguments that were added to a call, the target
being the first of them. -/
def defaultFromCall (kind : DispatchKind) (c : PendingCall) (target : ValueId)
    (rhs : Option ValueId) (site : CallSite) : Lowering ValueId :=
  let simple := !c.hasNames && !c.hasDots
  if simple && kind = .combine then emitCall c site
  else if simple && kind ≠ .combine && fewIndices (c.args.length - 1) then do
    let indices ← argValues (c.args.drop 1)
    emitAccess kind.isDouble target indices rhs site
  else emitNamedBuiltin kind.builtin c rhs site

/-- The default operation on indices that were on the stack. -/
def defaultFromStack (kind : DispatchKind) (target : ValueId) (indices : List ValueId)
    (rhs : Option ValueId) (site : CallSite) : Lowering ValueId :=
  if fewIndices indices.length then emitAccess kind.isDouble target indices rhs site
  else emit (.callBuiltin kind.builtin (target :: indices ++ rhs.toList) site)

/-- The fast path joins the slow one in the block after the construct, which
has to start at the next instruction. -/
def joinAfter (ctx : Context) (offset : Nat) (after : BlockId) (result : ValueId) :
    Lowering Unit := do
  push result
  if ctx.labels.blockAt? (offset + 1) = some after then
    jump after
    enter after
  else fail (.notBeforeAfter after)

/-- Closes a dispatch whose indices were added to a call. -/
def endDispatch (ctx : Context) (offset : Nat) (kind : DispatchKind) : Lowering Unit := do
  let d ← popDispatch kind
  let c ← popCall
  let target ← pop
  let result ← defaultFromCall kind c target d.rhs (.pool d.call)
  joinAfter ctx offset d.after result

/-- Closes a dispatch with a number of indices on the stack. -/
def endDispatchN (ctx : Context) (offset : Nat) (kind : DispatchKind) (count : Nat) :
    Lowering Unit := do
  let d ← popDispatch kind
  let indices ← popN count
  let target ← pop
  let result ← defaultFromStack kind target indices d.rhs (.pool d.call)
  joinAfter ctx offset d.after result

/-- Closes the dispatch of an instruction, with the given number of indices if they are on the
stack. -/
def closeDispatch (ctx : Context) (offset : Nat) (i : Instruction) (count : Option Nat) :
    Lowering Unit :=
  match i.closingKind?, count with
  | some kind, none => endDispatch ctx offset kind
  | some kind, some n => endDispatchN ctx offset kind n
  | none, _ => fail (.invalid (.closesNoDispatch i.mnemonic))

end Lowering

end StackLift
