import StackLift.Proofs.Core.Machine

/-!
Structured code: expressions with arms, calls and loops, as a compiler writes them out. A form
gives its code, and the offsets that its labels have to stand at. Loops may be left from
inside the arguments of calls, where the calls are abandoned.
-/

namespace StackLift

/-- A form leaves a value on the stack, or takes all its values as arguments of a call. -/
inductive FormKind where
  | value
  | args
deriving DecidableEq

/-- How many values a form leaves on the stack. -/
def FormKind.count : FormKind → Nat
  | .value => 1
  | .args => 0

/-- A constant or a variable. -/
inductive Leaf where
  | const (literal : Literal)
  | var (symbol : PoolIndex) (missingOk : Bool)
  | dots (symbol : PoolIndex) (missingOk : Bool)

namespace Leaf

def instruction : Leaf → Instruction
  | .const literal => .load literal
  | .var symbol missingOk => .getVar symbol missingOk
  | .dots symbol missingOk => .getDots symbol missingOk

def valid (pool : Pool) : Leaf → Bool
  | .const literal => literal.isIn pool
  | .var symbol _ | .dots symbol _ => (pool.symbol symbol).toOption.isSome

end Leaf

/-- The function of a call, found by its name. -/
inductive CallHead where
  | function (lookup : FunLookup) (symbol : PoolIndex)
  | builtin (internal : Bool) (symbol : PoolIndex)

namespace CallHead

def instruction : CallHead → Instruction
  | .function lookup symbol => .getFun lookup symbol
  | .builtin internal symbol => .getBuiltin internal symbol

def symbol : CallHead → PoolIndex
  | .function _ symbol | .builtin _ symbol => symbol

end CallHead

inductive Form : FormKind → Type
  | push (leaf : Leaf) : Form .value
  | setVar (value : Form .value) (scope : Scope) (symbol : PoolIndex) : Form .value
  | seq (first second : Form .value) : Form .value
  | binary (left right : Form .value) (op : BinaryOp) (site : PoolIndex) : Form .value
  | ifElse (test yes no : Form .value) (site : PoolIndex) (other after : Label) : Form .value
  | call (head : CallHead) (args : Form .args) (builtin : Bool) (site : PoolIndex) : Form .value
  | whileLoop (test body : Form .value) (site : PoolIndex) (head after : Label) : Form .value
  | forLoop (range body : Form .value) (site symbol : PoolIndex) (after : Label) : Form .value
  | repeatLoop (body : Form .value) (head after : Label) : Form .value
  | ret (value : Form .value) : Form .value
  | leave (exit : LoopExit) : Form .value
  | noArgs : Form .args
  | arg (value : Form .value) (tag : Option PoolIndex) (rest : Form .args) : Form .args

namespace Form

@[simp] def code : {kind : FormKind} → Form kind → List Instruction
  | _, .push leaf => [leaf.instruction]
  | _, .setVar value scope symbol => value.code ++ [.setVar scope symbol]
  | _, .seq first second => first.code ++ .pop :: second.code
  | _, .binary left right op site => left.code ++ (right.code ++ [.binary op site])
  | _, .ifElse test yes no site other after =>
    test.code ++ .branchIfNot site other :: (yes.code ++ .goto after :: no.code)
  | _, .call head args builtin site => head.instruction :: (args.code ++ [.finishCall builtin site])
  | _, .whileLoop test body site head after =>
    .startLoop after :: (test.code ++ .branchIfNot site after ::
      (body.code ++ [.pop, .goto head, .endLoop .whileOrRepeat, .load .null]))
  | _, .forLoop range body site symbol after =>
    range.code ++ .startFor site symbol after ::
      (body.code ++ [.pop, .stepFor, .endLoop .forEach, .load .null])
  | _, .repeatLoop body head after =>
    .startLoop after :: (body.code ++ [.pop, .goto head, .endLoop .whileOrRepeat, .load .null])
  | _, .ret value => value.code ++ [.ret]
  | _, .leave exit => [.leaveLoop exit]
  | _, .noArgs => []
  | _, .arg value tag rest => value.code ++ .pushArg :: (tag.toList.map .setTag ++ rest.code)

@[simp] def size : {kind : FormKind} → Form kind → Nat
  | _, .push _ | _, .leave _ => 1
  | _, .setVar value _ _ | _, .ret value => value.size + 1
  | _, .seq first second => first.size + 1 + second.size
  | _, .binary left right _ _ => left.size + right.size + 1
  | _, .ifElse test yes no _ _ _ => test.size + 1 + yes.size + 1 + no.size
  | _, .call _ args _ _ => 1 + args.size + 1
  | _, .whileLoop test body _ _ _ => 1 + test.size + 1 + body.size + 4
  | _, .forLoop range body _ _ _ => range.size + 1 + body.size + 4
  | _, .repeatLoop body _ _ => 1 + body.size + 4
  | _, .noArgs => 0
  | _, .arg value tag rest => value.size + 1 + tag.toList.length + rest.size

@[simp] theorem length_code {kind : FormKind} (f : Form kind) : f.code.length = f.size := by
  induction f <;> simp_all <;> omega

/-- The labels of a form that starts at an offset, each with the offset that it stands at. -/
@[simp] def bindings : {kind : FormKind} → Form kind → Nat → List (Label × Nat)
  | _, .push _, _ | _, .leave _, _ | _, .noArgs, _ => []
  | _, .setVar value _ _, p | _, .ret value, p => value.bindings p
  | _, .seq first second, p => first.bindings p ++ second.bindings (p + first.size + 1)
  | _, .binary left right _ _, p => left.bindings p ++ right.bindings (p + left.size)
  | _, .ifElse test yes no _ other after, p =>
    let atYes := p + test.size + 1
    let atNo := atYes + yes.size + 1
    (other, atNo) :: (after, atNo + no.size) ::
      (test.bindings p ++ (yes.bindings atYes ++ no.bindings atNo))
  | _, .call _ args _ _, p => args.bindings (p + 1)
  | _, .whileLoop test body _ head after, p =>
    let atBody := p + 1 + test.size + 1
    (head, p + 1) :: (after, atBody + body.size + 2) ::
      (test.bindings (p + 1) ++ body.bindings atBody)
  | _, .forLoop range body _ _ after, p =>
    let atBody := p + range.size + 1
    (after, atBody + body.size + 2) :: (range.bindings p ++ body.bindings atBody)
  | _, .repeatLoop body head after, p =>
    (head, p + 1) :: (after, p + 1 + body.size + 2) :: body.bindings (p + 1)
  | _, .arg value tag rest, p =>
    value.bindings p ++ rest.bindings (p + value.size + 1 + tag.toList.length)

/-- Every label leads to its place in the code. -/
def Bound {kind : FormKind} (f : Form kind) (unit : CodeUnit) (p : Nat) : Prop :=
  ∀ b ∈ f.bindings p, unit.offset? b.1 = some b.2

instance {kind : FormKind} (f : Form kind) (unit : CodeUnit) (p : Nat) :
    Decidable (f.Bound unit p) :=
  inferInstanceAs (Decidable (∀ b ∈ f.bindings p, _))

/-- The constants that the code needs are in the pool. -/
@[simp] def valid (pool : Pool) : {kind : FormKind} → Form kind → Bool
  | _, .push leaf => leaf.valid pool
  | _, .setVar value _ symbol => value.valid pool && (pool.symbol symbol).toOption.isSome
  | _, .seq first second => first.valid pool && second.valid pool
  | _, .binary left right _ site =>
    left.valid pool && right.valid pool && (pool.expr site).toOption.isSome
  | _, .ifElse test yes no site _ _ =>
    test.valid pool && yes.valid pool && no.valid pool && (pool.expr site).toOption.isSome
  | _, .call head args _ site => (pool.symbol head.symbol).toOption.isSome && args.valid pool &&
    (pool.expr site).toOption.isSome
  | _, .whileLoop test body site _ _ =>
    test.valid pool && body.valid pool && (pool.expr site).toOption.isSome
  | _, .forLoop range body site symbol _ => range.valid pool && body.valid pool &&
    (pool.expr site).toOption.isSome && (pool.symbol symbol).toOption.isSome
  | _, .repeatLoop body _ _ => body.valid pool
  | _, .ret value => value.valid pool
  | _, .leave _ | _, .noArgs => true
  | _, .arg value tag rest => value.valid pool &&
    tag.all (fun symbol => (pool.symbol symbol).toOption.isSome) && rest.valid pool

/-- May the form stand inside a loop that it can leave, and in the arguments of a call. A loop
is not left from its own test or from the operands of an instruction in it, and the function
does not return, nor repeat anything for good, while a call is open. -/
@[simp] def allowed : {kind : FormKind} → Form kind → (inLoop inCall : Bool) → Bool
  | _, .push _, _, _ | _, .noArgs, _, _ => true
  | _, .setVar value _ _, inLoop, inCall => value.allowed inLoop inCall
  | _, .seq first second, inLoop, inCall =>
    first.allowed inLoop inCall && second.allowed inLoop inCall
  | _, .binary left right _ _, _, inCall => left.allowed false inCall && right.allowed false inCall
  | _, .ifElse test yes no _ _ _, inLoop, inCall =>
    test.allowed inLoop inCall && yes.allowed inLoop inCall && no.allowed inLoop inCall
  | _, .call _ args _ _, inLoop, _ => args.allowed inLoop true
  | _, .whileLoop test body _ _ _, _, inCall => test.allowed false inCall && body.allowed true inCall
  | _, .forLoop range body _ _ _, inLoop, inCall =>
    range.allowed inLoop inCall && body.allowed true inCall
  | _, .repeatLoop body _ _, _, inCall => !inCall && body.allowed true inCall
  | _, .ret value, inLoop, inCall => !inCall && value.allowed inLoop inCall
  | _, .leave _, inLoop, _ => inLoop
  | _, .arg value _ rest, inLoop, inCall =>
    value.allowed inLoop inCall && rest.allowed inLoop inCall

end Form

end StackLift
