import StackLift.Program
import StackLift.Proofs.Lower.Quiet

/-!
Lowering as it is put together. A judgement on steps that holds of the primitive ones and passes
from the parts of a sequence to the whole holds of the lowering of every instruction, and of all
that the pass does at an offset (`Parts.step`). Of the operations that are emitted, the judgement
may assume that the code they refer to is in the pool.
-/

namespace StackLift

/-- The nested unit that an operation refers to, if any, is in the pool. -/
def Op.Finds (pool : Pool) (op : Op) : Prop :=
  ∀ {code : PoolIndex} {kind : UnitKind}, op.nested? = some (code, kind) →
    ∃ unit, pool.code code = .ok unit

theorem Op.finds_of_plain {pool : Pool} {op : Op} (plain : op.nested? = none) : op.Finds pool := by
  intro code kind nested
  rw [plain] at nested
  cases nested

theorem Op.finds_of_code {pool : Pool} {op : Op} {code : PoolIndex} {kind : UnitKind}
    {unit : CodeUnit} (found : pool.code code = .ok unit)
    (nested : op.nested? = some (code, kind)) :
    op.Finds pool := by
  intro code' kind' nested'
  rw [nested] at nested'
  cases nested'
  exact ⟨unit, found⟩

namespace Lowering

/-- The primitive steps satisfy a judgement, and so does a sequence whose parts do. -/
structure Parts (ctx : Context) (J : ∀ {α : Type}, Lowering α → Prop) : Prop where
  bind : ∀ {α β : Type} {m : Lowering α} {f : α → Lowering β}, J m → (∀ a, J (f a)) → J (m >>= f)
  quiet : ∀ {α : Type} {m : Lowering α}, Quiet m → J m
  emit : ∀ {op : Op}, op.Finds ctx.pool → J (emit op)
  newMerge : J newMerge
  newDirect : J newDirect
  addIndexPhi : ∀ b pred initial, J (addIndexPhi b pred initial)
  registerLoopIndex : ∀ b phi next, J (registerLoopIndex b phi next)
  terminate : ∀ t, J (terminate t)
  enter : ∀ b, J (enter b)
  arriveAt : ∀ b fallsThrough, J (arriveAt b fallsThrough)
  target : ∀ l, J (ctx.target l)
  malformed : ∀ {α : Type} cause, J (fail (.invalid cause) : Lowering α)
  broken : ∀ {α : Type} breach, J (fail (.broken breach) : Lowering α)

variable {ctx : Context} {J : ∀ {α : Type}, Lowering α → Prop} (parts : Parts ctx J)

include parts

theorem Parts.after {α β : Type} {m : Lowering α} {f : α → Lowering β} (first : Quiet m)
    (rest : ∀ a, J (f a)) : J (m >>= f) :=
  parts.bind (parts.quiet first) rest

theorem Parts.pure {α : Type} (a : α) : J (Pure.pure a : Lowering α) := parts.quiet (quiet_pure a)

theorem Parts.plain {op : Op} (plain : op.nested? = none) : J (Lowering.emit op) :=
  parts.emit (Op.finds_of_plain plain)

theorem Parts.pushOp {op : Op} (finds : op.Finds ctx.pool) : J (pushOp op) :=
  parts.bind (parts.emit finds) fun v => parts.after (quiet_push v) fun _ => parts.pure _

theorem Parts.pushPlain {op : Op} (plain : op.nested? = none) : J (Lowering.pushOp op) :=
  parts.pushOp (Op.finds_of_plain plain)

/-- What comes after a look-up of code may rely on having found it. -/
theorem Parts.checked {β : Type} {code : PoolIndex} {rest : CodeUnit → Lowering β}
    (found : ∀ {unit : CodeUnit}, (∀ {op : Op} {kind : UnitKind}, op.nested? = some (code, kind) →
      op.Finds ctx.pool) → J (rest unit)) : J (constant (ctx.pool.code code) >>= rest) := by
  cases looked : ctx.pool.code code with
  | ok unit => exact parts.after (quiet_constant _) fun _ => found (Op.finds_of_code looked)
  | error cause => exact parts.quiet fun s => ⟨rfl, rfl⟩

/-! ### Instructions -/

theorem Parts.jump (b : BlockId) : J (jump b) :=
  parts.after (quiet_noteEdge b) fun _ => parts.terminate _

theorem Parts.branch (cond : ValueId) (yes no : BlockId) : J (branch cond yes no) :=
  parts.after (quiet_noteEdge yes) fun _ => parts.after (quiet_noteEdge no) fun _ =>
    parts.terminate _

theorem Parts.branchIf (cond : ValueId) (target : BlockId) : J (branchIf cond target) :=
  parts.bind parts.newDirect fun _ => parts.bind (parts.branch _ _ _) fun _ => parts.enter _

theorem Parts.branchUnless (cond : ValueId) (target : BlockId) :
    J (branchUnless cond target) :=
  parts.bind parts.newDirect fun _ => parts.bind (parts.branch _ _ _) fun _ => parts.enter _

theorem Parts.argValues (args : List CallArg) : J (argValues args) := by
  induction args with
  | nil => exact parts.pure _
  | cons a rest ih =>
      obtain ⟨value, name⟩ := a
      refine parts.bind ?_ fun v => parts.bind ih fun vs => parts.pure _
      cases value with
      | value v => exact parts.pure v
      | missing => exact parts.plain rfl
      | dots => exact parts.plain rfl

theorem Parts.emitCall (c : PendingCall) (site : CallSite) : J (emitCall c site) := by
  refine parts.bind (parts.argValues _) fun args => ?_
  split
  · exact parts.plain rfl
  · split <;> exact parts.plain rfl

theorem Parts.addOpArg {op : Op} (finds : op.Finds ctx.pool) : J (addOpArg op) :=
  parts.after quiet_requireCall fun _ => parts.bind (parts.emit finds) fun _ =>
    parts.quiet (quiet_modifyCall _)

theorem Parts.emitAccess (double : Bool) (target : ValueId) (indices : List ValueId)
    (rhs : Option ValueId) (site : CallSite) : J (emitAccess double target indices rhs site) := by
  cases rhs <;> exact parts.plain rfl

theorem Parts.defaultFromCall (kind : DispatchKind) (c : PendingCall) (target : ValueId)
    (rhs : Option ValueId) (site : CallSite) : J (defaultFromCall kind c target rhs site) := by
  simp only [Lowering.defaultFromCall]
  split
  · exact parts.emitCall c site
  · split
    · exact parts.bind (parts.argValues _) fun _ => parts.emitAccess _ _ _ _ _
    · exact parts.bind (parts.plain rfl) fun _ => parts.bind (parts.argValues _) fun _ =>
        parts.plain rfl

theorem Parts.defaultFromStack (kind : DispatchKind) (target : ValueId) (indices : List ValueId)
    (rhs : Option ValueId) (site : CallSite) :
    J (defaultFromStack kind target indices rhs site) := by
  rw [Lowering.defaultFromStack]
  split
  · exact parts.emitAccess _ _ _ _ _
  · exact parts.plain rfl

theorem Parts.joinAfter (offset : Nat) (after : BlockId) (result : ValueId) :
    J (joinAfter ctx offset after result) := by
  refine parts.after (quiet_push _) fun _ => ?_
  split
  · exact parts.bind (parts.jump _) fun _ => parts.enter _
  · exact parts.quiet (quiet_fail rfl)

theorem Parts.targetsOf (labels : List Label) : J (targetsOf ctx labels) := by
  induction labels with
  | nil => exact parts.pure _
  | cons l rest ih =>
      exact parts.bind (parts.target l) fun b => parts.bind ih fun bs => parts.pure _

theorem Parts.jumpTable (table : PoolIndex) : J (jumpTable ctx table) := by
  refine parts.after (quiet_constant _) fun labels => ?_
  refine parts.bind (parts.targetsOf labels) fun blocks => ?_
  split
  · exact parts.malformed _
  · exact parts.pure _

theorem Parts.stringChain (subject : ValueId) (names : List String) (targets : List BlockId) :
    J (stringChain subject names targets) := by
  induction names generalizing targets with
  | nil =>
      cases targets with
      | nil => exact parts.broken _
      | cons default rest => exact parts.jump _
  | cons name names ih =>
      cases targets with
      | nil => exact parts.broken _
      | cons target targets =>
          exact parts.bind (parts.plain rfl) fun _ => parts.bind (parts.branchIf _ _) fun _ =>
            ih targets

theorem Parts.numberChain (index : ValueId) (default : BlockId) (n : Nat)
    (arms : List BlockId) : J (numberChain index default n arms) := by
  induction arms generalizing n with
  | nil => exact parts.jump _
  | cons b rest ih =>
      exact parts.bind (parts.plain rfl) fun _ => parts.bind (parts.plain rfl) fun _ =>
        parts.bind (parts.branchIf _ _) fun _ => ih (n + 1)

theorem Parts.numericSwitch (subject : ValueId) (site : CallSite) (targets : List BlockId) :
    J (numericSwitch subject site targets) := by
  rw [Lowering.numericSwitch]
  split
  · exact parts.bind (parts.plain rfl) fun _ => parts.numberChain _ _ _ _
  · exact parts.malformed _

theorem Parts.switch (call : PoolIndex) (names chrLabels : Option PoolIndex)
    (numLabels : PoolIndex) :
    J (switch ctx call names chrLabels numLabels) := by
  refine parts.after quiet_pop fun subject => parts.after (quiet_site ctx call) fun site =>
    parts.bind (parts.jumpTable numLabels) fun nums => ?_
  cases names with
  | none =>
      cases chrLabels with
      | none => exact parts.numericSwitch _ _ _
      | some chrLabels => exact parts.quiet (quiet_fail rfl)
  | some names =>
      cases chrLabels with
      | none => exact parts.quiet (quiet_fail rfl)
      | some chrLabels =>
          refine parts.after (quiet_constant _) fun strings =>
            parts.bind (parts.jumpTable chrLabels) fun chrs => ?_
          split
          · exact parts.bind (parts.plain rfl) fun _ => parts.bind (parts.plain rfl) fun _ =>
              parts.bind parts.newDirect fun _ => parts.bind parts.newDirect fun _ =>
              parts.bind (parts.branch _ _ _) fun _ => parts.bind (parts.enter _) fun _ =>
              parts.bind (parts.stringChain _ _ _) fun _ => parts.bind (parts.enter _) fun _ =>
              parts.numericSwitch _ _ _
          · exact parts.quiet (quiet_fail rfl)

theorem Parts.startAssign (scope : Scope) (symbol call : PoolIndex) :
    J (startAssign ctx scope symbol call) := by
  refine parts.after (quiet_symbol ctx symbol) fun name => parts.after (quiet_peekNth 0) fun rhs =>
    parts.after (quiet_constant _) fun e => parts.bind ?_ fun a => ?_
  · exact parts.quiet (quiet_ofExcept (PendingAssign.local_start scope name e))
  · exact parts.bind (parts.plain rfl) fun _ => parts.after (quiet_push _) fun _ =>
      parts.after (quiet_push _) fun _ => parts.quiet (quiet_pushAssign a)

theorem Parts.endAssign (scope : Scope) (symbol : PoolIndex) :
    J (endAssign ctx scope symbol) := by
  refine parts.after (quiet_symbol ctx symbol) fun name => parts.after quiet_popAssign fun a => ?_
  split
  · exact parts.after quiet_pop fun _ => parts.bind (parts.plain rfl) fun _ => parts.pure _
  · exact parts.quiet (quiet_fail rfl)

theorem Parts.getterCall (layer : Nat) : J (getterCall layer) :=
  parts.after (quiet_accessLayer fun a => a.local_getter layer) fun _ =>
    parts.after quiet_pop fun _ => parts.after quiet_popCall fun _ =>
      parts.bind (parts.emitCall _ _) fun _ => parts.quiet (quiet_push _)

theorem Parts.setterCall (layer : Nat) : J (setterCall layer) :=
  parts.after (quiet_accessLayer fun a => a.local_setter layer) fun _ =>
    parts.after quiet_pop fun _ =>
    parts.after quiet_pop fun _ => parts.after quiet_popCall fun _ =>
    parts.bind (parts.emitCall _ _) fun _ => parts.quiet (quiet_push _)

theorem Parts.startDispatch (kind : DispatchKind) (call : PoolIndex) (after : Label) :
    J (startDispatch ctx kind call after) := by
  have slow (target : ValueId) (rhs : Option ValueId) (after : BlockId) :
      J (slowPath kind call target rhs after) :=
    parts.bind (parts.plain rfl) fun _ => parts.after (quiet_replaceTop _) fun _ =>
      parts.bind (parts.jump _) fun _ => parts.after (quiet_replaceTop _) fun _ => parts.pure _
  have indices (target : ValueId) : J (startIndices kind target) := by
    rw [Lowering.startIndices]
    split
    · exact parts.pure _
    · exact parts.quiet (quiet_pushCall _)
  refine parts.after (quiet_constant _) fun _ => parts.bind (parts.target after) fun _ =>
    parts.bind ?_ fun _ => ?_
  · rw [Lowering.popRhs]
    split
    · exact parts.after quiet_pop fun _ => parts.pure _
    · exact parts.pure _
  · exact parts.after (quiet_peekNth 0) fun _ => parts.bind (parts.plain rfl) fun _ =>
      parts.bind parts.newDirect fun _ => parts.bind parts.newDirect fun _ =>
      parts.bind (parts.branch _ _ _) fun _ => parts.bind (parts.enter _) fun _ =>
      parts.bind (slow _ _ _) fun _ => parts.bind (parts.enter _) fun _ =>
      parts.bind (indices _) fun _ => parts.quiet (quiet_pushDispatch _)

theorem Parts.endDispatch (offset : Nat) (kind : DispatchKind) :
    J (endDispatch ctx offset kind) :=
  parts.after (quiet_popDispatch kind) fun _ => parts.after quiet_popCall fun _ =>
    parts.after quiet_pop fun _ => parts.bind (parts.defaultFromCall _ _ _ _ _) fun _ =>
    parts.joinAfter _ _ _

theorem Parts.endDispatchN (offset : Nat) (kind : DispatchKind) (count : Nat) :
    J (endDispatchN ctx offset kind count) :=
  parts.after (quiet_popDispatch _) fun _ => parts.after (quiet_popN _) fun _ =>
    parts.after quiet_pop fun _ => parts.bind (parts.defaultFromStack _ _ _ _ _) fun _ =>
    parts.joinAfter _ _ _

theorem Parts.startLoop (offset : Nat) (endLabel : Label) :
    J (startLoop ctx offset endLabel) := by
  have after : J (blockAfter ctx offset) := by
    rw [Lowering.blockAfter]
    split
    · exact parts.pure _
    · exact parts.newMerge
  exact parts.bind (parts.target endLabel) fun _ => parts.after (quiet_noteEdge _) fun _ =>
    parts.bind after fun _ => parts.bind (parts.jump _) fun _ => parts.bind (parts.enter _) fun _ =>
    parts.after quiet_current fun _ => parts.quiet (quiet_pushLoop _)

theorem Parts.startFor (call symbol : PoolIndex) (endLabel : Label) :
    J (startFor ctx call symbol endLabel) :=
  parts.after quiet_pop fun _ => parts.after (quiet_constant _) fun _ =>
    parts.after (quiet_symbol ctx symbol) fun _ => parts.bind (parts.target endLabel) fun _ =>
    parts.bind (parts.plain rfl) fun _ => parts.bind (parts.plain rfl) fun _ =>
    parts.after quiet_current fun _ =>
    parts.bind parts.newMerge fun _ => parts.bind (parts.jump _) fun _ =>
    parts.bind (parts.addIndexPhi _ _ _) fun _ => parts.bind (parts.enter _) fun _ =>
    parts.bind (parts.plain rfl) fun _ => parts.bind (parts.plain rfl) fun _ =>
    parts.bind (parts.plain rfl) fun _ =>
    parts.bind parts.newDirect fun _ => parts.bind (parts.branch _ _ _) fun _ =>
    parts.bind (parts.registerLoopIndex _ _ _) fun _ => parts.bind (parts.enter _) fun _ =>
    parts.bind (parts.plain rfl) fun _ => parts.bind (parts.plain rfl) fun _ =>
    parts.after quiet_current fun _ =>
    parts.quiet (quiet_pushLoop _)

theorem Parts.stepFor : J stepFor := by
  refine parts.after quiet_innermostLoop fun loop => ?_
  split
  · exact parts.jump _
  · exact parts.quiet (quiet_fail rfl)

theorem Parts.leaveLoop (exit : LoopExit) : J (leaveLoop ctx exit) := by
  refine parts.after quiet_current fun s => ?_
  split
  · cases exit <;> exact parts.jump _
  · split <;> exact parts.quiet (quiet_fail rfl)

theorem Parts.endLoop (kind : LoopKind) : J (endLoop kind) := by
  refine parts.after (quiet_popLoop kind) fun loop => parts.after quiet_current fun s => ?_
  simp only
  split
  · exact parts.pure _
  · exact parts.quiet (quiet_fail rfl)

theorem Parts.lower (offset : Nat) (i : Instruction) : J (lower ctx offset i) := by
  cases i with
  | load literal =>
      exact parts.after (quiet_checkLiteral ctx literal) fun _ =>
        parts.bind (parts.pushPlain rfl) fun _ =>
        parts.pure _
  | getVar symbol missingOk =>
      exact parts.after (quiet_symbol ctx symbol) fun _ =>
        parts.bind (parts.pushPlain rfl) fun _ => parts.pure _
  | getDots symbol missingOk =>
      exact parts.after (quiet_symbol ctx symbol) fun _ =>
        parts.bind (parts.pushPlain rfl) fun _ => parts.pure _
  | setVar scope symbol =>
      exact parts.after (quiet_symbol ctx symbol) fun _ => parts.after (quiet_peekNth 0) fun _ =>
        parts.bind (parts.plain rfl) fun _ => parts.pure _
  | pop => exact parts.after quiet_pop fun _ => parts.pure _
  | dup => exact parts.after (quiet_peekNth 0) fun _ => parts.quiet (quiet_push _)
  | dup2nd => exact parts.after (quiet_peekNth 1) fun _ => parts.quiet (quiet_push _)
  | swap => exact parts.quiet quiet_swap
  | setLoopVal =>
      exact parts.after (quiet_popN 2) fun _ =>
        parts.bind (parts.pushPlain rfl) fun _ => parts.pure _
  | setVisible visible => exact parts.bind (parts.plain rfl) fun _ => parts.pure _
  | goto label => exact parts.bind (parts.target label) fun _ => parts.jump _
  | branchIfNot call label =>
      exact parts.after quiet_pop fun _ => parts.after (quiet_site ctx call) fun _ =>
        parts.bind (parts.plain rfl) fun _ => parts.bind (parts.target label) fun _ =>
        parts.branchUnless _ _
  | ret => exact parts.after quiet_pop fun _ => parts.terminate _
  | returnJump => exact parts.after quiet_pop fun _ => parts.terminate _
  | switch call names chrLabels numLabels => exact parts.switch call names chrLabels numLabels
  | logicFirst connective call label =>
      exact parts.after quiet_pop fun _ => parts.after (quiet_site ctx call) fun _ =>
        parts.bind (parts.pushPlain rfl) fun _ => parts.bind (parts.plain rfl) fun _ =>
        parts.bind (parts.target label) fun _ => parts.branchIf _ _
  | logicSecond connective call =>
      exact parts.after quiet_pop fun _ => parts.after quiet_pop fun _ =>
        parts.after (quiet_site ctx call) fun _ => parts.bind (parts.plain rfl) fun _ =>
        parts.bind (parts.pushPlain rfl) fun _ => parts.pure _
  | startLoop endLabel => exact parts.startLoop offset endLabel
  | startFor call symbol endLabel => exact parts.startFor call symbol endLabel
  | stepFor => exact parts.stepFor
  | endLoop kind => exact parts.endLoop kind
  | leaveLoop exit => exact parts.leaveLoop exit
  | getFun lookup symbol =>
      exact parts.after (quiet_symbol ctx symbol) fun _ => parts.bind (parts.plain rfl) fun _ =>
        parts.quiet (quiet_pushCall _)
  | getBuiltin internal symbol =>
      exact parts.after (quiet_symbol ctx symbol) fun _ => parts.quiet (quiet_pushCall _)
  | checkFun => exact parts.after quiet_pop fun _ => parts.quiet (quiet_pushCall _)
  | makePromise code => exact parts.checked fun finds => parts.addOpArg (finds rfl)
  | doMissing => exact parts.quiet (quiet_modifyCall _)
  | doDots => exact parts.quiet (quiet_modifyCall _)
  | setTag symbol =>
      exact parts.after (quiet_symbol ctx symbol) fun name =>
        parts.quiet (quiet_updateCall fun c => c.local_nameLast name)
  | pushArg => exact parts.after quiet_pop fun _ => parts.quiet (quiet_modifyCall _)
  | pushLiteral literal =>
      exact parts.after (quiet_checkLiteral ctx literal) fun _ =>
        parts.addOpArg (Op.finds_of_plain rfl)
  | finishCall internal call =>
      exact parts.after quiet_popCall fun _ => parts.after (quiet_site ctx call) fun _ =>
        parts.bind (parts.emitCall _ _) fun _ => parts.quiet (quiet_push _)
  | callSpecial call =>
      exact parts.after (quiet_site ctx call) fun _ =>
        parts.bind (parts.pushPlain rfl) fun _ => parts.pure _
  | makeClosure code =>
      exact parts.checked fun finds => parts.bind (parts.pushOp (finds rfl)) fun _ => parts.pure _
  | binary op call =>
      exact parts.after quiet_pop fun _ => parts.after quiet_pop fun _ =>
        parts.after (quiet_site ctx call) fun _ =>
          parts.bind (parts.pushPlain rfl) fun _ => parts.pure _
  | unary op call =>
      exact parts.after quiet_pop fun _ => parts.after (quiet_site ctx call) fun _ =>
        parts.bind (parts.pushPlain rfl) fun _ => parts.pure _
  | isType test =>
      exact parts.after quiet_pop fun _ => parts.bind (parts.pushPlain rfl) fun _ => parts.pure _
  | startAssign scope symbol call => exact parts.startAssign scope symbol call
  | endAssign scope symbol => exact parts.endAssign scope symbol
  | getterCall layer => exact parts.getterCall layer.toNat
  | setterCall layer => exact parts.setterCall layer.toNat
  | startDispatch kind call after => exact parts.startDispatch kind call after
  | endAccess access => exact parts.endDispatch offset (.access access)
  | endCombine => exact parts.endDispatch offset .combine
  | endAccessN access count => exact parts.endDispatchN offset (.accessN access) count.toNat
  | dollar call symbol => exact parts.quiet (quiet_fail rfl)
  | dollarAssign call symbol => exact parts.quiet (quiet_fail rfl)
  | baseGuard call label => exact parts.quiet (quiet_fail rfl)
  | hint h => exact parts.pure _

theorem Parts.arrive (offset : Nat) : J (arrive ctx offset) := by
  rw [Lowering.arrive]
  split
  · exact parts.pure _
  · refine parts.after quiet_current fun s => ?_
    split
    · exact parts.pure _
    · split
      · exact parts.bind (parts.jump _) fun _ => parts.arriveAt _ _
      · exact parts.arriveAt _ _

theorem Parts.step (offset : Nat) (i : Instruction) : J (step ctx offset i) := by
  refine parts.bind (parts.arrive offset) fun _ => parts.after quiet_current fun s => ?_
  split
  · refine parts.bind (parts.lower offset i) fun _ => ?_
    split
    · exact parts.quiet (quiet_update fun _ => rfl)
    · exact parts.pure _
  · exact parts.quiet (quiet_skip ctx offset i)


end Lowering

end StackLift
