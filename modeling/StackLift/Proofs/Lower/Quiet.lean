import StackLift.Lower.Step

/-!
Steps of the pass that leave the graph alone: look-ups, and changes to the stack and
the brackets. What they fail with is local. It says what is wrong with an operand, a
constant or the brackets, and nothing about edges, labels or the end of the code.
-/

namespace StackLift

/-- Is the fault about the operands, the constants or the brackets of one instruction. -/
def Fault.isLocal : Fault → Bool
  | .phiMismatch _ _ _ | .badLabel _ _ | .unbalanced (.stillOpen _ _) | .broken _
  | .invalid (.enteredBeforeEdge _) | .invalid (.beginsNoCall _) | .invalid (.opensNoDispatch _)
  | .invalid (.closesNoDispatch _) | .invalid .switchWithoutDefault
  | .invalid .chainWithoutDefault => false
  | _ => true

/-- The result is no fault, or a local one. -/
def Except.Local {α : Type} (x : Except Fault α) : Prop := ∀ f, x = .error f → f.isLocal = true

/-! ### Places of assignments -/

mutual

theorem Place.local_layersOf (whole : Expr) : ∀ e, Except.Local (layersOf whole e)
  | .symbol name => fun f h => by cases h
  | .const c => fun f h => by cases h; rfl
  | .call fn args => local_layersOfCall whole fn args

theorem Place.local_layersOfCall (whole fn : Expr) :
    ∀ args, Except.Local (layersOfCall whole fn args)
  | [] => fun f h => by cases h; rfl
  | first :: rest => fun f h => by
    have inner := local_layersOfArg whole first
    rw [layersOfCall] at h
    cases result : layersOfArg whole first with
    | ok inner =>
        rw [result] at h
        cases h
    | error fault =>
        rw [result] at h
        cases h
        exact inner f result

theorem Place.local_layersOfArg (whole : Expr) : ∀ arg, Except.Local (layersOfArg whole arg)
  | ⟨_, value⟩ => local_layersOf whole value

end

theorem Place.local_ofExpr (e : Expr) : Except.Local (ofExpr e) := by
  intro f h
  rw [ofExpr.eq_def] at h
  split at h
  · cases h
    rfl
  · exact local_layersOf _ _ f h

theorem Layer.local_setterSite (l : Layer) (value : Expr) : Except.Local (l.setterSite value) := by
  intro f h
  rw [setterSite] at h
  split at h <;> cases h
  rfl

namespace PendingAssign

theorem local_start (scope : Scope) (name : String) (e : Expr) :
    Except.Local (PendingAssign.start scope name e) := by
  intro f h
  rw [start] at h
  split at h
  · next place rhs args =>
      cases result : Place.ofExpr place.value with
      | error fault =>
          rw [result] at h
          cases h
          exact Place.local_ofExpr _ f result
      | ok p =>
          rw [result] at h
          change ite _ _ _ = _ at h
          split at h <;> cases h
          rfl
  · cases h
    rfl

theorem local_getter (a : PendingAssign) (layer : Nat) : Except.Local (a.getter layer).1 := by
  intro f h
  rw [getter] at h
  split at h
  · cases h
    rfl
  · split at h
    · cases h
      rfl
    · split at h <;> cases h
      rfl

theorem local_setter (a : PendingAssign) (layer : Nat) : Except.Local (a.setter layer).1 := by
  intro f h
  rw [setter] at h
  split at h
  · cases h
    rfl
  · split at h
    · cases h
      rfl
    · exact Layer.local_setterSite _ _ f h

end PendingAssign

theorem PendingCall.local_nameLast (c : PendingCall) (name : String) :
    Except.Local (c.nameLast name) := by
  intro f h
  rw [nameLast] at h
  split at h <;> cases h
  rfl

namespace Lowering

/-- What a step does to the draft and how it may fail, when it is quiet. -/
def QuietFrom {α : Type} (s : State) : EStateM.Result Fault State α → Prop
  | .ok _ s' => s'.draft = s.draft
  | .error f s' => s'.draft = s.draft ∧ f.isLocal = true

/-- A step that leaves the graph alone and fails only with local faults. -/
def Quiet {α : Type} (x : Lowering α) : Prop := ∀ s, QuietFrom s (x s)

section

variable {α β : Type}

theorem Quiet.draft {x : Lowering α} (quiet : Quiet x) {s s' : State} {a : α}
    (h : x s = .ok a s') : s'.draft = s.draft := by
  have here := quiet s
  rwa [h] at here

theorem Quiet.fault {x : Lowering α} (quiet : Quiet x) {s s' : State} {f : Fault}
    (h : x s = .error f s') : f.isLocal = true := by
  have here := quiet s
  rw [h] at here
  exact here.2

theorem quiet_pure (a : α) : Quiet (pure a : Lowering α) := fun _ => rfl

theorem quiet_bind {x : Lowering α} {f : α → Lowering β} (first : Quiet x)
    (rest : ∀ a, Quiet (f a)) : Quiet (x >>= f) := by
  intro s
  have here := first s
  change QuietFrom s (EStateM.bind x f s)
  rw [EStateM.bind]
  cases h : x s with
  | error fault s' =>
      rw [h] at here
      exact here
  | ok a s' =>
      rw [h] at here
      have there := rest a s'
      change QuietFrom s (f a s')
      cases h' : f a s' with
      | error fault s'' =>
          rw [h'] at there
          exact ⟨there.1.trans here, there.2⟩
      | ok b s'' =>
          rw [h'] at there
          exact Eq.trans there here

theorem quiet_fail {fault : Fault} (isLocal : fault.isLocal = true) :
    Quiet (fail fault : Lowering α) :=
  fun _ => ⟨rfl, isLocal⟩

theorem quiet_constant (x : Except BytecodeError α) : Quiet (constant x) := by
  intro s
  cases x with
  | ok a => rfl
  | error cause => exact ⟨rfl, rfl⟩

theorem quiet_ofExcept {x : Except Fault α} (isLocal : Except.Local x) : Quiet (ofExcept x) := by
  intro s
  cases x with
  | ok a => rfl
  | error fault => exact ⟨rfl, isLocal fault rfl⟩

end

theorem quiet_current : Quiet current := fun _ => rfl

theorem quiet_update {g : State → State} (same : ∀ s, (g s).draft = s.draft) : Quiet (update g) :=
  fun s => same s

/-! ### The operand stack -/

theorem quiet_push (v : ValueId) : Quiet (push v) := fun _ => rfl

theorem quiet_pop : Quiet pop := by
  intro s
  obtain ⟨d, ⟨items⟩, loops, calls, assigns, dispatches, notes, live⟩ := s
  cases items with
  | nil => exact ⟨rfl, rfl⟩
  | cons v rest => rfl

theorem quiet_peekNth (n : Nat) : Quiet (peekNth n) := by
  intro s
  refine quiet_ofExcept (fun f h => ?_) s
  rw [OperandStack.peekNth] at h
  split at h <;> cases h
  rfl

theorem quiet_popN (n : Nat) : Quiet (popN n) := by
  intro s
  rw [popN, OperandStack.popN]
  by_cases le : n ≤ s.stack.items.length
  · rw [if_pos le]
    rfl
  · rw [if_neg le]
    exact ⟨rfl, rfl⟩

theorem quiet_replaceTop (v : ValueId) : Quiet (replaceTop v) := by
  intro s
  obtain ⟨d, ⟨items⟩, loops, calls, assigns, dispatches, notes, live⟩ := s
  cases items with
  | nil => exact ⟨rfl, rfl⟩
  | cons w rest => rfl

theorem quiet_swap : Quiet swap := by
  intro s
  obtain ⟨d, ⟨items⟩, loops, calls, assigns, dispatches, notes, live⟩ := s
  match items with
  | [] => exact ⟨rfl, rfl⟩
  | [_] => exact ⟨rfl, rfl⟩
  | _ :: _ :: _ => rfl

/-! ### Brackets -/

theorem quiet_pushLoop (l : LoopContext) : Quiet (pushLoop l) := fun _ => rfl

theorem quiet_pushCall (c : PendingCall) : Quiet (pushCall c) := fun _ => rfl

theorem quiet_pushAssign (a : PendingAssign) : Quiet (pushAssign a) := fun _ => rfl

theorem quiet_pushDispatch (p : PendingDispatch) : Quiet (pushDispatch p) := fun _ => rfl

theorem quiet_popCall : Quiet popCall := by
  intro s
  rw [popCall]
  cases s.calls with
  | nil => exact ⟨rfl, rfl⟩
  | cons c rest => rfl

theorem quiet_requireCall : Quiet requireCall := by
  intro s
  rw [requireCall]
  cases s.calls with
  | nil => exact ⟨rfl, rfl⟩
  | cons c rest => rfl

theorem quiet_popAssign : Quiet popAssign := by
  intro s
  rw [popAssign]
  cases s.assigns with
  | nil => exact ⟨rfl, rfl⟩
  | cons a rest => rfl

theorem quiet_updateCall {g : PendingCall → Except Fault PendingCall}
    (isLocal : ∀ c, Except.Local (g c)) : Quiet (updateCall g) := by
  intro s
  rw [updateCall]
  cases s.calls with
  | nil => exact ⟨rfl, rfl⟩
  | cons c rest =>
      rw [Bracket.updateTop]
      cases changed : g c with
      | ok c' => rfl
      | error fault => exact ⟨rfl, isLocal c fault changed⟩

theorem quiet_modifyCall (g : PendingCall → PendingCall) : Quiet (modifyCall g) :=
  quiet_updateCall fun c f h => by cases h

theorem quiet_accessLayer {access : PendingAssign → Except Fault CallSite × PendingAssign}
    (isLocal : ∀ a, Except.Local (access a).1) : Quiet (accessLayer access) := by
  intro s
  rw [accessLayer]
  cases s.assigns with
  | nil => exact ⟨rfl, rfl⟩
  | cons a rest => exact quiet_ofExcept (isLocal a) { s with assigns := (access a).2 :: rest }

theorem quiet_noteEdge (b : BlockId) : Quiet (noteEdge b) := fun _ => rfl

theorem quiet_popLoop (kind : LoopKind) : Quiet (popLoop kind) := by
  intro s
  rw [popLoop]
  cases s.loops with
  | nil => exact ⟨rfl, rfl⟩
  | cons l rest =>
      simp only
      split
      · rfl
      · exact ⟨rfl, rfl⟩

theorem quiet_popDispatch (kind : DispatchKind) : Quiet (popDispatch kind) := by
  intro s
  rw [popDispatch]
  cases s.dispatches with
  | nil => exact ⟨rfl, rfl⟩
  | cons p rest =>
      simp only
      split
      · rfl
      · exact ⟨rfl, rfl⟩

theorem quiet_innermostLoop : Quiet innermostLoop := by
  intro s
  refine quiet_ofExcept (fun f h => ?_) s
  cases loops : s.loops <;> rw [loops] at h <;> cases h
  rfl

/-! ### Look-ups -/

section

variable (ctx : Context)

theorem quiet_symbol (i : PoolIndex) : Quiet (ctx.symbol i) := quiet_constant _

theorem quiet_site (call : PoolIndex) : Quiet (ctx.site call) :=
  quiet_bind (quiet_constant _) fun _ => quiet_pure _

theorem quiet_checkLiteral (literal : Literal) : Quiet (checkLiteral ctx literal) := by
  cases literal with
  | pool index => exact quiet_bind (quiet_constant _) fun _ => quiet_pure _
  | null => exact quiet_pure _
  | logical b => exact quiet_pure _

theorem quiet_skip (offset : Nat) (i : Instruction) : Quiet (skip ctx offset i) := by
  rw [skip.eq_def]
  split
  · refine quiet_bind quiet_current fun s => ?_
    split
    · exact quiet_pure _
    · split
      · exact quiet_bind (quiet_popLoop _) fun _ => quiet_update fun _ => rfl
      · exact quiet_pure _
  · exact quiet_pure _

end

end Lowering

end StackLift
