import StackLift.Lower.Unit
import StackLift.Proofs.Draft.Wire
import StackLift.Proofs.Lower.Parts

/-!
Which faults an instruction can have. That brackets are still open is found only after
the last instruction: no step of the pass has this fault, whatever else it fails with.
-/

namespace StackLift

/-- Is the fault that brackets are open at the end of the code. -/
def Fault.isOpenAtEnd : Fault → Bool
  | .unbalanced (.stillOpen _ _) => true
  | _ => false

theorem Fault.not_isOpenAtEnd {f : Fault} (isLocal : f.isLocal = true) : f.isOpenAtEnd = false := by
  cases f with
  | unbalanced cause => cases cause <;> first | rfl | cases isLocal
  | _ => rfl

namespace Lowering

/-- A step that does not fail with brackets that are open at the end. -/
def Goes {α : Type} (m : Lowering α) : Prop := ∀ s f s', m s = .error f s' → f.isOpenAtEnd = false

section

variable {α β : Type}

theorem goes_bind {m : Lowering α} {g : α → Lowering β} (first : Goes m)
    (rest : ∀ a, Goes (g a)) : Goes (m >>= g) := by
  intro s f s' h
  rcases bind_eq_error_iff.mp h with h | ⟨a, u, -, h⟩
  · exact first s f s' h
  · exact rest a u f s' h

theorem Quiet.goes {m : Lowering α} (quiet : Quiet m) : Goes m :=
  fun _ _ _ h => Fault.not_isOpenAtEnd (quiet.fault h)

end

/-! ### Primitive steps -/

theorem goes_emit (op : Op) : Goes (emit op) := by
  intro s f s' h
  rw [emit] at h
  split at h <;> cases h
  rfl

theorem goes_newMerge : Goes newMerge := by
  intro s f s' h
  cases h

theorem goes_newDirect : Goes newDirect := by
  intro s f s' h
  cases h

theorem goes_addIndexPhi (b pred : BlockId) (initial : ValueId) :
    Goes (addIndexPhi b pred initial) := by
  intro s f s' h
  cases h

theorem goes_registerLoopIndex (b : BlockId) (phi next : ValueId) :
    Goes (registerLoopIndex b phi next) := by
  intro s f s' h
  cases h

/-- An edge can only bring the wrong stack, or values that are not there. -/
theorem isOpenAtEnd_of_wireAll {source : BlockId} {slots : List ValueId} {targets : List BlockId}
    {d d' : Draft} {f : Fault} (h : Draft.wireAll source slots targets d = .error f d') :
    f.isOpenAtEnd = false := by
  induction targets generalizing d with
  | nil => cases h
  | cons target rest ih =>
      rw [Draft.wireAll] at h
      split at h
      case h_1 => exact ih h
      case h_2 fault failed =>
        cases h
        rcases Draft.wire_eq_error failed with ⟨_, rfl⟩ | ⟨_, _, rfl⟩ <;> rfl

theorem goes_terminate (t : Terminator) : Goes (terminate t) := by
  intro s f s' h
  rw [terminate] at h
  split at h
  case h_1 => cases h
  case h_2 failed =>
    cases h
    rw [Draft.terminate] at failed
    split at failed
    · exact isOpenAtEnd_of_wireAll failed
    · cases failed
      rfl

theorem goes_enter (b : BlockId) : Goes (enter b) := by
  intro s f s' h
  rw [enter] at h
  simp only at h
  split at h
  · cases h
  · split at h <;> cases h
    rfl

theorem goes_arriveAt (b : BlockId) (fallsThrough : Bool) : Goes (arriveAt b fallsThrough) := by
  intro s f s' h
  rw [arriveAt] at h
  split at h
  · cases h
  · simp only at h
    split at h
    · cases h
    · split at h <;> cases h

section

variable (ctx : Context)

theorem goes_target (l : Label) : Goes (ctx.target l) := by
  intro s f s' h
  rw [Context.target, LabelMap.block] at h
  split at h <;> cases h
  rfl

theorem parts_goes : Parts ctx Goes where
  bind := goes_bind
  quiet := Quiet.goes
  emit := fun _ => goes_emit _
  newMerge := goes_newMerge
  newDirect := goes_newDirect
  addIndexPhi := goes_addIndexPhi
  registerLoopIndex := goes_registerLoopIndex
  terminate := goes_terminate
  enter := goes_enter
  arriveAt := goes_arriveAt
  target := goes_target ctx
  malformed := fun _ _ _ _ h => by cases h; rfl
  broken := fun _ _ _ _ h => by cases h; rfl

/-- The whole pass does not fail with brackets that are open at the end. -/
theorem goes_run {offset : Nat} {code : List Instruction} {s : State} {e : CompileError}
    (h : run ctx offset code s = .error e) : e.fault.isOpenAtEnd = false := by
  induction code generalizing offset s with
  | nil => cases h
  | cons i rest ih =>
      rw [run] at h
      split at h
      · exact ih h
      next fault s' failed =>
        cases h
        exact (parts_goes ctx).step offset i s fault s' failed

end

end Lowering

/-! ### Labels -/

/-- The faults of labels that cannot be resolved. -/
def Fault.isOfLabels : Fault → Bool
  | .badLabel _ _ | .constant _ => true
  | _ => false

namespace LabelMap

theorem Resolution.isOfLabels_bindAll {unit : CodeUnit} {labels : List Label} {f : Fault}
    {r r' : Resolution} (h : bindAll unit labels r = .error f r') : f.isOfLabels = true := by
  induction labels generalizing r with
  | nil => cases h
  | cons l rest ih =>
      rw [bindAll] at h
      split at h
      · exact ih h
      next fault failed =>
        cases h
        rw [Resolution.bind] at failed
        split at failed
        · split at failed <;> cases failed
          rfl
        · cases failed
          rfl

theorem Resolution.isOfLabels_resolveFrom {unit : CodeUnit} {pool : Pool} {offset at' : Nat}
    {code : List Instruction} {f : Fault} {r r' : Resolution}
    (h : resolveFrom unit pool offset code r = .error (at', f) r') : f.isOfLabels = true := by
  induction code generalizing offset r with
  | nil => cases h
  | cons i rest ih =>
      rw [resolveFrom] at h
      split at h
      · exact ih h
      next fault r₁ failed =>
        cases h
        rw [bindTargets] at failed
        split at failed
        · exact isOfLabels_bindAll failed
        · cases failed
          rfl

theorem isOfLabels_resolve {unit : CodeUnit} {pool : Pool} {offset : Nat} {f : Fault}
    {d d' : Draft} (h : resolve unit pool d = .error (offset, f) d') : f.isOfLabels = true := by
  rw [resolve] at h
  split at h
  · cases h
  next e r failed =>
    cases h
    exact Resolution.isOfLabels_resolveFrom failed

theorem goes_resolve {unit : CodeUnit} {pool : Pool} {offset : Nat} {f : Fault}
    {d d' : Draft} (h : resolve unit pool d = .error (offset, f) d') : f.isOpenAtEnd = false := by
  have ofLabels := isOfLabels_resolve h
  cases f with
  | unbalanced => cases ofLabels
  | _ => rfl

end LabelMap

end StackLift
