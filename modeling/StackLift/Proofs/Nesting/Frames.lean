import StackLift.Proofs.Nesting.Code

/-!
Open brackets together with what the state holds for them. The state keeps brackets
of each kind apart; here they are one stack of frames, in the order in which they were
opened, and the four stacks of a state are read off it (`Matches`).
-/

namespace StackLift

/-- What the state holds for an open bracket. A dispatch has a call of its own when its
indices are added as arguments. -/
inductive Pending where
  | call (c : PendingCall)
  | assign (scope : Scope)
  | dispatch (p : PendingDispatch) (calls : List PendingCall)
  | loop (l : LoopContext)

namespace Pending

def opener : Pending → Opener
  | .call _ => .call
  | .assign scope => .assign scope
  | .dispatch p _ => .dispatch p.kind
  | .loop l => .loop l.kind

def loops : Pending → List LoopContext
  | .loop l => [l]
  | _ => []

def calls : Pending → List PendingCall
  | .call c => [c]
  | .dispatch _ calls => calls
  | _ => []

def dispatches : Pending → List PendingDispatch
  | .dispatch p _ => [p]
  | _ => []

/-- A dispatch has a call just when its indices are arguments. -/
def Sized : Pending → Prop
  | .dispatch p calls => calls.length = if p.kind.isNary then 0 else 1
  | _ => True

end Pending

structure Frame where
  offset : Nat
  pending : Pending

def Frame.opening (f : Frame) : Opening := ⟨f.offset, f.pending.opener⟩

/-- The brackets of a stack of frames. -/
def openings (fs : List Frame) : List Opening := fs.map Frame.opening

@[simp] theorem openings_nil : openings [] = [] := rfl

@[simp] theorem openings_cons (f : Frame) (fs : List Frame) :
    openings (f :: fs) = f.opening :: openings fs := rfl

@[simp] theorem openings_append (fs gs : List Frame) :
    openings (fs ++ gs) = openings fs ++ openings gs := List.map_append

/-! ### How many brackets are open -/

def Opener.depths : Opener → OpenDepths
  | .call => ⟨1, 0, 0⟩
  | .assign _ => ⟨0, 1, 0⟩
  | .dispatch kind => ⟨if kind.isNary then 0 else 1, 0, 1⟩
  | .loop _ => ⟨0, 0, 0⟩

/-- Loops are counted apart. -/
def Opener.loops : Opener → Nat
  | .loop _ => 1
  | _ => 0

def OpenDepths.add (a b : OpenDepths) : OpenDepths :=
  ⟨a.calls + b.calls, a.assigns + b.assigns, a.dispatches + b.dispatches⟩

/-- No more brackets of any kind are open. -/
def OpenDepths.Within (a b : OpenDepths) : Prop :=
  a.calls ≤ b.calls ∧ a.assigns ≤ b.assigns ∧ a.dispatches ≤ b.dispatches

theorem OpenDepths.min_of_within {a b : OpenDepths} (within : a.Within b) : a.min b = a := by
  obtain ⟨calls, assigns, dispatches⟩ := within
  rw [OpenDepths.min]
  congr 1
  · exact Nat.min_eq_left calls
  · exact Nat.min_eq_left assigns
  · exact Nat.min_eq_left dispatches

theorem OpenDepths.within_refl (a : OpenDepths) : a.Within a :=
  ⟨Nat.le_refl _, Nat.le_refl _, Nat.le_refl _⟩

def depthsOf : List Opening → OpenDepths
  | [] => ⟨0, 0, 0⟩
  | o :: rest => o.opener.depths.add (depthsOf rest)

theorem depthsOf_loop (k : Nat) (kind : LoopKind) (os : List Opening) :
    depthsOf (⟨k, .loop kind⟩ :: os) = depthsOf os := by
  simp [depthsOf, Opener.depths, OpenDepths.add]

theorem depthsOf_append_loop (xs ys : List Opening) (k : Nat) (kind : LoopKind) :
    depthsOf (xs ++ ⟨k, .loop kind⟩ :: ys) = depthsOf (xs ++ ys) := by
  induction xs with
  | nil => exact depthsOf_loop k kind ys
  | cons o xs ih => exact congrArg o.opener.depths.add ih

theorem depthsOf_within_append (xs ys : List Opening) :
    (depthsOf ys).Within (depthsOf (xs ++ ys)) := by
  induction xs with
  | nil => exact OpenDepths.within_refl _
  | cons o xs ih =>
      obtain ⟨calls, assigns, dispatches⟩ := ih
      exact ⟨Nat.le_trans calls (Nat.le_add_left _ _), Nat.le_trans assigns (Nat.le_add_left _ _),
        Nat.le_trans dispatches (Nat.le_add_left _ _)⟩

theorem depthsOf_within {os os' : List Opening} (inside : os <:+ os') :
    (depthsOf os).Within (depthsOf os') := by
  obtain ⟨xs, rfl⟩ := inside
  exact depthsOf_within_append xs os

/-! ### The stacks of a state -/

/-- A state holds what is pending for a stack of frames. Of assignments only their
number is recorded. -/
structure Matches (s : State) (fs : List Frame) : Prop where
  loops : s.loops = fs.flatMap (·.pending.loops)
  calls : s.calls = fs.flatMap (·.pending.calls)
  assigns : s.assigns.length = (depthsOf (openings fs)).assigns
  dispatches : s.dispatches = fs.flatMap (·.pending.dispatches)
  sized : ∀ f ∈ fs, f.pending.Sized

theorem Pending.Sized.length_calls {p : Pending} (sized : p.Sized) :
    p.calls.length = p.opener.depths.calls := by
  cases p with
  | call c => rfl
  | assign scope => rfl
  | loop l => rfl
  | dispatch p calls => exact sized

theorem Pending.length_dispatches (p : Pending) :
    p.dispatches.length = p.opener.depths.dispatches := by
  cases p <;> rfl

theorem Pending.length_loops (p : Pending) : p.loops.length = p.opener.loops := by
  cases p <;> rfl

theorem length_calls {fs : List Frame} (sized : ∀ f ∈ fs, f.pending.Sized) :
    (fs.flatMap (·.pending.calls)).length = (depthsOf (openings fs)).calls := by
  induction fs with
  | nil => rfl
  | cons f fs ih =>
      obtain ⟨first, others⟩ := List.forall_mem_cons.mp sized
      rw [List.flatMap_cons, List.length_append, ih others, first.length_calls]
      rfl

theorem length_dispatches (fs : List Frame) :
    (fs.flatMap (·.pending.dispatches)).length = (depthsOf (openings fs)).dispatches := by
  induction fs with
  | nil => rfl
  | cons f fs ih =>
      rw [List.flatMap_cons, List.length_append, ih, f.pending.length_dispatches]
      rfl

theorem Bracket.truncate_append {α : Type} (xs ys : List α) :
    Bracket.truncate ys.length (xs ++ ys) = ys := by
  rw [Bracket.truncate, List.length_append, Nat.add_sub_cancel, List.drop_left]

/-- No bracket of the frames is a loop. -/
def NoLoops (fs : List Frame) : Prop := ∀ f ∈ fs, f.pending.loops = []

theorem NoLoops.flatMap {fs : List Frame} (none : NoLoops fs) :
    fs.flatMap (·.pending.loops) = [] :=
  List.flatMap_eq_nil_iff.mpr none

theorem noLoops_nil : NoLoops [] := fun _ mem => absurd mem List.not_mem_nil

namespace Matches

variable {s s' : State} {fs inner outer : List Frame} {f : Frame}

theorem openDepths (holds : Matches s fs) : s.openDepths = depthsOf (openings fs) := by
  rw [State.openDepths, holds.assigns, holds.calls, holds.dispatches, length_calls holds.sized,
    length_dispatches]

theorem of_eq (holds : Matches s fs) (brackets : s'.brackets = s.brackets) : Matches s' fs := by
  obtain ⟨d, stack, loops, calls, assigns, dispatches, notes, live⟩ := s
  obtain ⟨d', stack', loops', calls', assigns', dispatches', notes', live'⟩ := s'
  cases brackets
  exact ⟨holds.loops, holds.calls, holds.assigns, holds.dispatches, holds.sized⟩

/-- Dropping what was opened since leaves the outer frames, provided no loop was. -/
theorem truncate (holds : Matches s (inner ++ outer)) (none : NoLoops inner) :
    Matches (s.truncateBrackets (depthsOf (openings outer))) outer := by
  have sized : ∀ f ∈ outer, f.pending.Sized := fun f mem =>
    holds.sized f (List.mem_append_right _ mem)
  refine ⟨?_, ?_, ?_, ?_, sized⟩
  · have loops := holds.loops
    rw [List.flatMap_append, none.flatMap] at loops
    exact loops
  · show Bracket.truncate _ s.calls = _
    rw [holds.calls, List.flatMap_append, ← length_calls sized, Bracket.truncate_append]
  · show (Bracket.truncate _ s.assigns).length = _
    rw [Bracket.length_truncate, holds.assigns, openings_append]
    exact Nat.min_eq_left (depthsOf_within_append _ _).2.1
  · show Bracket.truncate _ s.dispatches = _
    rw [holds.dispatches, List.flatMap_append, ← length_dispatches, Bracket.truncate_append]

/-- A loop and what was opened in it can be dropped. -/
theorem endLoop {l : LoopContext} {loops : List LoopContext} {k : Nat}
    (holds : Matches s (inner ++ ⟨k, .loop l⟩ :: outer)) (none : NoLoops inner)
    (top : s.loops = l :: loops) :
    Matches (State.truncateBrackets { s with loops } (depthsOf (openings outer))) outer := by
  have dropped : Matches { s with loops } (inner ++ outer) := by
    refine ⟨?_, ?_, ?_, ?_, fun f mem => holds.sized f ?_⟩
    · have all := holds.loops
      rw [top, List.flatMap_append, none.flatMap, List.flatMap_cons] at all
      rw [List.flatMap_append, none.flatMap]
      exact (List.cons.inj all).2
    · exact holds.calls.trans (by simp [Pending.calls])
    · refine holds.assigns.trans ?_
      rw [openings_append, openings_append]
      exact congrArg _ (depthsOf_append_loop _ _ k l.kind)
    · exact holds.dispatches.trans (by simp [Pending.dispatches])
    · exact (List.mem_append.mp mem).elim (List.mem_append_left _)
        (List.mem_append_right _ ∘ List.mem_cons_of_mem _)
  exact dropped.truncate none

/-- A bracket is opened. -/
theorem push (holds : Matches s fs) {p : Pending} (k : Nat) (loops : s'.loops = p.loops ++ s.loops)
    (calls : s'.calls = p.calls ++ s.calls)
    (assigns : s'.assigns.length = p.opener.depths.assigns + s.assigns.length)
    (dispatches : s'.dispatches = p.dispatches ++ s.dispatches) (sized : p.Sized) :
    Matches s' (⟨k, p⟩ :: fs) where
  loops := by rw [List.flatMap_cons, loops, holds.loops]
  calls := by rw [List.flatMap_cons, calls, holds.calls]
  assigns := by
    rw [assigns, holds.assigns]
    rfl
  dispatches := by rw [List.flatMap_cons, dispatches, holds.dispatches]
  sized := List.forall_mem_cons.mpr ⟨sized, holds.sized⟩

/-- The innermost bracket is closed. -/
theorem pop (holds : Matches s (f :: fs)) {loops : List LoopContext} {calls : List PendingCall}
    {dispatches : List PendingDispatch} (isLoops : s.loops = loops ++ s'.loops)
    (isCalls : s.calls = calls ++ s'.calls)
    (isAssigns : s.assigns.length = f.pending.opener.depths.assigns + s'.assigns.length)
    (isDispatches : s.dispatches = dispatches ++ s'.dispatches)
    (loopCount : loops.length = f.pending.opener.loops)
    (callCount : calls.length = f.pending.opener.depths.calls)
    (dispatchCount : dispatches.length = f.pending.opener.depths.dispatches) :
    Matches s' fs ∧ f.pending.calls = calls ∧ f.pending.dispatches = dispatches := by
  obtain ⟨sized, others⟩ := List.forall_mem_cons.mp holds.sized
  have allLoops := isLoops.symm.trans holds.loops
  have allCalls := isCalls.symm.trans holds.calls
  have allDispatches := isDispatches.symm.trans holds.dispatches
  obtain ⟨-, isLoops⟩ := List.append_inj allLoops (loopCount.trans f.pending.length_loops.symm)
  obtain ⟨first, isCalls⟩ := List.append_inj allCalls (callCount.trans sized.length_calls.symm)
  obtain ⟨top, isDispatches⟩ :=
    List.append_inj allDispatches (dispatchCount.trans f.pending.length_dispatches.symm)
  refine ⟨⟨isLoops, isCalls, ?_, isDispatches, others⟩, first.symm, top.symm⟩
  have all : s.assigns.length =
      f.pending.opener.depths.assigns + (depthsOf (openings fs)).assigns := holds.assigns
  omega

/-- The innermost loop of a state is the innermost frame that is one. -/
theorem exists_loop {l : LoopContext} {loops : List LoopContext} (holds : Matches s fs)
    (top : s.loops = l :: loops) :
    ∃ inner k outer, fs = inner ++ ⟨k, .loop l⟩ :: outer ∧ NoLoops inner := by
  have all := holds.loops.symm.trans top
  clear holds top
  induction fs with
  | nil => cases all
  | cons f fs ih =>
      rw [List.flatMap_cons] at all
      obtain ⟨k, pending⟩ := f
      have step : pending.loops = [] → ∃ inner k' outer,
          (⟨k, pending⟩ : Frame) :: fs = inner ++ ⟨k', .loop l⟩ :: outer ∧ NoLoops inner := by
        intro none
        rw [none, List.nil_append] at all
        obtain ⟨inner, k', outer, rfl, noLoops⟩ := ih all
        exact ⟨⟨k, pending⟩ :: inner, k', outer, rfl, List.forall_mem_cons.mpr ⟨none, noLoops⟩⟩
      cases pending with
      | call c => exact step rfl
      | assign scope => exact step rfl
      | dispatch p calls => exact step rfl
      | loop l' =>
          obtain ⟨rfl, -⟩ := List.cons.inj all
          exact ⟨[], k, fs, rfl, noLoops_nil⟩

theorem loops_eq {l l' : LoopContext} {loops : List LoopContext} {k : Nat}
    (holds : Matches s (inner ++ ⟨k, .loop l⟩ :: outer)) (none : NoLoops inner)
    (top : s.loops = l' :: loops) : l = l' := by
  have all := holds.loops
  rw [top, List.flatMap_append, none.flatMap, List.flatMap_cons] at all
  exact (List.cons.inj all).1.symm

end Matches

end StackLift
