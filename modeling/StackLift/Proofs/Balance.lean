import StackLift.Proofs.Dominance
import StackLift.Proofs.Lower.Faults
import StackLift.Proofs.Nesting.Run

/-!
The check for open brackets at the end of the code. Skipped code closes no bracket but a
loop, so what is open where the pass last lowered an instruction stays open up to the
check, unless a loop around it ends. The code is balanced and the check fails just when
that instruction stands inside a call, an assignment or a dispatch that no loop is around.
-/

namespace StackLift

open Lowering

/-- The pass gets to the end of the code, in a state that is still to be checked. -/
def CodeUnit.Finishes (unit : CodeUnit) (pool : Pool) (kind : UnitKind) (final : State) : Prop :=
  ∃ labels draft, LabelMap.resolve unit pool (.new unit.displayName) = .ok labels draft ∧
    Lowering.run ⟨pool, labels, kind⟩ 0 unit.instructions { draft } = .ok final

/-- The last instruction that the pass lowers; all code after it is skipped. -/
structure CodeUnit.LastLowered (unit : CodeUnit) (pool : Pool) (kind : UnitKind) (p : Nat) :
    Prop where
  lowers : ∃ i s, unit.Lowers pool kind p i s
  last : ∀ q i s, p < q → ¬unit.Lowers pool kind q i s

/-- The outermost of some brackets is a call, an assignment or a dispatch. -/
def OutermostNotLoop (os : List Opening) : Prop := ∃ o, os.getLast? = some o ∧ o.opener.loops = 0

/-! ### The check -/

theorem CodeUnit.compile_stillOpen {unit : CodeUnit} {pool : Pool} {options : Options} :
    (∃ location bracket n,
        unit.compile pool options = .error ⟨location, .unbalanced (.stillOpen bracket n)⟩) ↔
      ∃ final, unit.Finishes pool options.unitKind final ∧ final.stillOpen?.isSome := by
  have compiles : ∀ e, unit.compile pool options = .error e ↔
      unit.lower pool options.unitKind = .error e := by
    intro e
    rw [CodeUnit.compile]
    cases unit.lower pool options.unitKind <;> simp [Except.map]
  simp only [compiles, CodeUnit.lower]
  constructor
  · rintro ⟨location, bracket, n, h⟩
    split at h
    · next offset fault draft failed =>
        cases h
        cases LabelMap.goes_resolve failed
    · next labels draft resolve =>
        split at h
        · next e failed =>
            cases h
            cases goes_run _ failed
        · next final run =>
            refine ⟨final, ⟨labels, draft, resolve, run⟩, ?_⟩
            rw [State.endFault?] at h
            cases found : final.stillOpen? with
            | some b => rfl
            | none =>
                rw [found] at h
                simp only at h
                split at h
                · next fault fails =>
                    cases h
                    split at fails
                    · cases fails
                    · obtain ⟨b, -, other⟩ := Option.map_eq_some_iff.mp fails
                      cases other
                · cases h
  · rintro ⟨final, ⟨labels, draft, resolve, run⟩, found⟩
    obtain ⟨⟨bracket, n⟩, found⟩ := Option.isSome_iff_exists.mp found
    have fault : final.endFault? = some (.unbalanced (.stillOpen bracket n)) := by
      rw [State.endFault?, found]
    refine ⟨final.locate unit.size, bracket, n, ?_⟩
    rw [resolve]
    simp only
    rw [run]
    simp only
    rw [fault]

/-- The check finds every frame. -/
theorem Matches.isSome_stillOpen {s : State} {fs : List Frame} (holds : Matches s fs) :
    s.stillOpen?.isSome ↔ fs ≠ [] := by
  rw [State.stillOpen?, List.find?_isSome]
  constructor
  · rintro ⟨⟨bracket, n⟩, mem, positive⟩ rfl
    simp [holds.loops, holds.calls, holds.assigns, holds.dispatches, depthsOf] at mem
    obtain ⟨-, rfl⟩ | ⟨-, rfl⟩ | ⟨-, rfl⟩ | ⟨-, rfl⟩ := mem <;> cases positive
  · intro some
    obtain ⟨⟨k, pending⟩, fs, rfl⟩ := List.exists_cons_of_ne_nil some
    cases pending with
    | call c => exact ⟨(.call, s.calls.length), by simp, by simp [holds.calls, Pending.calls]⟩
    | loop l => exact ⟨(.loop, s.loops.length), by simp, by simp [holds.loops, Pending.loops]⟩
    | dispatch p calls =>
        exact ⟨(.dispatch, s.dispatches.length), by simp,
          by simp [holds.dispatches, Pending.dispatches]⟩
    | assign scope =>
        refine ⟨(.assign, s.assigns.length), by simp, ?_⟩
        rw [holds.assigns, openings_cons, depthsOf]
        exact decide_eq_true (Nat.lt_of_lt_of_le Nat.one_pos (Nat.le_add_right 1 _))

/-! ### What skipped code leaves open -/

/-- Of the brackets that were open the outer ones are left, and the outermost is one of them
unless it is a loop. -/
structure Remains (here : List Opening) (fs : List Frame) : Prop where
  outer : openings fs <:+ here
  nonempty : OutermostNotLoop here → fs ≠ []

theorem remains_openings (fs : List Frame) : Remains (openings fs) fs where
  outer := List.suffix_refl _
  nonempty := by
    rintro ⟨o, last, -⟩ rfl
    cases last

theorem getLast?_of_suffix {here os : List Opening} (outer : os <:+ here) (nonempty : os ≠ []) :
    here.getLast? = os.getLast? := by
  obtain ⟨inner, rfl⟩ := outer
  rw [List.getLast?_append, List.getLast?_eq_some_getLast nonempty, Option.some_or]

theorem Remains.drops {here : List Opening} {fs fs' : List Frame} (remains : Remains here fs)
    (drops : Nests.Drops fs fs') : Remains here fs' := by
  cases drops with
  | none => exact remains
  | @loop inner outer o l =>
      have whole := remains.outer
      rw [openings_append] at whole
      refine ⟨(List.suffix_cons _ _).trans ((List.suffix_append _ _).trans whole), ?_⟩
      rintro ⟨o', last, notLoop⟩ rfl
      -- the loop that ends was the outermost bracket
      rw [getLast?_of_suffix whole (by simp)] at last
      simp only [openings_cons, openings_nil, List.getLast?_concat, Option.some.injEq] at last
      subst last
      cases notLoop

/-- Where no loop is open, something is left just when the outermost bracket was no loop. -/
theorem Remains.ne_nil_iff {here : List Opening} {fs : List Frame} (remains : Remains here fs)
    (noLoops : NoLoops fs) : fs ≠ [] ↔ OutermostNotLoop here := by
  refine ⟨fun nonempty => ?_, remains.nonempty⟩
  have last := getLast?_of_suffix remains.outer (by simpa [openings] using nonempty)
  rw [openings, List.getLast?_map, List.getLast?_eq_some_getLast nonempty] at last
  refine ⟨_, last, ?_⟩
  have none := noLoops _ (List.getLast_mem nonempty)
  rw [Frame.opening, ← Pending.length_loops, none]
  rfl

/-! ### The pass -/

/-- The frames before an offset are left from the last instruction that was lowered. -/
inductive LeftOver (ctx : Context) (code : List Instruction) (start : State) (k : Nat) :
    List Frame → Prop
  | nothing (skipped : ∀ q i a, q < k → ¬Visits ctx code start q i a) : LeftOver ctx code start k []
  | since {p : Nat} {i : Instruction} {a : State} {here : List Opening} {fs : List Frame}
      (visits : Visits ctx code start p i a)
      (skipped : ∀ q i a, p < q → q < k → ¬Visits ctx code start q i a)
      (nested : nesting code (p + 1) = some here) (remains : Remains here fs) :
      LeftOver ctx code start k fs

/-- A skipped instruction leaves what it finds, but for a loop that ends. -/
theorem LeftOver.skip {ctx : Context} {code : List Instruction} {start : State} {k : Nat}
    {fs fs' : List Frame} (left : LeftOver ctx code start k fs) (drops : Nests.Drops fs fs')
    (skipped : ∀ i a, ¬Visits ctx code start k i a) : LeftOver ctx code start (k + 1) fs' := by
  have earlier {q : Nat} {i : Instruction} {a : State} (visits : Visits ctx code start q i a)
      (lt : q < k + 1) : q < k := by
    refine Nat.lt_of_le_of_ne (Nat.le_of_lt_succ lt) ?_
    rintro rfl
    exact skipped i a visits
  cases left with
  | nothing before =>
      generalize none : [] = fs at drops
      cases drops with
      | none =>
          cases none
          exact .nothing fun q i a lt visits => before q i a (earlier visits lt) visits
      | loop => simp at none
  | since visits before nested remains =>
      exact .since visits (fun q i a gt lt visits => before q i a gt (earlier visits lt) visits)
        nested (remains.drops drops)

section

variable {unit : CodeUnit} {pool : Pool} {kind : UnitKind} {labels : LabelMap} {draft : Draft}
  (start : unit.Start pool kind labels draft) (nested : unit.Nested pool)

include start nested

theorem leftOver_before {k : Nat} {s : State} (le : k ≤ unit.size)
    (before : Before ⟨pool, labels, kind⟩ unit.instructions { draft } k s) :
    ∃ fs, Nests unit ⟨pool, labels, kind⟩ { draft } k k s fs ∧
      LeftOver ⟨pool, labels, kind⟩ unit.instructions { draft } k fs := by
  refine run_induction (P := fun k s => ∃ fs, Nests unit ⟨pool, labels, kind⟩ { draft } k k s fs ∧
      LeftOver ⟨pool, labels, kind⟩ unit.instructions { draft } k fs) ?_ ?_ le before
  · exact ⟨[], nests_start start, .nothing fun q _ _ lt => absurd lt (Nat.not_lt_zero q)⟩
  · intro k i s s' get before ⟨fs, nests, left⟩ h
    obtain ⟨a, fs', arrives, stepped⟩ := nests.step start nested get before h
    refine ⟨fs', stepped.next, ?_⟩
    cases live : a.live with
    | true =>
        exact .since ⟨get, ⟨s, before, arrives⟩, live⟩
          (fun q _ _ gt lt => absurd gt (Nat.not_lt_of_le (Nat.le_of_lt_succ lt)))
          (stepped.lowered live) (remains_openings fs')
    | false =>
        obtain ⟨fs₁, -, same⟩ := stepped.arrived
        obtain ⟨-, drops⟩ := same live
        refine left.skip drops fun i' a' visits => ?_
        have reached := visits.arrival?
        rw [arrival?_eq_some.mpr ⟨_, before, arrives⟩] at reached
        cases reached
        cases live.symm.trans visits.live

omit start in
/-- No loop is left at the end of nested code. -/
theorem Nests.noLoops_final {ctx : Context} {s₀ final : State} {ahead : Nat} {fs : List Frame}
    (nests : Nests unit ctx s₀ unit.size ahead final fs) : NoLoops fs := by
  obtain ⟨here, inner, outer, at_end, rfl, noLoops, inside⟩ := nests.loose
  rw [nested.balanced] at at_end
  cases at_end
  cases outer with
  | nil => rwa [List.append_nil]
  | cons f outer => simp at inside

/-- At the end of nested code only brackets that are no loops can be left. -/
theorem leftOver_final {final : State}
    (run : Lowering.run ⟨pool, labels, kind⟩ 0 unit.instructions { draft } = .ok final) :
    ∃ fs, Matches final fs ∧ NoLoops fs ∧
      LeftOver ⟨pool, labels, kind⟩ unit.instructions { draft } unit.size fs := by
  have before : Before ⟨pool, labels, kind⟩ unit.instructions { draft } unit.size final := by
    rw [Before, CodeUnit.size, List.take_length]
    exact run
  obtain ⟨fs, nests, left⟩ := leftOver_before start nested (Nat.le_refl _) before
  exact ⟨fs, nests.holds, nests.noLoops_final nested, left⟩

end

theorem CodeUnit.lowers_iff {unit : CodeUnit} {pool : Pool} {kind : UnitKind} {labels : LabelMap}
    {draft : Draft} (resolve : LabelMap.resolve unit pool (.new unit.displayName) = .ok labels draft)
    {k : Nat} {i : Instruction} {s : State} :
    unit.Lowers pool kind k i s ↔
      Visits ⟨pool, labels, kind⟩ unit.instructions { draft } k i s := by
  refine ⟨?_, fun visits => ⟨labels, draft, resolve, visits⟩⟩
  rintro ⟨labels', draft', resolve', visits⟩
  rw [resolve] at resolve'
  cases resolve'
  exact visits

/-- In nested code the check at the end of the code fails just when the last instruction
that was lowered stands in a call, an assignment or a dispatch that no loop is around. -/
theorem stillOpen_iff_of_nested {unit : CodeUnit} {pool : Pool} (options : Options)
    (nested : unit.Nested pool) :
    (∃ location bracket n,
        unit.compile pool options = .error ⟨location, .unbalanced (.stillOpen bracket n)⟩) ↔
      (∃ final, unit.Finishes pool options.unitKind final) ∧
        ∃ p here, unit.LastLowered pool options.unitKind p ∧
          nesting unit.instructions (p + 1) = some here ∧ OutermostNotLoop here := by
  rw [CodeUnit.compile_stillOpen]
  constructor
  · rintro ⟨final, ⟨labels, draft, resolve, run⟩, found⟩
    obtain ⟨fs, holds, noLoops, left⟩ := leftOver_final (CodeUnit.start_of_resolve _ resolve) nested run
    have nonempty := holds.isSome_stillOpen.mp found
    refine ⟨⟨final, labels, draft, resolve, run⟩, ?_⟩
    cases left with
    | nothing => exact absurd rfl nonempty
    | since visits skipped here remains =>
        refine ⟨_, _, ⟨⟨_, _, (CodeUnit.lowers_iff resolve).mpr visits⟩, fun q i a gt lowers => ?_⟩,
          here, (remains.ne_nil_iff noLoops).mp nonempty⟩
        have visits' := (CodeUnit.lowers_iff resolve).mp lowers
        exact skipped q i a gt (List.getElem?_eq_some_iff.mp visits'.get).1 visits'
  · rintro ⟨⟨final, labels, draft, resolve, run⟩, p, here, ⟨⟨i, a, lowers⟩, last⟩, at_p, notLoop⟩
    obtain ⟨fs, holds, noLoops, left⟩ := leftOver_final (CodeUnit.start_of_resolve _ resolve) nested run
    refine ⟨final, ⟨labels, draft, resolve, run⟩, holds.isSome_stillOpen.mpr ?_⟩
    have visits := (CodeUnit.lowers_iff resolve).mp lowers
    have lt := (List.getElem?_eq_some_iff.mp visits.get).1
    cases left with
    | nothing skipped => exact absurd visits (skipped p i a lt)
    | @since p' i' a' here' _ visits' skipped at_p' remains =>
        -- both are the last instruction lowered
        rcases Nat.lt_trichotomy p p' with gt | rfl | gt
        · exact absurd ((CodeUnit.lowers_iff resolve).mpr visits') (last p' i' a' gt)
        · rw [at_p] at at_p'
          cases at_p'
          exact remains.nonempty notLoop
        · exact absurd visits (skipped p i a gt lt)

/-- The function returns while the argument of a call is computed. -/
def returnInArgument : CodeUnit where
  name := none
  instructions := [.getFun .lexical ⟨1⟩, .load .null, .ret, .pushArg, .finishCall false ⟨0⟩, .ret]
  labels := []

def returnInArgumentPool : Pool := ⟨[.expr (.call (.symbol "f") []), .symbol "f"]⟩

theorem returnInArgument_fails : returnInArgument.compile returnInArgumentPool {} =
    .error ⟨⟨6, ⟨0⟩, 2⟩, .unbalanced (.stillOpen .call 1)⟩ :=
  eq_error_of_error? (by decide +kernel)

/-- The call is around the last instruction that is lowered. -/
theorem returnInArgument_lastLowered : returnInArgument.Nested returnInArgumentPool ∧
    ∃ p here, returnInArgument.LastLowered returnInArgumentPool .function p ∧
      nesting returnInArgument.instructions (p + 1) = some here ∧ OutermostNotLoop here := by
  have nested : returnInArgument.Nested returnInArgumentPool := by decide +kernel
  exact ⟨nested, ((stillOpen_iff_of_nested {} nested).mp ⟨_, _, _, returnInArgument_fails⟩).2⟩

/-- Every bracket is closed in the code, but the instruction that closes the call is skipped. -/
theorem returnInArgument_stillOpen : returnInArgument.Balanced ∧ ∃ location,
    returnInArgument.compile returnInArgumentPool {} =
      .error ⟨location, .unbalanced (.stillOpen .call 1)⟩ :=
  ⟨by decide +kernel, _, returnInArgument_fails⟩

end StackLift
