import StackLift.Proofs.Balance
import StackLift.Proofs.Structured.Typing

/-!
The pass over a unit whose instructions are all admitted. One instruction takes the pass from
`LevelBefore` to `LevelBefore` at the next offset, so the pass comes to the end. There, every
block that an edge leads to has its end.
-/

namespace StackLift

open Lowering

/-- After an argument was added, the innermost call has one. -/
theorem Lowering.args_before {ctx : Context} {code : List Instruction} {start s : State} {m : Nat}
    (arg : code[m]? = some .pushArg) (before : Before ctx code start (m + 1) s)
    (live : s.live = true) : ∃ c rest, s.calls = c :: rest ∧ c.args ≠ [] := by
  obtain ⟨s₀, -, step⟩ := (before_succ arg).mp before
  obtain ⟨a, -, ⟨-, t, lowered, rfl⟩ | ⟨dead, skipped⟩⟩ := step_eq_ok.mp step
  · exact args_of_addPopped lowered
  · cases skipped
    cases live.symm.trans dead

namespace CodeUnit

variable {unit : CodeUnit} {pool : Pool} {kind : UnitKind} {labels : LabelMap} {draft : Draft}
  {depth : Nat → Nat} {k : Nat} {i : Instruction} {s a : State}
  (start : unit.Start pool kind labels draft) (typed : unit.Typed pool depth)

include start typed

section

variable (visits : Visits ⟨pool, labels, kind⟩ unit.instructions { draft } k i a)
  (level : LevelAt ⟨pool, labels, kind⟩ unit.instructions { draft } depth k a)
  (unnamed : ∀ symbol, i = .setTag symbol → labels.blockAt? k = none)

include visits level unnamed

theorem Typed.passes : Passes ⟨pool, labels, kind⟩ unit.instructions { draft } depth k i a := by
  have inv := start.inv_of_visits visits
  have nested := typed.nested
  have length := level.here visits.live
  have isOpen : a.draft.Open := inv.phase
  cases typed.admits k i visits.get with
  | core core routine here edges back =>
      exact passes_core start visits nested level core routine here edges back
  | getFun name next =>
      exact level.passes_of_stays inv rfl (yields_startCall isOpen visits.live _ name)
        (length.trans next.symm)
  | getBuiltin name next =>
      exact level.passes_of_stays inv rfl (yields_startBuiltin visits.live name)
        (length.trans next.symm)
  | pushArg inCall next =>
      obtain ⟨c, rest, calls⟩ := inCall.exists_call start visits nested
      exact level.passes_of_stays inv rfl
        (yields_addPopped visits.live calls (length.trans next)) rfl
  | setTag name inCall next after arg =>
      subst after
      obtain ⟨s, before, arrives⟩ := visits.arrives
      -- no label stands here, so the argument was added just before
      obtain rfl : a = s := by
        rw [arrive, unnamed _ rfl] at arrives
        cases arrives
        rfl
      obtain ⟨c, rest, calls, args⟩ := args_before arg before visits.live
      exact level.passes_of_stays inv rfl (yields_nameLastArg visits.live calls args name)
        (length.trans next.symm)
  | finishCall site inCall next =>
      obtain ⟨c, rest, calls⟩ := inCall.exists_call start visits nested
      refine level.passes_of_stays inv rfl (yields_finishCall isOpen visits.live calls site) ?_
      rw [length, next]
  | startLoop bound next atEnd =>
      exact passes_opens start visits nested level (.startLoop bound next atEnd)
        ⟨_, _, visits.get, rfl, rfl, bound⟩
  | startFor site name bound next atEnd =>
      exact passes_opens start visits nested level (.startFor site name bound next atEnd)
        ⟨_, _, visits.get, rfl, rfl, bound⟩
  | stepFor loop here => exact passes_stepFor start visits nested level rfl loop here
  | endLoop loop next => exact passes_endLoop start visits nested level rfl loop next
  | leaveLoop loop here => exact passes_leaveLoop start visits nested level rfl loop here

end

omit typed in
/-- Skipped code changes only the brackets. -/
theorem Start.exists_skip (nested : unit.Nested pool) (get : unit.instructions[k]? = some i)
    (arrived : Arrived ⟨pool, labels, kind⟩ s.draft k a) (dead : a.live = false)
    (level : LevelAt ⟨pool, labels, kind⟩ unit.instructions { draft } depth k a) :
    ∃ t, skip ⟨pool, labels, kind⟩ k i a = .ok () t ∧
      LevelBefore ⟨pool, labels, kind⟩ unit.instructions { draft } depth (k + 1) t := by
  obtain ⟨t, skipped, sameDraft, sameLive, loops⟩ : ∃ t, skip ⟨pool, labels, kind⟩ k i a = .ok () t ∧
      t.draft = a.draft ∧ t.live = a.live ∧ t.loops <:+ a.loops := by
    rw [skip.eq_def]
    split
    · next kind' =>
        refine exists_endDeadLoop fun l rest loops here => ?_
        -- the loop that ends here is closed as what it is
        obtain ⟨o, e, opened⟩ := level.loops l (loops ▸ List.mem_cons_self)
        obtain rfl := start.resolves.distinct here opened.ends
        obtain ⟨-, i', -, get', closes, -⟩ := (opened.endsAt start).nesting_end nested
        cases get.symm.trans get'
        cases closes
        rfl
    · exact ⟨a, rfl, rfl, rfl, List.suffix_refl _⟩
  refine ⟨t, skipped, ?_⟩
  cases arrived with
  | live live _ => cases live.symm.trans dead
  | dead _ inv =>
      exact {
        shaped := by
          rw [sameDraft]
          exact level.shaped
        loops := by
          rw [sameDraft]
          exact fun l mem => level.loops l (loops.subset mem)
        tidy := by
          rw [sameDraft]
          exact level.tidy
        here := fun live => by cases (live.symm.trans sameLive).trans dead
        fresh := by
          rw [sameDraft]
          exact fun named => absurd rfl (inv.aside ⟨_, Nat.le_refl _, named⟩).2 }

section

variable (unnamed : ∀ j symbol, unit.instructions[j]? = some (.setTag symbol) →
  labels.blockAt? j = none)

include unnamed

theorem Typed.exists_step (get : unit.instructions[k]? = some i)
    (before : Before ⟨pool, labels, kind⟩ unit.instructions { draft } k s)
    (level : LevelBefore ⟨pool, labels, kind⟩ unit.instructions { draft } depth k s) :
    ∃ s', step ⟨pool, labels, kind⟩ k i s = .ok () s' ∧
      LevelBefore ⟨pool, labels, kind⟩ unit.instructions { draft } depth (k + 1) s' := by
  have distinct : labels.Distinct := start.resolves.distinct
  have between := between_before distinct start.between
    (Nat.le_of_lt (List.getElem?_eq_some_iff.mp get).1) before
  obtain ⟨a, arrives⟩ := between.exists_arrive fun b phis named live shape =>
    (level.shaped named shape).1.trans (level.here live).symm
  have arrived := level.arrive distinct between (between.comes arrives)
    (visited_iff get before arrives)
  cases live : a.live with
  | true =>
      obtain ⟨t, lowered, next⟩ := typed.passes start ⟨get, ⟨s, before, arrives⟩, live⟩ arrived
        fun symbol isTag => unnamed k symbol (isTag ▸ get)
      exact ⟨_, step_eq_ok.mpr ⟨a, arrives, Or.inl ⟨live, t, lowered, rfl⟩⟩, next⟩
  | false =>
      obtain ⟨t, skipped, next⟩ := start.exists_skip typed.nested get
        (between.arrive distinct arrives) live arrived
      exact ⟨t, step_eq_ok.mpr ⟨a, arrives, Or.inr ⟨live, skipped⟩⟩, next⟩

/-- The pass comes to every offset. -/
theorem Typed.exists_before (le : k ≤ unit.size) :
    ∃ s, Before ⟨pool, labels, kind⟩ unit.instructions { draft } k s ∧
      LevelBefore ⟨pool, labels, kind⟩ unit.instructions { draft } depth k s := by
  induction k with
  | zero =>
      refine ⟨{ draft }, rfl, ⟨?_, fun l mem => absurd mem List.not_mem_nil,
        (start.coreState _).tidy⟩, fun _ => typed.start.symm, fun named => ?_⟩
      · intro j b phis named shape
        rw [start.bare.shape (start.inv.aside ⟨j, named⟩).2] at shape
        cases shape
      · exact absurd rfl (start.inv.aside ⟨0, named⟩).2
  | succ k ih =>
      obtain ⟨s, before, level⟩ := ih (Nat.le_of_succ_le le)
      have get : unit.instructions[k]? = some _ := List.getElem?_eq_getElem le
      obtain ⟨s', step, level'⟩ := typed.exists_step start unnamed get before level
      exact ⟨s', (before_succ get).mpr ⟨s, before, step⟩, level'⟩

end

/-! ### The end of the code -/

omit typed in
/-- The pass has come to every label that an edge leads to. -/
theorem Start.neverReached (dead : s.live = false)
    (before : Before ⟨pool, labels, kind⟩ unit.instructions { draft } unit.size s)
    (level : LevelBefore ⟨pool, labels, kind⟩ unit.instructions { draft } depth unit.size s) :
    s.neverReached? = none := by
  have between := between_before start.resolves.distinct start.between (Nat.le_refl _) before
  cases between with
  | live live _ => cases live.symm.trans dead
  | dead _ inv =>
      have ended : ∀ b block, s.draft.graph.block? b = some block → block.preds ≠ [] →
          s.draft.HasEnd b := by
        intro b block live linked
        rcases level.tidy b (Option.isSome_iff_exists.mpr ⟨block, live⟩) with rfl | ended |
          ⟨j, named, not⟩
        · exact inv.phase
        · exact ended
        · have lt := start.resolves.within named
          cases shape : s.draft.shape? b with
          | none =>
              have merge := (inv.plain_label ⟨j, named⟩).merge.notDirect
              exact absurd (inv.sound.unshaped live merge shape) linked
          | some phis =>
              rcases (level.shaped named shape).2 with later | visited
              · exact absurd lt (Nat.not_lt_of_le later)
              · exact absurd ⟨lt, visited⟩ not
      rw [State.neverReached?, Option.map_eq_none_iff, List.find?_eq_none]
      rintro ⟨b, block⟩ mem found
      have live := Graph.mem_liveBlocks.mp mem
      simp only [Bool.and_eq_true, Bool.not_eq_true', List.isEmpty_eq_false_iff,
        Option.isNone_iff_eq_none] at found
      obtain ⟨block', live', some⟩ := ended b block live found.1
      cases live.symm.trans live'
      rw [found.2] at some
      cases some

end CodeUnit

end StackLift
