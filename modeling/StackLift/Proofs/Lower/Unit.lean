import StackLift.Proofs.Lower.Labels

/-!
The graph that the pass leaves. At the end of a unit the block under construction
has its end and no brackets are open, so the draft is a finished graph: its edges
are recorded at both ends, and control does not run into a block without an end.
-/

namespace StackLift

open Lowering

/-- A pass over a unit that succeeds: the labels and the draft it starts with, and
the state it ends in. -/
structure CodeUnit.Pass (unit : CodeUnit) (pool : Pool) (kind : UnitKind) (labels : LabelMap)
    (draft : Draft) (final : State) : Prop where
  resolve : LabelMap.resolve unit pool (.new unit.displayName) = .ok labels draft
  run : Lowering.run ⟨pool, labels, kind⟩ 0 unit.instructions { draft } = .ok final
  complete : final.endFault? = none

theorem CodeUnit.lower_eq_ok {unit : CodeUnit} {pool : Pool} {kind : UnitKind} {g : Graph} :
    unit.lower pool kind = .ok g ↔
      ∃ labels draft final, unit.Pass pool kind labels draft final ∧ g = final.draft.graph := by
  rw [CodeUnit.lower]
  constructor
  · intro h
    split at h
    case h_1 => cases h
    case h_2 labels draft resolve =>
      split at h
      case h_1 => cases h
      case h_2 final run =>
        split at h
        case h_1 => cases h
        case h_2 complete =>
          cases h
          exact ⟨labels, draft, final, ⟨resolve, run, complete⟩, rfl⟩
  · rintro ⟨labels, draft, final, pass, rfl⟩
    rw [pass.resolve]
    simp only
    rw [pass.run]
    simp only
    rw [pass.complete]

theorem CodeUnit.compile_eq_ok {unit : CodeUnit} {pool : Pool} {options : Options} {g : Graph} :
    unit.compile pool options = .ok g ↔
      ∃ raw, unit.lower pool options.unitKind = .ok raw ∧ g = options.cleanup raw := by
  rw [CodeUnit.compile]
  cases unit.lower pool options.unitKind with
  | error e => simp [Except.map]
  | ok raw => simp [Except.map, eq_comm]

/-- A result that was computed, with what was checked of it. -/
theorem exists_ok_of_toOption {ε α : Type} {x : Except ε α} {P : α → Prop}
    (h : ∃ a ∈ x.toOption, P a) : ∃ a, x = .ok a ∧ P a := by
  obtain ⟨a, mem, holds⟩ := h
  cases x with
  | error e => cases mem
  | ok b =>
      cases mem
      exact ⟨a, rfl, holds⟩

/-- The error of a result that was computed. -/
def Except.error? {ε α : Type} : Except ε α → Option ε
  | .error e => some e
  | .ok _ => none

theorem eq_error_of_error? {ε α : Type} {x : Except ε α} {e : ε} (h : Except.error? x = some e) :
    x = .error e := by
  cases x with
  | error e' =>
      cases h
      rfl
  | ok a => cases h

namespace CodeUnit.Pass

variable {unit : CodeUnit} {pool : Pool} {kind : UnitKind} {labels : LabelMap} {draft : Draft}
  {final : State} (pass : unit.Pass pool kind labels draft final)

include pass

theorem start : unit.Start pool kind labels draft := start_of_resolve kind pass.resolve

theorem between {offset : Nat} {s : State} (le : offset ≤ unit.size)
    (before : Before ⟨pool, labels, kind⟩ unit.instructions { draft } offset s) :
    Between ⟨pool, labels, kind⟩ offset s :=
  between_before pass.start.resolves.distinct pass.start.between le before

theorem before_final : Before ⟨pool, labels, kind⟩ unit.instructions { draft } unit.size final := by
  rw [Before, CodeUnit.size, List.take_length]
  exact pass.run

/-- What lowering one instruction does, as seen from the end of the pass. -/
theorem lowered {offset : Nat} {i : Instruction} {s : State}
    (visits : Visits ⟨pool, labels, kind⟩ unit.instructions { draft } offset i s) :
    ∃ s', Inv ⟨pool, labels, kind⟩ .nothing s.draft
        (Context.Ahead ⟨pool, labels, kind⟩ (offset + 1)) .running [] s ∧
      Stepped i s s' ∧ s'.draft.Sound ∧ s.draft.Grows final.draft ∧
      s'.draft.Grows final.draft := by
  obtain ⟨get, ⟨before, hbefore, arrived⟩, live⟩ := visits
  have lt := (List.getElem?_eq_some_iff.mp get).1
  obtain ⟨t, after⟩ := exists_before pass.run (offset + 1)
  obtain ⟨before', hbefore', step⟩ := (before_succ get).mp after
  cases hbefore.unique hbefore'
  obtain ⟨a, arrived', inside, stepped, between⟩ :=
    (pass.between (Nat.le_of_lt lt) hbefore).step pass.start.resolves.distinct step
  rw [arrived] at arrived'
  cases arrived'
  have grows := grows_before pass.start.resolves.distinct pass.start.between lt (Nat.le_refl _)
    after pass.before_final
  have inv := inside.inv live
  exact ⟨t, inv.rebase, stepped, between.sound, (stepped.grows inv.sound).trans grows, grows⟩

theorem dead : final.live = false := by
  have complete := pass.complete
  rw [State.endFault?] at complete
  split at complete
  · cases complete
  · split at complete
    · cases complete
    · rename_i notLive
      simpa using notLive

theorem neverReached : final.neverReached? = none := by
  have complete := pass.complete
  rw [State.endFault?] at complete
  split at complete
  · cases complete
  · split at complete
    · cases complete
    · simpa using complete

theorem sound : final.draft.Sound ∧ final.draft.HasEnd final.draft.cursor := by
  cases pass.between (Nat.le_refl _) pass.before_final with
  | dead _ inv => exact ⟨inv.sound, inv.phase⟩
  | live live _ =>
      rw [pass.dead] at live
      cases live

theorem reached : final.draft.Reached := by
  cases pass.between (Nat.le_refl _) pass.before_final with
  | dead _ inv => exact inv.reached
  | live live _ =>
      rw [pass.dead] at live
      cases live

/-- What every act of the pass keeps holds of the draft at the end. -/
theorem draft_induction {P : Draft → Prop} (first : P draft)
    (next : ∀ {carry : Carry} {d d' : Draft}, Draft.Act carry d d' → d.Sound → P d → P d') :
    P final.draft := by
  have all : ∀ {carry : Carry} {d d' : Draft}, Draft.Acts carry d d' → d.Sound → P d → P d' := by
    intro carry d d' acts sound holds
    induction acts with
    | refl => exact holds
    | step acts act ih => exact next act (acts.sound sound) ih
  refine run_induction (P := fun _ s => P s.draft) first ?_ (Nat.le_refl _) pass.before_final
  intro offset i s s' get before holds h
  have between := pass.between (Nat.le_of_lt (List.getElem?_eq_some_iff.mp get).1) before
  obtain ⟨a, -, arrived, stepped, -⟩ := between.step pass.start.resolves.distinct h
  obtain ⟨sound, acts⟩ := arrived.acts
  have holds := all acts between.sound holds
  cases stepped with
  | lowered _ acts _ => exact all acts sound holds
  | skipped _ same => exact same ▸ holds

theorem graph_complete : final.draft.graph.Complete := by
  obtain ⟨sound, ended⟩ := pass.sound
  intro b block live reached
  rcases reached with rfl | some
  · have entry : final.draft.HasEnd final.draft.graph.entry := by
      rcases sound.entry_left with here | left
      · rwa [← here]
      · exact left
    obtain ⟨block', live', ended⟩ := entry
    rw [live] at live'
    cases live'
    exact ended
  · have none := pass.neverReached
    rw [State.neverReached?, Option.map_eq_none_iff, List.find?_eq_none] at none
    have ended := none (b, block) (Graph.mem_liveBlocks.mpr live)
    rw [Option.isSome_iff_ne_none]
    simpa [some] using ended

end CodeUnit.Pass

end StackLift
