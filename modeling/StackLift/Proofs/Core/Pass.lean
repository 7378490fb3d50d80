import StackLift.Proofs.Core.Run

/-!
A pass over core instructions that succeeds. Where control can go from an
instruction that is lowered, the pass lowers an instruction as well: it goes on to
the next one with the state that it has, and an edge to the block of a label means
that the block has its end, so the pass has come to the label.
-/

namespace StackLift

open Lowering

/-- A core instruction names its targets itself. -/
theorem Instruction.targets_of_isCore {i : Instruction} (core : i.isCore = true) (pool : Pool) :
    i.targets pool = .ok i.label?.toList := by
  rw [Instruction.targets.eq_def]
  split
  · cases core
  · rfl

namespace CodeUnit

variable {unit : CodeUnit} {pool : Pool} {kind : UnitKind} {labels : LabelMap} {draft : Draft}

theorem Start.coreState (start : unit.Start pool kind labels draft) (visited : Nat → Prop) :
    CoreState ⟨pool, labels, kind⟩ visited 0 { draft } where
  inv := start.inv.settle fun _ ⟨offset, named, _⟩ => ⟨offset, named⟩
  tidy _ live := (start.made live).imp id fun ⟨offset, named⟩ =>
    Or.inr ⟨offset, named, fun h => Nat.not_lt_zero _ h.1⟩
  brackets := rfl

theorem Start.target (start : unit.Start pool kind labels draft) {i : Instruction} {l : Label}
    (mem : i ∈ unit.instructions) (core : i.isCore = true) (label : i.label? = some l) :
    ∃ offset b, unit.offset? l = some offset ∧ offset < unit.size ∧
      labels.blockAt? offset = some b ∧ labels.block l = .ok b := by
  obtain ⟨ls, targets, known⟩ := start.targets i mem
  rw [Instruction.targets_of_isCore core, label] at targets
  cases targets
  exact start.resolves.block (known l List.mem_cons_self)

/-- The pass lowers the instruction at an offset. -/
abbrev Visited (unit : CodeUnit) (pool : Pool) (kind : UnitKind) (labels : LabelMap)
    (draft : Draft) : Nat → Prop :=
  Lowering.Visited ⟨pool, labels, kind⟩ unit.instructions { draft }

section

variable (start : unit.Start pool kind labels draft)
  (core : ∀ i ∈ unit.instructions, i.isCore = true) {offset : Nat} {i : Instruction}
  {s s' a : State}

include start core

theorem Start.coreState_before (le : offset ≤ unit.size)
    (before : Before ⟨pool, labels, kind⟩ unit.instructions { draft } offset s) :
    CoreState ⟨pool, labels, kind⟩ (unit.Visited pool kind labels draft) offset s :=
  Lowering.coreState_before core start.resolves.distinct (start.coreState _) le before

/-- What holds when an instruction is lowered, and how the pass came to it. -/
theorem Start.arrived
    (visits : Visits ⟨pool, labels, kind⟩ unit.instructions { draft } offset i a) :
    CoreState ⟨pool, labels, kind⟩ (unit.Visited pool kind labels draft) (offset + 1) a ∧
      ∃ s, Before ⟨pool, labels, kind⟩ unit.instructions { draft } offset s ∧
        CoreState ⟨pool, labels, kind⟩ (unit.Visited pool kind labels draft) offset s ∧
        Arrives ⟨pool, labels, kind⟩
          (Context.Unvisited ⟨pool, labels, kind⟩ (unit.Visited pool kind labels draft) offset)
          offset s a := by
  obtain ⟨get, ⟨s, before, arrives⟩, live⟩ := visits
  have state := start.coreState_before core
    (Nat.le_of_lt (List.getElem?_eq_some_iff.mp get).1) before
  have how := state.arrives arrives
  exact ⟨state.arrive start.resolves.distinct how (visited_iff get before arrives),
    s, before, state, how⟩

/-- An instruction that is lowered has a routine, and the pass runs it. -/
theorem Start.executes
    (visits : Visits ⟨pool, labels, kind⟩ unit.instructions { draft } offset i a)
    (after : Before ⟨pool, labels, kind⟩ unit.instructions { draft } (offset + 1) s') :
    ∃ p items draft' t, i.routine? pool = some p ∧
      Executes ⟨pool, labels, kind⟩
        (Context.Unvisited ⟨pool, labels, kind⟩ (unit.Visited pool kind labels draft) (offset + 1))
        a p items draft' t ∧
      s' = if i.diverts then { t with live := false } else t := by
  obtain ⟨t, lowered, heq⟩ := visits.lower after
  obtain ⟨p, items, draft', routine, executes⟩ :=
    ((start.arrived core visits).1.inv_live visits.live).executes
      (core i (List.mem_of_getElem? visits.get)) lowered
  exact ⟨p, items, draft', t, routine, executes, heq⟩

end

namespace Pass

variable {final : State} (pass : unit.Pass pool kind labels draft final)
  (core : ∀ i ∈ unit.instructions, i.isCore = true) {offset : Nat} {i : Instruction} {s a : State}

include pass core

theorem executes (visits : Visits ⟨pool, labels, kind⟩ unit.instructions { draft } offset i a) :
    ∃ p items draft' t, i.routine? pool = some p ∧
      Executes ⟨pool, labels, kind⟩
        (Context.Unvisited ⟨pool, labels, kind⟩ (unit.Visited pool kind labels draft) (offset + 1))
        a p items draft' t ∧
      t.draft.Grows final.draft ∧
      Before ⟨pool, labels, kind⟩ unit.instructions { draft } (offset + 1)
        (if i.diverts then { t with live := false } else t) := by
  obtain ⟨s', after⟩ := exists_before pass.run (offset + 1)
  obtain ⟨p, items, draft', t, routine, executes, rfl⟩ := pass.start.executes core visits after
  have lt := (List.getElem?_eq_some_iff.mp visits.get).1
  have grows := grows_before pass.start.resolves.distinct pass.start.between lt (Nat.le_refl _)
    after pass.before_final
  refine ⟨p, items, draft', t, routine, executes, ?_, after⟩
  split at grows <;> exact grows

/-- Where the pass is in an open block, it lowers the next instruction. -/
theorem visits_of_live (le : offset ≤ unit.size)
    (before : Before ⟨pool, labels, kind⟩ unit.instructions { draft } offset s)
    (live : s.live = true) :
    ∃ i a, Visits ⟨pool, labels, kind⟩ unit.instructions { draft } offset i a ∧
      Arrives ⟨pool, labels, kind⟩
        (Context.Unvisited ⟨pool, labels, kind⟩ (unit.Visited pool kind labels draft) offset)
        offset s a := by
  have lt : offset < unit.size := by
    refine Nat.lt_of_le_of_ne le ?_
    rintro rfl
    rw [before.unique pass.before_final, pass.dead] at live
    cases live
  have get : unit.instructions[offset]? = some _ := List.getElem?_eq_getElem lt
  obtain ⟨s', after⟩ := exists_before pass.run (offset + 1)
  obtain ⟨s₁, before₁, step⟩ := (before_succ get).mp after
  cases before.unique before₁
  obtain ⟨a, arrives, -⟩ := step_eq_ok.mp step
  have how := (pass.start.coreState_before core le before).arrives arrives
  exact ⟨_, a, ⟨get, ⟨s, before, arrives⟩, how.live live⟩, how⟩

/-- The pass comes to every label that an edge leads to. -/
theorem visits_of_edge {b source : BlockId} (named : labels.blockAt? offset = some b)
    (edge : final.draft.Edge source b) :
    ∃ i a, Visits ⟨pool, labels, kind⟩ unit.instructions { draft } offset i a := by
  obtain ⟨block, live, mem⟩ := edge
  have ended : final.draft.HasEnd b :=
    ⟨block, live, pass.graph_complete live (Or.inr (List.ne_nil_of_mem mem))⟩
  have state := pass.start.coreState_before core (Nat.le_refl _) pass.before_final
  have visited : offset < unit.size ∧ unit.Visited pool kind labels draft offset :=
    Classical.byContradiction fun not =>
      (state.inv.aside ⟨offset, named, not⟩).1.hasNoEnd ended
  exact visited.2

/-- At a label the pass starts a block, with the phis of the block on the stack. -/
theorem entered {b : BlockId} (named : labels.blockAt? offset = some b)
    (visits : Visits ⟨pool, labels, kind⟩ unit.instructions { draft } offset i a) :
    a.draft.cursor = b ∧ a.draft.stmtIndex = 0 ∧
      ∃ phis, a.stack = .ofSlots phis ∧ final.draft.shape? b = some phis := by
  obtain ⟨-, -, -, -, grows, -⟩ := pass.lowered visits
  obtain ⟨-, s, before, state, arrives⟩ := pass.start.arrived core visits
  have unvisited : Context.Unvisited ⟨pool, labels, kind⟩ (unit.Visited pool kind labels draft)
      offset b := unvisited_of_named named
  cases arrives with
  | unnamed none =>
      rw [named] at none
      cases none
  | skipped _ dead _ =>
      rw [visits.live] at dead
      cases dead
  | joined named' dead shape =>
      rw [named] at named'
      cases named'
      exact ⟨rfl, (state.inv.aside unvisited).1.stmtIndex_moveTo, _, rfl, grows.shape shape⟩
  | fallen named' live left shape =>
      rw [named] at named'
      cases named'
      exact ⟨rfl, (left.inv.aside unvisited).1.stmtIndex_moveTo, _, rfl, grows.shape shape⟩

end Pass

end CodeUnit

end StackLift
