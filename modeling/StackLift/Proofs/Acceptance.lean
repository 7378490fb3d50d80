import StackLift.Proofs.Core.Pass

/-!
Which core code is accepted. The pass goes through a unit once and finds out as it
goes which code is live and how deep the stack is there. Main statement: it accepts
a unit just when live code is closed under all edges of control, has its constants,
and can be given a depth of the stack at each offset that agrees along every edge.
-/

namespace StackLift

open Lowering

namespace CodeUnit

/-- Control can go from one offset to another. -/
def Edge (unit : CodeUnit) (k j : Nat) : Prop :=
  ∃ i, unit.instructions[k]? = some i ∧
    (i.diverts = false ∧ j = k + 1 ∨ ∃ l, i.label? = some l ∧ unit.offset? l = some j)

/-- The offsets that control comes to when it only goes forward. -/
inductive Live (unit : CodeUnit) : Nat → Prop
  | start (valid : 0 < unit.size) : Live unit 0
  | step {k j : Nat} (live : Live unit k) (edge : unit.Edge k j) (forward : k < j)
      (valid : j < unit.size) : Live unit j

theorem Live.lt {unit : CodeUnit} {k : Nat} (live : unit.Live k) : k < unit.size := by
  cases live with
  | start valid => exact valid
  | step _ _ _ valid => exact valid

/-- When core code is well formed. -/
structure WellFormed (unit : CodeUnit) (pool : Pool) : Prop where
  /-- Every label that is named is bound to an instruction, in live code or not. -/
  labels : ∀ i ∈ unit.instructions, ∀ l, i.label? = some l →
    ∃ j, unit.offset? l = some j ∧ j < unit.size
  start : 0 < unit.size
  /-- Live code has its constants, of the right kind. -/
  constants : ∀ k i, unit.Live k → unit.instructions[k]? = some i → ∃ p, i.routine? pool = some p
  /-- Control goes from live code to live code only, and so never past the end. -/
  closed : ∀ k j, unit.Live k → unit.Edge k j → unit.Live j
  /-- The stack is deep enough for every instruction, and as deep along every edge
  as at any other edge to the same place. -/
  depths : ∃ depth : Nat → Nat, depth 0 = 0 ∧ ∀ k i p, unit.Live k →
    unit.instructions[k]? = some i → i.routine? pool = some p →
    ∃ n, p.depth? (depth k) = some n ∧ ∀ j, unit.Edge k j → depth j = n

variable {unit : CodeUnit} {pool : Pool} {kind : UnitKind} {labels : LabelMap} {draft : Draft}

/-! ### The depth of the stack during the pass -/

/-- The depths that the pass has found have a property: those that the blocks of
labels expect, and that of the stack where control goes on. -/
structure Fits (labels : LabelMap) (P : Nat → Nat → Prop) (offset : Nat) (s : State) : Prop where
  shaped : ∀ {j : Nat} {b : BlockId} {phis : List ValueId}, labels.blockAt? j = some b →
    s.draft.shape? b = some phis → P j phis.length
  here : s.live = true → P offset s.stack.items.length

theorem Fits.arrive {P : Nat → Nat → Prop} {offset : Nat} {s a : State} {aside : BlockId → Prop}
    (distinct : labels.Distinct) (fits : Fits labels P offset s)
    (arrives : Arrives ⟨pool, labels, kind⟩ aside offset s a) : Fits labels P offset a := by
  cases arrives with
  | unnamed _ => exact fits
  | skipped _ _ _ => exact fits
  | joined named _ shape =>
      refine ⟨fits.shaped, fun _ => ?_⟩
      have fit := fits.shaped named shape
      rwa [← List.length_reverse] at fit
  | @fallen b phis _ named live left shape =>
      obtain ⟨phis', shape', length⟩ :=
        left.exists_shape List.mem_cons_self (left.notDirect ⟨_, named⟩)
      rw [shape] at shape'
      cases shape'
      have fit : P offset phis.length := length ▸ fits.here live
      refine ⟨fun {j c phis'} named' shape' => ?_, fun _ => by rwa [← List.length_reverse] at fit⟩
      by_cases same : c = b
      · subst same
        obtain rfl := distinct named named'
        have heq : some phis = some phis' := shape.symm.trans shape'
        cases heq
        exact fit
      · refine fits.shaped named' ((left.shape?_of_notMem ?_).symm.trans shape')
        simpa [Terminator.successors] using same

theorem Start.edge (start : unit.Start pool kind labels draft) {i : Instruction} {k j : Nat}
    {l : Label} {b : BlockId} (get : unit.instructions[k]? = some i) (core : i.isCore = true)
    (label : i.label? = some l) (target : labels.block l = .ok b)
    (named : labels.blockAt? j = some b) : unit.Edge k j := by
  obtain ⟨j', b', bound, -, named', target'⟩ :=
    start.target (List.mem_of_getElem? get) core label
  rw [target] at target'
  cases target'
  obtain rfl := start.resolves.distinct named named'
  exact ⟨i, get, Or.inr ⟨l, label, bound⟩⟩

theorem Fits.lower {P P' : Nat → Nat → Prop} {offset : Nat} {i : Instruction} {a t : State}
    {p : Routine} {items : List ValueId} {draft' : Draft} {aside : BlockId → Prop}
    (start : unit.Start pool kind labels draft) (get : unit.instructions[offset]? = some i)
    (core : i.isCore = true) (routine : i.routine? pool = some p) (fits : Fits labels P offset a)
    (executes : Executes ⟨pool, labels, kind⟩ aside a p items draft' t)
    (keeps : ∀ {j n}, P j n → P' j n)
    (edge : ∀ {j n}, p.depth? a.stack.items.length = some n → unit.Edge offset j → P' j n) :
    Fits labels P' (offset + 1) (if i.diverts then { t with live := false } else t) := by
  obtain ⟨diverts, label⟩ := Instruction.control_of_routine? routine
  rw [executes.depth] at edge
  have shaped : ∀ {j b phis}, labels.blockAt? j = some b → t.draft.shape? b = some phis →
      P' j phis.length := by
    intro j b phis named shape
    have plain := executes.inv.plain_label ⟨_, named⟩
    rcases executes.leaves.shape?_eq plain.live with same | ⟨l, label', target⟩
    · rw [same] at shape
      have shape : draft'.shape? b = some phis := shape
      rw [(Draft.extends_runAll executes.ops).shape] at shape
      exact keeps (fits.shaped named shape)
    · obtain ⟨_, phis', -, shape', depth⟩ := executes.leaves.edge label' target
      rw [shape] at shape'
      cases shape'
      exact edge depth (start.edge get core (label.trans label') target named)
  rw [diverts]
  cases control : p.control.diverts with
  | true => exact ⟨shaped, fun live => nomatch live⟩
  | false =>
      refine ⟨shaped, fun _ => edge (executes.leaves.depth_next control) ⟨i, get, Or.inl ⟨?_, rfl⟩⟩⟩
      rw [diverts, control]

section

variable (start : unit.Start pool kind labels draft)
  (core : ∀ i ∈ unit.instructions, i.isCore = true) {offset : Nat} {s : State}

include start core

/-- A property of depths holds before every instruction when it holds at the start
and goes along with every edge. -/
theorem Start.fits_before {P : Nat → Nat → Nat → Prop} (first : P 0 0 0)
    (keeps : ∀ {k j n}, P k j n → P (k + 1) j n)
    (edge : ∀ {k i p n m j}, unit.instructions[k]? = some i → i.routine? pool = some p →
      P k k n → p.depth? n = some m → unit.Edge k j → P (k + 1) j m)
    (le : offset ≤ unit.size)
    (before : Before ⟨pool, labels, kind⟩ unit.instructions { draft } offset s) :
    Fits labels (P offset) offset s := by
  have atStart : Fits labels (P 0) 0 { draft } := by
    refine ⟨fun {j b phis} named shape => ?_, fun _ => first⟩
    have other := (start.inv.aside ⟨j, named⟩).2
    rw [start.bare.shape other] at shape
    cases shape
  refine run_induction (P := fun k s => Fits labels (P k) k s) atStart
    (fun {k i s s'} get before fits h => ?_) le before
  have distinct : labels.Distinct := start.resolves.distinct
  have isCore := core i (List.mem_of_getElem? get)
  have state := start.coreState_before core
    (Nat.le_of_lt (List.getElem?_eq_some_iff.mp get).1) before
  obtain ⟨a, arrives, rest⟩ := step_eq_ok.mp h
  have arrived := state.arrive distinct (state.arrives arrives) (visited_iff get before arrives)
  have fits := fits.arrive distinct (state.arrives arrives)
  rcases rest with ⟨live, t, lowered, rfl⟩ | ⟨dead, skipped⟩
  · obtain ⟨p, items, draft', routine, executes⟩ :=
      (arrived.inv_live live).executes isCore lowered
    exact fits.lower start get isCore routine executes keeps fun depth edge' =>
      edge get routine (fits.here live) depth edge'
  · rw [skip_of_isCore isCore skipped]
    refine ⟨fun named shape => keeps (fits.shaped named shape), fun live => ?_⟩
    rw [dead] at live
    cases live

/-- The pass lowers only code that control comes to by going forward. -/
theorem Start.live_of_visited (visited : unit.Visited pool kind labels draft offset) :
    unit.Live offset := by
  obtain ⟨i, a, visits⟩ := visited
  obtain ⟨-, s, before, -, arrives⟩ := start.arrived core visits
  have lt := (List.getElem?_eq_some_iff.mp visits.get).1
  have fits := start.fits_before core (P := fun k j _ => k ≤ j → j < unit.size → unit.Live j)
    (fun _ valid => .start valid)
    (fun before le => before (Nat.le_of_succ_le le))
    (fun get _ live _ edge forward valid => .step
      (live (Nat.le_refl _) (List.getElem?_eq_some_iff.mp get).1) edge forward valid)
    (Nat.le_of_lt lt) before
  exact (fits.arrive start.resolves.distinct arrives).here visits.live (Nat.le_refl _) lt

/-- The pass lowers all code that control comes to by going forward. -/
theorem Start.visited_of_live
    (runs : ∀ k ≤ unit.size, ∃ s, Before ⟨pool, labels, kind⟩ unit.instructions { draft } k s)
    (live : unit.Live offset) : unit.Visited pool kind labels draft offset := by
  -- before a valid offset there is a state, and the pass arrives from there
  have arrival : ∀ {k}, k < unit.size → ∃ s a,
      Before ⟨pool, labels, kind⟩ unit.instructions { draft } k s ∧
      Arrives ⟨pool, labels, kind⟩
        (Context.Unvisited ⟨pool, labels, kind⟩ (unit.Visited pool kind labels draft) k) k s a ∧
      (unit.Visited pool kind labels draft k ↔ a.live = true) := by
    intro k lt
    obtain ⟨s', after⟩ := runs (k + 1) lt
    have get : unit.instructions[k]? = some _ := List.getElem?_eq_getElem lt
    obtain ⟨s, before, step⟩ := (before_succ get).mp after
    obtain ⟨a, arrives, -⟩ := step_eq_ok.mp step
    have state := start.coreState_before core (Nat.le_of_lt lt) before
    exact ⟨s, a, before, state.arrives arrives, visited_iff get before arrives⟩
  induction live with
  | start valid =>
      obtain ⟨s, a, before, arrives, visited⟩ := arrival valid
      cases before
      exact visited.mpr (arrives.live rfl)
  | @step k j _ edge forward valid ih =>
      obtain ⟨i, a, visits⟩ := ih
      obtain ⟨s₁, after⟩ := runs (k + 1) (Nat.lt_trans forward valid)
      obtain ⟨p, items, draft', t, routine, executes, rfl⟩ := start.executes core visits after
      obtain ⟨diverts, label⟩ := Instruction.control_of_routine? routine
      obtain ⟨s, a', before, arrives, visited⟩ := arrival valid
      refine visited.mpr ?_
      obtain ⟨i₀, get₀, edge⟩ := edge
      rw [visits.get] at get₀
      cases get₀
      rcases edge with ⟨falls, rfl⟩ | ⟨l, named, bound⟩
      · rw [if_neg (by simp [falls])] at after
        cases after.unique before
        have inv := executes.leaves.inv
        rw [← diverts, falls] at inv
        exact arrives.live (inv.live (by simp))
      · obtain ⟨j', b, bound', -, at_, target⟩ := start.target (List.mem_of_getElem? visits.get)
          (core i (List.mem_of_getElem? visits.get)) named
        rw [bound] at bound'
        cases bound'
        obtain ⟨_, phis, -, shape, -⟩ := executes.leaves.edge (label.symm.trans named) target
        have grows := grows_before start.resolves.distinct start.between forward
          (Nat.le_of_lt valid) after before
        refine arrives.live_of_shape at_ (Option.isSome_iff_exists.mpr ⟨phis, grows.shape ?_⟩)
        split <;> exact shape

end

/-! ### What is accepted is well formed -/

/-- Each offset that is visited has one depth of the stack. -/
theorem exists_depth (unit : CodeUnit) (pool : Pool) (kind : UnitKind) (labels : LabelMap)
    (draft : Draft) : ∃ depth : Nat → Nat, ∀ k i a,
    Visits ⟨pool, labels, kind⟩ unit.instructions { draft } k i a →
      depth k = a.stack.items.length := by
  refine Classical.axiomOfChoice (r := fun k n => ∀ i a,
    Visits ⟨pool, labels, kind⟩ unit.instructions { draft } k i a → n = a.stack.items.length) ?_
  intro k
  by_cases visited : unit.Visited pool kind labels draft k
  · obtain ⟨i, a, visits⟩ := visited
    exact ⟨a.stack.items.length, fun i' a' visits' => by rw [visits.unique visits']⟩
  · exact ⟨0, fun i a visits => absurd ⟨i, a, visits⟩ visited⟩

section

variable {final : State} (pass : unit.Pass pool kind labels draft final)
  (core : ∀ i ∈ unit.instructions, i.isCore = true)

include pass core

/-- Along every edge control comes to an instruction that is lowered, with a stack
of the depth that is left. -/
theorem Pass.visits_edge {k j : Nat} {i : Instruction} {p : Routine} {a : State}
    (visits : Visits ⟨pool, labels, kind⟩ unit.instructions { draft } k i a)
    (routine : i.routine? pool = some p) (edge : unit.Edge k j) :
    ∃ i' a', Visits ⟨pool, labels, kind⟩ unit.instructions { draft } j i' a' ∧
      p.depth? a.stack.items.length = some a'.stack.items.length := by
  obtain ⟨p', items, draft', t, routine', executes, grows, after⟩ := pass.executes core visits
  rw [routine] at routine'
  cases routine'
  obtain ⟨diverts, label⟩ := Instruction.control_of_routine? routine
  obtain ⟨i₀, get₀, edge⟩ := edge
  rw [visits.get] at get₀
  cases get₀
  rw [executes.depth]
  rcases edge with ⟨falls, rfl⟩ | ⟨l, named, bound⟩
  · have inv := executes.leaves.inv
    rw [← diverts, falls] at inv
    have live : t.live = true := inv.live (by simp)
    rw [if_neg (by simp [falls])] at after
    obtain ⟨i', a', visits', arrives⟩ := pass.visits_of_live core
      (List.getElem?_eq_some_iff.mp visits.get).1 after live
    refine ⟨i', a', visits', ?_⟩
    rw [arrives.length_eq live]
    exact executes.leaves.depth_next (diverts.symm.trans falls)
  · have mem := List.mem_of_getElem? visits.get
    obtain ⟨j', b, bound', -, at_, target⟩ := pass.start.target mem (core i mem) named
    rw [bound] at bound'
    cases bound'
    obtain ⟨_, phis, wired, shape, depth⟩ := executes.leaves.edge (label.symm.trans named) target
    obtain ⟨i', a', visits'⟩ := pass.visits_of_edge core at_ (wired.mono grows)
    obtain ⟨-, -, phis', stack, shape'⟩ := pass.entered core at_ visits'
    rw [grows.shape shape] at shape'
    cases shape'
    refine ⟨i', a', visits', ?_⟩
    rw [stack, OperandStack.ofSlots, List.length_reverse]
    exact depth

theorem Pass.wellFormed : unit.WellFormed pool := by
  have start := pass.start
  have visited : ∀ {k}, unit.Live k → unit.Visited pool kind labels draft k := fun live =>
    start.visited_of_live core (fun k _ => exists_before pass.run k) live
  obtain ⟨i₀, a₀, visits₀, arrives₀⟩ := pass.visits_of_live core (Nat.zero_le _) rfl rfl
  obtain ⟨depth, known⟩ := exists_depth unit pool kind labels draft
  refine ⟨fun i mem l label => ?_, (List.getElem?_eq_some_iff.mp visits₀.get).1,
    fun k i live get => ?_, fun k j live edge => ?_, depth, ?_, fun k i p live get routine => ?_⟩
  · obtain ⟨j, b, bound, lt, -, -⟩ := start.target mem (core i mem) label
    exact ⟨j, bound, lt⟩
  · obtain ⟨i', a, visits⟩ := visited live
    obtain ⟨p, -, -, -, routine, -⟩ := pass.executes core visits
    rw [visits.get] at get
    cases get
    exact ⟨p, routine⟩
  · obtain ⟨i, a, visits⟩ := visited live
    obtain ⟨p, -, -, -, routine, -⟩ := pass.executes core visits
    obtain ⟨i', a', visits', -⟩ := pass.visits_edge core visits routine edge
    exact start.live_of_visited core ⟨i', a', visits'⟩
  · rw [known 0 i₀ a₀ visits₀, arrives₀.length_eq rfl]
    rfl
  · obtain ⟨i', a, visits⟩ := visited live
    rw [visits.get] at get
    cases get
    obtain ⟨p', items, draft', t, routine', executes, -⟩ := pass.executes core visits
    rw [routine] at routine'
    cases routine'
    obtain ⟨n, left⟩ := executes.leaves.exists_depth
    rw [known k i a visits]
    refine ⟨n, executes.depth.trans left, fun j edge => ?_⟩
    obtain ⟨i', a', visits', depth'⟩ := pass.visits_edge core visits routine edge
    rw [known j i' a' visits']
    exact Option.some.inj (depth'.symm.trans (executes.depth.trans left))

end

/-! ### What is well formed is accepted -/

section

variable (wf : unit.WellFormed pool) (core : ∀ i ∈ unit.instructions, i.isCore = true)
  {depth : Nat → Nat} (first : depth 0 = 0)
  (agrees : ∀ k i p, unit.Live k → unit.instructions[k]? = some i → i.routine? pool = some p →
    ∃ n, p.depth? (depth k) = some n ∧ ∀ j, unit.Edge k j → depth j = n)
  (start : unit.Start pool kind labels draft) {offset : Nat} {s : State}

include wf core first agrees start

/-- In well formed code the pass comes to live offsets only, with the depth that
they have. -/
theorem WellFormed.fits (le : offset ≤ unit.size)
    (before : Before ⟨pool, labels, kind⟩ unit.instructions { draft } offset s) :
    Fits labels (fun j n => unit.Live j ∧ depth j = n) offset s := by
  refine start.fits_before core (P := fun _ j n => unit.Live j ∧ depth j = n)
    ⟨.start wf.start, first⟩ id ?_ le before
  rintro k i p n m j get routine ⟨live, rfl⟩ left edge
  obtain ⟨n, left', after⟩ := agrees k i p live get routine
  rw [left] at left'
  cases left'
  exact ⟨wf.closed k j live edge, after j edge⟩

/-- The pass goes on. -/
theorem WellFormed.exists_step {i : Instruction} (get : unit.instructions[offset]? = some i)
    (before : Before ⟨pool, labels, kind⟩ unit.instructions { draft } offset s) :
    ∃ s', step ⟨pool, labels, kind⟩ offset i s = .ok () s' := by
  have mem := List.mem_of_getElem? get
  have le := Nat.le_of_lt (List.getElem?_eq_some_iff.mp get).1
  have fits := wf.fits core first agrees start le before
  have state := start.coreState_before core le before
  obtain ⟨a, arrives⟩ := state.exists_arrive fun b phis named live shape =>
    (fits.shaped named shape).2.symm.trans (fits.here live).2
  have fits := fits.arrive start.resolves.distinct (state.arrives arrives)
  have arrived := state.arrive start.resolves.distinct (state.arrives arrives)
    (visited_iff get before arrives)
  cases live : a.live with
  | false =>
      refine ⟨a, step_eq_ok.mpr ⟨a, arrives, Or.inr ⟨live, ?_⟩⟩⟩
      exact skip_eq_of_isCore (core i mem)
  | true =>
      obtain ⟨live', here⟩ := fits.here live
      obtain ⟨p, routine⟩ := wf.constants offset i live' get
      obtain ⟨n, left, after⟩ := agrees offset i p live' get routine
      obtain ⟨t, lowered⟩ := (arrived.inv_live live).exists_lower (core i mem) routine
        (here ▸ left) fun l label => by
          have named : i.label? = some l :=
            (Instruction.control_of_routine? routine).2.trans label
          obtain ⟨j, b, bound, -, at_, target⟩ := start.target mem (core i mem) named
          refine ⟨b, target, fun phis shape => ?_⟩
          rw [← (fits.shaped at_ shape).2, after j ⟨i, get, Or.inr ⟨l, named, bound⟩⟩]
      exact ⟨_, step_eq_ok.mpr ⟨a, arrives, Or.inl ⟨live, t, lowered, rfl⟩⟩⟩

theorem WellFormed.exists_before (le : offset ≤ unit.size) :
    ∃ s, Before ⟨pool, labels, kind⟩ unit.instructions { draft } offset s := by
  induction offset with
  | zero => exact ⟨_, rfl⟩
  | succ offset ih =>
      obtain ⟨s, before⟩ := ih (Nat.le_of_succ_le le)
      have get : unit.instructions[offset]? = some _ := List.getElem?_eq_getElem le
      obtain ⟨s', h⟩ := wf.exists_step core first agrees start get before
      exact ⟨s', (before_succ get).mpr ⟨s, before, h⟩⟩

/-- At the end nothing is open, the last instruction has diverted, and the pass
has come to every label that an edge leads to. -/
theorem WellFormed.endFault? {final : State}
    (before : Before ⟨pool, labels, kind⟩ unit.instructions { draft } unit.size final) :
    final.endFault? = none := by
  have fits := wf.fits core first agrees start (Nat.le_refl _) before
  have state := start.coreState_before core (Nat.le_refl _) before
  have dead : final.live = false := by
    cases live : final.live with
    | false => rfl
    | true => exact absurd (fits.here live).1.lt (Nat.lt_irrefl _)
  have closed : final.stillOpen? = none := by
    obtain ⟨d, stack, loops, calls, assigns, dispatches, depths, live⟩ := final
    cases state.brackets
    rfl
  have ended : ∀ b block, final.draft.graph.block? b = some block → block.preds ≠ [] →
      final.draft.HasEnd b := by
    intro b block live linked
    rcases state.tidy b (Option.isSome_iff_exists.mpr ⟨block, live⟩) with rfl | ended | unvisited
    · exact (state.inv_dead dead).phase
    · exact ended
    · obtain ⟨j, named, not⟩ := unvisited
      cases shape : final.draft.shape? b with
      | none =>
          have merge := (state.inv.plain_label ⟨j, named⟩).merge.notDirect
          exact absurd (state.inv.sound.unshaped live merge shape) linked
      | some phis =>
          have live := (fits.shaped named shape).1
          exact absurd ⟨live.lt, start.visited_of_live core
            (fun k le => wf.exists_before core first agrees start le) live⟩ not
  rw [State.endFault?, closed]
  simp only [dead, Bool.false_eq_true, if_false]
  rw [Option.map_eq_none_iff, State.neverReached?, Option.map_eq_none_iff, List.find?_eq_none]
  rintro ⟨b, block⟩ mem found
  have live := Graph.mem_liveBlocks.mp mem
  simp only [Bool.and_eq_true, Bool.not_eq_true', List.isEmpty_eq_false_iff,
    Option.isNone_iff_eq_none] at found
  obtain ⟨block', live', some⟩ := ended b block live found.1
  rw [live] at live'
  cases live'
  rw [found.2] at some
  cases some

end

theorem WellFormed.exists_lower (wf : unit.WellFormed pool)
    (core : ∀ i ∈ unit.instructions, i.isCore = true) (kind : UnitKind) :
    ∃ g, unit.lower pool kind = .ok g := by
  have bound : ∀ i ∈ unit.instructions, ∃ ls, i.targets pool = .ok ls ∧
      ∀ l ∈ ls, ∃ offset, unit.offset? l = some offset ∧ offset < unit.size := by
    intro i mem
    refine ⟨_, Instruction.targets_of_isCore (core i mem) pool, fun l label => ?_⟩
    exact wf.labels i mem l (Option.mem_toList.mp label)
  obtain ⟨labels, draft, resolve⟩ := exists_resolve (.new unit.displayName) bound
  have start := start_of_resolve kind resolve
  obtain ⟨depth, first, agrees⟩ := wf.depths
  obtain ⟨final, before⟩ := wf.exists_before core first agrees start (Nat.le_refl _)
  have complete := wf.endFault? core first agrees start before
  rw [Before, CodeUnit.size, List.take_length] at before
  exact ⟨_, lower_eq_ok.mpr ⟨labels, draft, final, ⟨resolve, before, complete⟩, rfl⟩⟩

end CodeUnit

/-- Core code is accepted just when it is well formed, whatever the options are. -/
theorem compiles_iff_wellFormed {unit : CodeUnit} {pool : Pool} {options : Options}
    (core : ∀ i ∈ unit.instructions, i.isCore = true) :
    (∃ g, unit.compile pool options = .ok g) ↔ unit.WellFormed pool := by
  constructor
  · rintro ⟨g, h⟩
    obtain ⟨raw, lowered, -⟩ := CodeUnit.compile_eq_ok.mp h
    obtain ⟨labels, draft, final, pass, -⟩ := CodeUnit.lower_eq_ok.mp lowered
    exact pass.wellFormed core
  · intro wf
    obtain ⟨raw, lowered⟩ := wf.exists_lower core options.unitKind
    exact ⟨_, CodeUnit.compile_eq_ok.mpr ⟨raw, lowered, rfl⟩⟩

/-- A loop that tests the value on the stack until it does not hold. -/
def testLoop : CodeUnit where
  name := none
  instructions := [.load (.logical true), .dup, .branchIfNot ⟨0⟩ ⟨1⟩, .goto ⟨0⟩, .ret]
  labels := [some 1, some 4]

/-- A jump back leads to code that was skipped. -/
def jumpIntoSkipped : CodeUnit where
  name := none
  instructions := [.goto ⟨1⟩, .load .null, .goto ⟨0⟩]
  labels := [some 1, some 2]

def testLoopPool : Pool := ⟨[.expr (.symbol "while")]⟩

/-- The loop agrees with itself about the depth of the stack; the jump into skipped
code leads out of live code. -/
theorem testLoop_wellFormed : testLoop.WellFormed testLoopPool ∧
    ¬jumpIntoSkipped.WellFormed testLoopPool := by
  have accepted : ∃ g, testLoop.compile testLoopPool {} = .ok g ∧ True :=
    exists_ok_of_toOption (by decide +kernel)
  have rejected : (jumpIntoSkipped.compile testLoopPool {}).toOption = none := by decide +kernel
  refine ⟨(compiles_iff_wellFormed (by decide)).mp (accepted.imp fun _ => And.left), fun wf => ?_⟩
  have compiles : ∃ g, jumpIntoSkipped.compile testLoopPool {} = .ok g :=
    (compiles_iff_wellFormed (by decide)).mpr wf
  obtain ⟨g, h⟩ := compiles
  rw [h] at rejected
  cases rejected

end StackLift
