import StackLift.Proofs.Lower.Brackets
import StackLift.Proofs.Lower.Context

/-!
Reference-count hints in the code. A hint is lowered to nothing, and when one is inserted the
labels behind it are moved along, so the pass goes the same way as before. There is one
exception. In skipped code a loop is closed by the instruction at its end label, and a hint that
is inserted there stands between the label and that instruction: the loop is left open. The main
statement is `hint_insertion`.
-/

namespace StackLift

open Lowering

/-! ### Moved labels -/

/-- Where an offset is once an instruction is inserted at `k`. What is named by a label at `k`
is then the new instruction. -/
def pastInsertion (k o : Nat) : Nat := if k < o then o + 1 else o

theorem pastInsertion_injective (k : Nat) : Function.Injective (pastInsertion k) := by
  intro i j h
  simp only [pastInsertion] at h
  split at h <;> split at h <;> omega

namespace LabelMap

/-- The labels lead to the same blocks, which stand elsewhere. -/
def move (f : Nat → Nat) (m : LabelMap) : LabelMap where
  offsets := m.offsets.map fun e => (e.1, f e.2)
  blocks := m.blocks.map fun e => (f e.1, e.2)

variable {f : Nat → Nat} {m : LabelMap}

theorem blockAt?_move (inj : Function.Injective f) (m : LabelMap) (o : Nat) :
    (m.move f).blockAt? (f o) = m.blockAt? o := by
  obtain ⟨offsets, blocks⟩ := m
  simp only [move, blockAt?]
  induction blocks with
  | nil => rfl
  | cons e rest ih =>
      obtain ⟨o', b⟩ := e
      rw [List.map_cons, List.lookup_cons, List.lookup_cons, ih]
      by_cases same : o = o'
      · rw [same, beq_self_eq_true, beq_self_eq_true]
      · have apart : f o ≠ f o' := fun h => same (inj h)
        rw [beq_false_of_ne same, beq_false_of_ne apart]

/-- A block stands only where one was moved to. -/
theorem exists_of_blockAt?_move (inj : Function.Injective f) {o : Nat} {b : BlockId}
    (h : (m.move f).blockAt? o = some b) : ∃ o', f o' = o ∧ m.blockAt? o' = some b := by
  have key : ∃ o', f o' = o := by
    obtain ⟨offsets, blocks⟩ := m
    simp only [move, blockAt?] at h
    induction blocks with
    | nil => cases h
    | cons e rest ih =>
        rw [List.map_cons, List.lookup_cons] at h
        by_cases same : o = f e.1
        · exact ⟨e.1, same.symm⟩
        · rw [beq_false_of_ne same] at h
          exact ih h
  obtain ⟨o', rfl⟩ := key
  rw [blockAt?_move inj] at h
  exact ⟨o', rfl, h⟩

theorem block_move (inj : Function.Injective f) (m : LabelMap) (l : Label) :
    (m.move f).block l = m.block l := by
  have offset : (m.move f).offsets.lookup l = (m.offsets.lookup l).map f := by
    simp only [move]
    induction m.offsets with
    | nil => rfl
    | cons e rest ih =>
        obtain ⟨l', o⟩ := e
        rw [List.map_cons, List.lookup_cons, List.lookup_cons, ih]
        cases l == l' <;> rfl
  have here : (m.move f).blockAt? ∘ f = m.blockAt? := funext (blockAt?_move inj m)
  rw [block, block, offset, Option.bind_map, here]

theorem Distinct.move (distinct : m.Distinct) (inj : Function.Injective f) :
    (m.move f).Distinct := by
  intro i j b hi hj
  obtain ⟨i, rfl, at_i⟩ := exists_of_blockAt?_move inj hi
  obtain ⟨j, rfl, at_j⟩ := exists_of_blockAt?_move inj hj
  rw [distinct at_i at_j]

/-! ### Labels of a unit with something inserted -/

namespace Resolution

def move (f : Nat → Nat) (r : Resolution) : Resolution := { r with labels := r.labels.move f }

variable {unit unit' : CodeUnit} {pool : Pool} {r r' : Resolution}

theorem record_move (inj : Function.Injective f) (r : Resolution) (l : Label) (o : Nat) :
    (r.move f).record l (f o) = (r.record l o).move f := by
  have here : (r.move f).labels.blockAt? (f o) = r.labels.blockAt? o := blockAt?_move inj _ o
  simp only [record, here]
  split <;> rfl

/-- The labels of one unit are those of the other, moved. -/
structure Moves (f : Nat → Nat) (unit unit' : CodeUnit) : Prop where
  injective : Function.Injective f
  within : ∀ o < unit.size, f o < unit'.size
  offset : ∀ l, unit'.offset? l = (unit.offset? l).map f

theorem Moves.bind (moves : Moves f unit unit') {l : Label} (h : r.bind unit l = .ok r') :
    (r.move f).bind unit' l = .ok (r'.move f) := by
  rw [Resolution.bind] at h ⊢
  rw [moves.offset]
  cases bound : unit.offset? l with
  | none =>
      rw [bound] at h
      cases h
  | some o =>
      rw [bound] at h
      simp only [Option.map_some] at h ⊢
      split at h
      next lt =>
        cases h
        rw [if_pos (moves.within o lt), record_move moves.injective]
      next => cases h

theorem Moves.bindAll (moves : Moves f unit unit') {labels : List Label} {u : Unit}
    (h : bindAll unit labels r = .ok u r') :
    bindAll unit' labels (r.move f) = .ok u (r'.move f) := by
  induction labels generalizing r with
  | nil =>
      cases h
      rfl
  | cons l rest ih =>
      rw [Resolution.bindAll] at h ⊢
      split at h
      next bound =>
        rw [moves.bind bound]
        exact ih h
      next => cases h

theorem Moves.bindTargets (moves : Moves f unit unit') {i : Instruction} {u : Unit}
    (h : bindTargets unit pool i r = .ok u r') :
    bindTargets unit' pool i (r.move f) = .ok u (r'.move f) := by
  rw [Resolution.bindTargets] at h ⊢
  split at h
  · exact moves.bindAll h
  · cases h

/-- An instruction that names no label may be inserted. -/
theorem Moves.resolveFrom (moves : Moves f unit unit') {i : Instruction}
    (plain : i.targets pool = .ok []) {code : List Instruction} {o : Nat} {u : Unit} (k o' : Nat)
    (h : resolveFrom unit pool o code r = .ok u r') :
    resolveFrom unit' pool o' (code.take k ++ i :: code.drop k) (r.move f) =
      .ok u (r'.move f) := by
  have same : ∀ {code : List Instruction} {r r' : Resolution} {o o' : Nat},
      Resolution.resolveFrom unit pool o code r = .ok u r' →
      Resolution.resolveFrom unit' pool o' code (r.move f) = .ok u (r'.move f) := by
    intro code
    induction code with
    | nil =>
        intro r r' o o' h
        cases h
        rfl
    | cons j rest ih =>
        intro r r' o o' h
        rw [Resolution.resolveFrom] at h ⊢
        split at h
        next bound =>
          rw [moves.bindTargets bound]
          exact ih h
        next => cases h
  have first : ∀ {code : List Instruction} {r r' : Resolution} {o o' : Nat},
      Resolution.resolveFrom unit pool o code r = .ok u r' →
      Resolution.resolveFrom unit' pool o' (i :: code) (r.move f) = .ok u (r'.move f) := by
    intro code r r' o o' h
    rw [Resolution.resolveFrom, Resolution.bindTargets, plain]
    exact same h
  induction code generalizing k r o o' with
  | nil =>
      rw [List.take_nil, List.drop_nil]
      exact first h
  | cons j rest ih =>
      cases k with
      | zero => exact first h
      | succ k =>
          rw [Resolution.resolveFrom] at h
          split at h
          next bound =>
            rw [List.take_succ_cons, List.drop_succ_cons, List.cons_append, Resolution.resolveFrom,
              moves.bindTargets bound]
            exact ih k (o' + 1) h
          next => cases h

end Resolution

end LabelMap

/-! ### Inserting a hint -/

/-- One unit is the other with a hint inserted at an offset. A label at that offset names the
hint, and labels behind it are moved along. -/
structure CodeUnit.InsertsHint (unit : CodeUnit) (k : Nat) (hint : RefHint) (unit' : CodeUnit) :
    Prop where
  name : unit'.name = unit.name
  within : k ≤ unit.size
  code : unit'.instructions = unit.instructions.take k ++ .hint hint :: unit.instructions.drop k
  labels : ∀ l, unit'.offset? l = (unit.offset? l).map (pastInsertion k)

namespace CodeUnit.InsertsHint

variable {unit unit' : CodeUnit} {k : Nat} {hint : RefHint}
  (inserts : unit.InsertsHint k hint unit')

include inserts

theorem moves : LabelMap.Resolution.Moves (pastInsertion k) unit unit' where
  injective := pastInsertion_injective k
  offset := inserts.labels
  within := by
    intro o lt
    have size : unit'.size = unit.size + 1 := by
      have within := inserts.within
      simp only [CodeUnit.size] at within ⊢
      simp only [inserts.code, List.length_append, List.length_cons, List.length_take,
        List.length_drop]
      omega
    rw [pastInsertion, size]
    split <;> omega

/-- The labels get the same blocks. -/
theorem resolve {pool : Pool} {labels : LabelMap} {draft : Draft}
    (h : LabelMap.resolve unit pool (.new unit.displayName) = .ok labels draft) :
    LabelMap.resolve unit' pool (.new unit'.displayName) =
      .ok (labels.move (pastInsertion k)) draft := by
  rw [CodeUnit.displayName, inserts.name]
  rw [LabelMap.resolve] at h ⊢
  split at h
  next r resolved =>
    cases h
    have moved := inserts.moves.resolveFrom (i := .hint hint) rfl k 0 resolved
    rw [← inserts.code] at moved
    have start : LabelMap.Resolution.move (pastInsertion k) { draft := .new unit.displayName } =
        { draft := .new unit.displayName } := rfl
    rw [start] at moved
    rw [CodeUnit.displayName] at moved
    rw [moved]
    rfl
  next => cases h

end CodeUnit.InsertsHint

/-! ### Loops that stay open -/

namespace Lowering

variable {ctx ctx' : Context} {offset : Nat} {s s' : State}

/-- In skipped code, the instruction at the offset closes the innermost loop. -/
def ClosesSkipped (ctx : Context) (offset : Nat) (i : Instruction) (a : State) : Prop :=
  a.live = false ∧ ∃ kind loop rest, i = .endLoop kind ∧ a.loops = loop :: rest ∧
    ctx.labels.blockAt? offset = some loop.loopEnd

theorem skip_of_not_closes {i : Instruction} (dead : s.live = false)
    (not : ¬ ClosesSkipped ctx offset i s) : skip ctx offset i s = .ok () s := by
  cases i with
  | endLoop kind =>
      change (current >>= _) s = _
      refine bind_eq_ok_iff.mpr ⟨s, s, rfl, ?_⟩
      cases loops : s.loops with
      | nil => rfl
      | cons loop rest =>
          have elsewhere : ctx.labels.blockAt? offset ≠ some loop.loopEnd :=
            fun here => not ⟨dead, kind, loop, rest, rfl, loops, here⟩
          simp only [if_neg elsewhere]
          rfl
  | _ => rfl

theorem not_closes_of_unnamed (unnamed : ctx.labels.blockAt? offset = none) (i : Instruction) :
    ¬ ClosesSkipped ctx offset i s := by
  rintro ⟨-, kind, loop, rest, -, -, here⟩
  rw [unnamed] at here
  cases here

theorem loops_of_arriveAt {b : BlockId} {fallsThrough : Bool}
    (h : arriveAt b fallsThrough s = .ok () s') : s'.loops = s.loops := by
  rw [arriveAt] at h
  split at h
  · cases h
    rfl
  · simp only at h
    split at h
    · cases h
      rfl
    · split at h <;> cases h <;> rfl

theorem loops_of_arrive (h : arrive ctx offset s = .ok () s') : s'.loops = s.loops := by
  rw [arrive] at h
  cases named : ctx.labels.blockAt? offset with
  | none =>
      rw [named] at h
      cases h
      rfl
  | some b =>
      rw [named] at h
      obtain ⟨_, _, h₁, h⟩ := bind_eq_ok_iff.mp h
      cases h₁
      split at h
      · cases h
        rfl
      · split at h
        · obtain ⟨_, s₁, h₁, h₂⟩ := bind_eq_ok_iff.mp h
          have steady := keeps_jump (T := fun _ => True) trivial s () s₁ (fun _ _ => trivial) h₁
          rw [loops_of_arriveAt h₂]
          exact congrArg (·.1) steady.brackets
        · exact loops_of_arriveAt h

/-- What lowering an instruction does to the loops. -/
theorem Effect.loops {i : Instruction} (effect : Effect ctx offset i s s') :
    s'.loops = s.loops ∨ (∃ l, s'.loops = l :: s.loops) ∨
      ∃ l, s.loops = l :: s'.loops ∧ s.draft.cursor = l.loopEnd := by
  cases effect with
  | stays _ _ _ loops => exact Or.inl loops
  | opensCall _ _ _ brackets => exact Or.inl (congrArg (·.1) brackets)
  | opensAssign _ _ _ brackets => exact Or.inl (congrArg (·.1) brackets)
  | opensDispatch _ _ _ _ _ _ _ _ brackets => exact Or.inl (congrArg (·.1) brackets)
  | opensLoop l _ _ _ _ _ brackets => exact Or.inr (Or.inl ⟨l, congrArg (·.1) brackets⟩)
  | closesCall _ _ _ loops => exact Or.inl loops
  | closesAssign _ _ _ brackets => exact Or.inl (congrArg (·.1) brackets).symm
  | closesDispatch _ _ _ _ _ _ brackets => exact Or.inl (congrArg (·.1) brackets).symm
  | closesLoop l _ atEnd brackets => exact Or.inr (Or.inr ⟨l, congrArg (·.1) brackets, atEnd⟩)

/-- A loop is not closed before the pass gets to its end. -/
theorem Between.mem_loops {i : Instruction} {n : Nat} {loop : LoopContext}
    (distinct : ctx.labels.Distinct) (between : Between ctx offset s)
    (named : ctx.labels.blockAt? n = some loop.loopEnd) (lt : offset < n) (mem : loop ∈ s.loops)
    (h : Lowering.step ctx offset i s = .ok () s') : loop ∈ s'.loops := by
  obtain ⟨a, arrives, rest⟩ := step_eq_ok.mp h
  have mem : loop ∈ a.loops := by rwa [loops_of_arrive arrives]
  rcases rest with ⟨live, t, lowers, rfl⟩ | ⟨dead, skips⟩
  · have inv := (between.arrive distinct arrives).inv live
    have away : loop.loopEnd ≠ a.draft.cursor := (inv.aside ⟨n, lt, named⟩).2
    have still : loop ∈ t.loops := by
      rcases (moves_of_lower lowers).effect.loops with same | ⟨l, opened⟩ | ⟨l, closed, atEnd⟩
      · rwa [same]
      · rw [opened]
        exact List.mem_cons_of_mem l mem
      · rw [closed] at mem
        rcases List.mem_cons.mp mem with rfl | old
        · exact absurd atEnd.symm away
        · exact old
    split <;> exact still
  · by_cases closes : ClosesSkipped ctx offset i a
    · obtain ⟨-, kind, l, rest, rfl, loops, here⟩ := closes
      change (current >>= _) a = _ at skips
      obtain ⟨_, _, h₁, skips⟩ := bind_eq_ok_iff.mp skips
      cases h₁
      simp only [loops, if_pos here] at skips
      obtain ⟨l', t, popped, skips⟩ := bind_eq_ok_iff.mp skips
      obtain ⟨rest', loops', -, rfl⟩ := popLoop_eq_ok popped
      cases skips
      rw [loops'] at loops mem
      cases loops
      rcases List.mem_cons.mp mem with rfl | old
      · exact absurd (distinct here named) (Nat.ne_of_lt lt)
      · exact old
    · rw [skip_of_not_closes dead closes] at skips
      cases skips
      exact mem

theorem mem_loops_of_run {code : List Instruction} {n : Nat} {loop : LoopContext}
    (distinct : ctx.labels.Distinct) (between : Between ctx offset s)
    (named : ctx.labels.blockAt? n = some loop.loopEnd) (le : offset + code.length ≤ n)
    (mem : loop ∈ s.loops) (h : run ctx offset code s = .ok s') : loop ∈ s'.loops := by
  induction code generalizing offset s with
  | nil =>
      cases h
      exact mem
  | cons i rest ih =>
      rw [List.length_cons] at le
      obtain ⟨t, first, others⟩ := run_cons.mp h
      obtain ⟨_, -, -, -, between'⟩ := between.step distinct first
      have mem := between.mem_loops distinct named (by omega) mem first
      exact ih between' (by omega) mem others

/-- Where code is skipped, the block of a label at the offset is still set aside. -/
theorem Between.inv_of_skipped {a : State} (between : Between ctx offset s)
    (h : Lowering.arrive ctx offset s = .ok () a) (dead : a.live = false) :
    Inv ctx .nothing s.draft (ctx.Ahead offset) .ended [] a := by
  rw [Lowering.arrive] at h
  cases between with
  | live live goes =>
      exfalso
      cases named : ctx.labels.blockAt? offset with
      | none =>
          rw [named] at h
          cases h
          rw [live] at dead
          cases dead
      | some b =>
          rw [named] at h
          obtain ⟨_, _, h₁, h⟩ := bind_eq_ok_iff.mp h
          cases h₁
          cases goes with
          | here inv =>
              rw [if_neg (inv.aside ⟨_, Nat.le_refl _, named⟩).2.symm, if_pos live] at h
              obtain ⟨_, s₁, h₁, h₂⟩ := bind_eq_ok_iff.mp h
              have left := inv.jumpTo (by simp) ⟨_, named⟩ h₁
              have merge := (inv.plain_label ⟨_, named⟩).merge.notDirect
              obtain ⟨phis, shape, -⟩ := left.exists_shape List.mem_cons_self merge
              rw [arriveAt, shape] at h₂
              cases h₂
              cases dead
          | inNext inv at_ =>
              rw [named] at at_
              rw [if_pos (Option.some.inj at_).symm] at h
              cases h
              rw [live] at dead
              cases dead
  | dead notLive inv =>
      cases named : ctx.labels.blockAt? offset with
      | none =>
          rw [named] at h
          cases h
          exact inv
      | some b =>
          rw [named] at h
          obtain ⟨_, _, h₁, h⟩ := bind_eq_ok_iff.mp h
          cases h₁
          rw [if_neg (inv.aside ⟨_, Nat.le_refl _, named⟩).2.symm, notLive] at h
          simp only [Bool.false_eq_true, if_false, arriveAt] at h
          split at h
          · cases h
            exact inv.kill
          · split at h <;> cases h <;> cases dead

/-- A hint does nothing where control arrives, and nothing where it does not. -/
theorem step_hint {hint : RefHint} (h : arrive ctx offset s = .ok () s') :
    step ctx offset (.hint hint) s = .ok () s' := by
  refine step_eq_ok.mpr ⟨s', h, ?_⟩
  cases live : s'.live with
  | true => exact Or.inl ⟨rfl, s', rfl, rfl⟩
  | false => exact Or.inr ⟨rfl, rfl⟩

end Lowering

/-! ### The pass over the unit with the hint -/

/-- The instruction at an offset ends a loop in skipped code: the pass does not lower it, the
end of the innermost loop stands there, and the loop is closed nevertheless. -/
def CodeUnit.EndsSkippedLoop (unit : CodeUnit) (pool : Pool) (kind : UnitKind) (k : Nat) : Prop :=
  ∃ labels draft i s a, LabelMap.resolve unit pool (.new unit.displayName) = .ok labels draft ∧
    unit.instructions[k]? = some i ∧
    Before ⟨pool, labels, kind⟩ unit.instructions { draft } k s ∧
    arrive ⟨pool, labels, kind⟩ k s = .ok () a ∧ ClosesSkipped ⟨pool, labels, kind⟩ k i a

section

variable (k : Nat) (m : LabelMap)

theorem LabelMap.blockAt?_insertion_of_le {j : Nat} (le : j ≤ k) :
    (m.move (pastInsertion k)).blockAt? j = m.blockAt? j := by
  have stays : pastInsertion k j = j := if_neg (by omega)
  have here := blockAt?_move (pastInsertion_injective k) m j
  rwa [stays] at here

theorem LabelMap.blockAt?_insertion_of_lt {j : Nat} (lt : k < j) :
    (m.move (pastInsertion k)).blockAt? (j + 1) = m.blockAt? j := by
  have moves : pastInsertion k j = j + 1 := if_pos lt
  have here := blockAt?_move (pastInsertion_injective k) m j
  rwa [moves] at here

/-- The instruction that follows the inserted one has no label. -/
theorem LabelMap.blockAt?_insertion_succ :
    (m.move (pastInsertion k)).blockAt? (k + 1) = none := by
  refine Option.eq_none_iff_forall_ne_some.mpr fun b at_ => ?_
  obtain ⟨o, same, -⟩ := exists_of_blockAt?_move (pastInsertion_injective k) at_
  rw [pastInsertion] at same
  split at same <;> omega

end

namespace Lowering

variable {k : Nat} {pool : Pool} {labels : LabelMap} {kind : UnitKind}

theorem agrees_insertion (k : Nat) (pool : Pool) (labels : LabelMap) (kind : UnitKind) :
    Context.Agrees ⟨pool, labels, kind⟩ ⟨pool, labels.move (pastInsertion k), kind⟩ :=
  ⟨rfl, LabelMap.block_move (pastInsertion_injective k) labels⟩

/-- The pass arrives at the hint as it did at the instruction behind it. -/
theorem arrive_insertion {s a : State}
    (h : arrive ⟨pool, labels, kind⟩ k s = .ok () a) :
    arrive ⟨pool, labels.move (pastInsertion k), kind⟩ k s = .ok () a := by
  have same : arrive ⟨pool, labels.move (pastInsertion k), kind⟩ k =
      arrive ⟨pool, labels, kind⟩ k :=
    arrive_congr (labels.blockAt?_insertion_of_le k (Nat.le_refl k))
  rwa [same]

/-- The instruction behind the hint does what it did before. -/
theorem step_insertion {i : Instruction} {a s s' : State}
    (arrives : arrive ⟨pool, labels, kind⟩ k s = .ok () a)
    (not : ¬ ClosesSkipped ⟨pool, labels, kind⟩ k i a)
    (h : step ⟨pool, labels, kind⟩ k i s = .ok () s') :
    step ⟨pool, labels.move (pastInsertion k), kind⟩ (k + 1) i a = .ok () s' := by
  have unnamed := labels.blockAt?_insertion_succ k
  obtain ⟨a', arrives', rest⟩ := step_eq_ok.mp h
  rw [arrives] at arrives'
  cases arrives'
  refine step_eq_ok.mpr ⟨a, arrive_of_unnamed unnamed a, ?_⟩
  rcases rest with ⟨live, t, lowers, heq⟩ | ⟨dead, skips⟩
  · have next := labels.blockAt?_insertion_of_lt k (Nat.lt_succ_self k)
    exact Or.inl ⟨live, t, lower_congr (agrees_insertion k pool labels kind) next lowers, heq⟩
  · rw [skip_of_not_closes dead not] at skips
    cases skips
    exact Or.inr ⟨dead, skip_of_not_closes dead (not_closes_of_unnamed unnamed i)⟩

end Lowering

namespace CodeUnit.InsertsHint

variable {unit unit' : CodeUnit} {k : Nat} {hint : RefHint} {pool : Pool} {kind : UnitKind}
  {labels : LabelMap} {draft : Draft}

/-- Up to the hint the pass goes as before. -/
theorem before {start s : State} (inserts : unit.InsertsHint k hint unit')
    (before : Before ⟨pool, labels, kind⟩ unit.instructions start k s) :
    Lowering.run ⟨pool, labels.move (pastInsertion k), kind⟩ 0 (unit.instructions.take k) start =
      .ok s := by
  refine run_congr 0 (agrees_insertion k pool labels kind) (fun j _ le => ?_) before
  have within := inserts.within
  rw [CodeUnit.size] at within
  rw [List.length_take] at le
  exact labels.blockAt?_insertion_of_le k (by omega)

theorem length_take (inserts : unit.InsertsHint k hint unit') :
    (unit.instructions.take k).length = k := by
  rw [List.length_take]
  exact Nat.min_eq_left inserts.within

theorem pass {final : State} (inserts : unit.InsertsHint k hint unit')
    (pass : unit.Pass pool kind labels draft final) (not : ¬ unit.EndsSkippedLoop pool kind k) :
    unit'.Pass pool kind (labels.move (pastInsertion k)) draft final := by
  refine ⟨inserts.resolve pass.resolve, ?_, pass.complete⟩
  have run := pass.run
  rw [← List.take_append_drop k unit.instructions, run_append, inserts.length_take,
    Nat.zero_add] at run
  obtain ⟨s, before, run⟩ := run
  rw [inserts.code]
  refine run_append.mpr ⟨s, inserts.before before, ?_⟩
  rw [inserts.length_take, Nat.zero_add]
  have here := labels.blockAt?_insertion_of_le k (Nat.le_refl k)
  cases code : unit.instructions.drop k with
  | nil =>
      rw [code] at run
      cases run
      have unnamed : labels.blockAt? k = none := by
        refine Option.eq_none_iff_forall_ne_some.mpr fun b at_ => ?_
        have lt := pass.start.resolves.within at_
        have le := List.drop_eq_nil_iff.mp code
        rw [CodeUnit.size] at lt
        omega
      exact run_cons.mpr ⟨final, step_hint (arrive_of_unnamed (here.trans unnamed) final), rfl⟩
  | cons i rest =>
      rw [code] at run
      obtain ⟨t, first, others⟩ := run_cons.mp run
      obtain ⟨a, arrives, -⟩ := step_eq_ok.mp first
      have get : unit.instructions[k]? = some i := by
        rw [← List.head?_drop, code]
        rfl
      have stays : ¬ ClosesSkipped ⟨pool, labels, kind⟩ k i a := fun closes =>
        not ⟨labels, draft, i, s, a, pass.resolve, get, before, arrives, closes⟩
      refine run_cons.mpr ⟨a, step_hint (arrive_insertion arrives),
        run_cons.mpr ⟨t, step_insertion arrives stays first, ?_⟩⟩
      refine run_congr 1 (agrees_insertion k pool labels kind) (fun j le _ => ?_) others
      exact labels.blockAt?_insertion_of_lt k le

end CodeUnit.InsertsHint

/-! ### The loop that the hint leaves open -/

/-- Two offsets change places. -/
def exchange (i j o : Nat) : Nat := if o = i then j else if o = j then i else o

theorem exchange_injective (i j : Nat) : Function.Injective (exchange i j) := by
  intro a b h
  simp only [exchange] at h
  split at h <;> split at h <;> (try split at h) <;> (try split at h) <;> omega

theorem State.loops_of_complete {s : State} (complete : s.endFault? = none) : s.loops = [] := by
  rw [endFault?] at complete
  cases still : s.stillOpen? with
  | some open_ =>
      rw [still] at complete
      cases complete
  | none =>
      have loops := List.find?_eq_none.mp still _ List.mem_cons_self
      simpa using loops

namespace Lowering

/-- Labels may move, as long as none comes from before `k` to `j` or after it. -/
theorem Inv.move {ctx : Context} {σ : Nat → Nat} {j k : Nat} {base : Draft} {phase : Phase}
    {a : State} (inv : Inv ctx .nothing base (ctx.Ahead k) phase [] a)
    (injective : Function.Injective σ) (ahead : ∀ o, j ≤ σ o → k ≤ o) :
    Inv { ctx with labels := ctx.labels.move σ } .nothing base
      (Context.Ahead { ctx with labels := ctx.labels.move σ } j) phase [] a := by
  refine inv.relabel ?_ ?_
  · rintro b (⟨o, at_⟩ | others)
    · obtain ⟨o', -, there⟩ := LabelMap.exists_of_blockAt?_move injective at_
      exact Or.inl (Or.inl ⟨o', there⟩)
    · exact Or.inl (Or.inr others)
  · rintro b ⟨o, le, at_⟩
    obtain ⟨o', rfl, there⟩ := LabelMap.exists_of_blockAt?_move injective at_
    exact ⟨o', ahead o' le, there⟩

/-- A loop whose end the pass has gone past without entering it stays open. -/
theorem mem_loops_of_passed {ctx : Context} {code : List Instruction} {k : Nat} {a s' : State}
    {loop : LoopContext} (distinct : ctx.labels.Distinct)
    (inv : Inv ctx .nothing a.draft (ctx.Ahead k) .ended [] a) (dead : a.live = false)
    (named : ctx.labels.blockAt? k = some loop.loopEnd) (mem : loop ∈ a.loops)
    (h : run ctx (k + 1) code a = .ok s') : loop ∈ s'.loops := by
  -- The end of the loop may as well stand behind all the code.
  obtain ⟨n, behind⟩ : ∃ n, n = k + 1 + code.length + 1 := ⟨_, rfl⟩
  have injective := exchange_injective k n
  have agrees : ctx.Agrees { ctx with labels := ctx.labels.move (exchange k n) } :=
    ⟨rfl, LabelMap.block_move injective ctx.labels⟩
  have moved : ∀ o, (ctx.labels.move (exchange k n)).blockAt? (exchange k n o) =
      ctx.labels.blockAt? o := LabelMap.blockAt?_move injective ctx.labels
  have run : run { ctx with labels := ctx.labels.move (exchange k n) } (k + 1) code a = .ok s' := by
    refine run_congr 0 agrees (fun j le bound => ?_) h
    have stays : exchange k n j = j := by
      rw [exchange, if_neg (by omega), if_neg (by omega)]
    have there := moved j
    rwa [stays] at there
  have inv : Inv { ctx with labels := ctx.labels.move (exchange k n) } .nothing a.draft
      (Context.Ahead { ctx with labels := ctx.labels.move (exchange k n) } (k + 1))
      .ended [] a := by
    refine inv.move injective fun o le => ?_
    simp only [exchange] at le
    split at le <;> (try split at le) <;> omega
  have atEnd : (ctx.labels.move (exchange k n)).blockAt? n = some loop.loopEnd := by
    have there := moved k
    rw [exchange, if_pos rfl] at there
    exact there.trans named
  exact mem_loops_of_run (LabelMap.Distinct.move distinct injective) (.dead dead inv) atEnd
    (by omega) mem run

/-- With labels moved past an insertion at `k`, the same blocks are ahead of `k`. -/
theorem Inv.insertion {pool : Pool} {labels : LabelMap} {kind : UnitKind} {k : Nat} {base : Draft}
    {phase : Phase} {a : State}
    (inv : Inv ⟨pool, labels, kind⟩ .nothing base (Context.Ahead ⟨pool, labels, kind⟩ k)
      phase [] a) :
    Inv ⟨pool, labels.move (pastInsertion k), kind⟩ .nothing base
      (Context.Ahead ⟨pool, labels.move (pastInsertion k), kind⟩ k) phase [] a := by
  refine inv.move (pastInsertion_injective k) fun o le => ?_
  rw [pastInsertion] at le
  split at le <;> omega

end Lowering

/-- With a hint before the end of a loop in skipped code, the unit is not accepted. -/
theorem CodeUnit.InsertsHint.not_pass {unit unit' : CodeUnit} {k : Nat} {hint : RefHint}
    {pool : Pool} {kind : UnitKind} {labels' : LabelMap} {draft' : Draft} {final : State}
    (inserts : unit.InsertsHint k hint unit') (ends : unit.EndsSkippedLoop pool kind k) :
    ¬ unit'.Pass pool kind labels' draft' final := by
  intro pass
  obtain ⟨labels, draft, i, s, a, resolve, get, before, arrives, closes⟩ := ends
  obtain ⟨dead, -, loop, rest, -, loops, here⟩ := closes
  have resolved := pass.resolve
  rw [inserts.resolve resolve] at resolved
  cases resolved
  have run := pass.run
  rw [inserts.code, run_append, inserts.length_take, inserts.before before, Nat.zero_add] at run
  obtain ⟨_, same, run⟩ := run
  cases same
  obtain ⟨_, first, run⟩ := run_cons.mp run
  rw [step_hint (arrive_insertion arrives)] at first
  cases first
  have start := start_of_resolve kind resolve
  have lt : k < unit.size := (List.getElem?_eq_some_iff.mp get).1
  have between := between_before start.resolves.distinct start.between (Nat.le_of_lt lt) before
  have inv := ((between.inv_of_skipped arrives dead).restart (by simp)).insertion
  have named := labels.blockAt?_insertion_of_le k (Nat.le_refl k)
  have still := mem_loops_of_passed pass.start.resolves.distinct inv dead (named.trans here)
    (loops ▸ List.mem_cons_self) run
  rw [State.loops_of_complete pass.complete] at still
  cases still

/-- Reference-count hints carry no meaning, but for one place. A hint that is inserted into a
unit that compiles gives a unit that compiles to the same graph, unless the instruction that it
is inserted at ends a loop in skipped code; then the unit is not accepted any more. -/
theorem hint_insertion (unit unit' : CodeUnit) (pool : Pool) (options : Options) (k : Nat)
    (hint : RefHint) (g : Graph) (inserts : unit.InsertsHint k hint unit')
    (compiles : unit.compile pool options = .ok g) :
    (¬ unit.EndsSkippedLoop pool options.unitKind k → unit'.compile pool options = .ok g) ∧
    (unit.EndsSkippedLoop pool options.unitKind k →
      ∃ e, unit'.compile pool options = .error e) := by
  obtain ⟨raw, lowered, rfl⟩ := CodeUnit.compile_eq_ok.mp compiles
  obtain ⟨labels, draft, final, pass, rfl⟩ := CodeUnit.lower_eq_ok.mp lowered
  refine ⟨fun not => ?_, fun ends => ?_⟩
  · have pass' := inserts.pass pass not
    exact CodeUnit.compile_eq_ok.mpr ⟨_, CodeUnit.lower_eq_ok.mpr ⟨_, _, _, pass', rfl⟩, rfl⟩
  · cases result : unit'.compile pool options with
    | error e => exact ⟨e, rfl⟩
    | ok g' =>
        obtain ⟨raw', lowered', -⟩ := CodeUnit.compile_eq_ok.mp result
        obtain ⟨labels', draft', final', pass', -⟩ := CodeUnit.lower_eq_ok.mp lowered'
        exact absurd pass' (inserts.not_pass ends)

/-- A loop that is never left: its end is skipped. -/
def spin : CodeUnit where
  name := none
  instructions := [.startLoop ⟨0⟩, .load .null, .pop, .goto ⟨1⟩, .endLoop .whileOrRepeat]
  labels := [some 4, some 1]

def spinHintedHead : CodeUnit where
  name := none
  instructions := [.startLoop ⟨0⟩, .hint .incLink, .load .null, .pop, .goto ⟨1⟩,
    .endLoop .whileOrRepeat]
  labels := [some 5, some 1]

def spinHintedEnd : CodeUnit where
  name := none
  instructions := [.startLoop ⟨0⟩, .load .null, .pop, .goto ⟨1⟩, .hint .incLink,
    .endLoop .whileOrRepeat]
  labels := [some 4, some 1]

theorem spinHintedHead_inserts : spin.InsertsHint 1 .incLink spinHintedHead where
  name := rfl
  within := by decide
  code := rfl
  labels := by
    intro l
    simp only [CodeUnit.offset?]
    generalize l.toNat = n
    rcases n with _ | _ | n <;> rfl

theorem spinHintedEnd_inserts : spin.InsertsHint 4 .incLink spinHintedEnd where
  name := rfl
  within := by decide
  code := rfl
  labels := by
    intro l
    simp only [CodeUnit.offset?]
    generalize l.toNat = n
    rcases n with _ | _ | n <;> rfl

/-- The hint becomes what the label of the head names. -/
theorem hint_insertion_spinHintedHead : ∃ g, spin.compile ⟨[]⟩ {} = .ok g ∧
    spinHintedHead.compile ⟨[]⟩ {} = .ok g := by
  have found : ∃ g ∈ (spin.compile ⟨[]⟩ {}).toOption, True := by decide +kernel
  obtain ⟨g, compiles, -⟩ := exists_ok_of_toOption found
  refine ⟨g, compiles, (hint_insertion spin spinHintedHead ⟨[]⟩ {} 1 .incLink g
    spinHintedHead_inserts compiles).1 ?_⟩
  rintro ⟨labels, draft, i, s, a, -, get, -, -, -, kind, loop, rest, rfl, -⟩
  cases get

/-- With a hint at its end, the loop is left open. -/
theorem spinHintedEnd_stillOpen : spin.InsertsHint 4 .incLink spinHintedEnd ∧
    (∃ g, spin.compile ⟨[]⟩ {} = .ok g) ∧
    spinHintedEnd.compile ⟨[]⟩ {} = .error ⟨⟨6, ⟨2⟩, 1⟩, .unbalanced (.stillOpen .loop 1)⟩ := by
  have found : ∃ g ∈ (spin.compile ⟨[]⟩ {}).toOption, True := by decide +kernel
  have fails : Except.error? (spinHintedEnd.compile ⟨[]⟩ {}) =
      some ⟨⟨6, ⟨2⟩, 1⟩, .unbalanced (.stillOpen .loop 1)⟩ := by decide +kernel
  obtain ⟨g, compiles, -⟩ := exists_ok_of_toOption found
  exact ⟨spinHintedEnd_inserts, ⟨g, compiles⟩, eq_error_of_error? fails⟩

end StackLift
