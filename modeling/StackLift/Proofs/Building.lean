import StackLift.Proofs.Core.Follow
import StackLift.Proofs.Emission

/-!
What the pass has written stays. A block that was ended has its statements and its end in every
later draft (`Left.tail_emitAll`), and a direct block never gets phis. `Visits.translation` gives
an instruction that the pass has lowered together with any later draft.
-/

namespace StackLift

/-- The draft at a later time of the pass. -/
structure Draft.Later (d : Draft) (ctx : Context) (final : Draft) : Prop where
  grows : d.Grows final
  sound : final.Sound
  plain : ∀ {b : BlockId}, (∃ offset, ctx.labels.blockAt? offset = some b) → final.Plain b

namespace Draft

theorem Later.of_grows {ctx : Context} {d d' final : Draft} (later : d'.Later ctx final)
    (grows : d.Grows d') : d.Later ctx final :=
  { later with grows := grows.trans later.grows }

/-- A direct block has no phis. -/
theorem Later.carries_nil {ctx : Context} {d final : Draft} (later : d.Later ctx final)
    {b : BlockId} (source : BlockId) (live : (d.graph.block? b).isSome) (direct : b ∈ d.direct) :
    final.graph.Carries source b [] := by
  obtain ⟨block, live⟩ := Option.isSome_iff_exists.mp live
  obtain ⟨block', live', -⟩ := later.grows.block live
  obtain ⟨none, -⟩ := later.sound.direct live' ((later.grows.direct live).mpr direct)
  exact ⟨block', live', by rw [none]; rfl⟩

end Draft

/-- A block that was made between two states. -/
def State.Makes (s s' : State) (b : BlockId) : Prop :=
  s.draft.graph.block? b = none ∧ (s'.draft.graph.block? b).isSome

theorem State.Makes.mono {s s₁ s₂ s' : State} {b : BlockId} (makes : s₁.Makes s₂ b)
    (before : s.draft.Grows s₁.draft) (after : s₂.draft.Grows s'.draft) : s.Makes s' b := by
  refine ⟨?_, after.isSome makes.2⟩
  cases live : s.draft.graph.block? b with
  | none => rfl
  | some block =>
      obtain ⟨block', live', -⟩ := before.block live
      rw [makes.1] at live'
      cases live'

namespace Lowering

variable {ctx : Context} {carry : Carry} {base final : Draft} {aside : BlockId → Prop}
  {phase : Phase} {hand : List (ValueId × ValueType)} {s s' : State}

/-- A block that was ended keeps its statements and its end. -/
theorem Left.tail {t : Terminator} (left : Left ctx carry base aside hand t s s')
    (later : s'.draft.Later ctx final) {block : Block}
    (live : s.draft.graph.block? s.draft.cursor = some block) (n : Nat) :
    final.graph.Tail s.draft.cursor n (block.stmts.drop n) t := by
  have live' : s'.draft.graph.block? s.draft.cursor =
      some (s.draft.ended t s.stack.slots s.draft.cursor block) := by
    rw [left.ended.block, live, Option.map_some]
  obtain ⟨block', grown, grows⟩ := later.grows.block live'
  have last : (s.draft.ended t s.stack.slots s.draft.cursor block).terminator = some t := by
    rw [Draft.terminator_ended, if_pos rfl]
  obtain ⟨stmts, end_⟩ := grows.ended (by rw [last]; rfl)
  exact ⟨block', grown, by rw [stmts, Draft.stmts_ended], end_.trans last⟩

/-- A block that is ended after operations were emitted has them as its last statements. -/
theorem Left.tail_emitAll {s₁ : State} {t : Terminator}
    (left : Left ctx carry base aside hand t s₁ s') (ops : List Op) (isOpen : s.draft.Open)
    (cursor : s₁.draft.cursor = s.draft.cursor)
    (kept : ∀ {block : Block}, (s.draft.emitAll ops).graph.block? s.draft.cursor = some block →
      s₁.draft.graph.block? s.draft.cursor = some block)
    (later : s'.draft.Later ctx final) :
    final.graph.Tail s.draft.cursor s.draft.stmtIndex (Stmt.ofOps s.made ops) t := by
  obtain ⟨block, live, drop⟩ := Draft.exists_emitAll isOpen ops
  have tail := left.tail later (by rw [cursor]; exact kept live) s.draft.stmtIndex
  rwa [cursor, drop] at tail

/-- What is in hand or on the stack was numbered before. -/
theorem Inv.known {v : ValueId} {type : ValueType} (inv : Inv ctx carry base aside phase hand s)
    (mem : (v, type) ∈ hand) : ∀ u ∈ v :: s.stack.slots, u.index < s.made := by
  intro u listed
  rcases List.mem_cons.mp listed with rfl | listed
  · exact (inv.hand _ mem).type.lt
  · exact inv.known_index u (List.mem_reverse.mp listed)

/-- An operation that is emitted defines the next value. -/
theorem made_emit {op : Op} {v : ValueId} (h : emit op s = .ok v s') :
    v = ⟨s.made⟩ ∧ s' = { s with draft := s.draft.emitAll [op] } ∧ s'.made = s.made + 1 := by
  obtain ⟨rfl, rfl⟩ := emit_eq_ok h
  exact ⟨rfl, rfl, Draft.length_values_emitAll s.draft [op]⟩

/-- A new block leaves the others as they are. -/
theorem makes_newDirect {b : BlockId} (h : newDirect s = .ok b s') :
    s.Makes s' b ∧ s.draft.Grows s'.draft ∧ s'.stack = s.stack ∧
      s'.draft.cursor = s.draft.cursor ∧ ∀ {c : BlockId} {block : Block},
        s.draft.graph.block? c = some block → s'.draft.graph.block? c = some block := by
  cases h
  refine ⟨⟨Draft.block?_nextBlock _, ?_⟩, Draft.grows_addBlock Draft.others_newDirect, rfl, rfl,
    fun live => Draft.block?_addBlock_of_eq_some live⟩
  exact (Draft.untouched_newDirect s.draft).live

theorem pop_eq_ok {v : ValueId} (h : pop s = .ok v s') :
    ∃ below, s.stack.items = v :: below ∧ s' = { s with stack := ⟨below⟩ } := by
  obtain ⟨draft, ⟨items⟩, loops, calls, assigns, dispatches, depths, live⟩ := s
  cases items with
  | nil => cases h
  | cons top below =>
      cases h
      exact ⟨below, rfl, rfl⟩

theorem Between.plain_label {offset : Nat} (between : Between ctx offset s) {b : BlockId}
    (named : ∃ offset, ctx.labels.blockAt? offset = some b) : s.draft.Plain b := by
  cases between with
  | live _ goes =>
      cases goes with
      | here inv => exact inv.plain_label named
      | inNext inv _ => exact inv.plain_label named
  | dead _ inv => exact inv.plain_label named

/-- An instruction that was translated, as seen from a later time. -/
theorem Visits.translation {unit : CodeUnit} {pool : Pool} {kind : UnitKind} {labels : LabelMap}
    {draft : Draft} {k j : Nat} {i : Instruction} {a t s : State}
    (visits : Visits ⟨pool, labels, kind⟩ unit.instructions { draft } k i a)
    (known : LabelMap.resolve unit pool (.new unit.displayName) = .ok labels draft)
    (translated : Before ⟨pool, labels, kind⟩ unit.instructions { draft } (k + 1) t)
    (later : Before ⟨pool, labels, kind⟩ unit.instructions { draft } j s) (lt : k < j)
    (le : j ≤ unit.size) :
    ∃ t', Lowering.lower ⟨pool, labels, kind⟩ k i a = .ok () t' ∧
      (t = if i.diverts then { t' with live := false } else t') ∧
      Inv ⟨pool, labels, kind⟩ (carryOf a i) a.draft
        (Context.Ahead ⟨pool, labels, kind⟩ (k + 1)) .begun [] a ∧
      t'.draft.Later ⟨pool, labels, kind⟩ s.draft := by
  have start := CodeUnit.start_of_resolve kind known
  have distinct : labels.Distinct := start.resolves.distinct
  obtain ⟨before, isBefore, arrives⟩ := visits.arrives
  have bound : k ≤ unit.size := Nat.le_of_lt (Nat.lt_of_lt_of_le lt le)
  have inv := ((between_before distinct start.between bound isBefore).arrive distinct arrives).inv
    visits.live
  obtain ⟨t', lowered, heq⟩ := visits.lower translated
  have same : t.draft = t'.draft := by rw [heq]; split <;> rfl
  have between := between_before distinct start.between le later
  refine ⟨t', lowered, heq, inv.begin rfl i, ?_, between.sound, between.plain_label⟩
  rw [← same]
  exact grows_before distinct start.between lt le translated later

end Lowering

end StackLift
