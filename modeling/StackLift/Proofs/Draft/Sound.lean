import StackLift.Proofs.Draft.Scope
import StackLift.Proofs.Draft.Wire
import StackLift.Proofs.Graph.Linked

/-!
What holds of a draft all the time it is built: its edges are recorded at both
ends, values are defined once, and what it knows of its blocks is so. Each
operation keeps this under the conditions in which the pass uses it.
-/

namespace StackLift

theorem getElem?_concat_eq_some {α : Type} {l : List α} {a b : α} {i : Nat}
    (get : (l ++ [a])[i]? = some b) : l[i]? = some b ∨ i = l.length ∧ b = a := by
  rcases Nat.lt_or_ge i l.length with lt | ge
  · rw [List.getElem?_append_left lt] at get
    exact Or.inl get
  · rw [List.getElem?_append_right ge] at get
    have bound := (List.getElem?_eq_some_iff.mp get).1
    rw [List.length_singleton] at bound
    exact Or.inr ⟨by omega, List.mem_singleton.mp (List.mem_of_getElem? get)⟩

namespace Draft

/-- The next place for a statement. -/
def point (d : Draft) : Point := ⟨d.cursor, d.stmtIndex⟩

/-- The block under construction can take statements. -/
def Open (d : Draft) : Prop :=
  ∃ block, d.graph.block? d.cursor = some block ∧ block.terminator = none

/-- The block under construction has no end yet, if it is there. -/
def Unended (d : Draft) : Prop := d.graph.isTerminated d.cursor = false

/-- The block has its end. -/
def HasEnd (d : Draft) (b : BlockId) : Prop :=
  ∃ block, d.graph.block? b = some block ∧ block.terminator.isSome

/-- Nothing was written to the block yet. -/
def Blank (d : Draft) (b : BlockId) : Prop :=
  ∃ block, d.graph.block? b = some block ∧ block.stmts = [] ∧ block.terminator = none

structure Sound (d : Draft) : Prop where
  linked : d.graph.Linked
  numbered : ∀ {v : ValueId} {p : Point}, d.graph.DefinedAt v p → v.index < d.graph.values.length
  single : ∀ {v : ValueId} {p q : Point}, d.graph.DefinedAt v p → d.graph.DefinedAt v q → p = q
  distinct : ∀ {b : BlockId} {block : Block}, d.graph.block? b = some block →
    (block.phis.map (·.value)).Nodup
  /-- The entry is no merge and no direct block. -/
  entry : ∃ block, d.graph.block? d.graph.entry = some block ∧ block.phis = []
  entry_notDirect : d.graph.entry ∉ d.direct
  entry_shape : d.shape? d.graph.entry = some []
  /-- The entry is left only when it has its end. -/
  entry_left : d.cursor = d.graph.entry ∨ d.HasEnd d.graph.entry
  /-- Nothing is known of a block that is not made yet. -/
  unmade : ∀ {b : BlockId}, d.graph.block? b = none →
    d.shape? b = none ∧ b ∉ d.direct ∧ d.loopIndices.lookup b = none
  direct : ∀ {b : BlockId} {block : Block}, d.graph.block? b = some block → b ∈ d.direct →
    block.phis = [] ∧ block.preds.length ≤ 1
  /-- The first edge gives a merge its shape. -/
  unshaped : ∀ {b : BlockId} {block : Block}, d.graph.block? b = some block → b ∉ d.direct →
    d.shape? b = none → block.preds = []
  slots : ∀ {b : BlockId} {phis : List ValueId}, d.shape? b = some phis →
    ∀ v ∈ phis, d.HasType v .value
  phiTypes : ∀ {b : BlockId} {block : Block}, d.graph.block? b = some block →
    ∀ p ∈ block.phis, d.HasType p.value p.type
  /-- After its first input, an index phi takes the next index of its loop. -/
  indexInputs : ∀ {b : BlockId} {block : Block} {p : Phi}, d.graph.block? b = some block →
    p ∈ block.phis → p.type = .index → ∃ first rest, p.inputs = first :: rest ∧
      ∀ e ∈ rest, d.loopIndices.lookup b = some (p.value, e.2)
  /-- The next index of a loop is computed in its head. -/
  nextIndex : ∀ {b : BlockId} {phi next : ValueId}, d.loopIndices.lookup b = some (phi, next) →
    d.graph.DefinedAt next ⟨b, 2⟩

/-! ### Blocks after each operation -/

/-- The draft with one statement more in the block under construction. -/
def emitted (d : Draft) (op : Op) : Draft :=
  { d with graph := (d.graph.addStmt d.cursor op).2 }

theorem emit_eq_ok_iff {d d' : Draft} {op : Op} {v : ValueId} :
    d.emit op = .ok (v, d') ↔ d.graph.isTerminated d.cursor = false ∧
      v = d.graph.nextValue ∧ d' = d.emitted op := by
  rw [emit, Graph.append]
  cases d.graph.isTerminated d.cursor with
  | true => simp [bind, Except.bind]
  | false => simp [bind, Except.bind, pure, Except.pure, emitted, Graph.addStmt, eq_comm]

/-- A block that can take statements has no end. -/
theorem Open.unended {d : Draft} (isOpen : d.Open) : d.Unended := by
  obtain ⟨block, live, none⟩ := isOpen
  simp [Unended, Graph.isTerminated, live, none]

theorem Unended.emit_eq {d : Draft} (unended : d.Unended) (op : Op) :
    d.emit op = .ok (d.graph.nextValue, d.emitted op) :=
  emit_eq_ok_iff.mpr ⟨unended, rfl, rfl⟩

theorem block?_emitted (d : Draft) (op : Op) (c : BlockId) :
    (d.emitted op).graph.block? c =
      if c = d.cursor then (d.graph.block? c).map (·.append ⟨d.graph.nextValue, op⟩)
      else d.graph.block? c :=
  Graph.block?_addStmt d.graph d.cursor c op

theorem block?_nextBlock (g : Graph) : g.block? g.nextBlock = none := by
  simp [Graph.block?, Graph.nextBlock]

/-- A block that is there is not the next one to be made. -/
theorem ne_nextBlock {g : Graph} {b : BlockId} {block : Block} (live : g.block? b = some block) :
    b ≠ g.nextBlock := by
  rintro rfl
  rw [block?_nextBlock] at live
  cases live

theorem Blank.hasNoEnd {d : Draft} {b : BlockId} (blank : d.Blank b) : ¬d.HasEnd b := by
  rintro ⟨block, live, some⟩
  obtain ⟨block', live', -, none⟩ := blank
  rw [live] at live'
  cases live'
  simp [none] at some

theorem Open.hasNoEnd {d : Draft} (isOpen : d.Open) : ¬d.HasEnd d.cursor := by
  rintro ⟨block, live, some⟩
  obtain ⟨block', live', none⟩ := isOpen
  rw [live] at live'
  cases live'
  simp [none] at some

theorem stmtIndex_eq {d : Draft} {block : Block} (live : d.graph.block? d.cursor = some block) :
    d.stmtIndex = block.stmts.length := by
  simp [stmtIndex, live]

theorem Blank.stmtIndex_moveTo {d : Draft} {b : BlockId} (blank : d.Blank b) :
    (d.moveTo b).stmtIndex = 0 := by
  obtain ⟨block, live, none, -⟩ := blank
  rw [stmtIndex_eq (d := d.moveTo b) live, none, List.length_nil]

theorem HasEnd.mono {d d' : Draft} {b : BlockId} (ended : d.HasEnd b) (grows : d.Grows d') :
    d'.HasEnd b := by
  obtain ⟨block, live, some⟩ := ended
  obtain ⟨block', live', grown⟩ := grows.block live
  exact ⟨block', live', (grown.ended some).2 ▸ some⟩

theorem Grows.definedAt {d d' : Draft} (grows : d.Grows d') {v : ValueId} {p : Point}
    (defined : d.graph.DefinedAt v p) : d'.graph.DefinedAt v p := by
  cases defined with
  | phi live mem value =>
      obtain ⟨block', live', grown⟩ := grows.block live
      obtain ⟨p', mem', value', _⟩ := grown.phis _ mem
      exact .phi live' mem' (value'.trans value)
  | stmt live get value =>
      obtain ⟨block', live', grown⟩ := grows.block live
      exact .stmt live' (getElem?_of_isPrefix grown.stmts get) value

/-- New numbers keep definitions apart from the old ones, so a value is still
defined once when each new one is. -/
theorem single_of_new {g g' : Graph} (new : ValueId → Point → Prop)
    (numbered : ∀ {v : ValueId} {p : Point}, g.DefinedAt v p → v.index < g.values.length)
    (single : ∀ {v : ValueId} {p q : Point}, g.DefinedAt v p → g.DefinedAt v q → p = q)
    (step : ∀ {v : ValueId} {p : Point}, g'.DefinedAt v p →
      g.DefinedAt v p ∨ g.values.length ≤ v.index ∧ new v p)
    (unique : ∀ {v : ValueId} {p q : Point}, new v p → new v q → p = q)
    {v : ValueId} {p q : Point} (hp : g'.DefinedAt v p) (hq : g'.DefinedAt v q) : p = q := by
  rcases step hp with hp | ⟨le, hp⟩ <;> rcases step hq with hq | ⟨le', hq⟩
  · exact single hp hq
  · exact absurd (numbered hp) (Nat.not_lt.mpr le')
  · exact absurd (numbered hq) (Nat.not_lt.mpr le)
  · exact unique hp hq

/-- Where one block is changed, a block was there before, and is the same or changed. -/
theorem before_of_ite_map {p : Prop} [Decidable p] {found : Option Block}
    {change : Block → Block} {block : Block}
    (live : (if p then found.map change else found) = some block) :
    ∃ before, found = some before ∧ block = if p then change before else before := by
  split at live
  case isTrue changed =>
    obtain ⟨before, hbefore, rfl⟩ := Option.map_eq_some_iff.mp live
    exact ⟨before, hbefore, (if_pos changed).symm⟩
  case isFalse same => exact ⟨block, live, (if_neg same).symm⟩

/-! ### Emitting a statement -/

section

variable {d : Draft} {op : Op}

theorem block?_emitted_eq_some {c : BlockId} {block : Block}
    (live : (d.emitted op).graph.block? c = some block) :
    ∃ before, d.graph.block? c = some before ∧ block = if c = d.cursor then
      before.append ⟨d.graph.nextValue, op⟩ else before := by
  rw [block?_emitted] at live
  exact before_of_ite_map live

theorem grows_emitted (isOpen : d.Open) : d.Grows (d.emitted op) where
  block := by
    intro b block live
    rw [block?_emitted]
    by_cases hb : b = d.cursor
    · rw [if_pos hb, live]
      refine ⟨_, rfl, List.prefix_append _ _, fun some => ?_, fun p mem =>
        ⟨p, mem, rfl, rfl, List.prefix_refl _⟩, List.prefix_refl _⟩
      exact absurd ⟨block, hb ▸ live, some⟩ isOpen.hasNoEnd
    · rw [if_neg hb]
      exact ⟨block, live, .refl block⟩
  values := List.prefix_append _ _
  shape := id
  direct _ := Iff.rfl
  source := by
    intro b p block block' live live' _ preds
    obtain ⟨before, hbefore, rfl⟩ := block?_emitted_eq_some live'
    rw [live] at hbefore
    cases hbefore
    split <;> exact preds
  loopIndex := id

/-- The only new definition is that of the statement. -/
theorem definedAt_emitted {v : ValueId} {p : Point} (defined : (d.emitted op).graph.DefinedAt v p) :
    d.graph.DefinedAt v p ∨
      v = d.graph.nextValue ∧ p = ⟨d.cursor, d.stmtIndex + 1⟩ := by
  cases defined with
  | phi live mem value =>
      obtain ⟨before, hbefore, rfl⟩ := block?_emitted_eq_some live
      refine Or.inl (.phi hbefore ?_ value)
      split at mem <;> exact mem
  | @stmt b _ i s live get value =>
      obtain ⟨before, hbefore, rfl⟩ := block?_emitted_eq_some live
      by_cases hb : b = d.cursor
      · subst hb
        rw [if_pos rfl] at get
        rcases getElem?_concat_eq_some get with old | ⟨rfl, rfl⟩
        · exact Or.inl (.stmt hbefore old value)
        · refine Or.inr ⟨value.symm, ?_⟩
          rw [stmtIndex_eq hbefore]
      · rw [if_neg hb] at get
        exact Or.inl (.stmt hbefore get value)

theorem values_emitted : (d.emitted op).graph.values =
    d.graph.values ++ [⟨op.resultType, .stmt d.cursor⟩] := rfl

theorem hasType_emitted : (d.emitted op).HasType d.graph.nextValue op.resultType := by
  refine ⟨⟨op.resultType, .stmt d.cursor⟩, ?_, rfl⟩
  rw [values_emitted]
  exact List.getElem?_concat_length

/-- The statement stands at the place that was the next. -/
theorem stmt_emitted (op : Op) (isOpen : d.Open) : ∃ block,
    (d.emitted op).graph.block? d.cursor = some block ∧
      block.stmts[d.stmtIndex]? = some ⟨d.graph.nextValue, op⟩ ∧
      block.stmts.length = d.stmtIndex + 1 := by
  obtain ⟨block, live, -⟩ := isOpen
  have live' : (d.emitted op).graph.block? d.cursor =
      some (block.append ⟨d.graph.nextValue, op⟩) := by
    rw [block?_emitted, if_pos rfl, live, Option.map_some]
  refine ⟨_, live', ?_, ?_⟩
  · rw [stmtIndex_eq live]
    exact List.getElem?_concat_length
  · rw [stmtIndex_eq live, Block.append, List.length_append, List.length_singleton]

theorem stmtIndex_emitted (isOpen : d.Open) : (d.emitted op).stmtIndex = d.stmtIndex + 1 := by
  obtain ⟨block, live, -, length⟩ := stmt_emitted op isOpen
  rw [stmtIndex_eq live, length]

theorem definedAt_emitted_self (op : Op) (isOpen : d.Open) :
    (d.emitted op).graph.DefinedAt d.graph.nextValue ⟨d.cursor, d.stmtIndex + 1⟩ := by
  obtain ⟨block, live, get, -⟩ := stmt_emitted op isOpen
  exact .stmt live get rfl

theorem inScope_emitted (isOpen : d.Open) :
    (d.emitted op).InScope d.graph.nextValue (d.emitted op).point := by
  obtain ⟨block, live, get, -⟩ := stmt_emitted op isOpen
  refine .stmt live get rfl ?_
  rw [stmtIndex_emitted isOpen]
  exact Nat.lt_succ_self _

/-- Emitting changes neither the phis nor the predecessors of a block. -/
theorem phis_emitted {c : BlockId} {block : Block}
    (live : (d.emitted op).graph.block? c = some block) :
    ∃ before, d.graph.block? c = some before ∧ block.phis = before.phis ∧
      block.preds = before.preds := by
  obtain ⟨before, hbefore, rfl⟩ := block?_emitted_eq_some live
  refine ⟨before, hbefore, ?_⟩
  split <;> exact ⟨rfl, rfl⟩

theorem successorsOf_emitted (b : BlockId) :
    (d.emitted op).graph.successorsOf b = d.graph.successorsOf b := by
  rw [Graph.successorsOf, Graph.successorsOf, block?_emitted]
  by_cases hb : b = d.cursor
  · rw [if_pos hb]
    cases d.graph.block? b <;> rfl
  · rw [if_neg hb]

theorem linked_emitted (linked : d.graph.Linked) : (d.emitted op).graph.Linked where
  live := by
    intro b c mem
    rw [successorsOf_emitted] at mem
    rw [block?_emitted]
    split
    · rw [Option.isSome_map]
      exact linked.live mem
    · exact linked.live mem
  preds := by
    intro b block live p
    obtain ⟨before, hbefore, -, preds⟩ := phis_emitted live
    rw [successorsOf_emitted, preds, linked.preds hbefore]
  inputs := by
    intro b block p live mem
    obtain ⟨before, hbefore, phis, preds⟩ := phis_emitted live
    rw [preds, linked.inputs hbefore (phis ▸ mem)]

theorem Sound.emit (sound : d.Sound) (isOpen : d.Open) (op : Op) : (d.emitted op).Sound := by
  have grows : d.Grows (d.emitted op) := grows_emitted isOpen
  constructor
  case linked => exact linked_emitted sound.linked
  case numbered =>
    intro v p defined
    rw [values_emitted, List.length_append, List.length_singleton]
    rcases definedAt_emitted defined with old | ⟨rfl, -⟩
    · exact Nat.lt_succ_of_lt (sound.numbered old)
    · exact Nat.lt_succ_self _
  case single =>
    intro v p q
    refine single_of_new (fun _ p => p = ⟨d.cursor, d.stmtIndex + 1⟩) sound.numbered
      sound.single (fun defined => ?_) (fun hp hq => hp.trans hq.symm)
    exact (definedAt_emitted defined).imp id fun ⟨hv, hp⟩ => ⟨by rw [hv]; exact Nat.le_refl _, hp⟩
  case distinct =>
    intro b block live
    obtain ⟨before, hbefore, phis, -⟩ := phis_emitted live
    rw [phis]
    exact sound.distinct hbefore
  case entry =>
    obtain ⟨block, live, none⟩ := sound.entry
    obtain ⟨block', live', -⟩ := grows.block live
    obtain ⟨before, hbefore, phis, -⟩ := phis_emitted live'
    rw [show d.graph.entry = (d.emitted op).graph.entry from rfl] at live
    have same : before = block := Option.some.inj (hbefore.symm.trans live)
    exact ⟨block', live', by rw [phis, same, none]⟩
  case entry_notDirect => exact sound.entry_notDirect
  case entry_shape => exact sound.entry_shape
  case entry_left => exact sound.entry_left.imp id fun ended => ended.mono grows
  case unmade =>
    intro b none
    refine sound.unmade ?_
    rw [block?_emitted] at none
    split at none
    · exact Option.map_eq_none_iff.mp none
    · exact none
  case direct =>
    intro b block live mem
    obtain ⟨before, hbefore, phis, preds⟩ := phis_emitted live
    rw [phis, preds]
    exact sound.direct hbefore mem
  case unshaped =>
    intro b block live notDirect none
    obtain ⟨before, hbefore, -, preds⟩ := phis_emitted live
    rw [preds]
    exact sound.unshaped hbefore notDirect none
  case slots =>
    intro b phis shape v mem
    exact (sound.slots shape v mem).mono grows
  case phiTypes =>
    intro b block live p mem
    obtain ⟨before, hbefore, phis, -⟩ := phis_emitted live
    exact (sound.phiTypes hbefore p (phis ▸ mem)).mono grows
  case indexInputs =>
    intro b block p live mem
    obtain ⟨before, hbefore, phis, -⟩ := phis_emitted live
    exact sound.indexInputs hbefore (phis ▸ mem)
  case nextIndex =>
    intro b phi next registered
    exact grows.definedAt (sound.nextIndex registered)

end

/-! ### Making a block -/

/-- The draft with a new block, and with the given direct blocks. -/
def addBlock (d : Draft) (direct : List BlockId) : Draft :=
  { d with graph := d.graph.addBlock.2, direct }

theorem newMerge_eq (d : Draft) : d.newMerge.2 = d.addBlock d.direct := rfl

theorem newDirect_eq (d : Draft) :
    d.newDirect.2 = d.addBlock (d.graph.nextBlock :: d.direct) := rfl

section

variable {d : Draft} {direct : List BlockId}

theorem block?_addBlock (c : BlockId) : (d.addBlock direct).graph.block? c =
    if c = d.graph.nextBlock then some {} else d.graph.block? c :=
  Graph.block?_addBlock d.graph c

theorem block?_addBlock_of_eq_some {c : BlockId} {block : Block}
    (live : d.graph.block? c = some block) :
    (d.addBlock direct).graph.block? c = some block := by
  rw [block?_addBlock, if_neg (ne_nextBlock live), live]

/-- A block is the new one, which is empty, or it was there before. -/
theorem block?_addBlock_eq_some {c : BlockId} {block : Block}
    (live : (d.addBlock direct).graph.block? c = some block) :
    c = d.graph.nextBlock ∧ block = {} ∨ d.graph.block? c = some block := by
  rw [block?_addBlock] at live
  split at live
  · rename_i hc
    exact Or.inl ⟨hc, (Option.some.inj live).symm⟩
  · exact Or.inr live

theorem successorsOf_addBlock (b : BlockId) :
    (d.addBlock direct).graph.successorsOf b = d.graph.successorsOf b := by
  rw [Graph.successorsOf, Graph.successorsOf, block?_addBlock]
  by_cases hb : b = d.graph.nextBlock
  · rw [if_pos hb, hb, block?_nextBlock]
    rfl
  · rw [if_neg hb]

theorem definedAt_addBlock {v : ValueId} {p : Point} :
    (d.addBlock direct).graph.DefinedAt v p ↔ d.graph.DefinedAt v p := by
  constructor
  · intro defined
    cases defined with
    | phi live mem value =>
        rcases block?_addBlock_eq_some live with ⟨-, rfl⟩ | live
        · simp at mem
        · exact .phi live mem value
    | stmt live get value =>
        rcases block?_addBlock_eq_some live with ⟨-, rfl⟩ | live
        · simp at get
        · exact .stmt live get value
  · intro defined
    cases defined with
    | phi live mem value => exact .phi (block?_addBlock_of_eq_some live) mem value
    | stmt live get value => exact .stmt (block?_addBlock_of_eq_some live) get value

theorem linked_addBlock (linked : d.graph.Linked) : (d.addBlock direct).graph.Linked where
  live := by
    intro b c mem
    rw [successorsOf_addBlock] at mem
    obtain ⟨block, live⟩ := Option.isSome_iff_exists.mp (linked.live mem)
    rw [block?_addBlock_of_eq_some live]
    rfl
  preds := by
    intro b block live p
    rw [successorsOf_addBlock]
    rcases block?_addBlock_eq_some live with ⟨rfl, rfl⟩ | live
    · -- an edge to the new block would lead to no block before
      refine (List.count_eq_zero.mpr fun mem => ?_).symm
      have := linked.live mem
      rw [block?_nextBlock] at this
      cases this
    · exact linked.preds live p
  inputs := by
    intro b block p live mem
    rcases block?_addBlock_eq_some live with ⟨rfl, rfl⟩ | live
    · simp at mem
    · exact linked.inputs live mem

variable (others : ∀ {b : BlockId}, b ≠ d.graph.nextBlock → (b ∈ direct ↔ b ∈ d.direct))

include others

theorem grows_addBlock : d.Grows (d.addBlock direct) where
  block live := ⟨_, block?_addBlock_of_eq_some live, .refl _⟩
  values := List.prefix_refl _
  shape := id
  direct live := others (ne_nextBlock live)
  source := by
    intro b p block block' live live' _ preds
    rw [block?_addBlock_of_eq_some live] at live'
    cases live'
    exact preds
  loopIndex := id

theorem Sound.addBlock (sound : d.Sound) : (d.addBlock direct).Sound := by
  have grows := grows_addBlock others
  constructor
  case linked => exact linked_addBlock sound.linked
  case numbered => exact fun defined => sound.numbered (definedAt_addBlock.mp defined)
  case single =>
    exact fun hp hq => sound.single (definedAt_addBlock.mp hp) (definedAt_addBlock.mp hq)
  case distinct =>
    intro b block live
    rcases block?_addBlock_eq_some live with ⟨-, rfl⟩ | live
    · exact List.nodup_nil
    · exact sound.distinct live
  case entry =>
    obtain ⟨block, live, none⟩ := sound.entry
    exact ⟨block, block?_addBlock_of_eq_some live, none⟩
  case entry_notDirect =>
    obtain ⟨block, live, -⟩ := sound.entry
    exact fun mem => sound.entry_notDirect ((others (ne_nextBlock live)).mp mem)
  case entry_shape => exact sound.entry_shape
  case entry_left => exact sound.entry_left.imp id fun ended => ended.mono grows
  case unmade =>
    intro b none
    rw [block?_addBlock] at none
    split at none
    · cases none
    · rename_i hb
      obtain ⟨shape, notDirect, index⟩ := sound.unmade none
      exact ⟨shape, fun mem => notDirect ((others hb).mp mem), index⟩
  case direct =>
    intro b block live mem
    rcases block?_addBlock_eq_some live with ⟨-, rfl⟩ | live
    · exact ⟨rfl, Nat.zero_le _⟩
    · exact sound.direct live ((others (ne_nextBlock live)).mp mem)
  case unshaped =>
    intro b block live notDirect none
    rcases block?_addBlock_eq_some live with ⟨-, rfl⟩ | live
    · rfl
    · exact sound.unshaped live (fun mem => notDirect ((others (ne_nextBlock live)).mpr mem)) none
  case slots => exact fun shape v mem => (sound.slots shape v mem).mono grows
  case phiTypes =>
    intro b block live p mem
    rcases block?_addBlock_eq_some live with ⟨-, rfl⟩ | live
    · simp at mem
    · exact (sound.phiTypes live p mem).mono grows
  case indexInputs =>
    intro b block p live mem
    rcases block?_addBlock_eq_some live with ⟨-, rfl⟩ | live
    · simp at mem
    · exact sound.indexInputs live mem
  case nextIndex => exact fun registered => grows.definedAt (sound.nextIndex registered)

end

/-! ### Moving on -/

theorem grows_moveTo (d : Draft) (b : BlockId) : d.Grows (d.moveTo b) where
  block live := ⟨_, live, .refl _⟩
  values := List.prefix_refl _
  shape := id
  direct _ := Iff.rfl
  source live live' _ preds := by
    rw [show (d.moveTo b).graph = d.graph from rfl, live] at live'
    cases live'
    exact preds
  loopIndex := id

theorem Sound.moveTo {d : Draft} (sound : d.Sound) (ended : d.HasEnd d.cursor) (b : BlockId) :
    (d.moveTo b).Sound :=
  { sound with
    entry_left := by
      right
      rcases sound.entry_left with heq | left
      · exact heq ▸ ended
      · exact left
    slots := sound.slots
    phiTypes := sound.phiTypes }

/-! ### The index of a counting loop -/

section

variable {d : Draft} {b pred : BlockId} {initial : ValueId}

/-- The phi of a loop index, with its input from before the loop. -/
def indexPhi (d : Draft) (pred : BlockId) (initial : ValueId) : Phi :=
  { value := d.graph.nextValue, type := .index, inputs := [(pred, initial)] }

theorem block?_addIndexPhi (sound : d.Sound) (c : BlockId) :
    (d.addIndexPhi b pred initial).2.graph.block? c =
      if c = b then (d.graph.block? c).map (·.addPhi (d.indexPhi pred initial))
      else d.graph.block? c := by
  have blocks : (d.addIndexPhi b pred initial).2.graph.block? c =
      ((d.graph.addPhi b .index).2.addPhiInput b d.graph.nextValue pred initial).block? c := rfl
  rw [blocks, Graph.block?_addPhiInput, Graph.block?_addPhi]
  by_cases hc : c = b
  · subst hc
    rw [if_pos rfl, if_pos rfl, if_pos rfl]
    cases live : d.graph.block? c with
    | none => rfl
    | some block =>
        let new : Phi := { value := d.graph.nextValue, type := .index }
        have fresh : new.value ∉ block.phis.map (·.value) := by
          intro mem
          obtain ⟨p, hp, heq⟩ := List.mem_map.mp mem
          have lt := sound.numbered (.phi live hp heq)
          exact Nat.lt_irrefl _ lt
        have last : Block.addInput.go new.value pred initial (block.phis ++ [new]) =
            block.phis ++ [new.receive pred initial] := Block.addInput_go_append fresh
        rw [Option.map_some, Option.map_some, Option.map_some]
        simp only [Block.addPhi, Block.addInput]
        rw [show d.graph.nextValue = new.value from rfl, last]
        rfl
  · simp only [if_neg hc]

theorem block?_addIndexPhi_eq_some (sound : d.Sound) {c : BlockId} {block : Block}
    (live : (d.addIndexPhi b pred initial).2.graph.block? c = some block) :
    ∃ before, d.graph.block? c = some before ∧
      block = if c = b then before.addPhi (d.indexPhi pred initial) else before := by
  rw [block?_addIndexPhi sound] at live
  exact before_of_ite_map live

/-- The phis of a block are those it had and, in the head, the index phi. -/
theorem mem_phis_addIndexPhi {c : BlockId} {before : Block} {p : Phi}
    (mem : p ∈ (if c = b then before.addPhi (d.indexPhi pred initial) else before).phis) :
    p ∈ before.phis ∨ c = b ∧ p = d.indexPhi pred initial := by
  split at mem
  · rename_i hc
    rcases List.mem_append.mp mem with old | new
    · exact Or.inl old
    · exact Or.inr ⟨hc, List.mem_singleton.mp new⟩
  · exact Or.inl mem

theorem values_addIndexPhi : (d.addIndexPhi b pred initial).2.graph.values =
    d.graph.values ++ [⟨.index, .phi b⟩] := rfl

theorem hasType_addIndexPhi : (d.addIndexPhi b pred initial).2.HasType
    (d.addIndexPhi b pred initial).1 .index := by
  refine ⟨⟨.index, .phi b⟩, ?_, rfl⟩
  rw [values_addIndexPhi]
  exact List.getElem?_concat_length

theorem grows_addIndexPhi (sound : d.Sound) :
    d.Grows (d.addIndexPhi b pred initial).2 where
  block := by
    intro c block live
    rw [block?_addIndexPhi sound]
    by_cases hc : c = b
    · rw [if_pos hc, live]
      exact ⟨_, rfl, List.prefix_refl _, fun _ => ⟨rfl, rfl⟩,
        fun p mem => ⟨p, List.mem_append_left _ mem, rfl, rfl, List.prefix_refl _⟩,
        List.prefix_refl _⟩
    · rw [if_neg hc]
      exact ⟨block, live, .refl block⟩
  values := List.prefix_append _ _
  shape := id
  direct _ := Iff.rfl
  source := by
    intro c p block block' live live' _ preds
    obtain ⟨before, hbefore, rfl⟩ := block?_addIndexPhi_eq_some sound live'
    rw [live] at hbefore
    cases hbefore
    split <;> exact preds
  loopIndex := id

theorem definedAt_addIndexPhi (sound : d.Sound) {v : ValueId} {p : Point}
    (defined : (d.addIndexPhi b pred initial).2.graph.DefinedAt v p) :
    d.graph.DefinedAt v p ∨ v = d.graph.nextValue ∧ p = ⟨b, 0⟩ := by
  cases defined with
  | phi live mem value =>
      obtain ⟨before, hbefore, rfl⟩ := block?_addIndexPhi_eq_some sound live
      rcases mem_phis_addIndexPhi mem with old | ⟨rfl, rfl⟩
      · exact Or.inl (.phi hbefore old value)
      · exact Or.inr ⟨value.symm, rfl⟩
  | stmt live get value =>
      obtain ⟨before, hbefore, rfl⟩ := block?_addIndexPhi_eq_some sound live
      refine Or.inl (.stmt hbefore ?_ value)
      split at get <;> exact get

theorem successorsOf_addIndexPhi (sound : d.Sound) (c : BlockId) :
    (d.addIndexPhi b pred initial).2.graph.successorsOf c = d.graph.successorsOf c := by
  rw [Graph.successorsOf, Graph.successorsOf, block?_addIndexPhi sound]
  by_cases hc : c = b
  · rw [if_pos hc]
    cases d.graph.block? c <;> rfl
  · rw [if_neg hc]

theorem preds_addIndexPhi (c : BlockId) (before : Block) :
    (if c = b then before.addPhi (d.indexPhi pred initial) else before).preds = before.preds := by
  split <;> rfl

variable {block : Block} (sound : d.Sound) (live : d.graph.block? b = some block)
  (preds : block.preds = [pred])

include sound live preds

theorem linked_addIndexPhi : (d.addIndexPhi b pred initial).2.graph.Linked where
  live := by
    intro p c mem
    rw [successorsOf_addIndexPhi sound] at mem
    obtain ⟨_, hc⟩ := Option.isSome_iff_exists.mp (sound.linked.live mem)
    obtain ⟨_, hc', _⟩ := (grows_addIndexPhi sound).block hc
    exact Option.isSome_iff_exists.mpr ⟨_, hc'⟩
  preds := by
    intro c after hafter p
    obtain ⟨before, hbefore, rfl⟩ := block?_addIndexPhi_eq_some sound hafter
    rw [successorsOf_addIndexPhi sound, preds_addIndexPhi, sound.linked.preds hbefore]
  inputs := by
    intro c after p hafter mem
    obtain ⟨before, hbefore, rfl⟩ := block?_addIndexPhi_eq_some sound hafter
    rw [preds_addIndexPhi]
    rcases mem_phis_addIndexPhi mem with old | ⟨rfl, rfl⟩
    · exact sound.linked.inputs hbefore old
    · rw [live] at hbefore
      cases hbefore
      exact preds.symm

theorem Sound.addIndexPhi (notDirect : b ∉ d.direct) (notEntry : b ≠ d.graph.entry) :
    (d.addIndexPhi b pred initial).2.Sound := by
  have grows : d.Grows (d.addIndexPhi b pred initial).2 := grows_addIndexPhi sound
  constructor
  case linked => exact linked_addIndexPhi sound live preds
  case numbered =>
    intro v p defined
    rw [values_addIndexPhi, List.length_append, List.length_singleton]
    rcases definedAt_addIndexPhi sound defined with old | ⟨rfl, -⟩
    · exact Nat.lt_succ_of_lt (sound.numbered old)
    · exact Nat.lt_succ_self _
  case single =>
    intro v p q
    refine single_of_new (fun _ p => p = ⟨b, 0⟩) sound.numbered sound.single
      (fun defined => ?_) (fun hp hq => hp.trans hq.symm)
    exact (definedAt_addIndexPhi sound defined).imp id
      fun ⟨hv, hp⟩ => ⟨by rw [hv]; exact Nat.le_refl _, hp⟩
  case distinct =>
    intro c after hafter
    obtain ⟨before, hbefore, rfl⟩ := block?_addIndexPhi_eq_some sound hafter
    split
    · rw [Block.addPhi, List.map_append, List.nodup_append]
      refine ⟨sound.distinct hbefore, by simp, fun v hv w hw => ?_⟩
      obtain ⟨p, hp, rfl⟩ := List.mem_map.mp hv
      rw [List.map_singleton, List.mem_singleton] at hw
      rintro rfl
      have lt := sound.numbered (.phi hbefore hp hw)
      exact Nat.lt_irrefl _ lt
    · exact sound.distinct hbefore
  case entry =>
    obtain ⟨entry, hentry, none⟩ := sound.entry
    refine ⟨entry, ?_, none⟩
    have other : (d.addIndexPhi b pred initial).2.graph.entry ≠ b := fun e => notEntry e.symm
    rw [block?_addIndexPhi sound, if_neg other]
    exact hentry
  case entry_notDirect => exact sound.entry_notDirect
  case entry_shape => exact sound.entry_shape
  case entry_left => exact sound.entry_left.imp id fun ended => ended.mono grows
  case unmade =>
    intro c none
    refine sound.unmade ?_
    rw [block?_addIndexPhi sound] at none
    split at none
    · exact Option.map_eq_none_iff.mp none
    · exact none
  case direct =>
    intro c after hafter mem
    obtain ⟨before, hbefore, rfl⟩ := block?_addIndexPhi_eq_some sound hafter
    have other : c ≠ b := fun e => notDirect (e ▸ mem)
    rw [if_neg other]
    exact sound.direct hbefore mem
  case unshaped =>
    intro c after hafter other none
    obtain ⟨before, hbefore, rfl⟩ := block?_addIndexPhi_eq_some sound hafter
    rw [preds_addIndexPhi]
    exact sound.unshaped hbefore other none
  case slots => exact fun shape v mem => (sound.slots shape v mem).mono grows
  case phiTypes =>
    intro c after hafter p mem
    obtain ⟨before, hbefore, rfl⟩ := block?_addIndexPhi_eq_some sound hafter
    rcases mem_phis_addIndexPhi mem with old | ⟨rfl, rfl⟩
    · exact (sound.phiTypes hbefore p old).mono grows
    · exact hasType_addIndexPhi
  case indexInputs =>
    intro c after p hafter mem index
    obtain ⟨before, hbefore, rfl⟩ := block?_addIndexPhi_eq_some sound hafter
    rcases mem_phis_addIndexPhi mem with old | ⟨rfl, rfl⟩
    · exact sound.indexInputs hbefore old index
    · exact ⟨_, [], rfl, fun e he => absurd he List.not_mem_nil⟩
  case nextIndex => exact fun registered => grows.definedAt (sound.nextIndex registered)

end

section

variable {d : Draft} {b : BlockId} {phi next : ValueId}

theorem lookup_registerLoopIndex (c : BlockId) :
    (d.registerLoopIndex b phi next).loopIndices.lookup c =
      if c = b then some (phi, next) else d.loopIndices.lookup c := by
  by_cases hc : c = b
  · subst hc
    simp [registerLoopIndex]
  · have other : (c == b) = false := beq_eq_false_iff_ne.mpr hc
    simp [registerLoopIndex, List.lookup_cons, other, hc]

theorem grows_registerLoopIndex (unindexed : d.loopIndices.lookup b = none) :
    d.Grows (d.registerLoopIndex b phi next) where
  block live := ⟨_, live, .refl _⟩
  values := List.prefix_refl _
  shape := id
  direct _ := Iff.rfl
  source live live' _ preds := by
    rw [show (d.registerLoopIndex b phi next).graph = d.graph from rfl, live] at live'
    cases live'
    exact preds
  loopIndex := by
    intro c e registered
    rw [lookup_registerLoopIndex, if_neg]
    · exact registered
    · rintro rfl
      rw [unindexed] at registered
      cases registered

theorem Sound.registerLoopIndex (sound : d.Sound) (unindexed : d.loopIndices.lookup b = none)
    (defined : d.graph.DefinedAt next ⟨b, 2⟩) : (d.registerLoopIndex b phi next).Sound :=
  { sound with
    slots := sound.slots
    phiTypes := sound.phiTypes
    unmade := by
      intro c none
      obtain ⟨shape, notDirect, index⟩ := sound.unmade none
      refine ⟨shape, notDirect, ?_⟩
      rw [lookup_registerLoopIndex, if_neg, index]
      rintro rfl
      cases defined with
      | stmt live _ _ =>
          rw [show (d.registerLoopIndex c phi next).graph = d.graph from rfl, live] at none
          cases none
    indexInputs := by
      intro c block p live mem index
      obtain ⟨first, rest, inputs, later⟩ := sound.indexInputs live mem index
      refine ⟨first, rest, inputs, fun e he => ?_⟩
      have registered := later e he
      rw [lookup_registerLoopIndex, if_neg, registered]
      rintro rfl
      rw [unindexed] at registered
      cases registered
    nextIndex := by
      intro c phi' next' registered
      rw [lookup_registerLoopIndex] at registered
      split at registered
      · rename_i hc
        cases registered
        exact hc ▸ defined
      · exact sound.nextIndex registered }

end

end Draft

end StackLift
