import StackLift.Draft
import StackLift.Proofs.Graph.Walk

/-!
Growth of a draft, and the values in scope at a point of it.

A draft only grows: statements are appended to a block until it has its end,
phis and predecessors are added, and what is known of a merge stays. So a value
that is in scope at a point stays in scope there.

A value is in scope from its definition to the end of its block. A direct block
inherits the scope at the end of its source. So does the head of a counting loop
from the block before the loop: every other edge to the head comes from the loop
itself.
-/

namespace StackLift

/-- A longer list has the elements of a list where they were. -/
theorem getElem?_of_isPrefix {α : Type} {l l' : List α} (le : l <+: l') {i : Nat} {a : α}
    (get : l[i]? = some a) : l'[i]? = some a := by
  obtain ⟨more, rfl⟩ := le
  rw [List.getElem?_append_left (List.getElem?_eq_some_iff.mp get).1, get]

/-- How a block may have grown. -/
structure Block.Grows (block block' : Block) : Prop where
  stmts : block.stmts <+: block'.stmts
  /-- Nothing is appended after the end. -/
  ended : block.terminator.isSome →
    block'.stmts = block.stmts ∧ block'.terminator = block.terminator
  phis : ∀ p ∈ block.phis, ∃ p' ∈ block'.phis, p'.value = p.value ∧ p'.type = p.type ∧
    p.inputs <+: p'.inputs
  preds : block.preds <+: block'.preds

theorem Block.Grows.refl (block : Block) : block.Grows block :=
  ⟨List.prefix_refl _, fun _ => ⟨rfl, rfl⟩, fun p mem =>
    ⟨p, mem, rfl, rfl, List.prefix_refl _⟩, List.prefix_refl _⟩

theorem Block.Grows.trans {b₁ b₂ b₃ : Block} (h₁ : b₁.Grows b₂) (h₂ : b₂.Grows b₃) :
    b₁.Grows b₃ where
  stmts := h₁.stmts.trans h₂.stmts
  ended := by
    intro some
    obtain ⟨stmts, last⟩ := h₁.ended some
    obtain ⟨stmts', last'⟩ := h₂.ended (last ▸ some)
    exact ⟨stmts'.trans stmts, last'.trans last⟩
  phis := by
    intro p mem
    obtain ⟨p', mem', value, type, inputs⟩ := h₁.phis p mem
    obtain ⟨p'', mem'', value', type', inputs'⟩ := h₂.phis p' mem'
    exact ⟨p'', mem'', value'.trans value, type'.trans type, inputs.trans inputs'⟩
  preds := h₁.preds.trans h₂.preds

namespace Draft

/-- The value is in the table, with the type. -/
def HasType (d : Draft) (v : ValueId) (type : ValueType) : Prop :=
  ∃ info, d.graph.values[v.index]? = some info ∧ info.type = type

/-- How a draft may have grown. -/
structure Grows (d d' : Draft) : Prop where
  block : ∀ {b : BlockId} {block : Block}, d.graph.block? b = some block →
    ∃ block', d'.graph.block? b = some block' ∧ block.Grows block'
  values : d.graph.values <+: d'.graph.values
  shape : ∀ {b : BlockId} {phis : List ValueId}, d.shape? b = some phis → d'.shape? b = some phis
  /-- Only a block that is made later can become direct. -/
  direct : ∀ {b : BlockId} {block : Block}, d.graph.block? b = some block →
    (b ∈ d'.direct ↔ b ∈ d.direct)
  /-- A direct block has no second source. -/
  source : ∀ {b p : BlockId} {block block' : Block}, d.graph.block? b = some block →
    d'.graph.block? b = some block' → b ∈ d.direct → block.preds = [p] → block'.preds = [p]
  loopIndex : ∀ {b : BlockId} {e : ValueId × ValueId}, d.loopIndices.lookup b = some e →
    d'.loopIndices.lookup b = some e

theorem Grows.refl (d : Draft) : d.Grows d where
  block h := ⟨_, h, Block.Grows.refl _⟩
  values := List.prefix_refl _
  shape := id
  direct _ := Iff.rfl
  source h h' _ preds := by
    rw [h] at h'
    cases h'
    exact preds
  loopIndex := id

theorem Grows.trans {d₁ d₂ d₃ : Draft} (h₁ : d₁.Grows d₂) (h₂ : d₂.Grows d₃) : d₁.Grows d₃ where
  block h := by
    obtain ⟨block₂, live₂, grows₂⟩ := h₁.block h
    obtain ⟨block₃, live₃, grows₃⟩ := h₂.block live₂
    exact ⟨block₃, live₃, grows₂.trans grows₃⟩
  values := h₁.values.trans h₂.values
  shape h := h₂.shape (h₁.shape h)
  direct h := by
    obtain ⟨_, live₂, _⟩ := h₁.block h
    exact (h₂.direct live₂).trans (h₁.direct h)
  source h h' mem preds := by
    obtain ⟨_, live₂, _⟩ := h₁.block h
    exact h₂.source live₂ h' ((h₁.direct h).mpr mem) (h₁.source h live₂ mem preds)
  loopIndex h := h₂.loopIndex (h₁.loopIndex h)

theorem HasType.mono {d d' : Draft} {v : ValueId} {type : ValueType} (has : d.HasType v type)
    (grows : d.Grows d') : d'.HasType v type := by
  obtain ⟨info, get, heq⟩ := has
  exact ⟨info, getElem?_of_isPrefix grows.values get, heq⟩

theorem HasType.lt {d : Draft} {v : ValueId} {type : ValueType} (has : d.HasType v type) :
    v.index < d.graph.values.length := by
  obtain ⟨_, get, _⟩ := has
  exact (List.getElem?_eq_some_iff.mp get).1

theorem HasType.typeOf {d : Draft} {v : ValueId} {type : ValueType} (has : d.HasType v type) :
    d.graph.typeOf v = type := by
  obtain ⟨info, get, heq⟩ := has
  simp [Graph.typeOf, get, heq]

/-- A block whose scope starts with what is in scope at the end of `p`. -/
inductive Inherits (d : Draft) (b p : BlockId) : Prop
  /-- A direct block has one source. -/
  | direct {block : Block} (live : d.graph.block? b = some block) (mem : b ∈ d.direct)
      (source : block.preds = [p])
  /-- The head of a counting loop is first entered from before the loop. -/
  | head {block : Block} {phi : Phi} (live : d.graph.block? b = some block)
      (mem : phi ∈ block.phis) (index : phi.type = .index) (first : block.preds.head? = some p)

/-- The value is in scope at the point. -/
inductive InScope (d : Draft) (v : ValueId) : Point → Prop
  | phi {b : BlockId} {block : Block} {p : Phi} {n : Nat} (live : d.graph.block? b = some block)
      (mem : p ∈ block.phis) (value : p.value = v) : InScope d v ⟨b, n⟩
  | stmt {b : BlockId} {block : Block} {s : Stmt} {i n : Nat}
      (live : d.graph.block? b = some block) (get : block.stmts[i]? = some s)
      (value : s.value = v) (before : i < n) : InScope d v ⟨b, n⟩
  | inherit {b p : BlockId} {source : Block} {n : Nat} (inherits : d.Inherits b p)
      (live : d.graph.block? p = some source) (ended : source.terminator.isSome)
      (scope : InScope d v ⟨p, source.stmts.length⟩) : InScope d v ⟨b, n⟩

theorem Inherits.mono {d d' : Draft} {b p : BlockId} (inherits : d.Inherits b p)
    (grows : d.Grows d') : d'.Inherits b p := by
  cases inherits with
  | direct live mem source =>
      obtain ⟨block', live', _⟩ := grows.block live
      exact .direct live' ((grows.direct live).mpr mem) (grows.source live live' mem source)
  | head live mem index first =>
      obtain ⟨block', live', grown⟩ := grows.block live
      obtain ⟨phi', mem', _, type, _⟩ := grown.phis _ mem
      refine .head live' mem' (type.trans index) ?_
      obtain ⟨more, heq⟩ := grown.preds
      rw [← heq, List.head?_append, first, Option.some_or]

/-- What is in scope stays in scope. -/
theorem InScope.mono {d d' : Draft} {v : ValueId} {p : Point} (scope : d.InScope v p)
    (grows : d.Grows d') : d'.InScope v p := by
  induction scope with
  | phi live mem value =>
      obtain ⟨block', live', grown⟩ := grows.block live
      obtain ⟨p', mem', value', _⟩ := grown.phis _ mem
      exact .phi live' mem' (value'.trans value)
  | stmt live get value before =>
      obtain ⟨block', live', grown⟩ := grows.block live
      exact .stmt live' (getElem?_of_isPrefix grown.stmts get) value before
  | inherit inherits live ended _ ih =>
      obtain ⟨source', live', grown⟩ := grows.block live
      obtain ⟨stmts, last⟩ := grown.ended ended
      exact .inherit (inherits.mono grows) live' (last ▸ ended) (stmts ▸ ih)

/-- A value in scope is so until the end of the block. -/
theorem InScope.later {d : Draft} {v : ValueId} {b : BlockId} {m n : Nat}
    (scope : d.InScope v ⟨b, m⟩) (le : m ≤ n) : d.InScope v ⟨b, n⟩ := by
  cases scope with
  | phi live mem value => exact .phi live mem value
  | stmt live get value before => exact .stmt live get value (Nat.lt_of_lt_of_le before le)
  | inherit inherits live ended scope => exact .inherit inherits live ended scope

/-- A value in scope is defined somewhere. -/
theorem InScope.exists_definedAt {d : Draft} {v : ValueId} {p : Point} (scope : d.InScope v p) :
    ∃ q, d.graph.DefinedAt v q := by
  induction scope with
  | phi live mem value => exact ⟨_, .phi live mem value⟩
  | stmt live get value _ => exact ⟨_, .stmt live get value⟩
  | inherit _ _ _ _ ih => exact ih

end Draft

end StackLift
