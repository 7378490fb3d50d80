import StackLift.Graph.Lemmas

/-!
Ways through a graph, and dominance.

A point is a block together with the number of its statements that have run.
Control goes from a point to the next one in its block and, past the last
statement, along an edge to the start of another block. A walk is a way from
the entry to some point; it is written backwards, the point reached last first,
so that going on is a `cons`.

A phi is defined on arrival at the start of its block and a statement at the
point right after it. A definition dominates a point when every walk to the
point passes it. The uses of a statement lie at the point before it, those of a
terminator at the end of its block, and a phi uses its input at the end of the
predecessor that the input comes from.
-/

namespace StackLift

/-- A block, and how many of its statements have run. -/
structure Point where
  block : BlockId
  index : Nat
deriving DecidableEq

namespace Graph

/-- Where control starts. -/
def start (g : Graph) : Point := ⟨g.entry, 0⟩

/-- Control may go from one point right to another. -/
inductive Next (g : Graph) : Point → Point → Prop
  | stmt {b : BlockId} {block : Block} {i : Nat} (live : g.block? b = some block)
      (bound : i < block.stmts.length) : Next g ⟨b, i⟩ ⟨b, i + 1⟩
  | edge {b c : BlockId} {block : Block} (live : g.block? b = some block)
      (succ : c ∈ block.successors) : Next g ⟨b, block.stmts.length⟩ ⟨c, 0⟩

/-- A way from the entry; the point reached last comes first. -/
inductive Walk (g : Graph) : List Point → Prop
  | start : Walk g [g.start]
  | step {p q : Point} {w : List Point} (walk : Walk g (p :: w)) (next : g.Next p q) :
      Walk g (q :: p :: w)

/-- The points that control can come to. -/
def Reaches (g : Graph) (p : Point) : Prop := ∃ w, g.Walk (p :: w)

/-- The value gets its definition on arrival at the point. -/
inductive DefinedAt (g : Graph) (v : ValueId) : Point → Prop
  | phi {b : BlockId} {block : Block} {p : Phi} (live : g.block? b = some block)
      (mem : p ∈ block.phis) (value : p.value = v) : DefinedAt g v ⟨b, 0⟩
  | stmt {b : BlockId} {block : Block} {i : Nat} {s : Stmt} (live : g.block? b = some block)
      (get : block.stmts[i]? = some s) (value : s.value = v) : DefinedAt g v ⟨b, i + 1⟩

/-- Every way to the point passes the definition of the value. -/
def Dominates (g : Graph) (v : ValueId) (p : Point) : Prop :=
  ∀ w, g.Walk (p :: w) → ∃ q ∈ p :: w, g.DefinedAt v q

/-- The value is used at the point. -/
inductive UsedAt (g : Graph) (v : ValueId) : Point → Prop
  | stmt {b : BlockId} {block : Block} {i : Nat} {s : Stmt} (live : g.block? b = some block)
      (get : block.stmts[i]? = some s) (mem : v ∈ s.op.operands) : UsedAt g v ⟨b, i⟩
  | terminator {b : BlockId} {block : Block} {t : Terminator} (live : g.block? b = some block)
      (last : block.terminator = some t) (mem : v ∈ t.operands) :
      UsedAt g v ⟨b, block.stmts.length⟩
  | phi {b pred : BlockId} {block source : Block} {p : Phi} (live : g.block? b = some block)
      (mem : p ∈ block.phis) (input : (pred, v) ∈ p.inputs)
      (source_live : g.block? pred = some source) : UsedAt g v ⟨pred, source.stmts.length⟩

/-- Every use of a value is dominated by its definition. -/
def Dominated (g : Graph) : Prop := ∀ v p, g.UsedAt v p → g.Dominates v p

variable {g : Graph}

theorem DefinedAt.index_le {v : ValueId} {b : BlockId} {block : Block} {n : Nat}
    (defined : g.DefinedAt v ⟨b, n⟩) (live : g.block? b = some block) : n ≤ block.stmts.length := by
  cases defined with
  | phi _ _ _ => exact Nat.zero_le _
  | stmt live' get _ =>
      rw [live] at live'
      cases live'
      exact (List.getElem?_eq_some_iff.mp get).1

theorem UsedAt.index_le {v : ValueId} {b : BlockId} {block : Block} {n : Nat}
    (used : g.UsedAt v ⟨b, n⟩) (live : g.block? b = some block) : n ≤ block.stmts.length := by
  cases used with
  | stmt live' get _ =>
      rw [live] at live'
      cases live'
      exact Nat.le_of_lt (List.getElem?_eq_some_iff.mp get).1
  | terminator live' _ _ =>
      rw [live] at live'
      cases live'
      exact Nat.le_refl _
  | phi _ _ _ live' =>
      rw [live] at live'
      cases live'
      exact Nat.le_refl _

/-! ### Deciding -/

theorem definedAt_zero {v : ValueId} {b : BlockId} :
    g.DefinedAt v ⟨b, 0⟩ ↔ ∃ block ∈ g.block? b, ∃ p ∈ block.phis, p.value = v :=
  ⟨fun | .phi live mem value => ⟨_, live, _, mem, value⟩,
    fun ⟨_, live, _, mem, value⟩ => .phi live mem value⟩

theorem definedAt_succ {v : ValueId} {b : BlockId} {i : Nat} :
    g.DefinedAt v ⟨b, i + 1⟩ ↔ ∃ block ∈ g.block? b, ∃ s ∈ block.stmts[i]?, s.value = v :=
  ⟨fun | .stmt live get value => ⟨_, live, _, get, value⟩,
    fun ⟨_, live, _, get, value⟩ => .stmt live get value⟩

instance decidableDefinedAt (g : Graph) (v : ValueId) : (p : Point) → Decidable (g.DefinedAt v p)
  | ⟨_, 0⟩ => decidable_of_iff _ definedAt_zero.symm
  | ⟨_, _ + 1⟩ => decidable_of_iff _ definedAt_succ.symm

theorem next_iff {p q : Point} : g.Next p q ↔ ∃ block ∈ g.block? p.block,
    q = ⟨p.block, p.index + 1⟩ ∧ p.index < block.stmts.length ∨
      q.index = 0 ∧ p.index = block.stmts.length ∧ q.block ∈ block.successors := by
  constructor
  · rintro (⟨live, bound⟩ | ⟨live, succ⟩)
    · exact ⟨_, live, Or.inl ⟨rfl, bound⟩⟩
    · exact ⟨_, live, Or.inr ⟨rfl, rfl, succ⟩⟩
  · obtain ⟨b, i⟩ := p
    obtain ⟨c, j⟩ := q
    rintro ⟨block, live, ⟨heq, bound⟩ | ⟨rfl, rfl, succ⟩⟩
    · cases heq
      exact .stmt live bound
    · exact .edge live succ

instance decidableNext (g : Graph) (p q : Point) : Decidable (g.Next p q) :=
  decidable_of_iff _ next_iff.symm

theorem walk_singleton {p : Point} : g.Walk [p] ↔ p = g.start :=
  ⟨fun | .start => rfl, fun h => h ▸ .start⟩

theorem walk_cons_cons {p q : Point} {w : List Point} :
    g.Walk (q :: p :: w) ↔ g.Walk (p :: w) ∧ g.Next p q :=
  ⟨fun | .step walk next => ⟨walk, next⟩, fun ⟨walk, next⟩ => .step walk next⟩

instance decidableWalk (g : Graph) : (w : List Point) → Decidable (g.Walk w)
  | [] => isFalse nofun
  | [_] => decidable_of_iff _ walk_singleton.symm
  | _ :: p :: w => have := decidableWalk g (p :: w); decidable_of_iff _ walk_cons_cons.symm

/-! ### Parts of a walk -/

theorem Walk.suffix {w w' : List Point} (walk : g.Walk w) (suffix : w' <:+ w) (ne : w' ≠ []) :
    g.Walk w' := by
  induction walk with
  | start =>
      rcases List.suffix_cons_iff.mp suffix with rfl | nil
      · exact .start
      · exact absurd (List.suffix_nil.mp nil) ne
  | step walk next ih =>
      rcases List.suffix_cons_iff.mp suffix with rfl | rest
      · exact .step walk next
      · exact ih rest

/-- Among the elements of a list that have a property there is a last one. -/
theorem exists_last_of_mem {α : Type} {P : α → Prop} {l : List α} (h : ∃ a ∈ l, P a) :
    ∃ a t, (a :: t) <:+ l ∧ P a ∧ ∀ b ∈ t, ¬P b := by
  induction l with
  | nil => simp at h
  | cons x l ih =>
      by_cases later : ∃ a ∈ l, P a
      · obtain ⟨a, t, suffix, ha, none⟩ := ih later
        exact ⟨a, t, suffix.trans (List.suffix_cons x l), ha, none⟩
      · refine ⟨x, l, List.suffix_refl _, ?_, fun b hb hP => later ⟨b, hb, hP⟩⟩
        obtain ⟨a, ha, hP⟩ := h
        rcases List.mem_cons.mp ha with rfl | ha
        · exact hP
        · exact absurd ⟨a, ha, hP⟩ later

/-- A walk that passes a point with a property comes to such a point for a
first time. -/
theorem Walk.exists_first {P : Point → Prop} {w : List Point} (walk : g.Walk w)
    (h : ∃ p ∈ w, P p) :
    ∃ p t, (p :: t) <:+ w ∧ g.Walk (p :: t) ∧ P p ∧ ∀ q ∈ t, ¬P q := by
  obtain ⟨p, t, suffix, hp, none⟩ := exists_last_of_mem h
  exact ⟨p, t, suffix, walk.suffix suffix (List.cons_ne_nil p t), hp, none⟩

/-- A walk to a point of a block has passed all points of the block before it. -/
theorem Walk.mem_of_le {b : BlockId} {n m : Nat} {w : List Point} (walk : g.Walk (⟨b, n⟩ :: w))
    (le : m ≤ n) : ⟨b, m⟩ ∈ (⟨b, n⟩ :: w : List Point) := by
  induction n generalizing w with
  | zero =>
      obtain rfl : m = 0 := Nat.le_zero.mp le
      exact List.mem_cons_self
  | succ n ih =>
      rcases Nat.lt_or_ge n m with lt | ge
      · obtain rfl : m = n + 1 := by omega
        exact List.mem_cons_self
      · cases walk with
        | step walk next =>
            cases next with
            | stmt live bound => exact List.mem_cons_of_mem _ (ih walk ge)

theorem Walk.index_le {b : BlockId} {n : Nat} {w : List Point} (walk : g.Walk (⟨b, n⟩ :: w))
    {block : Block} (live : g.block? b = some block) : n ≤ block.stmts.length := by
  generalize heq : (⟨b, n⟩ : Point) = p at walk
  cases walk with
  | start =>
      cases heq
      exact Nat.zero_le _
  | step walk next =>
      cases next with
      | stmt live' bound =>
          cases heq
          rw [live] at live'
          cases live'
          exact bound
      | edge _ _ =>
          cases heq
          exact Nat.zero_le _

/-- The start of a block is the start of the graph, or was reached along an edge. -/
theorem Walk.cases_zero {b : BlockId} {w : List Point} (walk : g.Walk (⟨b, 0⟩ :: w)) :
    (b = g.entry ∧ w = []) ∨
      ∃ pred block t, w = ⟨pred, block.stmts.length⟩ :: t ∧ g.block? pred = some block ∧
        b ∈ block.successors ∧ g.Walk w := by
  generalize heq : (⟨b, 0⟩ : Point) = p at walk
  cases walk with
  | start =>
      left
      simp only [Graph.start, Point.mk.injEq] at heq
      exact ⟨heq.1, rfl⟩
  | step walk next =>
      right
      cases next with
      | stmt live bound => simp at heq
      | edge live succ =>
          simp only [Point.mk.injEq] at heq
          obtain ⟨rfl, -⟩ := heq
          exact ⟨_, _, _, rfl, live, succ, walk⟩

/-! ### Dominance -/

theorem Dominates.mono {v : ValueId} {b : BlockId} {m n : Nat} (dom : g.Dominates v ⟨b, m⟩)
    (le : m ≤ n) : g.Dominates v ⟨b, n⟩ := by
  intro w walk
  obtain ⟨before, after, heq⟩ := List.append_of_mem (walk.mem_of_le le)
  have part : g.Walk (⟨b, m⟩ :: after) := walk.suffix ⟨before, heq.symm⟩ (List.cons_ne_nil _ _)
  obtain ⟨q, hq, hdef⟩ := dom after part
  refine ⟨q, ?_, hdef⟩
  rw [heq]
  exact List.mem_append_right before hq

theorem dominates_of_definedAt {v : ValueId} {b : BlockId} {m n : Nat}
    (defined : g.DefinedAt v ⟨b, m⟩) (le : m ≤ n) : g.Dominates v ⟨b, n⟩ :=
  fun _ walk => ⟨⟨b, m⟩, walk.mem_of_le le, defined⟩

/-- A walk that avoids a definition shows that it does not dominate. -/
theorem not_dominates_of_walk {v : ValueId} {p : Point} {w : List Point} (walk : g.Walk (p :: w))
    (avoids : ∀ q ∈ p :: w, ¬g.DefinedAt v q) : ¬g.Dominates v p := by
  intro dom
  obtain ⟨q, hq, hdef⟩ := dom w walk
  exact avoids q hq hdef

/-- What dominates a point also dominates the point before it, unless the step
between them defines it. -/
theorem Dominates.of_next {v : ValueId} {p q : Point} (dom : g.Dominates v q) (next : g.Next p q)
    (other : ¬g.DefinedAt v q) : g.Dominates v p := by
  intro w walk
  obtain ⟨r, hr, hdef⟩ := dom (p :: w) (.step walk next)
  rcases List.mem_cons.mp hr with rfl | hr
  · exact absurd hdef other
  · exact ⟨r, hr, hdef⟩

/-- What dominates a point also dominates those before it in the block, unless it
is defined between them. -/
theorem Dominates.of_le {v : ValueId} {b : BlockId} {block : Block} {m n : Nat}
    (dom : g.Dominates v ⟨b, n⟩) (live : g.block? b = some block) (bound : n ≤ block.stmts.length)
    (le : m ≤ n) (other : ∀ k, m < k → ¬g.DefinedAt v ⟨b, k⟩) : g.Dominates v ⟨b, m⟩ := by
  induction n with
  | zero =>
      obtain rfl := Nat.le_zero.mp le
      exact dom
  | succ n ih =>
      rcases Nat.lt_or_eq_of_le le with lt | rfl
      · exact ih (dom.of_next (.stmt live bound) (other _ lt)) (Nat.le_of_succ_le bound)
          (Nat.le_of_lt_succ lt)
      · exact dom

end Graph

end StackLift
