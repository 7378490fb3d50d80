import StackLift.Proofs.Graph.Move

/-!
The laps of a counting loop. The block before the loop takes the length of the sequence and a zero;
the head has a phi for the index, computes the next index and compares it with the length
(`Graph.HasFor`). A lap begins where control comes to the head. Laps are counted from the last time
that this happened along the edge from before the loop (`Graph.Since`), and the values of a run
agree with the count (`Since.counted`): this is an invariant of single steps, since every value is
defined at one point only. Main statement: in the `k`-th lap the index is `k - 1` and the next index
is `k`; the lap goes through the body just when the sequence had `k` elements when the loop was
entered, and stores element `k` of the sequence as it is now (`Since.lap`). It is the same sequence
if every use of a value is dominated (`Since.env_seq`).
-/

namespace StackLift

variable {V : Type}

/-! ### The loop -/

/-- The blocks and values of a counting loop. -/
structure ForLoop where
  before : BlockId
  /-- Where in the block before the loop the loop is set up. -/
  place : Nat
  head : BlockId
  body : BlockId
  loopEnd : BlockId
  seq : ValueId
  length : ValueId
  zero : ValueId
  index : ValueId
  one : ValueId
  next : ValueId
  more : ValueId
  element : ValueId
  /-- The variable of the loop. -/
  name : String

/-- The graph has the counting loop. -/
structure Graph.HasFor (g : Graph) (L : ForLoop) : Prop where
  before : g.Tail L.before L.place [⟨L.length, .length L.seq⟩, ⟨L.zero, .indexConst 0⟩]
    (.goto L.head)
  /-- The index is zero along the edge from before the loop and the next index along every other
  edge. -/
  index : ∃ block p, g.block? L.head = some block ∧ p ∈ block.phis ∧ p.value = L.index ∧
    p.type = .index ∧ ∀ b, L.head ∈ g.successorsOf b →
      p.inputs.lookup b = some (if b = L.before then L.zero else L.next)
  head : g.Tail L.head 0 [⟨L.one, .indexConst 1⟩, ⟨L.next, .indexAdd L.index L.one⟩,
    ⟨L.more, .indexLe L.next L.length⟩] (.branch L.more L.body L.loopEnd)
  notEntry : L.head ≠ g.entry
  /-- The body is entered from the head only. -/
  entered : ∀ b, L.body ∈ g.successorsOf b → b = L.head
  apart : L.body ≠ L.loopEnd
  toBody : g.Carries L.head L.body []
  toEnd : ∃ slots, g.Carries L.head L.loopEnd slots ∧ ∀ v ∈ slots, g.DefinedAt v ⟨L.head, 0⟩
  element : g.StmtAt L.body 0 ⟨L.element, .forElement L.seq L.next⟩
  store : ∃ v, g.StmtAt L.body 1 ⟨v, .stVar L.name .current L.element⟩
  /-- The sequence is computed before the loop. -/
  seq : ∃ q, g.DefinedAt L.seq q ∧ q.block ≠ L.head ∧ (q.block = L.before → q.index ≤ L.place)

/-- What the operations of a counting loop compute: indices stand for numbers, and sequences have
a length and elements, the first of which is element one. -/
structure Interp.Counting (I : Interp V) where
  number : V → Nat
  length : V → Nat
  element : V → Nat → V
  number_indexConst : ∀ h n, number (I.result h (.indexConst n) []) = n
  number_indexAdd : ∀ h i j,
    number (I.result h (.indexAdd ⟨0⟩ ⟨0⟩) [i, j]) = number i + number j
  number_length : ∀ h x, number (I.result h (.length ⟨0⟩) [x]) = length x
  holds_indexLe : ∀ h i j,
    I.holds (I.result h (.indexLe ⟨0⟩ ⟨0⟩) [i, j]) = decide (number i ≤ number j)
  result_forElement : ∀ h x i,
    I.result h (.forElement ⟨0⟩ ⟨0⟩) [x, i] = element x (number i)

/-- Control came to `head` for the `k`-th time, counted from the last time that it came there from
`before`. That was at `c₀`, and is the first time. -/
inductive Graph.Since (g : Graph) (I : Interp V) (before head : BlockId) :
    Config V → Nat → Config V → Prop
  | first {c c₀ : Config V} (reaches : (g.process I).Reaches c) (outer : c.block = before)
      (steps : c.step g I = .running c₀) (arrives : c₀.point = ⟨head, 0⟩) :
      Since g I before head c₀ 1 c₀
  | again {c₀ c c' : Config V} {k : Nat} (since : Since g I before head c₀ k c)
      (other : c.block ≠ before) (steps : c.step g I = .running c')
      (arrives : c'.point = ⟨head, 0⟩) : Since g I before head c₀ (k + 1) c'
  | inside {c₀ c c' : Config V} {k : Nat} (since : Since g I before head c₀ k c)
      (steps : c.step g I = .running c') (inside : c'.point ≠ ⟨head, 0⟩) :
      Since g I before head c₀ k c'

/-- The body starts with storing element `k` of `y` in the variable of the loop. -/
def ForLoop.Stores (L : ForLoop) (g : Graph) {I : Interp V} (M : I.Counting) (k : Nat) (y : V)
    (c : Config V) : Prop :=
  ∃ c' r h, (g.process I).Steps 2 c c' ∧ c'.point = ⟨L.body, 2⟩ ∧
    c'.history = .op (.stVar L.name .current ⟨0⟩) [M.element y k] r :: h

/-- A lap from its beginning at `c`. The head computes the next index, which is `k`, and is left: if
`x` has `k` elements, for the body, which starts with storing element `k` of `y`, and for the end of
the loop otherwise. -/
def ForLoop.Goes (L : ForLoop) (g : Graph) {I : Interp V} (M : I.Counting) (k : Nat) (x y : V)
    (c : Config V) : Prop :=
  ∃ c₁ c₂ j, (g.process I).Steps 3 c c₁ ∧ c₁.point = ⟨L.head, 3⟩ ∧ c₁.env L.next = some j ∧
    M.number j = k ∧ c₁.step g I = .running c₂ ∧ c₂.index = 0 ∧
    if k ≤ M.length x then c₂.block = L.body ∧ L.Stores g M k y c₂ else c₂.block = L.loopEnd

/-- The `k`-th lap of a loop that was entered at `c₀`, from its beginning at `c`. -/
structure ForLoop.Lap (L : ForLoop) (g : Graph) {I : Interp V} (M : I.Counting) (c₀ : Config V)
    (k : Nat) (c : Config V) : Prop where
  index : ∃ i, c.env L.index = some i ∧ M.number i + 1 = k
  /-- Whether the body is entered is told by the sequence that the loop was entered with, and what
  is stored is an element of the sequence as it is now. Where every use of a value is dominated, it
  is the same sequence. -/
  goes : ∃ x y, c₀.env L.seq = some x ∧ c.env L.seq = some y ∧ L.Goes g M k x y c ∧
    (g.Dominated → y = x)

namespace Graph

variable {g : Graph} {I : Interp V} {c c' c₀ : Config V} {k : Nat} {L : ForLoop}

theorem Since.reaches {before head : BlockId} (since : g.Since I before head c₀ k c) :
    (g.process I).Reaches c := by
  induction since with
  | first reaches _ steps _ => exact reaches.step steps
  | again _ _ steps _ ih => exact ih.step steps
  | inside _ steps _ ih => exact ih.step steps

theorem Since.exists_move {before head : BlockId} (since : g.Since I before head c₀ k c) :
    ∃ c', g.Move I c' c := by
  cases since with
  | first _ _ steps _ => exact ⟨_, move_of_step steps⟩
  | again _ _ steps _ => exact ⟨_, move_of_step steps⟩
  | inside _ steps _ => exact ⟨_, move_of_step steps⟩

theorem Since.isSome {before head : BlockId} {v : ValueId}
    (since : g.Since I before head c₀ k c) (assigned : g.Assigned) (some : (c₀.env v).isSome) :
    (c.env v).isSome := by
  induction since with
  | first _ _ _ _ => exact some
  | again _ _ steps _ ih => exact assigned.isSome_of_move (move_of_step steps) (ih some)
  | inside _ steps _ ih => exact assigned.isSome_of_move (move_of_step steps) (ih some)

/-- Once control came from before the loop, every step goes on with the count. -/
theorem Since.step {before head : BlockId} (since : g.Since I before head c₀ k c)
    (h : c.step g I = .running c') : ∃ c₀ k, g.Since I before head c₀ k c' := by
  by_cases arrives : c'.point = ⟨head, 0⟩
  · by_cases outer : c.block = before
    · exact ⟨c', 1, .first since.reaches outer h arrives⟩
    · exact ⟨c₀, k + 1, .again since outer h arrives⟩
  · exact ⟨c₀, k, .inside since h arrives⟩

/-! ### Before the loop is entered -/

/-- A way to where the run is avoids a block and passes the definitions of all values that the run
has computed. -/
def Outside (g : Graph) (b : BlockId) (c : Config V) : Prop :=
  ∃ w, g.Walk (c.point :: w) ∧ (∀ p ∈ c.point :: w, p.block ≠ b) ∧
    ∀ v, (c.env v).isSome → ∃ p ∈ c.point :: w, g.DefinedAt v p

theorem Outside.step {b : BlockId} (outside : g.Outside b c) (h : c.step g I = .running c')
    (other : c'.block ≠ b) : g.Outside b c' := by
  obtain ⟨w, walk, avoids, passes⟩ := outside
  have next : g.Next c.point c'.point := next_of_step h ⟨w, walk⟩
  refine ⟨c.point :: w, .step walk next, List.forall_mem_cons.mpr ⟨other, avoids⟩, fun v some => ?_⟩
  by_cases here : g.DefinedAt v c'.point
  · exact ⟨_, List.mem_cons_self, here⟩
  · rw [(move_of_step h).env_eq here] at some
    obtain ⟨p, mem, defined⟩ := passes v some
    exact ⟨p, List.mem_cons_of_mem _ mem, defined⟩

namespace HasFor

variable (loop : g.HasFor L)

include loop

/-! ### The statements of the loop -/

theorem definedAt_index : g.DefinedAt L.index ⟨L.head, 0⟩ := by
  obtain ⟨block, p, live, mem, value, -⟩ := loop.index
  exact .phi live mem value

theorem stmt_one : g.StmtAt L.head 0 ⟨L.one, .indexConst 1⟩ := loop.head.uncons.1

theorem stmt_next : g.StmtAt L.head 1 ⟨L.next, .indexAdd L.index L.one⟩ :=
  loop.head.uncons.2.uncons.1

theorem stmt_more : g.StmtAt L.head 2 ⟨L.more, .indexLe L.next L.length⟩ :=
  loop.head.uncons.2.uncons.2.uncons.1

theorem stmt_length : g.StmtAt L.before L.place ⟨L.length, .length L.seq⟩ := loop.before.uncons.1

theorem stmt_zero : g.StmtAt L.before (L.place + 1) ⟨L.zero, .indexConst 0⟩ :=
  loop.before.uncons.2.uncons.1

theorem before_ne_head : L.before ≠ L.head := by
  obtain ⟨block, live, -, last⟩ := loop.before
  obtain ⟨block', live', -, last'⟩ := loop.head
  intro same
  rw [same, live'] at live
  cases live
  rw [last'] at last
  cases last

theorem head_eq {b : BlockId}
    (leads : ∀ block ∈ g.block? L.before, block.terminator = some (.goto b)) : L.head = b := by
  obtain ⟨block, live, -, goes⟩ := loop.before
  rw [leads block live] at goes
  exact (Terminator.goto.inj (Option.some.inj goes)).symm

/-- Where control comes to the head, the index takes its value along the edge. -/
theorem env_index (assigned : g.Assigned) (move : g.Move I c c')
    (arrives : c'.point = ⟨L.head, 0⟩) :
    (c'.env L.index).isSome ∧
      c'.env L.index = c.env (if c.block = L.before then L.zero else L.next) := by
  refine ⟨assigned.isSome_of_definedAt move (arrives ▸ loop.definedAt_index), ?_⟩
  obtain ⟨-, target, -, -, edge, live, env⟩ := move.edge_of_arrives arrives
  obtain ⟨block, p, here, mem, value, -, inputs⟩ := loop.index
  rw [here] at live
  cases live
  rw [env, ← value, assigned.env_phi here mem, Phi.read, inputs _ edge]
  rfl

/-- Control that comes to the head from before the loop has passed the set-up. -/
theorem past_place (move : g.Move I c c') (outer : c.block = L.before)
    (arrives : c'.point = ⟨L.head, 0⟩) : L.place < c.index := by
  obtain ⟨source, -, live, past, -⟩ := move.edge_of_arrives arrives
  obtain ⟨block, live', drop, -⟩ := loop.before
  rw [outer, live'] at live
  cases live
  have length := congrArg List.length drop
  rw [List.length_drop] at length
  simp only [List.length_cons, List.length_nil] at length
  omega

/-- The loop is entered from before. -/
theorem outside_step (assigned : g.Assigned) (outside : g.Outside L.head c)
    (h : c.step g I = .running c') :
    g.Outside L.head c' ∨ c.block = L.before ∧ c'.point = ⟨L.head, 0⟩ := by
  by_cases there : c'.block = L.head
  · obtain ⟨w, walk, avoids, passes⟩ := outside
    have move := move_of_step h
    have here : c.block ≠ L.head := avoids _ List.mem_cons_self
    have arrives : c'.point = ⟨L.head, 0⟩ := by
      cases move with
      | stmt _ _ block _ _ => exact absurd (block.symm.trans there) here
      | edge _ _ _ _ index _ _ => rw [Config.point, there, index]
    -- along any other edge the index takes the next index, which has no value yet
    refine Or.inr ⟨Classical.byContradiction fun other => ?_, arrives⟩
    obtain ⟨some, read⟩ := loop.env_index assigned move arrives
    rw [read, if_neg other] at some
    obtain ⟨p, mem, defined⟩ := passes _ some
    rw [assigned.single defined loop.stmt_next.definedAt] at mem
    exact avoids _ mem rfl
  · exact Or.inl (outside.step h there)

/-- What holds when the loop is entered for the first time and is kept from then on holds of a run
that is not outside of the loop any more. -/
theorem outside_or {P : Config V → Prop} (assigned : g.Assigned)
    (enter : ∀ {c c' : Config V}, g.Outside L.head c → (g.process I).Reaches c →
      c.block = L.before → c.step g I = .running c' → c'.point = ⟨L.head, 0⟩ → P c')
    (kept : ∀ {c c' : Config V}, P c → c.step g I = .running c' → P c')
    (reaches : (g.process I).Reaches c) : g.Outside L.head c ∨ P c := by
  refine reaches.invariant (P := fun c : Config V => g.Outside L.head c ∨ P c) ?_ ?_
  · refine Or.inl ⟨[], .start, ?_, fun v some => absurd some (by simp [process])⟩
    exact List.forall_mem_singleton.mpr loop.notEntry.symm
  · rintro c c' reaches (outside | holds) h
    · rcases loop.outside_step assigned outside h with outside' | ⟨outer, arrives⟩
      · exact Or.inl outside'
      · exact Or.inr (enter outside reaches outer h arrives)
    · exact Or.inr (kept holds h)

/-- Control that is in the loop has entered it from before. -/
theorem exists_since (assigned : g.Assigned) (reaches : (g.process I).Reaches c)
    (here : c.block = L.head) : ∃ c₀ k, g.Since I L.before L.head c₀ k c := by
  have outside_or := loop.outside_or
    (P := fun c : Config V => ∃ c₀ k, g.Since I L.before L.head c₀ k c) assigned
    (fun _ reaches outer h arrives => ⟨_, 1, .first reaches outer h arrives⟩)
    (fun since h => by
      obtain ⟨c₀, k, since⟩ := since
      exact since.step h) reaches
  refine outside_or.resolve_left ?_
  rintro ⟨w, -, avoids, -⟩
  exact avoids _ List.mem_cons_self here

/-- The next index is used where the head is reached from inside of the loop. -/
theorem dominates_next (dominated : g.Dominated) (move : g.Move I c c')
    (other : c.block ≠ L.before) (arrives : c'.point = ⟨L.head, 0⟩) (w : List Point)
    (walk : g.Walk (c.point :: w)) : ∃ q ∈ c.point :: w, g.DefinedAt L.next q := by
  obtain ⟨source, -, live, past, edge, -⟩ := move.edge_of_arrives arrives
  obtain ⟨block, p, here, mem, -, -, inputs⟩ := loop.index
  have input := mem_of_lookup_eq_some (inputs _ edge)
  rw [if_neg other] at input
  have atEnd : c.point = ⟨c.block, source.stmts.length⟩ := by
    rw [Config.point, Nat.le_antisymm (walk.index_le live) past]
  exact dominated _ _ (atEnd ▸ .phi here mem input live) w walk

end HasFor

end Graph

/-! ### The length and the zero -/

/-- The sequence has its length. -/
def ForLoop.Measured (L : ForLoop) {I : Interp V} (M : I.Counting) (c : Config V) : Prop :=
  ∃ x n, c.env L.seq = some x ∧ c.env L.length = some n ∧ M.number n = M.length x

namespace Graph

section

variable {g : Graph} {I : Interp V} {c c' c₀ : Config V} {k : Nat} {L : ForLoop}
  (loop : g.HasFor L) (assigned : g.Assigned) (M : I.Counting)

include loop assigned

theorem HasFor.number_zero (reaches : (g.process I).Reaches c) :
    ∀ z, c.env L.zero = some z → M.number z = 0 := by
  refine reaches.invariant (P := fun c : Config V => ∀ z, c.env L.zero = some z → M.number z = 0)
    (fun z value => absurd value (by simp [process])) fun {c c'} _ ih h z value => ?_
  have move := move_of_step h
  by_cases there : c'.point = ⟨L.before, L.place + 1 + 1⟩
  · obtain ⟨args, values, -, env⟩ := loop.stmt_zero.of_step (move.point_eq there) h
    rw [Env.map_nil_eq values] at env
    rw [env, Env.set_self] at value
    cases value
    exact M.number_indexConst _ _
  · rw [assigned.env_eq move loop.stmt_zero.definedAt there] at value
    exact ih z value

/-- Past the place of its set-up the sequence is kept. -/
theorem HasFor.env_seq (move : g.Move I c c') (past : c'.block = L.before → L.place < c'.index)
    (there : c'.block = L.before ∨ c'.block = L.head) : c'.env L.seq = c.env L.seq := by
  obtain ⟨q, defined, other, bound⟩ := loop.seq
  refine assigned.env_eq move defined ?_
  rintro rfl
  rcases there with before | head
  · exact Nat.not_lt.mpr (bound before) (past before)
  · exact other head

theorem HasFor.env_seq_head (move : g.Move I c c') (there : c'.block = L.head) :
    c'.env L.seq = c.env L.seq :=
  loop.env_seq assigned move
    (fun before => absurd (before.symm.trans there) loop.before_ne_head) (Or.inr there)

theorem HasFor.measured_before (reaches : (g.process I).Reaches c) :
    c.block = L.before → L.place < c.index → L.Measured M c := by
  refine reaches.invariant (P := fun c : Config V => c.block = L.before → L.place < c.index →
    L.Measured M c) (fun _ past => absurd past (Nat.not_lt_zero _)) ?_
  intro (c : Config V) (c' : Config V) _ ih h block past
  have move := move_of_step h
  obtain ⟨m, index⟩ : ∃ m, c'.index = m + 1 := ⟨c'.index - 1, by omega⟩
  have there : c'.point = ⟨L.before, m + 1⟩ := by rw [Config.point, block, index]
  have here := move.point_eq there
  have seq := loop.env_seq assigned move (fun _ => past) (Or.inl block)
  by_cases first : m = L.place
  · subst first
    obtain ⟨args, values, -, env⟩ := loop.stmt_length.of_step here h
    obtain ⟨x, xs, rfl, value, none⟩ := Env.map_cons_eq values
    obtain rfl := Env.map_nil_eq none
    exact ⟨x, _, seq.trans value, env ▸ Env.set_self _ _ _, M.number_length _ x⟩
  · have other : c'.point ≠ ⟨L.before, L.place + 1⟩ := by
      rw [there, Ne, Point.mk.injEq]
      omega
    have length := assigned.env_eq move loop.stmt_length.definedAt other
    rw [Config.point, Point.mk.injEq] at here
    obtain ⟨x, n, hx, hn, number⟩ := ih here.1 (by omega)
    exact ⟨x, n, seq.trans hx, length.trans hn, number⟩

/-- When the loop is entered, the sequence has its length. -/
theorem Since.measured (since : g.Since I L.before L.head c₀ k c) : L.Measured M c₀ := by
  induction since with
  | @first c c₀ reaches outer steps arrives =>
      have move := move_of_step steps
      obtain ⟨x, n, hx, hn, number⟩ := loop.measured_before assigned M reaches outer
        (loop.past_place move outer arrives)
      have block : c₀.block = L.head := congrArg Point.block arrives
      have seq := loop.env_seq_head assigned move block
      refine ⟨x, n, seq.trans hx, Eq.trans ?_ hn, number⟩
      refine assigned.env_eq move loop.stmt_length.definedAt fun same => ?_
      exact loop.before_ne_head ((congrArg Point.block same).symm.trans block)
  | again _ _ _ _ ih => exact ih
  | inside _ _ _ ih => exact ih

/-- The length is that of when the loop was entered, unless the loop is about to be entered
again. -/
theorem Since.env_length (since : g.Since I L.before L.head c₀ k c) :
    c.env L.length = c₀.env L.length ∨ c.block = L.before ∧ L.place < c.index := by
  induction since with
  | first _ _ _ _ => exact Or.inl rfl
  | @again c₀ c c' k _ other steps arrives ih =>
      have same := ih.resolve_right fun there => other there.1
      refine Or.inl (Eq.trans (assigned.env_eq (move_of_step steps) loop.stmt_length.definedAt
        fun there => ?_) same)
      rw [arrives] at there
      exact absurd (congrArg Point.index there) (Nat.succ_ne_zero _).symm
  | @inside c₀ c c' k _ steps inside ih =>
      have move := move_of_step steps
      rcases ih with same | ⟨block, past⟩
      · by_cases there : c'.point = ⟨L.before, L.place + 1⟩
        · rw [Config.point, Point.mk.injEq] at there
          exact Or.inr ⟨there.1, by omega⟩
        · exact Or.inl ((assigned.env_eq move loop.stmt_length.definedAt there).trans same)
      · -- the block before the loop leads to the head only
        cases move with
        | stmt _ _ block' index _ => exact Or.inr ⟨block'.trans block, by omega⟩
        | edge live _ succ _ index _ _ =>
            obtain ⟨source, live', -, last⟩ := loop.before
            rw [block, live'] at live
            cases live
            rw [Block.successors, last] at succ
            refine absurd ?_ inside
            rw [Config.point, index, List.mem_singleton.mp succ]

end

end Graph

/-! ### The count -/

/-- The count as the values of a run have it. In the head the index is one less; once the next index
is computed, it is the count. -/
inductive ForLoop.Counted (L : ForLoop) {I : Interp V} (M : I.Counting) (k : Nat)
    (c : Config V) : Prop
  | arrived {i : V} (here : c.point = ⟨L.head, 0⟩) (index : c.env L.index = some i)
      (count : M.number i + 1 = k)
  | started {i u : V} (here : c.point = ⟨L.head, 1⟩) (index : c.env L.index = some i)
      (count : M.number i + 1 = k) (one : c.env L.one = some u) (unit : M.number u = 1)
  | next {j : V} (past : c.point ≠ ⟨L.head, 0⟩ ∧ c.point ≠ ⟨L.head, 1⟩)
      (next : c.env L.next = some j) (count : M.number j = k)

namespace ForLoop.Counted

variable {L : ForLoop} {I : Interp V} {M : I.Counting} {k : Nat} {c : Config V}
  (counted : L.Counted M k c)

include counted

theorem exists_index (here : c.point = ⟨L.head, 0⟩) :
    ∃ i, c.env L.index = some i ∧ M.number i + 1 = k := by
  cases counted with
  | arrived _ index count => exact ⟨_, index, count⟩
  | started other _ _ _ _ => simp [here] at other
  | next past _ _ => exact absurd here past.1

theorem exists_one (here : c.point = ⟨L.head, 1⟩) :
    ∃ i u, c.env L.index = some i ∧ c.env L.one = some u := by
  cases counted with
  | arrived other _ _ => simp [here] at other
  | started _ index _ one _ => exact ⟨_, _, index, one⟩
  | next past _ _ => exact absurd here past.2

theorem exists_next {n : Nat} (here : c.point = ⟨L.head, n + 2⟩) :
    ∃ j, c.env L.next = some j ∧ M.number j = k := by
  cases counted with
  | arrived other _ _ => simp [here] at other
  | started other _ _ _ _ => simp [here] at other
  | next _ next count => exact ⟨_, next, count⟩

end ForLoop.Counted

namespace Graph

section

variable {g : Graph} {I : Interp V} {c c' c₀ : Config V} {k : Nat} {L : ForLoop}
  (loop : g.HasFor L) (assigned : g.Assigned) (M : I.Counting)

include loop assigned

/-- Until control comes to the head again, a step keeps the count. -/
theorem HasFor.counted_step (counted : L.Counted M k c) (h : c.step g I = .running c')
    (inside : c'.point ≠ ⟨L.head, 0⟩) : L.Counted M k c' := by
  have move := move_of_step h
  cases counted with
  | arrived here index count =>
      obtain ⟨args, values, there, env⟩ := loop.stmt_one.of_step here h
      rw [Env.map_nil_eq values] at env
      have kept := assigned.env_eq move loop.definedAt_index inside
      exact .started there (kept.trans index) count (env ▸ Env.set_self _ _ _)
        (M.number_indexConst _ _)
  | @started i u here index count one unit =>
      obtain ⟨args, values, there, env⟩ := loop.stmt_next.of_step here h
      obtain ⟨i', _, rfl, isIndex, values⟩ := Env.map_cons_eq values
      obtain ⟨u', _, rfl, isOne, values⟩ := Env.map_cons_eq values
      obtain rfl := Env.map_nil_eq values
      obtain rfl : i' = i := Option.some.inj (isIndex.symm.trans index)
      obtain rfl : u' = u := Option.some.inj (isOne.symm.trans one)
      have sum := M.number_indexAdd c.history i' u'
      refine .next ⟨inside, by rw [there]; simp⟩ (env ▸ Env.set_self _ _ _) (sum.trans ?_)
      rw [unit, count]
  | next past next count =>
      have other : c'.point ≠ ⟨L.head, 2⟩ := fun there => past.2 (move.point_eq there)
      have kept := assigned.env_eq move loop.stmt_next.definedAt other
      exact .next ⟨inside, fun there => past.1 (move.point_eq there)⟩ (kept.trans next) count

/-- Along an edge to the head from inside of the loop the next index becomes the index. -/
theorem HasFor.counted_again (counted : L.Counted M k c) (other : c.block ≠ L.before)
    (h : c.step g I = .running c') (arrives : c'.point = ⟨L.head, 0⟩) :
    L.Counted M (k + 1) c' := by
  cases counted with
  | arrived here _ _ =>
      obtain ⟨-, -, there, -⟩ := loop.stmt_one.of_step here h
      simp [arrives] at there
  | started here _ _ _ _ =>
      obtain ⟨-, -, there, -⟩ := loop.stmt_next.of_step here h
      simp [arrives] at there
  | next past next count =>
      obtain ⟨-, read⟩ := loop.env_index assigned (move_of_step h) arrives
      rw [if_neg other, next] at read
      exact .arrived arrives read (congrArg (· + 1) count)

/-- The values of a run agree with the count of laps. -/
theorem Since.counted (since : g.Since I L.before L.head c₀ k c) : L.Counted M k c := by
  induction since with
  | first reaches outer steps arrives =>
      obtain ⟨some, read⟩ := loop.env_index assigned (move_of_step steps) arrives
      obtain ⟨z, value⟩ := Option.isSome_iff_exists.mp some
      rw [if_pos outer, value] at read
      have zero := loop.number_zero assigned M reaches z read.symm
      exact .arrived arrives value (congrArg (· + 1) zero)
  | again _ other steps arrives ih => exact loop.counted_again assigned M ih other steps arrives
  | inside _ steps inside ih => exact loop.counted_step assigned M ih steps inside

/-! ### The sequence -/

omit loop assigned

/-- There is a way to the point that avoids a block. -/
def Avoids (g : Graph) (b : BlockId) (p : Point) : Prop :=
  ∃ w, g.Walk (p :: w) ∧ ∀ q ∈ p :: w, q.block ≠ b

/-- A value that was computed outside of a block is defined where no way through the block is
needed. -/
theorem Outside.avoids {b : BlockId} {v : ValueId} (outside : g.Outside b c)
    (some : (c.env v).isSome) : ∃ q, g.DefinedAt v q ∧ g.Avoids b q := by
  obtain ⟨w, walk, avoids, passes⟩ := outside
  obtain ⟨q, mem, defined⟩ := passes v some
  obtain ⟨later, earlier, split⟩ := List.append_of_mem mem
  have suffix : q :: earlier <:+ c.point :: w := split ▸ List.suffix_append later _
  exact ⟨q, defined, earlier, walk.suffix suffix (List.cons_ne_nil _ _),
    fun p mem => avoids p (suffix.subset mem)⟩

include loop assigned M

/-- The sequence of a loop that is entered is computed on a way that avoids the loop. -/
theorem Since.avoids (since : g.Since I L.before L.head c₀ k c) :
    ∃ q, g.DefinedAt L.seq q ∧ g.Avoids L.head q := by
  have enter : ∀ {c c' : Config V}, g.Outside L.head c → (g.process I).Reaches c →
      c.block = L.before → c.step g I = .running c' → c'.point = ⟨L.head, 0⟩ →
      ∃ q, g.DefinedAt L.seq q ∧ g.Avoids L.head q := by
    intro c c' outside reaches outer h arrives
    obtain ⟨x, -, value, -, -⟩ := loop.measured_before assigned M reaches outer
      (loop.past_place (move_of_step h) outer arrives)
    exact outside.avoids (by rw [value]; rfl)
  induction since with
  | @first c c₀ reaches outer steps arrives =>
      rcases loop.outside_or assigned enter (fun found _ => found) reaches with outside | found
      · exact enter outside reaches outer steps arrives
      · exact found
  | again _ _ _ _ ih => exact ih
  | inside _ _ _ ih => exact ih

/-- If every use is dominated, control does not come to the next lap after the sequence was computed
anew: there would be a way to the next index that avoids its definition. -/
theorem Since.env_seq (dominated : g.Dominated) (since : g.Since I L.before L.head c₀ k c) :
    c.env L.seq = c₀.env L.seq ∨ g.Avoids L.head c.point := by
  obtain ⟨q, defined, way⟩ := since.avoids loop assigned M
  induction since with
  | first _ _ _ _ => exact Or.inl rfl
  | @again c₀ c c' k _ other steps arrives ih =>
      have move := move_of_step steps
      rcases ih with same | ⟨w, walk, avoids⟩
      · have kept := loop.env_seq_head assigned move (congrArg Point.block arrives)
        exact Or.inl (kept.trans same)
      · obtain ⟨p, mem, defined⟩ := loop.dominates_next dominated move other arrives w walk
        rw [assigned.single defined loop.stmt_next.definedAt] at mem
        exact absurd rfl (avoids _ mem)
  | @inside c₀ c c' k _ steps inside ih =>
      have move := move_of_step steps
      rcases ih with same | ⟨w, walk, avoids⟩
      · by_cases there : c'.point = q
        · exact Or.inr (there ▸ way)
        · exact Or.inl ((assigned.env_eq move defined there).trans same)
      · have next : g.Next c.point c'.point := next_of_step steps ⟨w, walk⟩
        refine Or.inr ⟨c.point :: w, .step walk next, List.forall_mem_cons.mpr ⟨?_, avoids⟩⟩
        cases move with
        | stmt _ _ block _ _ =>
            show c'.block ≠ L.head
            rw [block]
            exact avoids c.point List.mem_cons_self
        | edge _ _ _ _ index _ _ =>
            intro there
            refine inside ?_
            rw [Config.point, index, Point.mk.injEq]
            exact ⟨there, rfl⟩

/-! ### A lap -/

/-- In the head the length is that of when the loop was entered. -/
theorem Since.length_head (since : g.Since I L.before L.head c₀ k c) (here : c.block = L.head) :
    ∃ x n, c₀.env L.seq = some x ∧ c.env L.length = some n ∧ M.number n = M.length x := by
  obtain ⟨x, n, isSeq, isLength, number⟩ := since.measured loop assigned M
  have same := (since.env_length loop assigned).resolve_right fun before =>
    loop.before_ne_head (before.1.symm.trans here)
  exact ⟨x, n, isSeq, same.trans isLength, number⟩

/-- The head brings control from the beginning of a lap to its own end. -/
theorem Since.head (since : g.Since I L.before L.head c₀ k c) (here : c.point = ⟨L.head, 0⟩) :
    ∃ c₁ j x r, (g.process I).Steps 3 c c₁ ∧ c₁.point = ⟨L.head, 3⟩ ∧ c₁.env L.next = some j ∧
      M.number j = k ∧ c₀.env L.seq = some x ∧ c₁.env L.seq = c.env L.seq ∧
      c₁.env L.more = some r ∧ I.holds r = decide (k ≤ M.length x) := by
  obtain ⟨block, index⟩ := Point.mk.inj here
  obtain ⟨c₁, -, -, step₁, block₁, index₁, -⟩ :=
    loop.stmt_one.run block index (List.map_nil.trans List.map_nil.symm) I
  have here₁ : c₁.point = ⟨L.head, 1⟩ := by rw [Config.point, block₁, index₁]
  have since₁ : g.Since I L.before L.head c₀ k c₁ := .inside since step₁ (by simp [here₁])
  obtain ⟨i, u, isIndex, isOne⟩ := (since₁.counted loop assigned M).exists_one here₁
  have values₁ : [L.index, L.one].map c₁.env = [i, u].map some := by simp [isIndex, isOne]
  obtain ⟨c₂, -, -, step₂, block₂, index₂, -⟩ := loop.stmt_next.run block₁ index₁ values₁ I
  have here₂ : c₂.point = ⟨L.head, 2⟩ := by rw [Config.point, block₂, index₂]
  have since₂ : g.Since I L.before L.head c₀ k c₂ := .inside since₁ step₂ (by simp [here₂])
  obtain ⟨j, isNext, count⟩ := (since₂.counted loop assigned M).exists_next here₂
  obtain ⟨x, n, isSeq, isLength, number⟩ := since₂.length_head loop assigned M block₂
  have values₂ : [L.next, L.length].map c₂.env = [j, n].map some := by simp [isNext, isLength]
  obtain ⟨c₃, r, isTest, step₃, block₃, index₃, env, -⟩ :=
    loop.stmt_more.run block₂ index₂ values₂ I
  have here₃ : c₃.point = ⟨L.head, 3⟩ := by rw [Config.point, block₃, index₃]
  have kept := assigned.env_eq (move_of_step step₃) loop.stmt_next.definedAt (by simp [here₃])
  have seq := (loop.env_seq_head assigned (move_of_step step₃) block₃).trans
    ((loop.env_seq_head assigned (move_of_step step₂) block₂).trans
      (loop.env_seq_head assigned (move_of_step step₁) block₁))
  refine ⟨c₃, j, x, r, .succ (.succ (.one step₁) step₂) step₃, here₃, kept.trans isNext, count,
    isSeq, seq, env ▸ Env.set_self _ _ _, ?_⟩
  rw [isTest, ← count, ← number]
  exact M.holds_indexLe _ j n

omit assigned in
/-- The body begins with storing the element at the next index. -/
theorem HasFor.stores {j y : V} (here : c.point = ⟨L.body, 0⟩) (seq : c.env L.seq = some y)
    (next : c.env L.next = some j) : L.Stores g M (M.number j) y c := by
  obtain ⟨block, index⟩ := Point.mk.inj here
  have values : [L.seq, L.next].map c.env = [y, j].map some := by simp [seq, next]
  obtain ⟨c₁, r, isElement, step₁, block₁, index₁, env₁, -⟩ :=
    loop.element.run block index values I
  obtain ⟨v, store⟩ := loop.store
  have values₁ : [L.element].map c₁.env = [r].map some := by simp [env₁, Env.set_self]
  obtain ⟨c₂, r₂, -, step₂, block₂, index₂, -, history⟩ := store.run block₁ index₁ values₁ I
  refine ⟨c₂, r₂, c₁.history, .succ (.one step₁) step₂, by rw [Config.point, block₂, index₂], ?_⟩
  rw [history, isElement, ← M.result_forElement c.history y j]
  rfl

omit M in
/-- Control that leaves the head for the end of the loop comes there. -/
theorem HasFor.goto_end {before head : BlockId} {c₁ : Config V} {n : Nat}
    (since : g.Since I before head c₀ k c) (here : c.point = ⟨L.head, 0⟩)
    (run : (g.process I).Steps n c c₁) (block : c₁.block = L.head) (held : Bool) :
    ∃ c₂, (c₁.noteBranch held).goto g L.loopEnd = .running c₂ ∧ c₂.block = L.loopEnd ∧
      c₂.index = 0 := by
  obtain ⟨slots, carries, defined⟩ := loop.toEnd
  obtain ⟨c', move⟩ := since.exists_move
  obtain ⟨xs, values⟩ : ∃ xs : List V, slots.map c₁.env = xs.map some :=
    Env.exists_map_eq fun v mem => assigned.isSome_of_steps run
      (assigned.isSome_of_definedAt move (here ▸ defined v mem))
  obtain ⟨c₂, goto, block₂, index₂, -⟩ :=
    carries.arrive (c := c₁.noteBranch held) (fun live => assigned.phis live) block values
  exact ⟨c₂, goto, block₂, index₂⟩

/-- Every lap goes as its number tells. -/
theorem Since.lap (since : g.Since I L.before L.head c₀ k c) (here : c.point = ⟨L.head, 0⟩) :
    L.Lap g M c₀ k c := by
  refine ⟨(since.counted loop assigned M).exists_index here, ?_⟩
  obtain ⟨c₁, j, x, r, run, here₁, isNext, count, isSeq, seq, isMore, test⟩ :=
    since.head loop assigned M here
  obtain ⟨block₁, index₁⟩ := Point.mk.inj here₁
  obtain ⟨y, current⟩ : ∃ y, c.env L.seq = some y :=
    Option.isSome_iff_exists.mp (since.isSome assigned (by rw [isSeq]; rfl))
  have same : g.Dominated → y = x := by
    intro dominated
    have kept := (since.env_seq loop assigned M dominated).resolve_right fun avoids => by
      obtain ⟨w, -, avoids⟩ := avoids
      exact avoids _ List.mem_cons_self (congrArg Point.block here)
    rw [current, isSeq] at kept
    exact Option.some.inj kept
  have tail := loop.head.uncons.2.uncons.2.uncons.2
  have step := tail.branch (I := I) block₁ index₁ isMore
  rw [test] at step
  refine ⟨x, y, isSeq, current, ?_, same⟩
  by_cases enough : k ≤ M.length x
  · rw [decide_eq_true enough, if_pos rfl, loop.toBody.goto_nil] at step
    refine ⟨c₁, _, j, run, here₁, isNext, count, step, rfl, ?_⟩
    rw [if_pos enough]
    exact ⟨rfl, count ▸ loop.stores M rfl (seq.trans current) isNext⟩
  · rw [decide_eq_false enough, if_neg Bool.false_ne_true] at step
    obtain ⟨c₂, goto, block₂, index₂⟩ := loop.goto_end assigned since here run block₁ false
    refine ⟨c₁, c₂, j, run, here₁, isNext, count, step.trans goto, index₂, ?_⟩
    rwa [if_neg enough]

end

end Graph

end StackLift
