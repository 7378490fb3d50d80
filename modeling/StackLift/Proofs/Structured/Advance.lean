import StackLift.Proofs.Structured.Arrive

/-!
Instructions that can always be lowered where the stack is deep enough and the innermost
bracket is theirs: the start and the edges of loops, and calls. For each of them, what it
does to the draft is said by `Advances`: which blocks get a shape, and that no block is
left without an end.
-/

namespace StackLift

/-- Where a loop is left to. -/
def LoopContext.exitTo (l : LoopContext) : LoopExit → BlockId
  | .leave => l.loopEnd
  | .next => l.next

namespace Draft

variable {d d' d'' : Draft} {n : Nat} {T T' : BlockId → Prop}

/-- The pass has gone on, in the same block or in another one. It has made edges to some
blocks, which bring `n` values. -/
structure Advances (n : Nat) (T : BlockId → Prop) (d d' : Draft) : Prop where
  grows : d.Grows d'
  shape : ∀ {b : BlockId} {phis : List ValueId}, (d.graph.block? b).isSome →
    d'.shape? b = some phis → d.shape? b = some phis ∨ T b ∧ phis.length = n
  tidy : ∀ {aside : BlockId → Prop}, d.Tidy aside → d'.Tidy aside

theorem Advances.refl (n : Nat) (T : BlockId → Prop) (d : Draft) : d.Advances n T d :=
  ⟨.refl d, fun _ => Or.inl, id⟩

theorem Advances.trans (first : d.Advances n T d') (second : d'.Advances n T d'') :
    d.Advances n T d'' where
  grows := first.grows.trans second.grows
  shape live shape := by
    rcases second.shape (first.grows.isSome live) shape with old | new
    · exact first.shape live old
    · exact Or.inr new
  tidy tidy := second.tidy (first.tidy tidy)

theorem Advances.mono (advances : d.Advances n T d') (more : ∀ b, T b → T' b) :
    d.Advances n T' d' :=
  { advances with shape := fun live shape => (advances.shape live shape).imp id (And.imp_left (more _)) }

theorem Extends.advances (extends_ : d.Extends d') (grows : d.Grows d') : d.Advances n T d' where
  grows := grows
  shape _ shape := Or.inl ((extends_.shape _).symm.trans shape)
  tidy tidy := tidy.extend grows extends_

theorem advances_emit (isOpen : d.Open) (op : Op) : d.Advances n T (d.emitted op) :=
  (d.extends_emit op).advances (grows_emitted isOpen)

theorem extends_addIndexPhi (sound : d.Sound) (b pred : BlockId) (initial : ValueId) :
    d.Extends (d.addIndexPhi b pred initial).2 := by
  refine ⟨rfl, fun _ => rfl, fun c => ?_⟩
  rw [block?_addIndexPhi sound]
  split
  · rw [Option.isSome_map]
  · rfl

theorem Tidy.addBlock {aside : BlockId → Prop} {direct : List BlockId} (tidy : d.Tidy aside)
    (others : ∀ {b : BlockId}, b ≠ d.graph.nextBlock → (b ∈ direct ↔ b ∈ d.direct)) :
    (d.addBlock direct).Tidy fun c => c = d.graph.nextBlock ∨ aside c := by
  intro b live
  obtain ⟨block, live⟩ := Option.isSome_iff_exists.mp live
  rcases block?_addBlock_eq_some live with ⟨rfl, -⟩ | old
  · exact Or.inr (Or.inr (Or.inl rfl))
  · have grows : d.Grows (d.addBlock direct) := grows_addBlock others
    exact (tidy b (Option.isSome_iff_exists.mpr ⟨block, old⟩)).imp id (Or.imp (·.mono grows) Or.inr)

end Draft

namespace Lowering

open Draft (Advances)

variable {ctx : Context} {carry : Carry} {base : Draft} {aside : BlockId → Prop} {phase : Phase}
  {hand : List (ValueId × ValueType)} {s s' : State} {t : Terminator}

/-! ### Edges -/

theorem Left.ends (left : Left ctx carry base aside hand t s s') :
    s'.draft.Ends s.draft.cursor t := by
  obtain ⟨block, live, -⟩ := left.can.isOpen
  refine ⟨_, by rw [left.ended.block, live, Option.map_some], ?_⟩
  rw [Draft.terminator_ended, if_pos rfl]

theorem Left.advances (left : Left ctx carry base aside hand t s s') :
    s.draft.Advances s.stack.items.length (· ∈ t.successors) s'.draft where
  grows := left.grows
  shape {b phis} _ shape := by
    by_cases merge : b ∈ s.draft.mergesOf t.successors
    · obtain ⟨mem, notDirect⟩ := Draft.mem_mergesOf.mp merge
      obtain ⟨phis', shape', length⟩ := left.exists_shape mem notDirect
      cases shape.symm.trans shape'
      exact Or.inr ⟨mem, length⟩
    · rw [left.ended.shape, if_neg merge] at shape
      exact Or.inl shape
  tidy tidy := tidy.ended left.can left.ended

/-- The pass has gone on from `s` to `t` in the same brackets, with `n` values on the stack. -/
structure Proceeds (n : Nat) (T : BlockId → Prop) (s t : State) : Prop where
  advances : s.draft.Advances n T t.draft
  loops : t.loops = s.loops
  live : t.live = true
  length : t.stack.items.length = n

theorem Proceeds.trans {n : Nat} {T : BlockId → Prop} {s₁ s₂ s₃ : State}
    (first : Proceeds n T s₁ s₂) (second : Proceeds s₂.stack.items.length T s₂ s₃) :
    Proceeds n T s₁ s₃ := by
  rw [first.length] at second
  exact ⟨first.advances.trans second.advances, second.loops.trans first.loops, second.live,
    second.length⟩

theorem Proceeds.mono {n : Nat} {T T' : BlockId → Prop} {s₁ s₂ : State} (moves : Proceeds n T s₁ s₂)
    (more : ∀ b, T b → T' b) : Proceeds n T' s₁ s₂ :=
  { moves with advances := moves.advances.mono more }

theorem Inv.exists_emit (inv : Inv ctx carry base aside phase hand s) (op : Op)
    (ready : phase ≠ .ended) (inputs : ∀ e ∈ op.inputs, e ∈ phase.reads carry hand) :
    ∃ v s', Lowering.emit op s = .ok v s' ∧
      Inv ctx carry base aside phase ((v, op.resultType) :: hand) s' ∧
      (∀ T, Proceeds s.stack.items.length T s s') ∧ s'.draft.cursor = s.draft.cursor := by
  have isOpen := Phase.Holds.isOpen inv.phase ready
  have emits := emit_of_open isOpen op
  exact ⟨_, _, emits, inv.emit ready emits inputs,
    fun _ => ⟨Draft.advances_emit isOpen op, rfl, inv.live ready, rfl⟩, rfl⟩

/-- A jump to a merge, and on from there with as many values. Between the two, nothing happens
but in the merge. -/
theorem Left.proceeds {b : BlockId} {phis : List ValueId} {d : Draft}
    (left : Left ctx carry base aside hand (.goto b) s s') (plain : s.draft.Plain b)
    (grows : s'.draft.Grows d) (extends_ : s'.draft.Extends d) (shape : d.shape? b = some phis) :
    Proceeds s.stack.items.length (· = b) s
      { s' with draft := d.moveTo b, stack := .ofSlots phis, live := true } := by
  have advances := left.advances.trans (extends_.advances grows)
  obtain ⟨phis', shape', length⟩ := left.exists_shape List.mem_cons_self plain.merge.notDirect
  rw [extends_.shape, shape'] at shape
  cases shape
  refine ⟨⟨?_, ?_, ?_⟩, ?_, rfl, ?_⟩
  · exact advances.grows.trans (Draft.grows_moveTo d b)
  · exact fun live shape => (advances.shape live shape).imp id (And.imp_left List.mem_singleton.mp)
  · intro aside' tidy
    refine (advances.tidy tidy).moveTo ?_ fun _ => Or.inr
    rw [extends_.cursor]
    exact Draft.HasEnd.mono left.inv.phase grows
  · rw [left.frame]
  · rw [OperandStack.ofSlots, List.length_reverse, length]

/-- With a new merge. -/
theorem Proceeds.ofNew {n : Nat} {t : State}
    (moves : Proceeds n (· = s.draft.graph.nextBlock) { s with draft := s.draft.newMerge.2 } t)
    (at_ : t.draft.cursor = s.draft.graph.nextBlock) :
    Proceeds n (· = s.draft.graph.nextBlock) s t := by
  have grows : s.draft.Grows s.draft.newMerge.2 := Draft.grows_addBlock fun _ => Iff.rfl
  refine { moves with advances := ⟨grows.trans moves.advances.grows, ?_, ?_⟩ }
  · exact fun live shape => moves.advances.shape (grows.isSome live) shape
  · intro aside tidy b live
    rcases moves.advances.tidy (tidy.addBlock fun _ => Iff.rfl) b live with here | ended | rfl | set
    · exact Or.inl here
    · exact Or.inr (Or.inl ended)
    · exact Or.inl at_.symm
    · exact Or.inr (Or.inr set)

/-! ### Steps that succeed -/

/-- The step succeeds, and ends as stated. -/
def Yields {α : Type} (x : Lowering α) (s : State) (ends : α → State → Prop) : Prop :=
  ∃ a t, x s = .ok a t ∧ ends a t

theorem yields_bind {α β : Type} {x : Lowering α} {f : α → Lowering β} {ends : β → State → Prop}
    {a : α} (h : x s = .ok a s') (rest : Yields (f a) s' ends) : Yields (x >>= f) s ends := by
  obtain ⟨b, t, h', end_⟩ := rest
  exact ⟨b, t, bind_eq_ok_iff.mpr ⟨a, s', h, h'⟩, end_⟩

theorem target_eq_ok {label : Label} {b : BlockId} (target : ctx.labels.block label = .ok b)
    (s : State) : ctx.target label s = .ok b s := by
  rw [Context.target, target]
  rfl

theorem constant_eq_ok {α : Type} {x : Except BytecodeError α} {a : α} (found : x.toOption = some a)
    (s : State) : constant x s = .ok a s := by
  cases x with
  | error e => cases found
  | ok a' =>
      cases found
      rfl

theorem exists_pop {n : Nat} (depth : s.stack.items.length = n + 1) :
    ∃ v s', pop s = .ok v s' ∧ s'.stack.items.length = n ∧ s' = { s with stack := s'.stack } := by
  obtain ⟨d, ⟨items⟩, loops, calls, assigns, dispatches, depths, live⟩ := s
  cases items with
  | nil => cases depth
  | cons v rest => exact ⟨v, _, rfl, Nat.succ.inj depth, rfl⟩

/-- The pass can go into a merge. -/
theorem Inv.exists_goInto {b : BlockId} (inv : Inv ctx carry base aside phase hand s)
    (ready : phase ≠ .ended) (plain : s.draft.Plain b)
    (fits : ∀ phis, s.draft.shape? b = some phis → phis.length = s.stack.items.length) :
    ∃ s₁ phis, Lowering.jump b s = .ok () s₁ ∧
      Left ctx carry base aside hand (.goto b) s s₁ ∧ s₁.draft.shape? b = some phis ∧
      enter b s₁ =
        .ok () { s₁ with draft := s₁.draft.moveTo b, stack := .ofSlots phis, live := true } := by
  obtain ⟨s₁, jumped⟩ := inv.exists_jump ready fits
  have left := inv.jump ready plain.toJoint (fun registered => by
    rw [plain.unindexed] at registered
    cases registered) jumped
  obtain ⟨phis, shape, -⟩ := left.exists_shape List.mem_cons_self plain.merge.notDirect
  refine ⟨s₁, phis, jumped, left, shape, ?_⟩
  have notDirect : s₁.draft.isDirect b = false := by
    simpa [Draft.isDirect] using (left.plain plain).merge.notDirect
  simp [enter, notDirect, shape]

/-! ### Starting a loop -/

/-- A loop was opened, in a state with `n` values on the stack after the operands of the
instruction, and the pass has gone on in it. -/
structure Enters (ctx : Context) (k n : Nat) (l : LoopContext) (s t : State) : Prop where
  advances : s.draft.Advances n (fun b => b = l.next ∨ l.kind = .forEach ∧ b = l.loopEnd) t.draft
  loops : t.loops = l :: s.loops
  live : t.live = true
  length : t.stack.items.length = n
  shape : ∃ phis, t.draft.shape? l.next = some phis ∧ phis.length = n
  goes : t.draft.Ends s.draft.cursor (.goto l.next)
  next : ∀ j, ctx.labels.blockAt? j = some l.next → j = k + 1
  head : l.kind = .whileOrRepeat →
    t.draft.cursor = l.next ∧ ∀ b, ctx.labels.blockAt? (k + 1) = some b → l.next = b
  atEnd : l.kind = .forEach → (t.draft.shape? l.loopEnd).isSome ∧
    ∃ more body, t.draft.Ends l.next (.branch more body l.loopEnd)
  fresh : ctx.labels.blockAt? (k + 1) = some t.draft.cursor → t.draft.stmtIndex = 0

section

variable {k : Nat} {label : Label} {b : BlockId}

theorem Inv.yields_startLoop (inv : Inv ctx carry base (ctx.Ahead (k + 1)) .running hand s)
    (distinct : ctx.labels.Distinct) (target : ctx.labels.block label = .ok b)
    (fits : ∀ c phis, ctx.labels.blockAt? (k + 1) = some c → s.draft.shape? c = some phis →
      phis.length = s.stack.items.length) :
    Yields (Lowering.startLoop ctx k label) s fun _ t => ∃ l : LoopContext,
      l.kind = .whileOrRepeat ∧ l.loopEnd = b ∧ Enters ctx k s.stack.items.length l s t := by
  refine yields_bind (target_eq_ok target s) ?_
  obtain ⟨s₁, noted⟩ : ∃ s₁, Lowering.noteEdge b s = .ok () s₁ := ⟨_, rfl⟩
  refine yields_bind noted ?_
  obtain ⟨inv₁, frame⟩ := inv.noteEdge noted
  rw [frame] at inv₁ ⊢
  cases named : ctx.labels.blockAt? (k + 1) with
  | some head =>
      refine yields_bind (by rw [blockAfter, named]; rfl) ?_
      obtain ⟨s₂, phis, jumped, left, shape, entered⟩ := inv₁.exists_goInto (by simp)
        (inv₁.plain_label ⟨_, named⟩) fun phis shape => fits head phis named shape
      refine yields_bind jumped (yields_bind entered
        ⟨(), _, rfl, ⟨.whileOrRepeat, head, b, s₂.openDepths⟩, rfl, rfl, ?_⟩)
      have plain := inv₁.plain_label ⟨_, named⟩
      have moves := left.proceeds plain (.refl _) (.refl _) shape
      refine ⟨moves.advances.mono fun _ => Or.inl, congrArg (_ :: ·) moves.loops, rfl,
        moves.length, left.exists_shape List.mem_cons_self plain.merge.notDirect,
        left.ends.mono (Draft.grows_moveTo _ _), fun j named' => distinct named' named,
        fun _ => ⟨rfl, fun c named' => Option.some.inj (named.symm.trans named')⟩,
        (fun counts => by cases counts), fun _ => ?_⟩
      exact (left.inv.aside ⟨_, Nat.le_refl _, named⟩).1.stmtIndex_moveTo
  | none =>
      refine yields_bind (by rw [blockAfter, named]; rfl) ?_
      obtain ⟨inv₂, plain, ⟨-, -, -, unshaped⟩, -, others, -⟩ := inv₁.newMerge rfl
      obtain ⟨s₂, phis, jumped, left, shape, entered⟩ := inv₂.exists_goInto (by simp) plain
        fun phis shape => by cases unshaped.symm.trans shape
      refine yields_bind jumped (yields_bind entered ⟨(), _, rfl,
        ⟨.whileOrRepeat, s.draft.graph.nextBlock, b, s₂.openDepths⟩, rfl, rfl, ?_⟩)
      have moves := (left.proceeds plain (.refl _) (.refl _) shape).ofNew rfl
      refine ⟨moves.advances.mono fun _ => Or.inl, congrArg (_ :: ·) moves.loops, rfl,
        moves.length, left.exists_shape List.mem_cons_self plain.merge.notDirect,
        left.ends.mono (Draft.grows_moveTo _ _),
        fun j named' => absurd rfl (others _ (Or.inl (Or.inl ⟨j, named'⟩))),
        fun _ => ⟨rfl, fun c named' => ?_⟩, (fun counts => by cases counts), fun named' => ?_⟩
      · cases named.symm.trans named'
      · cases named.symm.trans named'

/-! ### Counting loops -/

/-- The head of a counting loop is a new merge. -/
theorem Inv.exists_enterHead {zero : ValueId} (inv : Inv ctx carry base aside phase hand s)
    (ready : phase ≠ .ended) (initial : (zero, .index) ∈ hand) :
    ∃ s₁ s₂ s₃ t index, Lowering.newMerge s = .ok s.draft.graph.nextBlock s₁ ∧
      Lowering.jump s.draft.graph.nextBlock s₁ = .ok () s₂ ∧
      Lowering.addIndexPhi s.draft.graph.nextBlock s.draft.cursor zero s₂ = .ok index s₃ ∧
      enter s.draft.graph.nextBlock s₃ = .ok () t ∧
      AtHead ctx carry base (fun c => c = s.draft.graph.nextBlock ∨ aside c) hand
        s.draft.graph.nextBlock index s₁ t ∧
      Proceeds s.stack.items.length (· = s.draft.graph.nextBlock) s t ∧
      t.draft.Ends s.draft.cursor (.goto s.draft.graph.nextBlock) ∧
      ∃ phis, t.draft.shape? s.draft.graph.nextBlock = some phis ∧
        phis.length = s.stack.items.length := by
  obtain ⟨inv₁, plain, unlinked, -, others, -⟩ := inv.newMerge rfl
  obtain ⟨s₂, phis, jumped, left, shape, -⟩ := inv₁.exists_goInto ready plain fun phis shape => by
    obtain ⟨-, -, -, unshaped⟩ := unlinked
    cases unshaped.symm.trans shape
  have shape₃ : (s₂.draft.addIndexPhi s.draft.graph.nextBlock s.draft.cursor zero).2.shape?
      s.draft.graph.nextBlock = some phis := shape
  have notDirect : s₂.draft.isDirect s.draft.graph.nextBlock = false := by
    simpa [Draft.isDirect] using (left.plain plain).merge.notDirect
  have notDirect₃ : (s₂.draft.addIndexPhi s.draft.graph.nextBlock s.draft.cursor zero).2.isDirect
      s.draft.graph.nextBlock = false := notDirect
  obtain ⟨t, entered⟩ : ∃ t, enter s.draft.graph.nextBlock { s₂ with
      draft := (s₂.draft.addIndexPhi s.draft.graph.nextBlock s.draft.cursor zero).2 } =
      .ok () t := by
    simp [enter, notDirect₃, shape₃]
  refine ⟨_, s₂, _, t, _, rfl, jumped, rfl, entered, ?_, ?_⟩
  · exact inv₁.enterHead ready (Or.inl rfl) plain unlinked others initial jumped rfl entered
  · simp only [enter, notDirect₃, shape₃, Bool.false_eq_true, if_false] at entered
    cases entered
    have grows : s₂.draft.Grows
        (s₂.draft.addIndexPhi s.draft.graph.nextBlock s.draft.cursor zero).2 :=
      Draft.grows_addIndexPhi left.inv.sound
    refine ⟨(left.proceeds plain grows (Draft.extends_addIndexPhi left.inv.sound _ _ _)
      shape₃).ofNew rfl, left.ends.mono (grows.trans (Draft.grows_moveTo _ _)), ?_⟩
    exact left.exists_shape List.mem_cons_self plain.merge.notDirect

/-- Its body is a new direct block. -/
theorem Inv.exists_enterBody {head loopEnd : BlockId} {index more : ValueId}
    (inv : Inv ctx carry base aside .running hand s) (next : ValueId) (isHead : s.draft.Head head index)
    (other : loopEnd ≠ head)
    (named : ∃ offset, ctx.labels.blockAt? offset = some loopEnd) (test : (more, .test) ∈ hand)
    (fits : ∀ phis, s.draft.shape? loopEnd = some phis → phis.length = s.stack.items.length) :
    ∃ s₁ s₂ s₃ t, Lowering.newDirect s = .ok s.draft.graph.nextBlock s₁ ∧
      Lowering.branch more s.draft.graph.nextBlock loopEnd s₁ = .ok () s₂ ∧
      registerLoopIndex head index next s₂ = .ok () s₃ ∧
      enter s.draft.graph.nextBlock s₃ = .ok () t ∧
      Proceeds s.stack.items.length (· = loopEnd) s t ∧
      t.draft.cursor = s.draft.graph.nextBlock ∧ (t.draft.shape? loopEnd).isSome ∧
      t.draft.Ends s.draft.cursor (.branch more s.draft.graph.nextBlock loopEnd) := by
  obtain ⟨inv₁, untouched, -, -, -⟩ := inv.newDirect rfl
  have plain := inv₁.plain_label named
  have apart : s.draft.graph.nextBlock ≠ loopEnd := fun e =>
    plain.merge.notDirect (e ▸ untouched.mem)
  have one : s.draft.graph.nextBlock ∈ s.draft.newDirect.2.direct ∨
      loopEnd ∈ s.draft.newDirect.2.direct := Or.inl untouched.mem
  obtain ⟨s₂, branched, direct⟩ := inv₁.exists_branch (by simp) more one (fun b mem notDirect => by
      rcases List.mem_cons.mp mem with rfl | mem
      · exact absurd untouched.mem notDirect
      · rw [List.mem_singleton.mp mem]
        exact fits)
  have left := inv₁.branch (by simp) test apart (Or.inl ⟨untouched, Or.inl plain⟩) branched
  have isDirect : (s₂.draft.registerLoopIndex head index next).isDirect s.draft.graph.nextBlock =
      true := List.elem_eq_true_of_mem (direct ▸ untouched.mem)
  have head₂ : s₂.draft.Head head index := by
    refine isHead.newDirect.ended left.can left.ended ?_
    have notBody : head ≠ s.draft.graph.nextBlock := by
      obtain ⟨block, live⟩ := Option.isSome_iff_exists.mp isHead.live
      exact Draft.ne_nextBlock live
    simpa [Terminator.successors] using ⟨notBody, other.symm⟩
  have grows : s.draft.Grows s.draft.newDirect.2 := Draft.grows_addBlock Draft.others_newDirect
  have registers : s₂.draft.Grows (s₂.draft.registerLoopIndex head index next) :=
    Draft.grows_registerLoopIndex head₂.unindexed
  have advances := left.advances
  obtain ⟨phis, shape, -⟩ := left.exists_shape (b := loopEnd) (by simp [Terminator.successors])
    plain.merge.notDirect
  refine ⟨_, s₂, _, _, rfl, branched, rfl, by rw [enter, if_pos isDirect], ⟨⟨?_, ?_, ?_⟩, ?_, rfl,
    ?_⟩, rfl, ?_, left.ends.mono (registers.trans (Draft.grows_moveTo _ _))⟩
  · exact grows.trans (left.grows.trans (registers.trans (Draft.grows_moveTo _ _)))
  · intro b phis live shape
    obtain ⟨block, live'⟩ := Option.isSome_iff_exists.mp live
    refine (advances.shape (grows.isSome live) shape).imp id (And.imp_left fun mem => ?_)
    rcases List.mem_cons.mp mem with rfl | mem
    · exact absurd rfl (Draft.ne_nextBlock live')
    · exact List.mem_singleton.mp mem
  · exact fun tidy => (advances.tidy tidy.newDirect).moveTo left.inv.phase fun _ => id
  · exact congrArg (·.loops) left.frame
  · exact congrArg (·.stack.items.length) left.frame
  · exact Option.isSome_iff_exists.mpr ⟨phis, shape⟩

theorem Inv.yields_startFor {call symbol : PoolIndex} {n : Nat}
    (inv : Inv ctx carry base aside .running [] s)
    (site : (ctx.pool.expr call).toOption.isSome) (name : (ctx.pool.symbol symbol).toOption.isSome)
    (target : ctx.labels.block label = .ok b) (depth : s.stack.items.length = n + 1)
    (fits : ∀ phis, s.draft.shape? b = some phis → phis.length = n) :
    Yields (Lowering.startFor ctx call symbol label) s fun _ t => ∃ l : LoopContext,
      l.kind = .forEach ∧ l.loopEnd = b ∧ Enters ctx k n l s t := by
  obtain ⟨seq, s₁, popped, length, frame⟩ := exists_pop depth
  have inv₁ := ensures_pop s seq s₁ inv popped
  obtain ⟨_, site⟩ := Option.isSome_iff_exists.mp site
  obtain ⟨name, symbol⟩ := Option.isSome_iff_exists.mp name
  refine yields_bind popped (yields_bind (constant_eq_ok site s₁)
    (yields_bind (constant_eq_ok symbol s₁) (yields_bind (target_eq_ok target s₁) ?_)))
  -- before the loop
  obtain ⟨bound, s₂, h₂, inv₂, does₂, cursor₂⟩ := inv₁.exists_emit (.length seq) (by simp)
    (by simp [Op.inputs, Op.operands, Phase.reads])
  obtain ⟨zero, s₃, h₃, inv₃, does₃, cursor₃⟩ := inv₂.exists_emit (.indexConst 0) (by simp)
    (by simp [Op.inputs, Op.operands])
  refine yields_bind h₂ (yields_bind h₃ (yields_bind rfl ?_))
  -- the head
  obtain ⟨s₄, s₅, s₆, s₇, index, h₄, h₅, h₆, h₇, atHead, does₇, goes, shape⟩ :=
    inv₃.exists_enterHead (by simp) List.mem_cons_self
  refine yields_bind h₄ (yields_bind h₅ (yields_bind h₆ (yields_bind h₇ ?_)))
  obtain ⟨one, s₈, h₈, inv₈, does₈, -⟩ := atHead.inv.exists_emit (.indexConst 1) (by simp)
    (by simp [Op.inputs, Op.operands])
  obtain ⟨next, s₉, h₉, inv₉, does₉, -⟩ := inv₈.exists_emit (.indexAdd index one) (by simp)
    (by simp [Op.inputs, Phase.reads, Op.resultType])
  obtain ⟨more, s₁₀, h₁₀, -, does₁₀, -⟩ := inv₉.exists_emit (.indexLe next bound)
    (by simp) (by simp [Op.inputs, Phase.reads, Op.resultType])
  refine yields_bind h₈ (yields_bind h₉ (yields_bind h₁₀ ?_))
  obtain ⟨inv₁₀, isHead, defined, cursor, loops, dispatches⟩ :=
    atHead.count (List.mem_cons_of_mem _ List.mem_cons_self) h₈ h₉ h₁₀
  have named := named_of_block target
  have toHead := (does₂ _).trans ((does₃ _).trans (does₇.trans ((does₈ _).trans ((does₉ _).trans
    (does₁₀ _)))))
  -- the body
  obtain ⟨-, -, -, -, others, frame₄⟩ := inv₃.newMerge h₄
  have others₁₀ : ∀ c, s₁₀.Targets ctx c → c ≠ s₃.draft.graph.nextBlock := by
    intro c target
    refine others c (target.congr ?_ ?_)
    · rw [loops, frame₄]
    · rw [dispatches, frame₄]
  have fits₁₀ : ∀ phis, s₁₀.draft.shape? b = some phis →
      phis.length = s₁₀.stack.items.length := by
    intro phis shape
    rw [toHead.length, length]
    rcases toHead.advances.shape (inv₁.plain_label named).live shape with old | ⟨-, fit⟩
    · rw [frame] at old
      exact fits phis old
    · exact fit.trans length
  obtain ⟨s₁₁, s₁₂, s₁₃, s₁₄, h₁₁, h₁₂, h₁₃, h₁₄, does₁₄, inBody, shaped, tests⟩ :=
    inv₁₀.exists_enterBody next isHead (others₁₀ b (Or.inl (Or.inl named))) named
      List.mem_cons_self fits₁₀
  refine yields_bind h₁₁ (yields_bind h₁₂ (yields_bind h₁₃ (yields_bind h₁₄ ?_)))
  obtain ⟨inv₁₄, -⟩ := inv₁₀.enterBody cursor isHead defined others₁₀ named List.mem_cons_self
    (List.mem_cons_of_mem _ List.mem_cons_self) h₁₁ h₁₂ h₁₃ h₁₄
  obtain ⟨element, s₁₅, h₁₅, inv₁₅, does₁₅, cursor₁₅⟩ := inv₁₄.exists_emit
    (.forElement seq next) (by simp) (by simp [Op.inputs, Phase.reads])
  obtain ⟨_, s₁₆, h₁₆, inv₁₆, does₁₆, cursor₁₆⟩ := inv₁₅.exists_emit
    (.stVar name .current element) (by simp)
    (by simp [Op.inputs, Op.operands, Op.resultType, Phase.reads])
  refine yields_bind h₁₅ (yields_bind h₁₆ ⟨(), _, rfl,
    ⟨.forEach, s₃.draft.graph.nextBlock, b, s₁₆.openDepths⟩, rfl, rfl, ?_⟩)
  have inLoop := does₁₄.trans ((does₁₅ _).trans (does₁₆ _))
  have all := (toHead.mono fun c same =>
      (Or.inl same : c = s₃.draft.graph.nextBlock ∨ LoopKind.forEach = .forEach ∧ c = b)).trans
    (inLoop.mono fun c same => Or.inr ⟨rfl, same⟩)
  have inHead := ((does₈ fun _ => False).trans ((does₉ _).trans (does₁₀ _))).advances.grows
  have fromHead := inHead.trans inLoop.advances.grows
  have sameDraft : s₁.draft = s.draft := by rw [frame]
  have sameLength : s₃.stack.items.length = n := by rw [(does₃ fun _ => False).length,
    (does₂ fun _ => False).length, length]
  rw [length] at all
  refine ⟨sameDraft ▸ all.advances, ?_, all.live, all.length, ?_, ?_, ?_,
    (fun repeats => by cases repeats), fun _ => ?_, ?_⟩
  · refine congrArg (_ :: ·) (all.loops.trans ?_)
    rw [frame]
  · obtain ⟨phis, shape, fit⟩ := shape
    exact ⟨phis, fromHead.shape shape, fit.trans sameLength⟩
  · rw [← sameDraft, ← cursor₂, ← cursor₃]
    exact goes.mono fromHead
  · exact fun j named' => absurd rfl (others _ (Or.inl (Or.inl ⟨j, named'⟩)))
  · obtain ⟨phis, shaped⟩ := Option.isSome_iff_exists.mp shaped
    have grows := ((does₁₅ fun _ => False).trans (does₁₆ _)).advances.grows
    exact ⟨Option.isSome_iff_exists.mpr ⟨phis, grows.shape shaped⟩, _, _, cursor ▸ tests.mono grows⟩
  · intro named'
    have named' : ctx.labels.blockAt? (k + 1) = some s₁₆.draft.cursor := named'
    rw [cursor₁₆, cursor₁₅, inBody] at named'
    obtain ⟨block, live⟩ := Option.isSome_iff_exists.mp (inv₁₀.plain_label ⟨_, named'⟩).live
    exact absurd rfl (Draft.ne_nextBlock live)

end

/-! ### Edges of a loop -/

section

variable {l : LoopContext} {rest : List LoopContext} (inv : Inv ctx carry base aside .begun [] s)
  (loops : s.loops = l :: rest)

include inv loops

theorem Inv.exists_leaveLoop {exit : LoopExit}
    (held : exit = .next → ∀ v ∈ s.heldByLoop, (v, .index) ∈ carry.values)
    (fits : ∀ phis, s.draft.shape? (l.exitTo exit) = some phis →
      phis.length = s.stack.items.length) :
    ∃ s', Lowering.leaveLoop ctx exit s = .ok () s' ∧
      Left ctx carry base aside [] (.goto (l.exitTo exit)) s s' := by
  obtain ⟨s', jumped⟩ := inv.exists_jump (by simp) fits
  refine ⟨s', bind_eq_ok_iff.mpr ⟨s, s, rfl, ?_⟩, ?_⟩
  · rw [loops]
    cases exit <;> exact jumped
  · cases exit with
    | next => exact ((inv.conducts_jumpNext (F := .any) loops (held rfl)).result jumped).1
    | leave =>
        have plain : s.draft.Plain l.loopEnd :=
          inv.aims (Or.inr (Or.inl ⟨l, loops ▸ List.mem_cons_self, rfl⟩))
        exact (inv.conducts_jumpPlain (F := .any) (by simp) plain).result jumped

theorem Inv.exists_stepFor (kind : l.kind = .forEach)
    (held : ∀ v ∈ s.heldByLoop, (v, .index) ∈ carry.values)
    (fits : ∀ phis, s.draft.shape? l.next = some phis → phis.length = s.stack.items.length) :
    ∃ s', Lowering.stepFor s = .ok () s' ∧ Left ctx carry base aside [] (.goto l.next) s s' := by
  obtain ⟨s', jumped⟩ := inv.exists_jump (by simp) fits
  refine ⟨s', bind_eq_ok_iff.mpr ⟨l, s, ?_, ?_⟩,
    ((inv.conducts_jumpNext (F := .any) loops held).result jumped).1⟩
  · rw [innermostLoop, loops]
    rfl
  · rw [if_pos kind]
    exact jumped

end

section

variable {l : LoopContext} {rest : List LoopContext} {kind : LoopKind}

theorem endLoop_eq_ok (loops : s.loops = l :: rest) (same : l.kind = kind)
    (isOpen : s.draft.Open) (cursor : s.draft.cursor = l.loopEnd) (start : s.draft.stmtIndex = 0) :
    endLoop kind s = .ok () { s with loops := rest } := by
  obtain ⟨block, live, unended⟩ := isOpen
  have atStart : s.draft.atStartOf l.loopEnd = true := by
    rw [Draft.stmtIndex_eq live, List.length_eq_zero_iff] at start
    rw [Draft.atStartOf, ← cursor, live]
    simp [start, unended]
  have popped : popLoop kind s = .ok l { s with loops := rest } := by
    rw [popLoop, loops]
    exact if_pos same
  refine bind_eq_ok_iff.mpr ⟨l, _, popped, bind_eq_ok_iff.mpr ⟨_, _, rfl, ?_⟩⟩
  rw [if_pos atStart]
  rfl

/-- The end of a loop in skipped code only drops brackets. -/
theorem exists_endDeadLoop {k : Nat}
    (same : ∀ l rest, s.loops = l :: rest → ctx.labels.blockAt? k = some l.loopEnd → l.kind = kind) :
    ∃ t, endDeadLoop ctx k kind s = .ok () t ∧ t.draft = s.draft ∧ t.live = s.live ∧
      t.loops <:+ s.loops := by
  cases loops : s.loops with
  | nil =>
      refine ⟨s, bind_eq_ok_iff.mpr ⟨s, s, rfl, ?_⟩, rfl, rfl, loops ▸ List.suffix_refl _⟩
      rw [loops]
      rfl
  | cons l rest =>
      by_cases here : ctx.labels.blockAt? k = some l.loopEnd
      · refine ⟨State.truncateBrackets { s with loops := rest } l.opened,
          bind_eq_ok_iff.mpr ⟨s, s, rfl, ?_⟩, rfl, rfl, List.suffix_cons l rest⟩
        rw [loops]
        simp only
        rw [if_pos here]
        refine bind_eq_ok_iff.mpr ⟨l, { s with loops := rest }, ?_, rfl⟩
        rw [popLoop, loops]
        exact if_pos (same l rest loops here)
      · refine ⟨s, bind_eq_ok_iff.mpr ⟨s, s, rfl, ?_⟩, rfl, rfl, loops ▸ List.suffix_refl _⟩
        rw [loops]
        simp only
        rw [if_neg here]
        rfl

end

/-! ### Calls -/

/-- The step emits operations and does nothing else. -/
def OnlyEmits {α : Type} (x : Lowering α) : Prop :=
  ∀ s : State, s.draft.Open → ∃ a d, x s = .ok a { s with draft := d } ∧ d.Open ∧
    s.draft.Grows d ∧ s.draft.Extends d

theorem onlyEmits_pure {α : Type} (a : α) : OnlyEmits (pure a : Lowering α) := fun s isOpen =>
  ⟨a, s.draft, rfl, isOpen, .refl _, .refl _⟩

theorem onlyEmits_emit (op : Op) : OnlyEmits (emit op) := fun s isOpen =>
  ⟨_, _, emit_of_open isOpen op, isOpen.emit op, Draft.grows_emitted isOpen,
    s.draft.extends_emit op⟩

theorem OnlyEmits.bind {α β : Type} {x : Lowering α} {f : α → Lowering β} (first : OnlyEmits x)
    (rest : ∀ a, OnlyEmits (f a)) : OnlyEmits (x >>= f) := by
  intro s isOpen
  obtain ⟨a, d, h, isOpen, grows, extends_⟩ := first s isOpen
  obtain ⟨b, d', h', isOpen', grows', extends'⟩ := rest a { s with draft := d } isOpen
  exact ⟨b, d', bind_eq_ok_iff.mpr ⟨a, _, h, h'⟩, isOpen', grows.trans grows',
    extends_.trans extends'⟩

theorem onlyEmits_argValues (args : List CallArg) : OnlyEmits (argValues args) := by
  induction args with
  | nil => exact onlyEmits_pure []
  | cons a args ih =>
      have first : OnlyEmits (argValue a.value) := by
        cases a.value with
        | value v => exact onlyEmits_pure v
        | missing => exact onlyEmits_emit _
        | dots => exact onlyEmits_emit _
      exact first.bind fun v => ih.bind fun vs => onlyEmits_pure _

theorem onlyEmits_emitCall (c : PendingCall) (site : CallSite) : OnlyEmits (emitCall c site) := by
  refine (onlyEmits_argValues c.args).bind fun args => ?_
  cases c.callee with
  | builtin name => exact onlyEmits_emit _
  | value callee =>
      simp only
      split <;> exact onlyEmits_emit _

/-- The pass has gone on in the same block and the same loops, with `n` values on the stack. -/
structure Stays (n : Nat) (s t : State) : Prop where
  advances : s.draft.Advances n (fun _ => False) t.draft
  cursor : t.draft.cursor = s.draft.cursor
  loops : t.loops = s.loops
  live : t.live = true
  length : t.stack.items.length = n

section

variable {symbol call : PoolIndex} (isOpen : s.draft.Open) (live : s.live = true)

include isOpen live

theorem yields_startCall (lookup : FunLookup) (name : (ctx.pool.symbol symbol).toOption.isSome) :
    Yields (startCall ctx lookup symbol) s fun _ => Stays s.stack.items.length s := by
  obtain ⟨name, found⟩ := Option.isSome_iff_exists.mp name
  exact yields_bind (constant_eq_ok found s) (yields_bind (emit_of_open isOpen _) ⟨(), _, rfl,
    Draft.advances_emit isOpen _, rfl, rfl, live, rfl⟩)

theorem yields_finishCall {c : PendingCall} {rest : List PendingCall} (calls : s.calls = c :: rest)
    (site : (ctx.pool.expr call).toOption.isSome) :
    Yields (finishCall ctx call) s fun _ => Stays (s.stack.items.length + 1) s := by
  obtain ⟨_, found⟩ := Option.isSome_iff_exists.mp site
  have popped : popCall s = .ok c { s with calls := rest } := by
    rw [popCall, calls]
    rfl
  have sited : ctx.site call { s with calls := rest } = .ok (.pool call) { s with calls := rest } :=
    bind_eq_ok_iff.mpr ⟨_, _, constant_eq_ok found _, rfl⟩
  obtain ⟨v, d, emitted, -, grows, extends_⟩ := onlyEmits_emitCall c (.pool call)
    { s with calls := rest } isOpen
  exact yields_bind popped (yields_bind sited (yields_bind emitted ⟨(), _, rfl,
    extends_.advances grows, extends_.cursor, rfl, live, rfl⟩))

end

section

variable {symbol : PoolIndex} {n : Nat} (live : s.live = true)

include live

theorem yields_startBuiltin (name : (ctx.pool.symbol symbol).toOption.isSome) :
    Yields (startBuiltin ctx symbol) s fun _ => Stays s.stack.items.length s := by
  obtain ⟨name, found⟩ := Option.isSome_iff_exists.mp name
  exact yields_bind (constant_eq_ok found s) ⟨(), _, rfl, .refl _ _ _, rfl, rfl, live, rfl⟩

theorem yields_addPopped {c : PendingCall} {rest : List PendingCall} (calls : s.calls = c :: rest)
    (depth : s.stack.items.length = n + 1) : Yields addPopped s fun _ => Stays n s := by
  obtain ⟨v, s', popped, length, frame⟩ := exists_pop depth
  refine yields_bind popped ⟨(), { s' with calls := c.addValue v :: rest }, ?_, ?_, ?_, ?_, ?_,
    length⟩
  · rw [frame, modifyCall, updateCall]
    simp only [calls]
    rfl
  · rw [frame]
    exact .refl _ _ _
  · rw [frame]
  · rw [frame]
  · rw [frame]
    exact live

theorem yields_nameLastArg {c : PendingCall} {rest : List PendingCall} (calls : s.calls = c :: rest)
    (args : c.args ≠ []) (name : (ctx.pool.symbol symbol).toOption.isSome) :
    Yields (nameLastArg ctx symbol) s fun _ => Stays s.stack.items.length s := by
  obtain ⟨name, found⟩ := Option.isSome_iff_exists.mp name
  obtain ⟨c', named⟩ : ∃ c', c.nameLast name = .ok c' := by
    rw [PendingCall.nameLast, List.getLast?_eq_some_getLast args]
    exact ⟨_, rfl⟩
  refine yields_bind (constant_eq_ok found s)
    ⟨(), { s with calls := c' :: rest }, ?_, .refl _ _ _, rfl, rfl, live, rfl⟩
  rw [updateCall, calls, Bracket.updateTop, named]
  rfl

end

/-- A call that an argument was added to has one. -/
theorem args_of_addPopped {t : State} (h : addPopped s = .ok () t) :
    ∃ c rest, t.calls = c :: rest ∧ c.args ≠ [] := by
  obtain ⟨v, s₁, -, h⟩ := bind_eq_ok_iff.mp h
  rw [modifyCall, updateCall] at h
  cases calls : s₁.calls with
  | nil =>
      rw [calls] at h
      cases h
  | cons c rest =>
      rw [calls] at h
      cases h
      exact ⟨_, _, rfl, by simp [PendingCall.addValue, PendingCall.addArg]⟩

end Lowering

end StackLift
