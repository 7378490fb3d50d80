import StackLift.Proofs.Dispatch.Line

/-!
Opening a dispatch. The block under construction ends in a test on the target. The slow path is
one call of the builtin, and its edge is the first one into the block after the construct; the
pass goes on in the fast path, with the target where it was (`Inv.exists_startDispatch`).
-/

namespace StackLift

/-- A statement of the block defines the value by the operation. -/
def Graph.Defines (g : Graph) (b : BlockId) (v : ValueId) (op : Op) : Prop :=
  ∃ block, g.block? b = some block ∧ ⟨v, op⟩ ∈ block.stmts

namespace Draft

variable {d d' : Draft} {b : BlockId}

theorem Grows.defines (grows : d.Grows d') {v : ValueId} {op : Op}
    (defines : d.graph.Defines b v op) : d'.graph.Defines b v op := by
  obtain ⟨block, live, mem⟩ := defines
  obtain ⟨block', live', grown⟩ := grows.block live
  exact ⟨block', live', grown.stmts.subset mem⟩

theorem defines_emitted (isOpen : d.Open) (op : Op) :
    (d.emitted op).graph.Defines d.cursor d.graph.nextValue op := by
  obtain ⟨block, live, -⟩ := isOpen
  refine ⟨block.append ⟨d.graph.nextValue, op⟩, ?_, ?_⟩
  · rw [block?_emitted, if_pos rfl, live, Option.map_some]
  · exact List.mem_append_right _ List.mem_cons_self

theorem length_values_emitted (d : Draft) (op : Op) :
    (d.emitted op).graph.values.length = d.graph.values.length + 1 := by
  simp [values_emitted]

/-! ### Edges into a merge -/

theorem Unlinked.shape (unlinked : d.Unlinked b) : d.shape? b = none := by
  obtain ⟨-, -, -, shape⟩ := unlinked
  exact shape

theorem Unlinked.addBlock {direct : List BlockId} (unlinked : d.Unlinked b) :
    (d.addBlock direct).Unlinked b := by
  obtain ⟨block, live, preds, shape⟩ := unlinked
  exact ⟨block, block?_addBlock_of_eq_some live, preds, shape⟩

theorem Unlinked.emit (unlinked : d.Unlinked b) (op : Op) : (d.emitted op).Unlinked b := by
  obtain ⟨block, live, preds, shape⟩ := unlinked
  rw [Unlinked, block?_emitted, live]
  split
  · exact ⟨_, rfl, preds, shape⟩
  · exact ⟨_, rfl, preds, shape⟩

theorem Unlinked.ended {t : Terminator} {slots : List ValueId} (unlinked : d.Unlinked b)
    (ended : d.Ended t slots d') (notMem : b ∉ t.successors) : d'.Unlinked b := by
  obtain ⟨block, live, preds, shape⟩ := unlinked
  refine ⟨_, by rw [ended.block, live, Option.map_some], ?_, ?_⟩
  · rw [preds_ended, preds, List.count_eq_zero.mpr notMem]
    rfl
  · rw [ended.shape, if_neg fun merge => notMem (mem_mergesOf.mp merge).1, shape]

/-- The edges into a merge come from these blocks, in this order, and its phis, which are those of
the slots alone, have these inputs. -/
def Joins (d : Draft) (b : BlockId) (preds : List BlockId)
    (inputs : List (List (BlockId × ValueId))) : Prop :=
  ∃ block, d.graph.block? b = some block ∧ block.preds = preds ∧
    block.phis.map (·.inputs) = inputs ∧ d.shape? b = some (block.phis.map (·.value))

variable {preds : List BlockId} {inputs : List (List (BlockId × ValueId))}

theorem Joins.congr (joins : d.Joins b preds inputs) (block : d'.graph.block? b = d.graph.block? b)
    (shape : d'.shape? b = d.shape? b) : d'.Joins b preds inputs := by
  obtain ⟨before, live, rest⟩ := joins
  exact ⟨before, block.trans live, shape ▸ rest⟩

theorem Joins.writes (joins : d.Joins b preds inputs) (writes : d.Writes d')
    (other : b ≠ d.cursor) : d'.Joins b preds inputs :=
  joins.congr (writes.others b other) (by rw [shape?, shape?, writes.shapes])

end Draft

/-- Phis that receive an input each have it after those they had. -/
theorem Phi.map_inputs_receive (source : BlockId) (phis : List Phi) (values : List ValueId) :
    ((phis.zip values).map fun (p, v) => p.receive source v).map (·.inputs) =
      (phis.map (·.inputs)).zipWith (fun inputs v => inputs ++ [(source, v)]) values := by
  induction phis generalizing values with
  | nil => rfl
  | cons p phis ih =>
      cases values with
      | nil => rfl
      | cons v values => simpa [Phi.receive] using ih values

theorem Phi.map_inputs_fresh (n : Nat) (types : List ValueType) :
    (fresh n types).map (·.inputs) = types.map fun _ => [] := by
  induction types generalizing n with
  | nil => rfl
  | cons type types ih => simp [fresh, ih]

/-- The calls that are open inside a dispatch: indices that are not on the stack are added to a
call that has the target as its first argument. -/
def DispatchKind.callsInside (kind : DispatchKind) (target : ValueId) (calls : List PendingCall) :
    List PendingCall :=
  if kind.isNary then calls
  else { callee := .builtin kind.builtin, args := [{ value := .value target }] } :: calls

/-- What the code inside a dispatch finds. The test, the call of the slow path and a phi for each
slot were made. -/
def Line.inDispatch (l : Line) (kind : DispatchKind) (target : ValueId) (below : List ValueId) :
    Line where
  stack := target :: below
  calls := kind.callsInside target l.calls
  assigns := l.assigns
  made := l.made + below.length + 3

namespace Lowering

variable {ctx : Context} {carry : Carry} {base : Draft} {aside : BlockId → Prop} {phase : Phase}
  {hand : List (ValueId × ValueType)} {s s' : State} {b : BlockId}

section

variable (left : Left ctx carry base aside hand (.goto b) s s') (plain : s.draft.Plain b)

include left plain

/-- A jump to a merge adds an edge to it. -/
theorem Left.joins {preds : List BlockId} {inputs : List (List (BlockId × ValueId))}
    (joins : s.draft.Joins b preds inputs) :
    s'.draft.Joins b (preds ++ [s.draft.cursor])
      (inputs.zipWith (fun row v => row ++ [(s.draft.cursor, v)]) s.stack.slots) := by
  obtain ⟨block, live, rfl, rfl, shape⟩ := joins
  have merge : b ∈ s.draft.mergesOf (Terminator.goto b).successors :=
    Draft.mem_mergesOf.mpr ⟨List.mem_cons_self, plain.merge.notDirect⟩
  refine ⟨_, by rw [left.ended.block, live, Option.map_some], ?_, ?_, ?_⟩
  · simp [Terminator.successors]
  · rw [Draft.ended_of_mem merge, Block.receive, Phi.map_inputs_receive]
    simp [Draft.newPhis_eq_nil shape, Draft.carried, plain.unindexed, Draft.endBlock]
  · rw [Draft.map_value_ended left.can left.ended merge live, left.ended.shape, if_pos merge, shape]
    rfl

/-- The first edge gives a merge a phi for each slot. -/
theorem Left.joins_first (unlinked : s.draft.Unlinked b) :
    s'.draft.Joins b [s.draft.cursor] (s.stack.slots.map fun v => [(s.draft.cursor, v)]) := by
  obtain ⟨block, live, preds, shape⟩ := unlinked
  have merge : b ∈ s.draft.mergesOf (Terminator.goto b).successors :=
    Draft.mem_mergesOf.mpr ⟨List.mem_cons_self, plain.merge.notDirect⟩
  have none : block.phis = [] := by
    have ids := plain.merge.phis live
    rw [Draft.phisOf, shape, plain.unindexed] at ids
    exact List.map_eq_nil_iff.mp ids
  refine ⟨_, by rw [left.ended.block, live, Option.map_some], ?_, ?_, ?_⟩
  · simp [Terminator.successors, preds]
  · rw [Draft.ended_of_mem merge, Block.receive, Phi.map_inputs_receive]
    simp [Draft.newPhis_eq_fresh shape, Phi.map_inputs_fresh, Draft.carried, plain.unindexed,
      Draft.endBlock, none, List.zipWith_map_left, List.zipWith_self]
  · rw [Draft.map_value_ended left.can left.ended merge live, left.ended.shape, if_pos merge, shape,
      none]
    rfl

/-- These are all the values that a jump makes. -/
theorem Left.length_values (shape : s.draft.shape? b = none) :
    s'.draft.graph.values.length = s.draft.graph.values.length + s.stack.slots.length := by
  have merges : s.draft.mergesOf (Terminator.goto b).successors = [b] := by
    simpa [Draft.mergesOf, Draft.isDirect, Terminator.successors] using plain.merge.notDirect
  rw [left.ended.values, merges]
  simp [Draft.newPhis_eq_fresh shape]

end

/-! ### The slow path -/

theorem replaceTop_of_stack {v w : ValueId} {rest : List ValueId} (stack : s.stack = ⟨w :: rest⟩) :
    replaceTop v s = .ok w { s with stack := ⟨v :: rest⟩ } := by
  rw [replaceTop, stack]
  rfl

/-- The slow path calls the builtin and goes to the block after the construct. -/
structure Detours (p : PendingDispatch) (target : ValueId) (below : List ValueId) (s s' : State) :
    Prop where
  frame : s' = { s with draft := s'.draft, edgeDepths := s'.edgeDepths }
  grows : s.draft.Grows s'.draft
  call : s'.draft.graph.Defines s.draft.cursor s.draft.graph.nextValue
    (.callBuiltin p.kind.builtin (target :: p.rhs.toList) (.pool p.call))
  joins : s'.draft.Joins p.after [s.draft.cursor]
    ((below.reverse ++ [s.draft.graph.nextValue]).map fun v => [(s.draft.cursor, v)])
  values : s'.draft.graph.values.length = s.draft.graph.values.length + below.length + 2

theorem Inv.exists_slowPath {p : PendingDispatch} {target : ValueId} {below : List ValueId}
    (inv : Inv ctx carry base aside .running hand s)
    (named : ∃ offset, ctx.labels.blockAt? offset = some p.after)
    (known : ∀ v ∈ target :: p.rhs.toList, (v, .value) ∈ hand)
    (unlinked : s.draft.Unlinked p.after) (stack : s.stack = ⟨target :: below⟩) :
    ∃ s', Lowering.slowPath p.kind p.call target p.rhs p.after s = .ok () s' ∧
      Detours p target below s s' := by
  -- the call, and its result in the slot of the target
  have isOpen : s.draft.Open := inv.phase
  have emits : Conducts .any (Lowering.emit (.callBuiltin p.kind.builtin (target :: p.rhs.toList)
      (.pool p.call))) s fun v => Inv ctx carry base aside .running ((v, .value) :: hand) :=
    inv.conducts_emitValue (by simp) rfl rfl known
  obtain ⟨result, s₁, h₁, inv₁, frame₁⟩ : ∃ result s₁, Lowering.emit (.callBuiltin p.kind.builtin
      (target :: p.rhs.toList) (.pool p.call)) s = .ok result s₁ ∧
      Inv ctx carry base aside .running ((result, .value) :: hand) s₁ ∧
      s₁ = { s with draft := s₁.draft } :=
    ⟨_, _, emit_of_open isOpen _, emits.result (emit_of_open isOpen _), rfl⟩
  obtain ⟨same, draft₁⟩ := emit_eq_ok h₁
  have h₂ : replaceTop result s₁ = .ok target { s₁ with stack := ⟨result :: below⟩ } :=
    replaceTop_of_stack (frame₁ ▸ stack)
  have inv₂ := ensures_replaceTop List.mem_cons_self s₁ target _ inv₁ h₂
  -- the edge
  have unlinked₂ : s₁.draft.Unlinked p.after := by
    rw [draft₁]
    exact unlinked.emit _
  obtain ⟨s₃, h₃⟩ := inv₂.exists_jump (by simp) (b := p.after) fun phis shaped => by
    cases unlinked₂.shape.symm.trans shaped
  have left := inv₂.jumpTo (by simp) named h₃
  have plain := inv₂.plain_label named
  have h₄ : replaceTop target s₃ = .ok result { s₃ with stack := ⟨target :: below⟩ } :=
    replaceTop_of_stack (by rw [left.frame])
  refine ⟨{ s₃ with stack := ⟨target :: below⟩ }, ?_, ?_⟩
  · exact bind_eq_ok_iff.mpr ⟨_, _, h₁, bind_eq_ok_iff.mpr ⟨_, _, h₂, bind_eq_ok_iff.mpr
      ⟨_, _, h₃, bind_eq_ok_iff.mpr ⟨_, _, h₄, rfl⟩⟩⟩⟩
  have grows₁ : s.draft.Grows s₁.draft := by
    rw [draft₁]
    exact Draft.grows_emitted isOpen
  have cursor : s₁.draft.cursor = s.draft.cursor := by
    rw [draft₁]
    rfl
  refine ⟨?_, grows₁.trans left.grows, ?_, ?_, ?_⟩
  · rw [left.frame, frame₁, ← stack]
  · refine left.grows.defines ?_
    rw [draft₁]
    exact Draft.defines_emitted isOpen _
  · have joins := left.joins_first plain unlinked₂
    rw [show s.draft.graph.nextValue = result from same.symm, ← cursor]
    simpa [OperandStack.slots] using joins
  · have values := left.length_values plain unlinked₂.shape
    have values₁ : s₁.draft.graph.values.length = s.draft.graph.values.length + 1 := by
      rw [draft₁]
      exact Draft.length_values_emitted _ _
    simp only [OperandStack.slots, List.length_reverse, List.length_cons] at values
    show s₃.draft.graph.values.length = _
    omega

/-! ### Both paths -/

/-- A test on the target leads to the slow path, which is complete, and to the fast path, in which
the pass goes on. -/
structure Forks (p : PendingDispatch) (target : ValueId) (below : List ValueId)
    (slow fast : BlockId) (result : ValueId) (s t : State) : Prop where
  live : t.live = true
  cursor : t.draft.cursor = fast
  apart : slow ≠ fast
  line : t.line = s.line.inDispatch p.kind target below
  dispatches : t.dispatches = p :: s.dispatches
  test : ∃ plain, t.draft.graph.Defines s.draft.cursor plain (.isPlain target) ∧
    t.draft.Ends s.draft.cursor (.branch plain fast slow)
  call : t.draft.graph.Defines slow result
    (.callBuiltin p.kind.builtin (target :: p.rhs.toList) (.pool p.call))
  joins : t.draft.Joins p.after [slow] ((below.reverse ++ [result]).map fun v => [(slow, v)])

theorem popRhs_of_stack {kind : DispatchKind} {rhs : Option ValueId} {rest : List ValueId}
    (stack : s.stack = ⟨rhs.toList ++ rest⟩) (write : rhs.isSome = kind.isWrite) :
    popRhs kind s = .ok rhs { s with stack := ⟨rest⟩ } := by
  obtain ⟨d, items, loops, calls, assigns, dispatches, depths, live⟩ := s
  cases stack
  rw [popRhs, ← write]
  cases rhs <;> rfl

theorem startIndices_eq (kind : DispatchKind) (target : ValueId) (s : State) :
    startIndices kind target s = .ok () { s with calls := kind.callsInside target s.calls } := by
  rw [startIndices, DispatchKind.callsInside]
  split <;> rfl

theorem enter_of_direct (direct : b ∈ s.draft.direct) :
    enter b s = .ok () { s with draft := s.draft.moveTo b, live := true } := by
  have isDirect : s.draft.isDirect b = true := List.elem_eq_true_of_mem direct
  rw [enter, if_pos isDirect]

/-- The block under construction has ended in a test that leads to two new blocks. -/
structure Splits (cond : ValueId) (yes no : BlockId) (s s' : State) : Prop where
  frame : s' = { s with draft := s'.draft, edgeDepths := s'.edgeDepths }
  grows : s.draft.Grows s'.draft
  apart : yes ≠ no
  direct : yes ∈ s'.draft.direct ∧ no ∈ s'.draft.direct
  ends : s'.draft.Ends s.draft.cursor (.branch cond yes no)
  values : s'.draft.graph.values.length = s.draft.graph.values.length
  unlinked : ∀ {c : BlockId}, c ∉ s.draft.direct → s.draft.Unlinked c → s'.draft.Unlinked c

theorem Inv.exists_split {cond : ValueId} (inv : Inv ctx carry base aside .begun hand s)
    (test : (cond, .test) ∈ hand) :
    ∃ yes no s₁ s₂ s', Lowering.newDirect s = .ok yes s₁ ∧ Lowering.newDirect s₁ = .ok no s₂ ∧
      Lowering.branch cond yes no s₂ = .ok () s' ∧
      Left ctx carry base (fun c => c = no ∨ c = yes ∨ aside c) hand (.branch cond yes no) s₂ s' ∧
      s₂.draft.Untouched yes ∧ s₂.draft.Untouched no ∧ Splits cond yes no s s' := by
  obtain ⟨yes, s₁, h₁⟩ : ∃ yes s₁, Lowering.newDirect s = .ok yes s₁ := ⟨_, _, rfl⟩
  obtain ⟨inv₁, yesNew, -, frame₁, -⟩ := inv.newDirect h₁
  obtain ⟨no, s₂, h₂⟩ : ∃ no s₂, Lowering.newDirect s₁ = .ok no s₂ := ⟨_, _, rfl⟩
  obtain ⟨inv₂, noNew, -, frame₂, kept⟩ := inv₁.newDirect h₂
  obtain ⟨yesNew, apart⟩ := kept yesNew
  have both : ∀ c ∈ [yes, no], c ∈ s₂.draft.direct := by
    intro c mem
    rcases List.mem_cons.mp mem with rfl | mem
    · exact yesNew.mem
    · rw [List.mem_singleton.mp mem]
      exact noNew.mem
  obtain ⟨s', h₃, direct⟩ := inv₂.exists_branch (by simp) cond (Or.inl yesNew.mem)
    fun c mem notDirect => absurd (both c mem) notDirect
  have left := inv₂.branch (by simp) (mem_reads (by simp) test) apart
    (Or.inl ⟨yesNew, Or.inr noNew⟩) h₃
  have grows : s.draft.Grows s₂.draft := by
    rw [frame₂, frame₁]
    exact (Draft.grows_addBlock Draft.others_newDirect).trans
      (Draft.grows_addBlock Draft.others_newDirect)
  refine ⟨yes, no, s₁, s₂, s', h₁, h₂, h₃, left, yesNew, noNew, ?_⟩
  refine ⟨?_, grows.trans left.grows, apart, ?_, ?_, ?_, ?_⟩
  · rw [left.frame, frame₂, frame₁]
  · rw [direct]
    exact ⟨yesNew.mem, noNew.mem⟩
  · have cursor : s₂.draft.cursor = s.draft.cursor := by
      rw [frame₂, frame₁]
      rfl
    exact cursor ▸ left.ends
  · have merges : s₂.draft.mergesOf (Terminator.branch cond yes no).successors = [] := by
      refine List.eq_nil_iff_forall_not_mem.mpr fun c merge => ?_
      obtain ⟨mem, notDirect⟩ := Draft.mem_mergesOf.mp merge
      exact notDirect (both c mem)
    rw [left.ended.values, merges, frame₂, frame₁]
    simp [Draft.newDirect, Graph.addBlock]
  · intro c notDirect unlinked
    have kept : s₂.draft.Unlinked c := by
      rw [frame₂, frame₁]
      exact unlinked.addBlock.addBlock
    refine kept.ended left.ended fun mem => notDirect ?_
    obtain ⟨block, live, -⟩ := unlinked
    exact (grows.direct live).mp (both c mem)

/-- What a write stores is taken from the stack, and the target, which stays there, is tested. -/
theorem Inv.exists_testTarget {p : PendingDispatch} {target : ValueId} {below : List ValueId}
    (inv : Inv ctx carry base aside .begun [] s) (write : p.rhs.isSome = p.kind.isWrite)
    (stack : s.stack = ⟨p.rhs.toList ++ target :: below⟩) :
    ∃ plain s₁ s₂, Lowering.popRhs p.kind s = .ok p.rhs s₁ ∧
      Lowering.peekNth 0 s₁ = .ok target s₁ ∧
      Lowering.emit (.isPlain target) s₁ = .ok plain s₂ ∧
      Inv ctx carry base aside .begun
        ((plain, .test) :: (target, .value) :: p.rhs.toList.map (·, .value)) s₂ ∧
      plain = s.draft.graph.nextValue ∧
      s₂ = { s with draft := (s.draft.emitted (.isPlain target)), stack := ⟨target :: below⟩ } := by
  have h₁ := popRhs_of_stack stack write
  have h₂ : Lowering.peekNth 0 { s with stack := ⟨target :: below⟩ } = .ok target _ := rfl
  have inv₂ := ensures_peekNth 0 _ target _ ((inv.conducts_popRhs (F := .any) _).result h₁) h₂
  obtain ⟨plain, s₂, h₃, inv₃, -⟩ := inv₂.exists_emit (.isPlain target) (by simp)
    (by simp [Op.inputs, Op.operands, Phase.reads])
  obtain ⟨made, frame⟩ := emit_eq_ok h₃
  exact ⟨plain, _, s₂, h₁, h₂, h₃, inv₃, made, frame⟩

theorem Inv.exists_startDispatch {p : PendingDispatch} {label : Label} {target : ValueId}
    {below : List ValueId} (inv : Inv ctx carry base aside .begun [] s)
    (site : (ctx.pool.expr p.call).toOption.isSome) (after : ctx.labels.block label = .ok p.after)
    (unlinked : s.draft.Unlinked p.after) (write : p.rhs.isSome = p.kind.isWrite)
    (stack : s.stack = ⟨p.rhs.toList ++ target :: below⟩) :
    ∃ t slow fast result, Lowering.startDispatch ctx p.kind p.call label s = .ok () t ∧
      Forks p target below slow fast result s t := by
  obtain ⟨_, found⟩ := Option.isSome_iff_exists.mp site
  have named := named_of_block after
  -- the operands and the test
  obtain ⟨plain, s₁, s₂, h₁, h₂, h₃, inv₃, made, frame₃⟩ := inv.exists_testTarget write stack
  have draft₂ : s₂.draft = (s.draft.emitted (.isPlain target)) := by
    rw [frame₃]
  obtain ⟨fast, slow, s₃, s₄, s₅, h₄, h₅, h₆, left, fastNew, slowNew, splits⟩ :=
    inv₃.exists_split List.mem_cons_self
  -- the slow path
  have h₇ : enter slow s₅ = _ := enter_of_direct splits.direct.2
  obtain ⟨inv₇, -⟩ := left.enterDirect (by simp [Terminator.successors]) (Or.inl rfl) slowNew h₇
  have unlinked₅ : s₅.draft.Unlinked p.after := by
    refine splits.unlinked (inv₃.plain_label named).merge.notDirect ?_
    rw [draft₂]
    exact unlinked.emit _
  have stack₅ : s₅.stack = ⟨target :: below⟩ := by
    rw [splits.frame, frame₃]
  have known : ∀ v ∈ target :: p.rhs.toList, (v, ValueType.value) ∈
      (plain, .test) :: (target, .value) :: p.rhs.toList.map (·, .value) := by
    intro v mem
    rcases List.mem_cons.mp mem with rfl | mem
    · exact List.mem_cons_of_mem _ List.mem_cons_self
    · exact List.mem_cons_of_mem _ (List.mem_cons_of_mem _ (List.mem_map.mpr ⟨v, mem, rfl⟩))
  obtain ⟨s₇, h₈, detours⟩ := inv₇.exists_slowPath named known unlinked₅ stack₅
  -- the fast path
  have direct₇ : fast ∈ s₇.draft.direct := by
    obtain ⟨block, live⟩ := Option.isSome_iff_exists.mp (left.grows.isSome fastNew.live)
    exact (detours.grows.direct live).mpr splits.direct.1
  have h₉ : enter fast s₇ = _ := enter_of_direct direct₇
  have h₁₀ := startIndices_eq p.kind target { s₇ with draft := s₇.draft.moveTo fast, live := true }
  obtain ⟨t, ht⟩ : ∃ t : State, t = { s₇ with
      draft := s₇.draft.moveTo fast
      calls := p.kind.callsInside target s₇.calls
      dispatches := p :: s₇.dispatches
      live := true } := ⟨_, rfl⟩
  refine ⟨t, slow, fast, s₅.draft.graph.nextValue, ?_, ?_⟩
  · refine bind_eq_ok_iff.mpr ⟨_, _, constant_eq_ok found s, ?_⟩
    refine bind_eq_ok_iff.mpr ⟨_, _, target_eq_ok after s, ?_⟩
    refine bind_eq_ok_iff.mpr ⟨_, _, h₁, bind_eq_ok_iff.mpr ⟨_, _, h₂, ?_⟩⟩
    refine bind_eq_ok_iff.mpr ⟨_, _, h₃, bind_eq_ok_iff.mpr ⟨_, _, h₄, ?_⟩⟩
    refine bind_eq_ok_iff.mpr ⟨_, _, h₅, bind_eq_ok_iff.mpr ⟨_, _, h₆, ?_⟩⟩
    refine bind_eq_ok_iff.mpr ⟨_, _, h₇, bind_eq_ok_iff.mpr ⟨_, _, h₈, ?_⟩⟩
    refine bind_eq_ok_iff.mpr ⟨_, _, h₉, bind_eq_ok_iff.mpr ⟨_, _, h₁₀, ht ▸ rfl⟩⟩
  have same : s₇.stack = ⟨target :: below⟩ ∧ s₇.calls = s.calls ∧ s₇.assigns = s.assigns ∧
      s₇.dispatches = s.dispatches := by
    rw [detours.frame, splits.frame, frame₃]
    exact ⟨rfl, rfl, rfl, rfl⟩
  obtain ⟨stack₇, calls₇, assigns₇, dispatches₇⟩ := same
  have grows : s₂.draft.Grows s₇.draft :=
    splits.grows.trans ((Draft.grows_moveTo _ _).trans detours.grows)
  have values : s₇.draft.graph.values.length = s.draft.graph.values.length + below.length + 3 := by
    rw [detours.values]
    show s₅.draft.graph.values.length + _ + _ = _
    rw [splits.values, draft₂, Draft.length_values_emitted]
    omega
  rw [ht]
  refine ⟨rfl, rfl, splits.apart.symm, ?_, ?_, ⟨plain, ?_, ?_⟩, detours.call, detours.joins⟩
  · simp [State.line, Line.inDispatch, stack₇, calls₇, assigns₇, values, Draft.moveTo]
  · exact congrArg (p :: ·) dispatches₇
  · refine grows.defines ?_
    rw [draft₂, made]
    exact Draft.defines_emitted (Phase.Holds.isOpen inv.phase (by simp)) _
  · have cursor : s₂.draft.cursor = s.draft.cursor := by
      rw [draft₂]
      rfl
    have ends := splits.ends.mono ((Draft.grows_moveTo s₅.draft slow).trans detours.grows)
    exact cursor ▸ ends

end Lowering

end StackLift
