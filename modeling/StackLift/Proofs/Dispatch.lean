import StackLift.Proofs.Dispatch.Default
import StackLift.Proofs.Access

/-!
Dispatch on the class of a target, from the instruction that opens it to the one that closes it.
Where the code between is straight-line, the pass gets through it; the slow path and the fast path
meet in the block after the construct, which has a phi for each slot of the stack. The phis select
the same value on both paths, except for the slot of the target: there it is the result of the
builtin on the slow path, and of the default operation on the fast path (`dispatch_reconverges`).
-/

namespace StackLift

/-- The instruction that closes a dispatch; `count` is the number of indices on the stack. -/
def DispatchKind.ending (count : UInt32) : DispatchKind → Instruction
  | .access a => .endAccess a
  | .combine => .endCombine
  | .accessN a => .endAccessN a count

/-- The code inside a dispatch has collected arguments: it has added them to the call that the
dispatch opened, or has pushed them, `count` of them. -/
inductive PendingDispatch.Collects (p : PendingDispatch) (target : ValueId) (below : List ValueId)
    (count : UInt32) (line : Line) : List CallArg → Prop
  | added {args : List CallArg} {rest : List PendingCall} (added : p.kind.isNary = false)
      (stack : line.stack = target :: below)
      (calls : line.calls = p.collected target args :: rest) :
      Collects p target below count line args
  | pushed {indices : List ValueId} (pushed : p.kind.isNary = true)
      (length : indices.length = count.toNat)
      (stack : line.stack = indices.reverse ++ target :: below) :
      Collects p target below count line (indices.map fun v => { value := .value v })

namespace Lowering

variable {ctx : Context} {carry : Carry} {base : Draft} {aside : BlockId → Prop} {phase : Phase}
  {hand : List (ValueId × ValueType)} {offset : Nat} {s : State}

/-! ### Closing a dispatch -/

/-- The pass has gone on in a merge, with one edge more into it, which brings the slots. -/
structure Meets (b : BlockId) (preds : List BlockId) (inputs : List (List (BlockId × ValueId)))
    (slots : List ValueId) (d : Draft) (t : State) : Prop where
  live : t.live = true
  cursor : t.draft.cursor = b
  grows : d.Grows t.draft
  stack : t.draft.shape? b = some t.stack.slots
  joins : t.draft.Joins b (preds ++ [d.cursor])
    (inputs.zipWith (fun row v => row ++ [(d.cursor, v)]) slots)

theorem Inv.exists_joinAfter {b : BlockId} {v : ValueId} {preds : List BlockId}
    {inputs : List (List (BlockId × ValueId))} (inv : Inv ctx carry base aside phase hand s)
    (ready : phase ≠ .ended) (mem : (v, .value) ∈ hand)
    (next : ctx.labels.blockAt? (offset + 1) = some b) (joins : s.draft.Joins b preds inputs)
    (length : inputs.length = s.stack.items.length + 1) :
    ∃ t, Lowering.joinAfter ctx offset b v s = .ok () t ∧
      Meets b preds inputs (s.stack.slots ++ [v]) s.draft t := by
  have inv₁ := ensures_push mem s () { s with stack := s.stack.push v } inv rfl
  have plain := inv₁.plain_label ⟨_, next⟩
  have fits : ∀ phis, s.draft.shape? b = some phis → phis.length = s.stack.items.length + 1 := by
    intro phis shape
    obtain ⟨block, -, -, rows, shape'⟩ := joins
    cases shape'.symm.trans shape
    rw [List.length_map, ← List.length_map (·.inputs), rows, length]
  obtain ⟨s₁, phis, jumped, left, shape, entered⟩ := inv₁.exists_goInto ready plain fits
  refine ⟨{ s₁ with draft := s₁.draft.moveTo b, stack := .ofSlots phis, live := true },
    bind_eq_ok_iff.mpr ⟨(), _, rfl, ?_⟩, ?_⟩
  · rw [if_pos next]
    exact bind_eq_ok_iff.mpr ⟨(), s₁, jumped, entered⟩
  · have joined := left.joins plain joins
    rw [OperandStack.slots_push] at joined
    refine ⟨rfl, rfl, left.grows.trans (Draft.grows_moveTo _ _), ?_, joined⟩
    rw [OperandStack.slots_ofSlots]
    exact shape

section

variable {p : PendingDispatch} {target : ValueId} {below : List ValueId} {preds : List BlockId}
  {inputs : List (List (BlockId × ValueId))} {others : List PendingDispatch}

theorem popDispatch_of_dispatches (dispatches : s.dispatches = p :: others) :
    popDispatch p.kind s = .ok p { s with dispatches := others } := by
  rw [popDispatch, dispatches]
  exact if_pos rfl

theorem popCall_of_calls {c : PendingCall} {rest : List PendingCall} (calls : s.calls = c :: rest) :
    popCall s = .ok c { s with calls := rest } := by
  rw [popCall, calls]
  rfl

theorem pop_of_stack {v : ValueId} (stack : s.stack = ⟨v :: below⟩) :
    pop s = .ok v { s with stack := ⟨below⟩ } := by
  rw [pop, stack]
  rfl

theorem popN_of_stack {vs : List ValueId} (stack : s.stack = ⟨vs.reverse ++ below⟩) :
    popN vs.length s = .ok vs { s with stack := ⟨below⟩ } := by
  rw [popN, stack, OperandStack.popN, if_pos (by simp)]
  simp

/-- The default operation is done, and the fast path joins the slow one. -/
theorem exists_join_of_appends {x : Lowering ValueId} {args : List CallArg}
    (does : Appends x s fun v d => p.IsDefault target args d.graph s.draft.cursor v)
    (keeps : ∀ v s', x s = .ok v s' → Inv ctx carry base aside .begun ((v, .value) :: hand) s')
    (next : ctx.labels.blockAt? (offset + 1) = some p.after)
    (joins : s.draft.Joins p.after preds inputs) (length : inputs.length = s.stack.items.length + 1)
    (other : p.after ≠ s.draft.cursor) :
    ∃ t default, (x >>= joinAfter ctx offset p.after) s = .ok () t ∧
      Meets p.after preds inputs (s.stack.slots ++ [default]) s.draft t ∧
      p.IsDefault target args t.draft.graph s.draft.cursor default := by
  obtain ⟨default, d, h, -, grows, writes, isDefault⟩ := does
  obtain ⟨t, h', meets⟩ := (keeps default _ h).exists_joinAfter (by simp) List.mem_cons_self next
    (joins.writes writes other) length
  refine ⟨t, default, bind_eq_ok_iff.mpr ⟨default, _, h, h'⟩, ?_, isDefault.mono meets.grows⟩
  have joined := meets.joins
  rw [writes.cursor] at joined
  exact ⟨meets.live, meets.cursor, grows.trans meets.grows, meets.stack, joined⟩

/-- The dispatch is closed with the arguments that were added to its call. -/
theorem Inv.exists_endDispatch {args : List CallArg} {rest : List PendingCall}
    (inv : Inv ctx carry base aside .begun [] s) (added : p.kind.isNary = false)
    (reads : p.kind = .combine → p.rhs = none)
    (held : ∀ v ∈ s.heldByDispatch p.kind, (v, .value) ∈ carry.values)
    (dispatches : s.dispatches = p :: others) (calls : s.calls = p.collected target args :: rest)
    (stack : s.stack = ⟨target :: below⟩) (next : ctx.labels.blockAt? (offset + 1) = some p.after)
    (joins : s.draft.Joins p.after preds inputs) (length : inputs.length = below.length + 1)
    (other : p.after ≠ s.draft.cursor) :
    ∃ t default, Lowering.endDispatch ctx offset p.kind s = .ok () t ∧
      Meets p.after preds inputs (below.reverse ++ [default]) s.draft t ∧
      p.IsDefault target args t.draft.graph s.draft.cursor default := by
  have h₁ := popDispatch_of_dispatches dispatches
  obtain ⟨-, -, -, inv₁⟩ := inv.popDispatch h₁
  have h₂ := popCall_of_calls (s := { s with dispatches := others }) calls
  obtain ⟨-, -, -, inv₂⟩ := inv₁.popCall h₂
  have h₃ := pop_of_stack (s := { s with dispatches := others, calls := rest }) stack
  have inv₃ := ensures_pop _ target _ inv₂ h₃
  have holds : s.heldByDispatch p.kind = (p.collected target args).heldByAccess p.kind p.rhs := by
    rw [State.heldByDispatch, calls, dispatches]
  rw [holds] at held
  have does := appends_defaultFromCall (Phase.Holds.isOpen inv₃.phase (by simp)) p target args added
    reads
  obtain ⟨t, default, h₄, meets, isDefault⟩ := exists_join_of_appends does (fun v s' h =>
    ((inv₃.conducts_defaultFromCall (F := .any) _ (fun w hw => List.mem_append_right _ (held w hw))
      List.mem_cons_self).result h).1) next joins length other
  refine ⟨t, default, ?_, meets, isDefault⟩
  exact bind_eq_ok_iff.mpr ⟨_, _, h₁, bind_eq_ok_iff.mpr ⟨_, _, h₂, bind_eq_ok_iff.mpr
    ⟨_, _, h₃, h₄⟩⟩⟩

/-- The dispatch is closed with the indices that were pushed. -/
theorem Inv.exists_endDispatchN {access : Access} {indices : List ValueId}
    (inv : Inv ctx carry base aside .begun [] s) (nary : p.kind = .accessN access)
    (held : ∀ v ∈ p.rhs.toList, (v, .value) ∈ carry.values)
    (dispatches : s.dispatches = p :: others)
    (stack : s.stack = ⟨indices.reverse ++ target :: below⟩)
    (next : ctx.labels.blockAt? (offset + 1) = some p.after)
    (joins : s.draft.Joins p.after preds inputs) (length : inputs.length = below.length + 1)
    (other : p.after ≠ s.draft.cursor) :
    ∃ t default, Lowering.endDispatchN ctx offset (.accessN access) indices.length s = .ok () t ∧
      Meets p.after preds inputs (below.reverse ++ [default]) s.draft t ∧
      p.IsDefault target (indices.map fun v => { value := .value v }) t.draft.graph s.draft.cursor
        default := by
  have h₁ := popDispatch_of_dispatches dispatches
  rw [nary] at h₁
  obtain ⟨-, -, -, inv₁⟩ := inv.popDispatch h₁
  have h₂ := popN_of_stack (s := { s with dispatches := others }) stack
  have inv₂ := ensures_popN indices.length _ indices _ inv₁ h₂
  have h₃ := pop_of_stack (s := { s with dispatches := others, stack := ⟨target :: below⟩ }) rfl
  have inv₃ := ensures_pop _ target _ inv₂ h₃
  have does := appends_defaultFromStack (Phase.Holds.isOpen inv₃.phase (by simp)) p access target
    indices nary
  obtain ⟨t, default, h₄, meets, isDefault⟩ := exists_join_of_appends does
    (fun v s' h => ((inv₃.conducts_defaultFromStack (F := .any) _ _ (reads_taken held)).result
      h).1) next joins length other
  refine ⟨t, default, ?_, meets, isDefault⟩
  exact bind_eq_ok_iff.mpr ⟨_, _, h₁, bind_eq_ok_iff.mpr ⟨_, _, h₂, bind_eq_ok_iff.mpr
    ⟨_, _, h₃, h₄⟩⟩⟩

/-- The instruction that closes a dispatch is lowered where the arguments were collected. -/
theorem Inv.exists_ending {count : UInt32} {args : List CallArg}
    (inv : Inv ctx carry base aside .running [] s) (write : p.rhs.isSome = p.kind.isWrite)
    (dispatches : s.dispatches = p :: others) (collects : p.Collects target below count s.line args)
    (next : ctx.labels.blockAt? (offset + 1) = some p.after)
    (joins : s.draft.Joins p.after preds inputs) (length : inputs.length = below.length + 1)
    (other : p.after ≠ s.draft.cursor) :
    ∃ t default, Lowering.lower ctx offset (p.kind.ending count) s = .ok () t ∧
      Meets p.after preds inputs (below.reverse ++ [default]) s.draft t ∧
      p.IsDefault target args t.draft.graph s.draft.cursor default := by
  have begun := inv.begin rfl (p.kind.ending count)
  cases collects with
  | @added args rest added stack calls =>
      have combines (combine : p.kind = .combine) : p.rhs = none := by
        rw [combine] at write
        exact Option.isNone_iff_eq_none.mp (by simpa [DispatchKind.isWrite] using write)
      have same : Lowering.lower ctx offset (p.kind.ending count) s =
          Lowering.endDispatch ctx offset p.kind s ∧
          s.held (p.kind.ending count) = (s.heldByDispatch p.kind).map (·, .value) := by
        cases kind : p.kind with
        | access a => exact ⟨rfl, rfl⟩
        | combine => exact ⟨rfl, rfl⟩
        | accessN a => simp [kind, DispatchKind.isNary] at added
      rw [same.1]
      refine begun.exists_endDispatch added combines (fun v mem => ?_) dispatches calls
        (congrArg OperandStack.mk stack) next joins length other
      rw [carryOf, same.2]
      exact List.mem_map.mpr ⟨v, mem, rfl⟩
  | @pushed indices pushed counts stack =>
      cases kind : p.kind with
      | access a => simp [kind, DispatchKind.isNary] at pushed
      | combine => simp [kind, DispatchKind.isNary] at pushed
      | accessN a =>
          rw [kind] at begun
          have lowers : Lowering.lower ctx offset (DispatchKind.ending count (.accessN a)) s =
              Lowering.endDispatchN ctx offset (.accessN a) indices.length s := by
            rw [counts]
            rfl
          rw [lowers]
          refine begun.exists_endDispatchN kind (fun v mem => ?_) dispatches
            (congrArg OperandStack.mk stack) next joins length other
          have held : s.held (DispatchKind.ending count (.accessN a)) =
              (s.dispatches.head?.bind (·.rhs)).toList.map (·, .value) := rfl
          rw [dispatches] at held
          rw [carryOf, held]
          exact List.mem_map.mpr ⟨v, mem, rfl⟩

end

/-! ### The whole construct -/

section

variable {code : List Instruction} {start : State}

/-- A piece of the code was passed. -/
theorem Before.run {inside : List Instruction} {t : State} (before : Before ctx code start offset s)
    (le : offset ≤ code.length) (stands : inside <+: code.drop offset)
    (ran : Lowering.run ctx offset inside s = .ok t) :
    Before ctx code start (offset + inside.length) t := by
  obtain ⟨rest, rest_eq⟩ := stands
  have taken : code.take (offset + inside.length) = code.take offset ++ inside := by
    rw [List.take_add, ← rest_eq, List.take_left]
  rw [Before, taken, run_append]
  refine ⟨s, before, ?_⟩
  rwa [List.length_take, Nat.min_eq_left le, Nat.zero_add]

/-- An instruction is lowered where no label leads to it. -/
theorem Before.lower {i : Instruction} {t : State} (before : Before ctx code start offset s)
    (get : code[offset]? = some i) (live : s.live = true)
    (unlabelled : ctx.labels.blockAt? offset = none) (notDiverts : i.diverts = false)
    (lowered : Lowering.lower ctx offset i s = .ok () t) :
    Before ctx code start (offset + 1) t :=
  (before_succ get).mpr ⟨s, before, step_of_lower unlabelled live notDiverts lowered⟩

end

/-- A dispatch that the pass comes to in the state `a`, with a target and values below it on the
stack. The code inside is straight-line and collects arguments, no label leads into it, and the
block after the construct is that of the next instruction, to which no edge leads yet. -/
structure Straight (ctx : Context) (code : List Instruction) (start : State) (opens : Nat)
    (inside : List Instruction) (p : PendingDispatch) (target : ValueId) (below : List ValueId)
    (args : List CallArg) (a : State) : Prop where
  opening : ∃ label, Visits ctx code start opens (.startDispatch p.kind p.call label) a ∧
    ctx.labels.block label = .ok p.after
  site : (ctx.pool.expr p.call).toOption.isSome
  write : p.rhs.isSome = p.kind.isWrite
  stack : a.stack = ⟨p.rhs.toList ++ target :: below⟩
  unlinked : ∀ block, a.draft.graph.block? p.after = some block → block.preds = []
  closing : ∃ count line, inside ++ [p.kind.ending count] <+: code.drop (opens + 1) ∧
    Line.run? ctx.pool inside (a.line.inDispatch p.kind target below) = some line ∧
    p.Collects target below count line args
  inner : ∀ k, opens < k → k ≤ opens + 1 + inside.length → ctx.labels.blockAt? k = none
  next : ctx.labels.blockAt? (opens + 1 + inside.length + 1) = some p.after

end Lowering

open Lowering

/-- The inputs of the phis after the slow edge and the fast one. -/
theorem zipWith_edges (slow fast : BlockId) (below : List ValueId) (result default : ValueId) :
    ((below.reverse ++ [result]).map fun v => [(slow, v)]).zipWith
        (fun row v => row ++ [(fast, v)]) (below.reverse ++ [default]) =
      below.reverse.map (fun v => [(slow, v), (fast, v)]) ++
        [[(slow, result), (fast, default)]] := by
  rw [List.map_append, List.zipWith_append (by simp), List.zipWith_map_left, List.zipWith_self]
  rfl

section

variable {unit : CodeUnit} {pool : Pool} {unitKind : UnitKind} {labels : LabelMap} {draft : Draft}
  {opens : Nat} {inside : List Instruction} {p : PendingDispatch} {target : ValueId}
  {below : List ValueId} {args : List CallArg} {a : State}

/-- A dispatch is opened, when the block after it has no edge. -/
theorem Lowering.Straight.exists_forks (begins : unit.Start pool unitKind labels draft)
    (dispatch : Straight ⟨pool, labels, unitKind⟩ unit.instructions { draft } opens inside p target
      below args a) :
    ∃ t slow fast result,
      Before ⟨pool, labels, unitKind⟩ unit.instructions { draft } (opens + 1) t ∧
      Forks p target below slow fast result a t := by
  obtain ⟨label, visits, after⟩ := dispatch.opening
  obtain ⟨s, before, arrives⟩ := visits.arrives
  have inCode := (List.getElem?_eq_some_iff.mp visits.get).1
  have distinct : labels.Distinct := begins.resolves.distinct
  have between := between_before distinct begins.between (Nat.le_of_lt inCode) before
  have inv := (between.arrive distinct arrives).inv visits.live
  have ahead : Context.Ahead ⟨pool, labels, unitKind⟩ (opens + 1) p.after :=
    ⟨_, by omega, dispatch.next⟩
  have unlinked : a.draft.Unlinked p.after := by
    obtain ⟨block, live⟩ := Option.isSome_iff_exists.mp (inv.plain_label ⟨_, dispatch.next⟩).live
    refine ⟨block, live, dispatch.unlinked block live, ?_⟩
    cases shape : a.draft.shape? p.after with
    | none => rfl
    | some phis =>
        obtain ⟨block', live', some⟩ := inv.reached.shaped shape (inv.ne_entry_of_aside ahead)
        exact absurd (dispatch.unlinked block' live') some
  obtain ⟨t, slow, fast, result, lowered, forks⟩ := (inv.begin rfl
    (.startDispatch p.kind p.call label)).exists_startDispatch dispatch.site after unlinked
    dispatch.write dispatch.stack
  refine ⟨t, slow, fast, result, ?_, forks⟩
  exact (before_succ visits.get).mpr ⟨s, before, step_eq_ok.mpr ⟨a, arrives, .inl
    ⟨visits.live, t, lowered, rfl⟩⟩⟩

/-- The code inside only writes to the fast path. -/
theorem Lowering.Straight.exists_inside (begins : unit.Start pool unitKind labels draft)
    (dispatch : Straight ⟨pool, labels, unitKind⟩ unit.instructions { draft } opens inside p target
      below args a) {t : State}
    (before : Before ⟨pool, labels, unitKind⟩ unit.instructions { draft } (opens + 1) t)
    (live : t.live = true) (line : t.line = a.line.inDispatch p.kind target below) :
    ∃ count u,
      Before ⟨pool, labels, unitKind⟩ unit.instructions { draft } (opens + 1 + inside.length) u ∧
      unit.instructions[opens + 1 + inside.length]? = some (p.kind.ending count) ∧
      t.Writes u ∧ p.Collects target below count u.line args := by
  obtain ⟨count, line', stands, done, collects⟩ := dispatch.closing
  have length := stands.length_le
  rw [List.length_append, List.length_singleton, List.length_drop] at length
  have isOpen : t.draft.Open := by
    have distinct : labels.Distinct := begins.resolves.distinct
    have between := between_before distinct begins.between (by omega) before
    have unlabelled := dispatch.inner (opens + 1) (Nat.le_refl _) (by omega)
    exact ((between.arrive distinct (arrive_of_unnamed unlabelled t)).inv live).phase
  obtain ⟨u, ran, writes, same⟩ := exists_run_of_run? ⟨pool, labels, unitKind⟩ isOpen.unended
    (line ▸ done) live fun k from_ until_ => dispatch.inner k from_ (by omega)
  refine ⟨count, u, ?_, ?_, writes, same ▸ collects⟩
  · exact before.run (by omega) ((List.prefix_append _ _).trans stands) ran
  · obtain ⟨rest, rest_eq⟩ := stands
    have get := congrArg (·[inside.length]?) rest_eq
    simpa using get.symm

end

/-- In every state of a pass, a dispatch around straight-line code is lowered. A test on the target
leads to a slow block and a fast one, and these are the only predecessors of the block after the
construct. It has a phi for each slot of the stack: those below the target select one value from
both, and that of the target selects the result of the builtin, called on the target and on what a
write stores, or of the default operation. -/
theorem dispatch_reconverges {unit : CodeUnit} {pool : Pool} {unitKind : UnitKind}
    {labels : LabelMap} {draft : Draft} {opens : Nat} {inside : List Instruction}
    {p : PendingDispatch} {target : ValueId} {below : List ValueId} {args : List CallArg} {a : State}
    (resolved : LabelMap.resolve unit pool (.new unit.displayName) = .ok labels draft)
    (dispatch : Straight ⟨pool, labels, unitKind⟩ unit.instructions { draft } opens inside p target
      below args a) :
    ∃ s plain slow fast result default block,
      Before ⟨pool, labels, unitKind⟩ unit.instructions { draft }
        (opens + 1 + inside.length + 1) s ∧
      s.live = true ∧ s.draft.cursor = p.after ∧
      s.draft.graph.Defines a.draft.cursor plain (.isPlain target) ∧
      s.draft.Ends a.draft.cursor (.branch plain fast slow) ∧
      s.draft.graph.block? p.after = some block ∧ slow ≠ fast ∧ block.preds = [slow, fast] ∧
      block.phis.map (·.inputs) = below.reverse.map (fun v => [(slow, v), (fast, v)]) ++
        [[(slow, result), (fast, default)]] ∧
      s.stack.slots = block.phis.map (·.value) ∧
      s.draft.graph.Defines slow result
        (.callBuiltin p.kind.builtin (target :: p.rhs.toList) (.pool p.call)) ∧
      p.IsDefault target args s.draft.graph fast default := by
  have begins := unit.start_of_resolve unitKind resolved
  obtain ⟨t, slow, fast, result, before, forks⟩ := dispatch.exists_forks begins
  obtain ⟨count, u, before', get, writes, collects⟩ :=
    dispatch.exists_inside begins before forks.live forks.line
  -- the closing instruction
  have distinct : labels.Distinct := begins.resolves.distinct
  have inCode := (List.getElem?_eq_some_iff.mp get).1
  have unlabelled : labels.blockAt? (opens + 1 + inside.length) = none :=
    dispatch.inner _ (by omega) (Nat.le_refl _)
  have live : u.live = true := by
    rw [writes.frame]
    exact forks.live
  have dispatches : u.dispatches = p :: a.dispatches := by
    rw [writes.frame]
    exact forks.dispatches
  have between := between_before distinct begins.between (Nat.le_of_lt inCode) before'
  have inv := (between.arrive distinct (arrive_of_unnamed unlabelled u)).inv live
  have other := (inv.aside ⟨_, Nat.le_refl _, dispatch.next⟩).2
  obtain ⟨s, default, lowered, meets, isDefault⟩ := inv.exists_ending dispatch.write dispatches
    collects dispatch.next (forks.joins.writes writes.draft (writes.draft.cursor ▸ other)) (by simp)
    other
  have before'' := before'.lower get live unlabelled (by cases p.kind <;> rfl) lowered
  -- what was built before it stays
  have grows := grows_before distinct begins.between (by omega) inCode before before''
  obtain ⟨plain, defines, ends⟩ := forks.test
  obtain ⟨block, built, preds, inputs, shape⟩ := meets.joins
  rw [writes.draft.cursor, forks.cursor] at preds inputs isDefault
  refine ⟨s, plain, slow, fast, result, default, block, before'', meets.live, meets.cursor,
    grows.defines defines, ends.mono grows, built, forks.apart, preds, ?_, ?_,
    grows.defines forks.call, isDefault⟩
  · rw [inputs, zipWith_edges]
  · exact Option.some.inj (meets.stack.symm.trans shape)

/-- `x[FALSE, ] <- TRUE` above another value. -/
def writeRow : CodeUnit where
  name := none
  instructions := [.load .null, .load .null, .load (.logical true),
    .startDispatch (.access .subassign) ⟨0⟩ ⟨0⟩, .load (.logical false), .pushArg, .doMissing,
    .endAccess .subassign, .ret]
  labels := [some 8]

def writeRowPool : Pool := ⟨[.expr (.symbol "x")]⟩

/-- The index left out is marked, and the write is done in place. -/
theorem dispatch_reconverges_writeRow : ∃ labels draft a,
    LabelMap.resolve writeRow writeRowPool (.new writeRow.displayName) = .ok labels draft ∧
    Straight ⟨writeRowPool, labels, .function⟩ writeRow.instructions { draft } 3
      [.load (.logical false), .pushArg, .doMissing]
      ⟨.access .subassign, ⟨0⟩, ⟨1⟩, some ⟨2⟩⟩ ⟨1⟩ [⟨0⟩]
      [{ value := .value ⟨7⟩ }, { value := .missing }] a ∧
    ∃ s slow fast result default missing block,
      Before ⟨writeRowPool, labels, .function⟩ writeRow.instructions { draft } 8 s ∧
      s.draft.graph.block? ⟨1⟩ = some block ∧ block.preds = [slow, fast] ∧
      block.phis.map (·.inputs) = [[(slow, ⟨0⟩), (fast, ⟨0⟩)], [(slow, result), (fast, default)]] ∧
      s.draft.graph.Defines slow result (.callBuiltin "[<-" [⟨1⟩, ⟨2⟩] (.pool ⟨0⟩)) ∧
      s.draft.graph.Defines fast missing .missingArg ∧
      s.draft.graph.Defines fast default (.subassign false ⟨1⟩ [⟨7⟩, missing] ⟨2⟩ (.pool ⟨0⟩)) := by
  have visited : ∃ a ∈ writeRow.arrival? writeRowPool .function 3, a.live = true ∧
      a.stack = ⟨[⟨2⟩, ⟨1⟩, ⟨0⟩]⟩ ∧ (a.draft.graph.block? ⟨1⟩).map (·.preds) = some [] ∧
      Line.run? writeRowPool [.load (.logical false), .pushArg, .doMissing]
        (a.line.inDispatch (.access .subassign) ⟨1⟩ [⟨0⟩]) = some ⟨[⟨1⟩, ⟨0⟩], [⟨.builtin "[<-",
          [{ value := .value ⟨1⟩ }, { value := .value ⟨7⟩ }, { value := .missing }]⟩], [], 8⟩ := by
    decide +kernel
  obtain ⟨a, arrives, live, stack, preds, line⟩ := visited
  obtain ⟨labels, draft, resolved, visits⟩ := CodeUnit.lowers_of_arrival rfl arrives live
  obtain ⟨draft', known⟩ : ∃ draft', LabelMap.resolve writeRow writeRowPool
      (.new writeRow.displayName) = .ok ⟨[(⟨0⟩, 8)], [(8, ⟨1⟩)]⟩ draft' := ⟨_, rfl⟩
  rw [known] at resolved
  cases resolved
  have dispatch : Straight ⟨writeRowPool, ⟨[(⟨0⟩, 8)], [(8, ⟨1⟩)]⟩, .function⟩ writeRow.instructions
      { draft } 3 [.load (.logical false), .pushArg, .doMissing]
      ⟨.access .subassign, ⟨0⟩, ⟨1⟩, some ⟨2⟩⟩ ⟨1⟩ [⟨0⟩]
      [{ value := .value ⟨7⟩ }, { value := .missing }] a := by
    refine ⟨⟨⟨0⟩, visits, rfl⟩, rfl, rfl, stack, fun block live => ?_, ?_, ?_, rfl⟩
    · rw [live] at preds
      exact Option.some.inj preds
    · exact ⟨0, _, ⟨[.ret], rfl⟩, line, .added rfl rfl rfl⟩
    · intro k from_ until_
      have small : k = 4 ∨ k = 5 ∨ k = 6 ∨ k = 7 := by
        simp only [List.length_cons, List.length_nil] at until_
        omega
      rcases small with rfl | rfl | rfl | rfl <;> rfl
  obtain ⟨s, -, slow, fast, result, default, block, before, -, -, -, -, built, -, edges, inputs, -,
    call, isDefault⟩ := dispatch_reconverges known dispatch
  refine ⟨_, _, a, known, dispatch, s, slow, fast, result, default, ?_⟩
  cases isDefault with
  | byPosition many => simp [DispatchKind.isNary] at many
  | byName _ other => simp [CallArg.Positional] at other
  | inPlace _ _ _ stand op =>
      obtain _ | ⟨⟨⟩, _ | ⟨_ | mark, ⟨⟩⟩⟩ := stand
      exact ⟨_, block, before, built, edges, inputs, call, mark, op⟩

end StackLift
