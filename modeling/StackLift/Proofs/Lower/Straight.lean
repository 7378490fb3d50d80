import StackLift.Proofs.Conduct.Edge

/-!
Instructions that stay in the block under construction: loads and stores,
arithmetic, calls and complex assignments. Each keeps the invariant of the pass and
the conditions of its actions. Those that close a bracket read the values it holds,
`State.held`.
-/

namespace StackLift

/-! ### What brackets hold for an instruction -/

/-- What the default operation of a dispatch takes from the call that collected
its indices, and from the dispatch. A simple access takes its target from the
stack. -/
def PendingCall.heldByAccess (c : PendingCall) (kind : DispatchKind) (rhs : Option ValueId) :
    List ValueId :=
  let simple := !c.hasNames && !c.hasDots
  if simple && kind = .combine then c.values
  else if simple && kind ≠ .combine && Lowering.fewIndices (c.args.length - 1) then
    (c.args.drop 1).flatMap (·.value.values) ++ rhs.toList
  else c.args.flatMap (·.value.values) ++ rhs.toList

namespace State

/-- The values that the innermost call holds. -/
def heldByCall (s : State) : List ValueId :=
  match s.calls with
  | c :: _ => c.values
  | [] => []

def heldByDispatch (s : State) (kind : DispatchKind) : List ValueId :=
  match s.calls, s.dispatches with
  | c :: _, p :: _ => c.heldByAccess kind p.rhs
  | _, _ => []

/-- The next index of the innermost loop. -/
def heldByLoop (s : State) : List ValueId :=
  match s.loops with
  | l :: _ => ((s.draft.loopIndices.lookup l.next).map (·.2)).toList
  | [] => []

/-- The values that an instruction takes from brackets and not from the stack,
with their types. -/
def held (s : State) : Instruction → List (ValueId × ValueType)
  | .finishCall _ _ | .getterCall _ | .setterCall _ => s.heldByCall.map (·, .value)
  | .endAccess access => (s.heldByDispatch (.access access)).map (·, .value)
  | .endCombine => (s.heldByDispatch .combine).map (·, .value)
  | .endAccessN _ _ => (s.dispatches.head?.bind (·.rhs)).toList.map (·, .value)
  | .stepFor | .leaveLoop .next => s.heldByLoop.map (·, .index)
  | _ => []

end State

/-- The innermost bracket is the first. -/
theorem Bracket.top_eq_ok {α : Type} {kind : Bracket} {items : List α} {a : α}
    (h : Bracket.top kind items = .ok a) : ∃ rest, items = a :: rest := by
  cases items with
  | nil => cases h
  | cons b rest =>
      cases h
      exact ⟨rest, rfl⟩

namespace Lowering

variable {ctx : Context} {carry : Carry} {base : Draft} {aside : BlockId → Prop} {phase : Phase}
  {hand : List (ValueId × ValueType)} {F : Faults} {s s' : State}

/-- From the block in which it began, an instruction may go on anywhere. -/
theorem Inv.run (inv : Inv ctx carry base aside .begun hand s) :
    Inv ctx carry base aside .running [] s :=
  { inv.forget with phase := inv.phase.1, live := fun _ => inv.live (by simp) }

/-- What is in hand can be read. -/
theorem mem_reads {e : ValueId × ValueType} (ready : phase ≠ .ended) (mem : e ∈ hand) :
    e ∈ phase.reads carry hand := by
  cases phase with
  | begun => exact List.mem_append_left _ mem
  | running => exact mem
  | ended => exact absurd rfl ready

theorem reads_mono {hand' : List (ValueId × ValueType)} (less : ∀ e ∈ hand, e ∈ hand')
    {e : ValueId × ValueType} (mem : e ∈ phase.reads carry hand) :
    e ∈ phase.reads carry hand' := by
  cases phase with
  | begun =>
      rcases List.mem_append.mp mem with mem | mem
      · exact List.mem_append_left _ (less e mem)
      · exact List.mem_append_right _ mem
  | running => exact less e mem
  | ended => exact mem

/-! ### Loads, stores and arithmetic -/

theorem ensures_checkLiteral (literal : Literal) {P : State → Prop} :
    Ensures P (checkLiteral ctx literal) fun _ => P := by
  cases literal with
  | pool index => exact (Ensures.constant _).bind fun _ => .pure fun _ h => h
  | null => exact .pure fun _ h => h
  | logical b => exact .pure fun _ h => h

section

variable (inv : Inv ctx carry base aside .begun [] s)

include inv

/-- An operation that reads nothing is emitted and pushed. -/
theorem Inv.conducts_pushLeaf {op : Op} (leaf : op.inputs = []) (type : op.resultType = .value) :
    Conducts F (do
      let _ ← pushOp op) s fun _ => Inv ctx carry base aside .running [] := by
  refine inv.after_pushOp (by simp) ?_ type fun _ _ inv₁ => .pure inv₁.inOrder inv₁.run
  rw [leaf]
  exact fun e mem => absurd mem List.not_mem_nil

theorem Inv.conducts_storeVar (scope : Scope) (symbol : PoolIndex) :
    Conducts F (storeVar ctx scope symbol) s fun _ => Inv ctx carry base aside .running [] := by
  refine inv.after_constant fun name s₁ inv₁ => inv₁.after_peekNth 0 fun value s₂ inv₂ => ?_
  refine inv₂.after_emit (by simp) ?_ fun _ s₃ inv₃ => .pure inv₃.inOrder inv₃.run
  simp [Op.inputs, Op.operands, Phase.reads]

theorem Inv.conducts_binary (op : BinaryOp) (call : PoolIndex) :
    Conducts F (binary ctx op call) s fun _ => Inv ctx carry base aside .running [] := by
  refine inv.after_pop fun rhs s₁ inv₁ => inv₁.after_pop fun lhs s₂ inv₂ => ?_
  refine inv₂.after_site fun site s₃ inv₃ => ?_
  refine inv₃.after_pushOp (by simp) ?_ rfl fun _ s₄ inv₄ => .pure inv₄.inOrder inv₄.run
  simp [Op.inputs, Op.operands, Phase.reads]

theorem Inv.conducts_unary (op : UnaryOp) (call : PoolIndex) :
    Conducts F (unary ctx op call) s fun _ => Inv ctx carry base aside .running [] := by
  refine inv.after_pop fun arg s₁ inv₁ => inv₁.after_site fun site s₂ inv₂ => ?_
  refine inv₂.after_pushOp (by simp) ?_ rfl fun _ s₃ inv₃ => .pure inv₃.inOrder inv₃.run
  simp [Op.inputs, Op.operands, Phase.reads]

theorem Inv.conducts_isType (test : TypeTest) : Conducts F (do
      let arg ← pop
      let _ ← pushOp (.isType test arg)) s fun _ => Inv ctx carry base aside .running [] := by
  refine inv.after_pop fun arg s₁ inv₁ => ?_
  refine inv₁.after_pushOp (by simp) ?_ rfl fun _ s₂ inv₂ => .pure inv₂.inOrder inv₂.run
  simp [Op.inputs, Op.operands, Phase.reads]

theorem Inv.conducts_logicSecond (connective : Connective) (call : PoolIndex) :
    Conducts F (logicSecond ctx connective call) s
      fun _ => Inv ctx carry base aside .running [] := by
  refine inv.after_pop fun rhs s₁ inv₁ => inv₁.after_pop fun lhs s₂ inv₂ => ?_
  refine inv₂.after_site fun site s₃ inv₃ => ?_
  refine inv₃.after_emit (by simp) ?_ fun logical s₄ inv₄ => ?_
  · simp [Op.inputs, Op.operands, Phase.reads]
  · refine inv₄.after_pushOp (by simp) ?_ rfl fun _ s₅ inv₅ => .pure inv₅.inOrder inv₅.run
    simp [Op.inputs, Op.operands, Phase.reads, Op.resultType]

end

/-! ### Calls -/

/-- A change to the open calls only. -/
theorem Inv.recall (inv : Inv ctx carry base aside phase hand s)
    {calls : List PendingCall} (known : ∀ c ∈ calls, ∀ v ∈ c.values, s.draft.Known v .value) :
    Inv ctx carry base aside phase hand { s with calls } :=
  inv.change { s with calls } rfl id (fun _ => Or.inl) known (fun _ => Or.inl) inv.stack inv.hand

theorem Inv.conducts_pushCall (inv : Inv ctx carry base aside phase hand s) {c : PendingCall}
    (known : ∀ v ∈ c.values, (v, .value) ∈ hand) :
    Conducts F (pushCall c) s fun _ => Inv ctx carry base aside phase hand := by
  refine .quiet inv.inOrder (quiet_pushCall c) fun h => ?_
  cases h
  refine inv.recall fun c' mem => ?_
  rcases List.mem_cons.mp mem with rfl | mem
  · exact fun v hv => (inv.hand _ (known v hv)).known
  · exact inv.calls c' mem

theorem updateTop_eq_ok {α : Type} {kind : Bracket} {f : α → Except Fault α} {items items' : List α}
    (h : Bracket.updateTop kind f items = .ok items') :
    ∃ a rest a', items = a :: rest ∧ f a = .ok a' ∧ items' = a' :: rest := by
  cases items with
  | nil => cases h
  | cons a rest =>
      rw [Bracket.updateTop] at h
      cases changed : f a with
      | error fault =>
          rw [changed] at h
          cases h
      | ok a' =>
          rw [changed] at h
          cases h
          exact ⟨a, rest, a', rfl, changed, rfl⟩

/-- The innermost call may be given values in hand. -/
theorem ensures_updateCall {f : PendingCall → Except Fault PendingCall}
    (known : ∀ {c c' : PendingCall}, f c = .ok c' → ∀ v ∈ c'.values,
      v ∈ c.values ∨ (v, .value) ∈ hand) :
    Ensures (Inv ctx carry base aside phase hand) (updateCall f)
      fun _ => Inv ctx carry base aside phase hand := by
  intro s _ s' inv h
  rw [updateCall] at h
  split at h
  case h_2 => cases h
  case h_1 calls updated =>
    cases h
    obtain ⟨c, rest, c', before, changed, rfl⟩ := updateTop_eq_ok updated
    have calls := inv.calls
    rw [before] at calls
    refine inv.recall fun c'' mem => ?_
    rcases List.mem_cons.mp mem with rfl | mem
    · intro v hv
      rcases known changed v hv with old | new
      · exact calls c List.mem_cons_self v old
      · exact (inv.hand _ new).known
    · exact calls c'' (List.mem_cons_of_mem c mem)

theorem values_addArg (c : PendingCall) (a : CallArg) :
    (c.addArg a).values = c.values ++ a.value.values := by
  simp [PendingCall.values, PendingCall.addArg]

theorem Inv.conducts_addArg (inv : Inv ctx carry base aside .begun hand s) {a : CallArg}
    (known : ∀ v ∈ a.value.values, (v, .value) ∈ hand) :
    Conducts F (modifyCall (·.addArg a)) s fun _ => Inv ctx carry base aside .running [] := by
  have ensures : Ensures (Inv ctx carry base aside .begun hand) (modifyCall (·.addArg a))
      fun _ => Inv ctx carry base aside .begun hand := by
    refine ensures_updateCall fun changed v hv => ?_
    cases changed
    rw [values_addArg] at hv
    exact (List.mem_append.mp hv).imp id (known v)
  exact (Conducts.of_ensures (quiet_modifyCall _) ensures inv.inOrder inv).imp
    fun _ _ inv₁ => inv₁.run

theorem ensures_requireCall {P : State → Prop} : Ensures P requireCall fun _ => P := by
  intro s _ s' hP h
  rw [requireCall] at h
  split at h
  · cases h
    exact hP
  · cases h

/-- Naming an argument does not change its value. -/
theorem values_nameLast {c c' : PendingCall} {name : String} (h : c.nameLast name = .ok c') :
    c'.values = c.values := by
  rw [PendingCall.nameLast] at h
  cases last : c.args.getLast? with
  | none =>
      rw [last] at h
      cases h
  | some a =>
      rw [last] at h
      cases h
      obtain ⟨before, split⟩ := List.getLast?_eq_some_iff.mp last
      simp [PendingCall.values, split]

section

variable (inv : Inv ctx carry base aside .begun [] s)

include inv

theorem Inv.conducts_addOpArg {op : Op} (leaf : op.inputs = []) (type : op.resultType = .value) :
    Conducts F (addOpArg op) s fun _ => Inv ctx carry base aside .running [] := by
  refine (Conducts.of_ensures quiet_requireCall ensures_requireCall inv.inOrder inv).bind
    fun _ s₁ inv₁ => inv₁.after_emit (by simp) ?_ fun v s₂ inv₂ => inv₂.conducts_addArg ?_
  · rw [leaf]
    exact fun e mem => absurd mem List.not_mem_nil
  · rw [type]
    simp [ArgValue.values]

theorem Inv.conducts_addPopped :
    Conducts F addPopped s fun _ => Inv ctx carry base aside .running [] := by
  refine inv.after_pop fun v s₁ inv₁ => inv₁.conducts_addArg ?_
  simp [ArgValue.values]

theorem Inv.conducts_nameLastArg (symbol : PoolIndex) :
    Conducts F (nameLastArg ctx symbol) s fun _ => Inv ctx carry base aside .running [] := by
  refine inv.after_constant fun name s₁ inv₁ => ?_
  refine (Conducts.of_ensures (quiet_updateCall fun c => c.local_nameLast name)
    (ensures_updateCall fun changed v hv => ?_) inv₁.inOrder inv₁).imp fun _ _ inv₂ => inv₂.run
  rw [values_nameLast changed] at hv
  exact Or.inl hv

theorem Inv.conducts_startCall (lookup : FunLookup) (symbol : PoolIndex) :
    Conducts F (startCall ctx lookup symbol) s fun _ => Inv ctx carry base aside .running [] := by
  refine inv.after_constant fun name s₁ inv₁ => inv₁.after_emit (by simp) ?_ fun callee s₂ inv₂ => ?_
  · exact fun e mem => absurd mem List.not_mem_nil
  · refine (inv₂.conducts_pushCall ?_).imp fun _ _ inv₃ => inv₃.run
    simp [PendingCall.values, Callee.values, Op.resultType]

theorem Inv.conducts_startBuiltin (symbol : PoolIndex) :
    Conducts F (startBuiltin ctx symbol) s fun _ => Inv ctx carry base aside .running [] := by
  refine inv.after_constant fun name s₁ inv₁ => ?_
  refine (inv₁.conducts_pushCall ?_).imp fun _ _ inv₂ => inv₂.run
  simp [PendingCall.values, Callee.values]

theorem Inv.conducts_startValueCall :
    Conducts F startValueCall s fun _ => Inv ctx carry base aside .running [] := by
  refine inv.after_pop fun callee s₁ inv₁ => ?_
  refine (inv₁.conducts_pushCall ?_).imp fun _ _ inv₂ => inv₂.run
  simp [PendingCall.values, Callee.values]

end

/-- The value of an argument can be read, that of a mark once it is emitted. -/
theorem Inv.conducts_argValue (inv : Inv ctx carry base aside phase hand s)
    (ready : phase ≠ .ended) {a : ArgValue}
    (known : ∀ w ∈ a.values, (w, .value) ∈ phase.reads carry hand) :
    Conducts F (argValue a) s fun v s' => (∀ w ∈ a.values, w = v) ∧
      ∃ hand', (∀ e ∈ hand, e ∈ hand') ∧ Inv ctx carry base aside phase hand' s' ∧
        (v, .value) ∈ phase.reads carry hand' := by
  have mark : ∀ {op : Op}, op.inputs = [] → op.resultType = .value →
      Conducts F (Lowering.emit op) s fun v s' => (∀ w ∈ ArgValue.missing.values, w = v) ∧
        ∃ hand', (∀ e ∈ hand, e ∈ hand') ∧ Inv ctx carry base aside phase hand' s' ∧
          (v, .value) ∈ phase.reads carry hand' := by
    intro op leaf type
    refine (inv.conducts_emit ready (by simp [leaf])).imp fun v s₁ inv₁ => ?_
    rw [type] at inv₁
    exact ⟨fun w mem => absurd mem List.not_mem_nil, _, fun e mem => List.mem_cons_of_mem _ mem,
      inv₁, mem_reads ready List.mem_cons_self⟩
  cases a with
  | value w =>
      refine .pure inv.inOrder
        ⟨fun v mem => List.mem_singleton.mp mem, hand, fun e mem => mem, inv, ?_⟩
      exact known w List.mem_cons_self
  | missing => exact mark rfl rfl
  | dots => exact mark rfl rfl

/-- The values of arguments can be read, and those that were added are among them. -/
theorem Inv.conducts_argValues (inv : Inv ctx carry base aside phase hand s)
    (ready : phase ≠ .ended) {args : List CallArg}
    (known : ∀ v ∈ args.flatMap (·.value.values), (v, .value) ∈ phase.reads carry hand) :
    Conducts F (argValues args) s fun vs s' => (∀ v ∈ args.flatMap (·.value.values), v ∈ vs) ∧
      ∃ hand', (∀ e ∈ hand, e ∈ hand') ∧ Inv ctx carry base aside phase hand' s' ∧
        ∀ v ∈ vs, (v, .value) ∈ phase.reads carry hand' := by
  induction args generalizing hand s with
  | nil =>
      exact .pure inv.inOrder ⟨fun v mem => mem, hand, fun e mem => mem, inv,
        fun v mem => absurd mem List.not_mem_nil⟩
  | cons a args ih =>
      rw [List.flatMap_cons] at known ⊢
      refine (inv.conducts_argValue ready fun w mem => known w (List.mem_append_left _ mem)).bind
        fun v s₁ first => ?_
      obtain ⟨here, hand₁, more₁, inv₁, read⟩ := first
      refine (ih inv₁ fun w mem => reads_mono more₁ (known w (List.mem_append_right _ mem))).bind
        fun vs s₂ others => ?_
      obtain ⟨later, hand₂, more₂, inv₂, reads⟩ := others
      refine .pure inv₂.inOrder ⟨fun w mem => ?_, hand₂, fun e mem => more₂ e (more₁ e mem), inv₂,
        List.forall_mem_cons.mpr ⟨reads_mono more₂ read, reads⟩⟩
      rcases List.mem_append.mp mem with mem | mem
      · exact here w mem ▸ List.mem_cons_self
      · exact List.mem_cons_of_mem _ (later w mem)

/-- An operation on values that can be read uses them. -/
theorem Inv.conducts_emitUsing (inv : Inv ctx carry base aside .begun hand s) {op : Op}
    (values : op.inputs = op.operands.map (·, .value)) (type : op.resultType = .value)
    (reads : ∀ w ∈ op.operands, (w, .value) ∈ Phase.begun.reads carry hand) :
    Conducts F (Lowering.emit op) s fun v s' =>
      Inv ctx carry base aside .begun ((v, .value) :: hand) s' ∧
        ∀ w ∈ op.operands, carry.Uses s'.draft w := by
  obtain ⟨performs, fault, result⟩ := inv.conducts_emitValue (by simp) values type reads
  exact ⟨performs, fault, fun h => ⟨result h, inv.uses_emit h⟩⟩

/-- What is known of the values in hand stays so for fewer. -/
theorem Inv.drop_cons {hand' : List (ValueId × ValueType)} {e : ValueId × ValueType}
    (inv : Inv ctx carry base aside phase (e :: hand') s) (less : ∀ e ∈ hand, e ∈ hand') :
    Inv ctx carry base aside phase (e :: hand) s :=
  inv.drop (List.forall_mem_cons.mpr
    ⟨List.mem_cons_self, fun e mem => List.mem_cons_of_mem _ (less e mem)⟩)

/-- A call reads the values that it holds. -/
theorem Inv.conducts_emitCall (inv : Inv ctx carry base aside .begun hand s) {c : PendingCall}
    (known : ∀ v ∈ c.values, (v, .value) ∈ Phase.begun.reads carry hand) (site : CallSite) :
    Conducts F (emitCall c site) s fun v s' =>
      Inv ctx carry base aside .begun ((v, .value) :: hand) s' ∧
        ∀ w ∈ c.values, carry.Uses s'.draft w := by
  refine (inv.conducts_argValues (by simp)
    fun v mem => known v (List.mem_append_right _ mem)).bind fun args s₁ collected => ?_
  obtain ⟨added, hand₁, more, inv₁, reads⟩ := collected
  have finish : ∀ {op : Op}, op.resultType = .value → op.inputs = op.operands.map (·, .value) →
      op.operands = c.callee.values ++ args → Conducts F (Lowering.emit op) s₁ fun v s' =>
        Inv ctx carry base aside .begun ((v, .value) :: hand) s' ∧
          ∀ w ∈ c.values, carry.Uses s'.draft w := by
    intro op type values operands
    refine (inv₁.conducts_emitUsing values type fun w mem => ?_).imp fun v s₂ emitted =>
      ⟨emitted.1.drop_cons more, fun w mem => emitted.2 w ?_⟩
    · rw [operands] at mem
      rcases List.mem_append.mp mem with callee | arg
      · exact reads_mono more (known w (List.mem_append_left _ callee))
      · exact reads w arg
    · rw [operands]
      exact List.mem_append.mpr ((List.mem_append.mp mem).imp id (added w))
  cases callee : c.callee with
  | builtin name =>
      rw [callee] at finish
      exact finish rfl rfl rfl
  | value callee' =>
      rw [callee] at finish
      simp only
      split
      · exact finish rfl rfl rfl
      · exact finish rfl rfl rfl

theorem Inv.popCall {c : PendingCall} (inv : Inv ctx carry base aside phase hand s)
    (h : popCall s = .ok c s') :
    ∃ rest, s.calls = c :: rest ∧ s' = { s with calls := rest } ∧
      Inv ctx carry base aside phase hand s' := by
  rw [Lowering.popCall] at h
  cases calls : s.calls with
  | nil =>
      rw [calls] at h
      cases h
  | cons c' rest =>
      rw [calls] at h
      cases h
      refine ⟨rest, rfl, rfl, inv.recall fun c' mem => inv.calls c' ?_⟩
      rw [calls]
      exact List.mem_cons_of_mem _ mem

/-- A call is emitted and its value pushed. -/
theorem Inv.conducts_pushCallResult (inv : Inv ctx carry base aside .begun hand s)
    {c : PendingCall} (known : ∀ v ∈ c.values, (v, .value) ∈ Phase.begun.reads carry hand)
    (site : CallSite) : Conducts F (do
      let result ← emitCall c site
      push result) s fun _ s' =>
        Inv ctx carry base aside .running [] s' ∧ ∀ w ∈ c.values, carry.Uses s'.draft w := by
  refine (inv.conducts_emitCall known site).bind fun v s₁ called => ?_
  obtain ⟨inv₁, uses⟩ := called
  refine .quiet inv₁.inOrder (quiet_push v) fun h => ?_
  have inv₂ := ensures_push List.mem_cons_self s₁ () _ inv₁ h
  cases h
  exact ⟨inv₂.run, uses⟩

theorem Inv.conducts_finishCall (inv : Inv ctx carry base aside .begun [] s)
    (held : ∀ v ∈ s.heldByCall, (v, .value) ∈ carry.values) (call : PoolIndex) :
    Conducts F (finishCall ctx call) s fun _ s' =>
      Inv ctx carry base aside .running [] s' ∧ ∀ v ∈ s.heldByCall, carry.Uses s'.draft v := by
  refine (Conducts.quiet inv.inOrder quiet_popCall inv.popCall).bind fun c s₁ popped => ?_
  obtain ⟨rest, calls, -, inv₁⟩ := popped
  have holds : s.heldByCall = c.values := by rw [State.heldByCall, calls]
  rw [holds] at held ⊢
  exact inv₁.after_site fun site s₂ inv₂ => inv₂.conducts_pushCallResult held site

/-! ### Complex assignments -/

/-- Open assignments hold no values. -/
theorem Inv.reassign (inv : Inv ctx carry base aside phase hand s)
    (assigns : List PendingAssign) : Inv ctx carry base aside phase hand { s with assigns } :=
  inv.change { s with assigns } rfl id (fun _ => Or.inl) inv.calls (fun _ => Or.inl) inv.stack
    inv.hand

theorem Inv.accessLayer {site : CallSite}
    {access : PendingAssign → Except Fault CallSite × PendingAssign}
    (inv : Inv ctx carry base aside phase hand s) (h : accessLayer access s = .ok site s') :
    Inv ctx carry base aside phase hand s' ∧ s' = { s with assigns := s'.assigns } := by
  rw [Lowering.accessLayer] at h
  split at h
  case h_2 => cases h
  case h_1 a rest _ =>
    obtain ⟨-, rfl⟩ := ofExcept_eq_ok h
    exact ⟨inv.reassign _, rfl⟩

theorem pop_frame {v : ValueId} (h : pop s = .ok v s') :
    s' = { s with stack := s'.stack } := by
  rw [pop] at h
  split at h
  · cases h
    rfl
  · cases h

theorem Inv.conducts_startAssign (inv : Inv ctx carry base aside .begun [] s) (scope : Scope)
    (symbol call : PoolIndex) : Conducts F (startAssign ctx scope symbol call) s
      fun _ => Inv ctx carry base aside .running [] := by
  refine inv.after_constant fun name s₁ inv₁ => inv₁.after_peekNth 0 fun rhs s₂ inv₂ => ?_
  refine inv₂.after_constant fun e s₃ inv₃ => ?_
  refine (Conducts.of_ensures (quiet_ofExcept (PendingAssign.local_start scope name e))
    (.ofExcept _) inv₃.inOrder inv₃).bind fun pending s₄ started => ?_
  refine started.1.after_emit (by simp) ?_ fun target s₅ inv₅ => ?_
  · exact fun e mem => absurd mem List.not_mem_nil
  · refine (inv₅.conducts_push List.mem_cons_self).bind fun _ s₆ inv₆ => ?_
    refine (inv₆.conducts_push (by simp)).bind fun _ s₇ inv₇ => ?_
    refine .quiet inv₇.inOrder (quiet_pushAssign pending) fun h => ?_
    cases h
    exact (inv₇.reassign _).run

theorem mem_values_prepend {c : PendingCall} {x v : ValueId} :
    v ∈ (c.prepend x).values ↔ v = x ∨ v ∈ c.values := by
  simp [PendingCall.values, PendingCall.prepend, ArgValue.values, or_left_comm]

theorem Inv.conducts_getterCall (inv : Inv ctx carry base aside .begun [] s)
    (held : ∀ v ∈ s.heldByCall, (v, .value) ∈ carry.values) (layer : Nat) :
    Conducts F (getterCall layer) s fun _ s' =>
      Inv ctx carry base aside .running [] s' ∧ ∀ v ∈ s.heldByCall, carry.Uses s'.draft v := by
  refine (Conducts.quiet inv.inOrder (quiet_accessLayer fun a => a.local_getter layer)
    inv.accessLayer).bind fun site s₁ accessed => ?_
  obtain ⟨inv₁, frame₁⟩ := accessed
  refine (Conducts.quiet inv₁.inOrder quiet_pop id).bind fun x s₂ h₂ => ?_
  have inv₂ := ensures_pop s₁ x s₂ inv₁ h₂
  refine (Conducts.quiet inv₂.inOrder quiet_popCall inv₂.popCall).bind fun c s₃ popped => ?_
  obtain ⟨rest, calls, -, inv₃⟩ := popped
  rw [pop_frame h₂, frame₁] at calls
  have holds : s.heldByCall = c.values := by
    rw [State.heldByCall, show s.calls = c :: rest from calls]
  rw [holds] at held ⊢
  refine (inv₃.conducts_pushCallResult (fun v mem => ?_) site).imp fun _ s' done =>
    ⟨done.1, fun v mem => done.2 v (mem_values_prepend.mpr (Or.inr mem))⟩
  rcases mem_values_prepend.mp mem with rfl | old
  · exact List.mem_append_left _ List.mem_cons_self
  · exact List.mem_append_right _ (held v old)

theorem Inv.conducts_setterCall (inv : Inv ctx carry base aside .begun [] s)
    (held : ∀ v ∈ s.heldByCall, (v, .value) ∈ carry.values) (layer : Nat) :
    Conducts F (setterCall layer) s fun _ s' =>
      Inv ctx carry base aside .running [] s' ∧ ∀ v ∈ s.heldByCall, carry.Uses s'.draft v := by
  refine (Conducts.quiet inv.inOrder (quiet_accessLayer fun a => a.local_setter layer)
    inv.accessLayer).bind fun site s₁ accessed => ?_
  obtain ⟨inv₁, frame₁⟩ := accessed
  refine (Conducts.quiet inv₁.inOrder quiet_pop id).bind fun value s₂ h₂ => ?_
  have inv₂ := ensures_pop s₁ value s₂ inv₁ h₂
  refine (Conducts.quiet inv₂.inOrder quiet_pop id).bind fun x s₃ h₃ => ?_
  have inv₃ := ensures_pop s₂ x s₃ inv₂ h₃
  refine (Conducts.quiet inv₃.inOrder quiet_popCall inv₃.popCall).bind fun c s₄ popped => ?_
  obtain ⟨rest, calls, -, inv₄⟩ := popped
  rw [pop_frame h₃, pop_frame h₂, frame₁] at calls
  have holds : s.heldByCall = c.values := by
    rw [State.heldByCall, show s.calls = c :: rest from calls]
  rw [holds] at held ⊢
  have values : ((c.prepend x).addNamed value "value").values = (c.prepend x).values ++ [value] :=
    values_addArg _ _
  refine (inv₄.conducts_pushCallResult (fun v mem => ?_) site).imp fun _ s' done =>
    ⟨done.1, fun v mem => done.2 v ?_⟩
  · rw [values] at mem
    rcases List.mem_append.mp mem with mem | new
    · rcases mem_values_prepend.mp mem with rfl | old
      · exact List.mem_append_left _ List.mem_cons_self
      · exact List.mem_append_right _ (held v old)
    · rw [List.mem_singleton.mp new]
      exact List.mem_append_left _ (by simp)
  · rw [values]
    exact List.mem_append_left _ (mem_values_prepend.mpr (Or.inr mem))

theorem Inv.conducts_endAssign (inv : Inv ctx carry base aside .begun [] s) (scope : Scope)
    (symbol : PoolIndex) : Conducts F (endAssign ctx scope symbol) s
      fun _ => Inv ctx carry base aside .running [] := by
  refine inv.after_constant fun name s₁ inv₁ => ?_
  have popping : ∀ {a s'}, popAssign s₁ = .ok a s' → Inv ctx carry base aside .begun [] s' := by
    intro a s' h
    rw [popAssign] at h
    split at h
    · cases h
      exact inv₁.reassign _
    · cases h
  refine (Conducts.quiet inv₁.inOrder quiet_popAssign popping).bind fun pending s₂ inv₂ => ?_
  split
  · refine inv₂.after_pop fun value s₃ inv₃ => ?_
    refine inv₃.after_emit (by simp) ?_ fun _ s₄ inv₄ => .pure inv₄.inOrder inv₄.run
    simp [Op.inputs, Op.operands, Phase.reads]
  · exact .fail inv₂.inOrder (F.expected trivial)

end Lowering

end StackLift
