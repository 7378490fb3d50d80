import StackLift.Proofs.Lower.Loop

/-!
Dispatch on the class of a target. The slow path and the fast path are direct
blocks of one test; the instruction that closes the dispatch reads what the call
with the indices and the dispatch itself hold, and goes on in the block after
the construct.
-/

namespace StackLift.Lowering

variable {ctx : Context} {carry : Carry} {base : Draft} {aside : BlockId → Prop} {phase : Phase}
  {hand : List (ValueId × ValueType)} {F : Faults} {s s' : State} {offset : Nat}

/-! ### Opening a dispatch -/

theorem Inv.conducts_popRhs (inv : Inv ctx carry base aside phase [] s) (kind : DispatchKind) :
    Conducts F (popRhs kind) s fun rhs =>
      Inv ctx carry base aside phase (rhs.toList.map (·, .value)) := by
  rw [popRhs]
  split
  · exact inv.after_pop fun v s₁ inv₁ => .pure inv₁.inOrder inv₁
  · exact .pure inv.inOrder inv

theorem replaceTop_eq_ok {v w : ValueId} (h : replaceTop v s = .ok w s') :
    ∃ rest, s.stack = ⟨w :: rest⟩ ∧ s' = { s with stack := ⟨v :: rest⟩ } := by
  obtain ⟨d, ⟨items⟩, loops, calls, assigns, dispatches, depths, live⟩ := s
  cases items with
  | nil => cases h
  | cons top rest =>
      cases h
      exact ⟨rest, rfl, rfl⟩

/-- The slow path leaves the stack as it found it. -/
theorem Inv.conducts_slowPath {kind : DispatchKind} {call : PoolIndex} {target : ValueId}
    {rhs : Option ValueId} {after : BlockId} (inv : Inv ctx carry base aside .running hand s)
    (named : ∃ offset, ctx.labels.blockAt? offset = some after)
    (known : ∀ v ∈ target :: rhs.toList, (v, .value) ∈ hand) :
    Conducts F (slowPath kind call target rhs after) s fun _ s' =>
      Inv ctx carry base aside .ended [] s' ∧ s'.stack = s.stack := by
  refine Conducts.bind (.eq (inv.conducts_emitValue (by simp) rfl rfl known))
    fun result s₁ emitted => ?_
  obtain ⟨h₁, inv₁⟩ := emitted
  refine (Conducts.of_ensures (quiet_replaceTop result) (ensures_replaceTop List.mem_cons_self)
    inv₁.inOrder inv₁).eq.bind fun saved s₂ replaced => ?_
  obtain ⟨h₂, inv₂⟩ := replaced
  refine (inv₂.conducts_jumpPlain (by simp) (inv₂.plain_label named)).bind fun _ s₃ left => ?_
  refine (Conducts.of_ensures (quiet_replaceTop saved) (ensures_replaceTop List.mem_cons_self)
    left.inv.inOrder left.inv).eq.bind fun _ s₄ replaced => ?_
  obtain ⟨h₄, inv₄⟩ := replaced
  refine .pure inv₄.inOrder ⟨inv₄.forget, ?_⟩
  obtain ⟨-, frame₁⟩ := emit_eq_ok h₁
  obtain ⟨rest, stack₁, frame₂⟩ := replaceTop_eq_ok h₂
  obtain ⟨rest', stack₃, frame₄⟩ := replaceTop_eq_ok h₄
  have same : s₃.stack = ⟨result :: rest⟩ := by rw [left.frame, frame₂]
  rw [same] at stack₃
  cases stack₃
  rw [frame₄, ← stack₁, frame₁]

theorem Inv.conducts_pushDispatch {p : PendingDispatch}
    (inv : Inv ctx carry base aside phase hand s) (after : s.draft.Plain p.after)
    (rhs : ∀ v ∈ p.rhs.toList, s.draft.Known v .value) :
    Conducts F (pushDispatch p) s fun _ => Inv ctx carry base aside phase hand := by
  refine .quiet inv.inOrder (quiet_pushDispatch p) fun h => ?_
  cases h
  refine inv.change { s with dispatches := p :: s.dispatches } rfl id (fun _ => Or.inl) inv.calls
    (fun q mem => ?_) inv.stack inv.hand
  rcases List.mem_cons.mp mem with rfl | old
  · exact Or.inr ⟨after, rhs⟩
  · exact Or.inl old

theorem Inv.conducts_startIndices {kind : DispatchKind} {target : ValueId}
    (inv : Inv ctx carry base aside phase hand s) (mem : (target, .value) ∈ hand) :
    Conducts F (startIndices kind target) s fun _ => Inv ctx carry base aside phase hand := by
  rw [startIndices]
  split
  · exact .pure inv.inOrder inv
  · refine inv.conducts_pushCall fun v hv => ?_
    obtain rfl : v = target := by simpa [PendingCall.values, Callee.values, ArgValue.values] using hv
    exact mem

/-- Both paths of a dispatch start with what is in scope at the test. -/
theorem Inv.conducts_startPaths {kind : DispatchKind} {call : PoolIndex} {after : BlockId}
    {plain target : ValueId} {rhs : Option ValueId}
    (inv : Inv ctx carry base aside .begun
      ((plain, (Op.isPlain target).resultType) :: (target, .value) :: rhs.toList.map (·, .value)) s)
    (named : ∃ offset, ctx.labels.blockAt? offset = some after) : Conducts F (do
      let fast ← Lowering.newDirect
      let slow ← Lowering.newDirect
      Lowering.branch plain fast slow
      Lowering.enter slow
      Lowering.slowPath kind call target rhs after
      Lowering.enter fast
      Lowering.startIndices kind target
      Lowering.pushDispatch { kind, call, after, rhs }) s
        fun _ => Inv ctx carry base aside .running [] := by
  refine inv.conducts_newDirect.bind fun fast s₁ h₁ => ?_
  obtain ⟨inv₁, fastNew, fastApart, -, -⟩ := inv.newDirect h₁
  refine inv₁.conducts_newDirect.bind fun slow s₂ h₂ => ?_
  obtain ⟨inv₂, slowNew, slowApart, -, kept⟩ := inv₁.newDirect h₂
  obtain ⟨fastNew, apart⟩ := kept fastNew
  refine (inv₂.conducts_branch (by simp) (mem_reads (by simp) List.mem_cons_self) apart
    (Or.inl ⟨fastNew, Or.inr slowNew⟩)).bind fun _ s₃ left => ?_
  refine (left.conducts_enterDirect (List.mem_cons_of_mem _ List.mem_cons_self) (Or.inl rfl)
    slowNew).bind fun _ s₄ entered => ?_
  obtain ⟨inv₄, frame₄⟩ := entered
  have operands : ∀ v ∈ target :: rhs.toList, (v, ValueType.value) ∈
      (plain, (Op.isPlain target).resultType) :: (target, .value) :: rhs.toList.map (·, .value) := by
    intro v mem
    refine List.mem_cons_of_mem _ ?_
    rw [← List.map_cons (f := (·, ValueType.value))]
    exact List.mem_map.mpr ⟨v, mem, rfl⟩
  refine (inv₄.rebase.conducts_slowPath named operands).bind fun _ s₅ done => ?_
  obtain ⟨inv₅, stack₅⟩ := done
  obtain ⟨inv₅, grows₅⟩ := inv₄.of_rebase inv₅
  -- the fast path goes on from the test, not from the end of the slow path
  have grows : s₃.draft.Grows s₅.draft := by
    refine .trans ?_ grows₅
    rw [frame₄]
    exact Draft.grows_moveTo _ _
  have stack : s₅.stack = s₃.stack := by rw [stack₅, frame₄]
  refine (left.conducts_resume List.mem_cons_self fastNew inv₅ grows stack
    ⟨Or.inr (Or.inl rfl), apart⟩).bind fun _ s₆ resumed => ?_
  refine (resumed.1.conducts_startIndices (operands target List.mem_cons_self)).bind
    fun _ s₇ inv₇ => ?_
  have inv₇ := inv₇.settle fun c set =>
    ⟨⟨Or.inr (Or.inr set), slowApart c (Or.inr set)⟩, fastApart c set⟩
  refine (inv₇.conducts_pushDispatch (inv₇.plain_label named) fun v mem => ?_).imp
    fun _ _ inv₈ => inv₈.forget
  exact (inv₇.hand _ (operands v (List.mem_cons_of_mem _ mem))).known

theorem Inv.conducts_startDispatch (inv : Inv ctx carry base aside .begun [] s)
    (kind : DispatchKind) (call : PoolIndex) {label : Label} (covers : F.Covers ctx label) :
    Conducts F (startDispatch ctx kind call label) s
      fun _ => Inv ctx carry base aside .running [] := by
  refine inv.after_constant fun _ s₁ inv₁ => inv₁.after_target covers fun after named => ?_
  refine (inv₁.conducts_popRhs kind).bind fun rhs s₂ inv₂ => ?_
  refine inv₂.after_peekNth 0 fun target s₃ inv₃ => ?_
  refine inv₃.after_emit (by simp) ?_ fun plain s₄ inv₄ => inv₄.conducts_startPaths named
  simp [Op.inputs, Op.operands, Phase.reads]

/-! ### Closing a dispatch -/

theorem Inv.popDispatch {kind : DispatchKind} {p : PendingDispatch}
    (inv : Inv ctx carry base aside phase hand s) (h : popDispatch kind s = .ok p s') :
    ∃ rest, s.dispatches = p :: rest ∧ s' = { s with dispatches := rest } ∧
      Inv ctx carry base aside phase hand s' := by
  rw [Lowering.popDispatch] at h
  cases dispatches : s.dispatches with
  | nil =>
      rw [dispatches] at h
      cases h
  | cons q rest =>
      rw [dispatches] at h
      simp only at h
      split at h
      · cases h
        refine ⟨rest, rfl, rfl, inv.change { s with dispatches := rest } rfl id (fun _ => Or.inl)
          inv.calls (fun q mem => Or.inl ?_) inv.stack inv.hand⟩
        rw [dispatches]
        exact List.mem_cons_of_mem p mem
      · cases h

section

variable {rhs : Option ValueId} (inv : Inv ctx carry base aside .begun hand s)

include inv

/-- An access reads its target, its indices and what it stores. -/
theorem Inv.conducts_emitAccess (double : Bool) {target : ValueId} {indices : List ValueId}
    (site : CallSite)
    (reads : ∀ w ∈ target :: indices ++ rhs.toList, (w, .value) ∈ Phase.begun.reads carry hand) :
    Conducts F (emitAccess double target indices rhs site) s fun v s' =>
      Inv ctx carry base aside .begun ((v, .value) :: hand) s' ∧
        ∀ w ∈ target :: indices ++ rhs.toList, carry.Uses s'.draft w := by
  cases rhs with
  | some value => exact inv.conducts_emitUsing rfl rfl reads
  | none =>
      rw [Option.toList_none, List.append_nil] at reads ⊢
      exact inv.conducts_emitUsing rfl rfl reads

/-- The builtin is called on the arguments that were added and on what is stored. -/
theorem Inv.conducts_emitNamedBuiltin (builtin : String) {c : PendingCall} (site : CallSite)
    (reads : ∀ w ∈ c.args.flatMap (·.value.values) ++ rhs.toList,
      (w, .value) ∈ Phase.begun.reads carry hand) :
    Conducts F (emitNamedBuiltin builtin c rhs site) s fun v s' =>
      Inv ctx carry base aside .begun ((v, .value) :: hand) s' ∧
        ∀ w ∈ c.args.flatMap (·.value.values) ++ rhs.toList, carry.Uses s'.draft w := by
  have call : ∀ c' : PendingCall, c'.args.flatMap (·.value.values) =
      c.args.flatMap (·.value.values) ++ rhs.toList → Conducts F (do
        let callee ← Lowering.emit (.ldBuiltin builtin)
        let args ← Lowering.argValues c'.args
        Lowering.emit (.namedCall callee args (c'.args.map CallArg.name) site)) s fun v s' =>
          Inv ctx carry base aside .begun ((v, .value) :: hand) s' ∧
            ∀ w ∈ c.args.flatMap (·.value.values) ++ rhs.toList, carry.Uses s'.draft w := by
    intro c' same
    rw [← same] at reads ⊢
    refine (inv.conducts_emitValue (by simp) rfl rfl (by simp [Op.operands])).bind
      fun callee s₁ inv₁ => ?_
    refine (inv₁.conducts_argValues (by simp) fun w mem =>
      reads_mono (fun e he => List.mem_cons_of_mem _ he) (reads w mem)).bind
        fun args s₂ collected => ?_
    obtain ⟨added, hand₂, more, inv₂, argReads⟩ := collected
    refine (inv₂.conducts_emitUsing rfl rfl fun w mem => ?_).imp fun v s₃ emitted =>
      ⟨emitted.1.drop_cons fun e mem => more e (List.mem_cons_of_mem _ mem),
        fun w mem => emitted.2 w (List.mem_cons_of_mem _ (added w mem))⟩
    rcases List.mem_cons.mp mem with rfl | mem
    · exact mem_reads (by simp) (more _ List.mem_cons_self)
    · exact argReads w mem
  cases rhs with
  | none => exact call c (List.append_nil _).symm
  | some value =>
      refine call (c.addNamed value "value") ?_
      rw [PendingCall.addNamed, PendingCall.addArg, List.flatMap_append, List.flatMap_singleton]
      rfl

/-- The default operation reads what is held for it, and its target. -/
theorem Inv.conducts_defaultFromCall {kind : DispatchKind} {c : PendingCall} {target : ValueId}
    (site : CallSite)
    (reads : ∀ w ∈ c.heldByAccess kind rhs, (w, .value) ∈ Phase.begun.reads carry hand)
    (mem : (target, .value) ∈ hand) :
    Conducts F (defaultFromCall kind c target rhs site) s fun v s' =>
      Inv ctx carry base aside .begun ((v, .value) :: hand) s' ∧
        ∀ w ∈ c.heldByAccess kind rhs, carry.Uses s'.draft w := by
  simp only [defaultFromCall]
  simp only [PendingCall.heldByAccess] at reads ⊢
  split
  case isTrue combine =>
    rw [if_pos combine] at reads
    exact inv.conducts_emitCall reads site
  case isFalse notCombine =>
    rw [if_neg notCombine] at reads
    split
    case isTrue few =>
      rw [if_pos few] at reads
      refine (inv.conducts_argValues (by simp)
        fun w hw => reads w (List.mem_append_left _ hw)).bind fun indices s₁ collected => ?_
      obtain ⟨added, hand₁, more, inv₁, indexReads⟩ := collected
      refine (inv₁.conducts_emitAccess _ site fun w hw => ?_).imp fun v s₂ emitted =>
        ⟨emitted.1.drop_cons more, fun w hw => emitted.2 w ?_⟩
      · rcases List.mem_append.mp hw with hw | stored
        · rcases List.mem_cons.mp hw with rfl | hw
          · exact mem_reads (by simp) (more _ mem)
          · exact indexReads w hw
        · exact reads_mono more (reads w (List.mem_append_right _ stored))
      · rcases List.mem_append.mp hw with index | stored
        · exact List.mem_append_left _ (List.mem_cons_of_mem _ (added w index))
        · exact List.mem_append_right _ stored
    case isFalse many =>
      rw [if_neg many] at reads
      exact inv.conducts_emitNamedBuiltin _ site reads

theorem Inv.conducts_defaultFromStack (kind : DispatchKind) {target : ValueId}
    {indices : List ValueId} (site : CallSite)
    (reads : ∀ w ∈ target :: indices ++ rhs.toList, (w, .value) ∈ Phase.begun.reads carry hand) :
    Conducts F (defaultFromStack kind target indices rhs site) s fun v s' =>
      Inv ctx carry base aside .begun ((v, .value) :: hand) s' ∧
        ∀ w ∈ target :: indices ++ rhs.toList, carry.Uses s'.draft w := by
  rw [defaultFromStack]
  split
  · exact inv.conducts_emitAccess _ site reads
  · exact inv.conducts_emitUsing rfl rfl reads

end

/-- The fast path joins the slow one at the next instruction. -/
theorem Inv.conducts_joinAfter {after : BlockId} {result : ValueId} (distinct : ctx.labels.Distinct)
    (inv : Inv ctx carry base (ctx.Ahead (offset + 1)) .begun hand s)
    (mem : (result, .value) ∈ hand) :
    Conducts F (joinAfter ctx offset after result) s fun _ s' =>
      GoesOn ctx carry base (offset + 1) s' ∧ s.draft.Grows s'.draft := by
  refine (inv.rebase.conducts_push mem).bind fun _ s₁ inv₁ => ?_
  split
  case isTrue named =>
    have plain := inv₁.plain_label ⟨_, named⟩
    refine (inv₁.conducts_jumpPlain (by simp) plain).bind fun _ s₂ left => ?_
    refine (left.conducts_enterNext distinct named plain).imp fun _ s₃ entered => ?_
    obtain ⟨inv₃, -, cursor⟩ := entered
    obtain ⟨inv₃, grows⟩ := inv.of_rebase inv₃
    exact ⟨.inNext inv₃ (by rw [named, cursor]), grows⟩
  case isFalse => exact .fail inv₁.inOrder (F.expected trivial)

theorem Inv.conducts_endDispatch {kind : DispatchKind} (distinct : ctx.labels.Distinct)
    (inv : Inv ctx carry base (ctx.Ahead (offset + 1)) .begun [] s)
    (held : ∀ v ∈ s.heldByDispatch kind, (v, .value) ∈ carry.values) :
    Conducts F (endDispatch ctx offset kind) s fun _ s' => GoesOn ctx carry base (offset + 1) s' ∧
      ∀ v ∈ s.heldByDispatch kind, carry.Uses s'.draft v := by
  refine (Conducts.quiet inv.inOrder (quiet_popDispatch kind) inv.popDispatch).bind
    fun p s₁ popped => ?_
  obtain ⟨_, dispatches, rfl, inv₁⟩ := popped
  refine (Conducts.quiet inv₁.inOrder quiet_popCall inv₁.popCall).bind fun c s₂ popped => ?_
  obtain ⟨_, calls, -, inv₂⟩ := popped
  have holds : s.heldByDispatch kind = c.heldByAccess kind p.rhs := by
    rw [State.heldByDispatch, dispatches, show s.calls = _ from calls]
  rw [holds] at held ⊢
  refine inv₂.after_pop fun target s₃ inv₃ => ?_
  refine (inv₃.conducts_defaultFromCall _ (fun w hw => List.mem_append_right _ (held w hw))
    List.mem_cons_self).bind fun result s₄ done => ?_
  obtain ⟨inv₄, uses⟩ := done
  exact (inv₄.conducts_joinAfter distinct List.mem_cons_self).imp fun _ s' joined =>
    ⟨joined.1, fun v mem => (uses v mem).mono joined.2 inv₄.sound⟩

/-- What is taken from the stack for an access can be read, and what is held for it. -/
theorem reads_taken {target : ValueId} {indices : List ValueId} {rhs : Option ValueId}
    (held : ∀ v ∈ rhs.toList, (v, .value) ∈ carry.values) :
    ∀ w ∈ target :: indices ++ rhs.toList, (w, .value) ∈
      Phase.begun.reads carry ((target, .value) :: (indices.map (·, .value) ++ [])) := by
  intro w hw
  rcases List.mem_append.mp hw with taken | stored
  · refine List.mem_append_left _ ?_
    rw [List.append_nil, ← List.map_cons (f := (·, ValueType.value))]
    exact List.mem_map.mpr ⟨w, taken, rfl⟩
  · exact List.mem_append_right _ (held w stored)

theorem Inv.conducts_endDispatchN {kind : DispatchKind} {count : Nat}
    (distinct : ctx.labels.Distinct)
    (inv : Inv ctx carry base (ctx.Ahead (offset + 1)) .begun [] s)
    (held : ∀ v ∈ (s.dispatches.head?.bind (·.rhs)).toList, (v, .value) ∈ carry.values) :
    Conducts F (endDispatchN ctx offset kind count) s fun _ s' =>
      GoesOn ctx carry base (offset + 1) s' ∧
        ∀ v ∈ (s.dispatches.head?.bind (·.rhs)).toList, carry.Uses s'.draft v := by
  refine (Conducts.quiet inv.inOrder (quiet_popDispatch _) inv.popDispatch).bind
    fun p s₁ popped => ?_
  obtain ⟨_, dispatches, -, inv₁⟩ := popped
  rw [dispatches, List.head?_cons, Option.bind_some] at held ⊢
  refine (Conducts.of_ensures (quiet_popN count) (ensures_popN count) inv₁.inOrder inv₁).bind
    fun indices s₂ inv₂ => inv₂.after_pop fun target s₃ inv₃ => ?_
  refine (inv₃.conducts_defaultFromStack kind _ (reads_taken held)).bind fun result s₄ done => ?_
  obtain ⟨inv₄, uses⟩ := done
  exact (inv₄.conducts_joinAfter distinct List.mem_cons_self).imp fun _ s' joined =>
    ⟨joined.1, fun v mem => (uses v (List.mem_append_right _ mem)).mono joined.2 inv₄.sound⟩

end StackLift.Lowering
