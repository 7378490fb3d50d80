import StackLift.Proofs.Lower.Moves

/-!
What lowering an instruction does to the brackets. The main statement, `moves_of_lower`, says for
all instructions at once which bracket each of them opens or closes and which edges it notes; those
that open one and those that close one are taken in turn.
-/

namespace StackLift.Lowering

variable {ctx : Context} {offset : Nat} {s s' : State}

/-! ### Instructions that open -/

theorem moves_of_startCall {lookup : FunLookup} {symbol : PoolIndex}
    (h : startCall ctx lookup symbol s = .ok () s') : Moves ctx offset (.getFun lookup symbol) s s' := by
  obtain ⟨name, -, h⟩ := constant_bind_eq_ok.mp h
  cases emit_bind_eq_ok h
  exact ⟨.of_shapes rfl, .opensCall rfl _ rfl rfl rfl⟩

theorem moves_of_startBuiltin {internal : Bool} {symbol : PoolIndex}
    (h : startBuiltin ctx symbol s = .ok () s') :
    Moves ctx offset (.getBuiltin internal symbol) s s' := by
  obtain ⟨name, -, h⟩ := constant_bind_eq_ok.mp h
  cases h
  exact ⟨.of_shapes rfl, .opensCall rfl _ rfl rfl rfl⟩

theorem moves_of_startValueCall (h : startValueCall s = .ok () s') :
    Moves ctx offset .checkFun s s' := by
  obtain ⟨callee, s₁, h₁, h₂⟩ := bind_eq_ok_iff.mp h
  have frame := pop_frame h₁
  cases h₂
  refine ⟨.of_shapes ?_, .opensCall rfl { callee := .value callee } rfl ?_ ?_⟩
  · rw [frame]
  · rw [frame]
    rfl
  · rw [frame]

theorem moves_of_startAssign {scope : Scope} {symbol call : PoolIndex}
    (h : startAssign ctx scope symbol call s = .ok () s') :
    Moves ctx offset (.startAssign scope symbol call) s s' := by
  obtain ⟨name, -, h⟩ := constant_bind_eq_ok.mp h
  obtain ⟨rhs, -, h⟩ := peekNth_bind_eq_ok.mp h
  obtain ⟨e, -, h⟩ := constant_bind_eq_ok.mp h
  obtain ⟨pending, -, h⟩ := ofExcept_bind_eq_ok.mp h
  cases emit_bind_eq_ok h
  exact ⟨.of_shapes rfl, .opensAssign scope rfl pending rfl rfl⟩

/-- Below what a write stores is the value on which a dispatch is made. -/
theorem popRhs_frame {kind : DispatchKind} {rhs : Option ValueId} (h : popRhs kind s = .ok rhs s') :
    s' = { s with stack := ⟨s.stack.items.drop (if kind.isWrite then 1 else 0)⟩ } ∧
      rhs = if kind.isWrite then s.stack.items[0]? else none := by
  rw [popRhs] at h
  split at h
  case isFalse reads =>
    cases h
    rw [if_neg reads, if_neg reads]
    exact ⟨rfl, rfl⟩
  case isTrue writes =>
    rw [if_pos writes, if_pos writes]
    obtain ⟨v, s₁, h₁, h₂⟩ := bind_eq_ok_iff.mp h
    cases h₂
    obtain ⟨d, ⟨items⟩, loops, calls, assigns, dispatches, notes, live⟩ := s
    cases items with
    | nil => cases h₁
    | cons w rest =>
        cases h₁
        exact ⟨rfl, rfl⟩

theorem keeps_slowPath (kind : DispatchKind) (call : PoolIndex) (target : ValueId)
    (rhs : Option ValueId) {after : BlockId} {T : BlockId → Prop} (mem : T after) :
    Keeps T (slowPath kind call target rhs after) :=
  (keeps_emit _).bind fun result => (keeps_replaceTop result).bind fun saved =>
    (keeps_jump mem).bind fun _ => (keeps_replaceTop saved).bind fun _ => .pure _

/-- Up to the fast path a dispatch opens nothing. -/
theorem steady_paths {T : BlockId → Prop} {kind : DispatchKind} {call : PoolIndex}
    {target : ValueId} {rhs : Option ValueId} {after : BlockId} (mem : T after) (hasNew : HasNew T s)
    {α : Type} {f : Lowering α} {a : α}
    (h : (do
      let plain ← emit (.isPlain target)
      let fast ← newDirect
      let slow ← newDirect
      branch plain fast slow
      enter slow
      slowPath kind call target rhs after
      enter fast
      f) s = .ok a s') : ∃ u, Steady T s u ∧ f u = .ok a s' := by
  obtain ⟨plain, s₁, h₁, h⟩ := bind_eq_ok_iff.mp h
  have steady := keeps_emit _ s plain s₁ hasNew h₁
  obtain ⟨fast, s₂, steady₂, h₂, h⟩ := steady.step hasNew keeps_newDirect h
  have fastNew := new_of_newDirect (steady.hasNew hasNew) h₂
  obtain ⟨slow, s₃, steady, h₃, h⟩ := steady₂.step hasNew keeps_newDirect h
  have slowNew := new_of_newDirect (steady₂.hasNew hasNew) h₃
  obtain ⟨_, s₄, steady, -, h⟩ := steady.step hasNew (keeps_branch plain fastNew slowNew) h
  obtain ⟨_, s₅, steady, -, h⟩ := steady.step hasNew (keeps_enter slow) h
  obtain ⟨_, s₆, steady, -, h⟩ := steady.step hasNew (keeps_slowPath kind call target rhs mem) h
  obtain ⟨_, s₇, steady, -, h⟩ := steady.step hasNew (keeps_enter fast) h
  exact ⟨s₇, steady, h⟩

theorem moves_of_startDispatch {kind : DispatchKind} {call : PoolIndex} {after : Label}
    (h : startDispatch ctx kind call after s = .ok () s') :
    Moves ctx offset (.startDispatch kind call after) s s' := by
  obtain ⟨e, -, h⟩ := constant_bind_eq_ok.mp h
  obtain ⟨block, found, h⟩ := target_bind_eq_ok.mp h
  obtain ⟨rhs, s₁, h₁, h⟩ := bind_eq_ok_iff.mp h
  obtain ⟨frame, stored⟩ := popRhs_frame h₁
  obtain ⟨target, top, h⟩ := peekNth_bind_eq_ok.mp h
  let T : BlockId → Prop := fun b => (Instruction.startDispatch kind call after).Aims ctx b ∨ s.New b
  have aims : T block := Or.inl ⟨_, rfl, after, List.mem_cons_self, found⟩
  obtain ⟨u, steady, h⟩ := steady_paths aims (s := s₁) (frame ▸ fun _ => Or.inr) h
  obtain ⟨same, -, notes, noticed⟩ := steady
  rw [frame] at same notes top noticed
  have records : Records ctx (.startDispatch kind call after) s ⟨kind, call, block, rhs⟩ :=
    ⟨⟨after, rfl, found⟩, stored⟩
  obtain ⟨loops, calls, assigns, dispatches⟩ := fields_of_brackets same
  obtain ⟨_, s₂, h₂, h₃⟩ := bind_eq_ok_iff.mp h
  cases h₃
  rw [startIndices] at h₂
  split at h₂
  case isTrue nary =>
    cases h₂
    refine ⟨noticed, .opensDispatch kind rfl [] (fun _ => rfl) (fun notNary => ?_) _ rfl records
      ?_ notes⟩
    · rw [nary] at notNary
      cases notNary
    · simp [State.brackets, loops, calls, assigns, dispatches]
  case isFalse notNary =>
    cases h₂
    refine ⟨noticed, .opensDispatch kind rfl _ (fun nary => absurd nary notNary)
      (fun _ => ⟨target, ?_, rfl⟩) _ rfl records ?_ notes⟩
    · rwa [List.getElem?_drop, Nat.add_zero] at top
    · simp [State.brackets, loops, calls, assigns, dispatches]

theorem Moves.opensLoop_of_steady {i : Instruction} {u : State} {l : LoopContext}
    {T : BlockId → Prop} (opens : i.opens? = some (.loop l.kind)) (loopEnd : i.Aims ctx l.loopEnd)
    (next : ctx.labels.blockAt? (offset + 1) = some l.next ∨ s.New l.next)
    (steady : Steady T s u) (opened : l.opened = u.openDepths)
    (noted : (u.edgeDepths.lookup l.loopEnd).isSome)
    (targets : ∀ b, T b → i.Aims ctx b ∨ ctx.labels.blockAt? (offset + 1) = some b ∨ s.New b) :
    Moves ctx offset i s { u with loops := l :: u.loops } := by
  obtain ⟨same, -, notes, noticed⟩ := steady
  obtain ⟨loops, calls, assigns, dispatches⟩ := fields_of_brackets same
  refine ⟨noticed, .opensLoop l opens loopEnd next
    (opened.trans (openDepths_of_brackets same)) noted ?_ (notes.mono targets)⟩
  simp [State.brackets, loops, calls, assigns, dispatches]

theorem moves_of_startLoop {endLabel : Label} (h : startLoop ctx offset endLabel s = .ok () s') :
    Moves ctx offset (.startLoop endLabel) s s' := by
  obtain ⟨loopEnd, found, h⟩ := target_bind_eq_ok.mp h
  have aims : (Instruction.startLoop endLabel).Aims ctx loopEnd :=
    ⟨_, rfl, endLabel, List.mem_cons_self, found⟩
  let T : BlockId → Prop := fun b => (Instruction.startLoop endLabel).Aims ctx b ∨
    ctx.labels.blockAt? (offset + 1) = some b ∨ s.New b
  have hasNew : HasNew T s := fun _ => Or.inr ∘ Or.inr
  obtain ⟨_, s₁, h₁, h⟩ := bind_eq_ok_iff.mp h
  have steady := keeps_noteEdge (T := T) (Or.inl aims) s () s₁ hasNew h₁
  have noted := isSome_of_noteEdge h₁
  obtain ⟨head, s₂, h₂, h⟩ := bind_eq_ok_iff.mp h
  obtain ⟨made, next⟩ : Steady T s₁ s₂ ∧
      (ctx.labels.blockAt? (offset + 1) = some head ∨ s.New head) := by
    rw [blockAfter] at h₂
    cases named : ctx.labels.blockAt? (offset + 1) with
    | some b =>
        rw [named] at h₂
        cases h₂
        exact ⟨.of_notes rfl (Nat.le_refl _) rfl rfl, Or.inl rfl⟩
    | none =>
        rw [named] at h₂
        refine ⟨keeps_newMerge s₁ head s₂ (steady.hasNew hasNew) h₂, Or.inr ?_⟩
        cases h₂
        exact steady.blocks
  have steady := steady.trans made
  obtain ⟨_, s₃, h₃, h⟩ := bind_eq_ok_iff.mp h
  have jumped := keeps_jump (T := T) (Or.inr next) s₂ () s₃ (steady.hasNew hasNew) h₃
  have steady := steady.trans jumped
  obtain ⟨_, s₄, h₄, h⟩ := bind_eq_ok_iff.mp h
  have entered := keeps_enter head s₃ () s₄ (steady.hasNew hasNew) h₄
  cases h
  exact .opensLoop_of_steady (l := ⟨.whileOrRepeat, head, loopEnd, s₄.openDepths⟩) rfl aims next
    (steady.trans entered) rfl (entered.notes.isSome (jumped.notes.isSome (made.notes.isSome noted)))
    fun _ => id

theorem moves_of_startFor {call symbol : PoolIndex} {endLabel : Label}
    (h : startFor ctx call symbol endLabel s = .ok () s') :
    Moves ctx offset (.startFor call symbol endLabel) s s' := by
  let T : BlockId → Prop := fun b => (Instruction.startFor call symbol endLabel).Aims ctx b ∨ s.New b
  have hasNew : HasNew T s := fun _ => Or.inr
  obtain ⟨seq, s₁, h₁, h⟩ := bind_eq_ok_iff.mp h
  have steady := keeps_pop s seq s₁ hasNew h₁
  obtain ⟨e, -, h⟩ := constant_bind_eq_ok.mp h
  obtain ⟨name, -, h⟩ := constant_bind_eq_ok.mp h
  obtain ⟨loopEnd, found, h⟩ := target_bind_eq_ok.mp h
  have aims : (Instruction.startFor call symbol endLabel).Aims ctx loopEnd :=
    ⟨_, rfl, endLabel, List.mem_cons_self, found⟩
  obtain ⟨length, s₂, steady, -, h⟩ := steady.step hasNew (keeps_emit _) h
  obtain ⟨zero, s₃, steady, -, h⟩ := steady.step hasNew (keeps_emit _) h
  obtain ⟨_, _, h₄, h⟩ := bind_eq_ok_iff.mp h
  cases h₄
  obtain ⟨step, s₄, steady₄, h₄, h⟩ := steady.step hasNew keeps_newMerge h
  have isNew : s.New step := by
    cases h₄
    exact steady.blocks
  obtain ⟨_, s₅, steady, -, h⟩ := steady₄.step hasNew (keeps_jump (Or.inr isNew)) h
  obtain ⟨index, s₆, steady, -, h⟩ := steady.step hasNew (keeps_addIndexPhi _ _ _) h
  obtain ⟨_, s₇, steady, -, h⟩ := steady.step hasNew (keeps_enter step) h
  obtain ⟨one, s₈, steady, -, h⟩ := steady.step hasNew (keeps_emit _) h
  obtain ⟨next, s₉, steady, -, h⟩ := steady.step hasNew (keeps_emit _) h
  obtain ⟨more, s₁₀, steady, -, h⟩ := steady.step hasNew (keeps_emit _) h
  obtain ⟨body, s₁₁, steady₁₁, h₁₁, h⟩ := steady.step hasNew keeps_newDirect h
  have bodyNew : T body := new_of_newDirect (steady.hasNew hasNew) h₁₁
  obtain ⟨_, s₁₂, steady, h₁₂, h⟩ :=
    steady₁₁.step hasNew (keeps_branch more bodyNew (Or.inl aims)) h
  have noted : (s₁₂.edgeDepths.lookup loopEnd).isSome := by
    obtain ⟨_, _, -, h⟩ := bind_eq_ok_iff.mp h₁₂
    obtain ⟨_, u, h₁, h₂⟩ := bind_eq_ok_iff.mp h
    rw [edgeDepths_of_terminate h₂]
    exact isSome_of_noteEdge h₁
  have hasNew := steady.hasNew hasNew
  obtain ⟨_, s₁₃, h₁₃, h⟩ := bind_eq_ok_iff.mp h
  have body := keeps_registerLoopIndex _ _ _ s₁₂ () s₁₃ hasNew h₁₃
  obtain ⟨_, s₁₄, body, -, h⟩ := body.step hasNew (keeps_enter _) h
  obtain ⟨element, s₁₅, body, -, h⟩ := body.step hasNew (keeps_emit _) h
  obtain ⟨_, s₁₆, body, -, h⟩ := body.step hasNew (keeps_emit _) h
  cases h
  exact .opensLoop_of_steady (l := ⟨.forEach, step, loopEnd, s₁₆.openDepths⟩) rfl aims (Or.inr isNew)
    (steady.trans body) rfl (body.notes.isSome noted) fun _ => Or.imp id Or.inr

/-! ### Instructions that close -/

theorem popCall_frame {c : PendingCall} (h : popCall s = .ok c s') :
    s.calls = c :: s'.calls ∧ s' = { s with calls := s'.calls } := by
  rw [popCall] at h
  cases calls : s.calls with
  | nil =>
      rw [calls] at h
      cases h
  | cons d rest =>
      rw [calls] at h
      cases h
      exact ⟨rfl, rfl⟩

theorem accessLayer_frame {access : PendingAssign → Except Fault CallSite × PendingAssign}
    {site : CallSite} (h : accessLayer access s = .ok site s') :
    s'.assigns.length = s.assigns.length ∧ s' = { s with assigns := s'.assigns } := by
  rw [accessLayer] at h
  split at h
  case h_2 => cases h
  case h_1 a rest assigns =>
    obtain ⟨-, rfl⟩ := ofExcept_eq_ok h
    rw [assigns]
    exact ⟨rfl, rfl⟩

/-- A call is closed, and then emitted and pushed. -/
theorem Moves.of_emitCall {i : Instruction} {u v : State} {c c' : PendingCall} {site : CallSite}
    (closes : i.closes? = some .call)
    (before : ∃ stack assigns, u = { s with stack, assigns } ∧ assigns.length = s.assigns.length)
    (popped : popCall u = .ok c v)
    (h : (do
      let result ← emitCall c' site
      push result) v = .ok () s') : Moves ctx offset i s s' := by
  obtain ⟨stack, assigns, rfl, length⟩ := before
  obtain ⟨calls, frame⟩ := popCall_frame popped
  have hasNew : HasNew s.New v := by
    rw [frame]
    exact fun _ => id
  obtain ⟨same, -, notes, noticed⟩ :=
    ((keeps_emitCall c' site).bind fun result => keeps_push result) v () s' hasNew h
  rw [← openDepths_of_brackets same] at notes
  obtain ⟨loops, kept, assigned, dispatches⟩ := fields_of_brackets same
  refine ⟨?_, .closesCall closes c (kept ▸ calls) ?_ ?_ ?_ ?_⟩
  · rw [frame] at noticed
    exact noticed
  · rw [loops, frame]
  · rw [assigned, frame]
    exact length
  · rw [dispatches, frame]
  · rw [frame] at notes
    exact notes

theorem moves_of_finishCall {builtin : Bool} {call : PoolIndex} (h : finishCall ctx call s = .ok () s') :
    Moves ctx offset (.finishCall builtin call) s s' := by
  obtain ⟨c, s₁, h₁, h⟩ := bind_eq_ok_iff.mp h
  obtain ⟨e, -, h⟩ := site_bind_eq_ok.mp h
  exact .of_emitCall rfl ⟨s.stack, s.assigns, rfl, rfl⟩ h₁ h

theorem moves_of_getterCall {layer : UInt32} (h : getterCall layer.toNat s = .ok () s') :
    Moves ctx offset (.getterCall layer) s s' := by
  obtain ⟨site, s₁, h₁, h⟩ := bind_eq_ok_iff.mp h
  obtain ⟨length, frame₁⟩ := accessLayer_frame h₁
  obtain ⟨x, s₂, h₂, h⟩ := bind_eq_ok_iff.mp h
  have frame₂ := pop_frame h₂
  obtain ⟨c, s₃, h₃, h⟩ := bind_eq_ok_iff.mp h
  refine .of_emitCall rfl ⟨s₂.stack, s₁.assigns, ?_, length⟩ h₃ h
  rw [frame₁] at frame₂
  exact frame₂

theorem moves_of_setterCall {layer : UInt32} (h : setterCall layer.toNat s = .ok () s') :
    Moves ctx offset (.setterCall layer) s s' := by
  obtain ⟨site, s₁, h₁, h⟩ := bind_eq_ok_iff.mp h
  obtain ⟨length, frame₁⟩ := accessLayer_frame h₁
  obtain ⟨value, s₂, h₂, h⟩ := bind_eq_ok_iff.mp h
  have frame₂ := pop_frame h₂
  obtain ⟨x, s₃, h₃, h⟩ := bind_eq_ok_iff.mp h
  have frame₃ := pop_frame h₃
  obtain ⟨c, s₄, h₄, h⟩ := bind_eq_ok_iff.mp h
  refine .of_emitCall rfl ⟨s₃.stack, s₁.assigns, ?_, length⟩ h₄ h
  rw [frame₂, frame₁] at frame₃
  exact frame₃

theorem moves_of_endAssign {scope : Scope} {symbol : PoolIndex}
    (h : endAssign ctx scope symbol s = .ok () s') :
    Moves ctx offset (.endAssign scope symbol) s s' := by
  obtain ⟨name, -, h⟩ := constant_bind_eq_ok.mp h
  obtain ⟨pending, s₁, h₁, h⟩ := bind_eq_ok_iff.mp h
  split at h
  case isFalse => cases h
  case isTrue =>
    obtain ⟨value, s₂, h₂, h⟩ := bind_eq_ok_iff.mp h
    have frame₂ := pop_frame h₂
    cases emit_bind_eq_ok h
    rw [popAssign] at h₁
    cases assigns : s.assigns with
    | nil =>
        rw [assigns] at h₁
        cases h₁
    | cons a rest =>
        rw [assigns] at h₁
        cases h₁
        rw [frame₂]
        refine ⟨.of_shapes rfl, .closesAssign scope rfl pending ?_ rfl⟩
        rw [State.brackets, assigns]

theorem popDispatch_frame {kind : DispatchKind} {p : PendingDispatch}
    (h : popDispatch kind s = .ok p s') :
    s.dispatches = p :: s'.dispatches ∧ p.kind = kind ∧ s' = { s with dispatches := s'.dispatches } := by
  rw [popDispatch] at h
  cases dispatches : s.dispatches with
  | nil =>
      rw [dispatches] at h
      cases h
  | cons q rest =>
      rw [dispatches] at h
      simp only at h
      split at h
      case isTrue same =>
        cases h
        exact ⟨rfl, same, rfl⟩
      case isFalse => cases h

theorem keeps_joinAfter {T : BlockId → Prop} (after : BlockId) (result : ValueId)
    (mem : ∀ b, ctx.labels.blockAt? (offset + 1) = some b → T b) :
    Keeps T (joinAfter ctx offset after result) := by
  refine (keeps_push result).bind fun _ => ?_
  split
  case isTrue named => exact (keeps_jump (mem after named)).bind fun _ => keeps_enter after
  case isFalse => exact keeps_fail _

/-- A dispatch is closed together with the call that has its indices, if there is
one, and the access is emitted. -/
theorem Moves.closesDispatch_of_steady {i : Instruction} {kind : DispatchKind} {u v : State}
    {p : PendingDispatch} {calls : List PendingCall} (closes : i.closes? = some (.dispatch kind))
    (count : calls.length = if kind.isNary then 0 else 1)
    (popped : popDispatch kind s = .ok p u) (taken : u.calls = calls ++ v.calls)
    (frame : v = { u with calls := v.calls })
    (steady : Steady (fun b => ctx.labels.blockAt? (offset + 1) = some b ∨ s.New b) v s') :
    Moves ctx offset i s s' := by
  obtain ⟨dispatches, isKind, frame'⟩ := popDispatch_frame popped
  obtain ⟨same, -, notes, noticed⟩ := steady
  rw [← openDepths_of_brackets same] at notes
  obtain ⟨loops, kept, assigns, rest⟩ := fields_of_brackets same
  refine ⟨?_, .closesDispatch kind closes calls count p isKind ?_ ?_⟩
  · rw [frame, frame'] at noticed
    exact noticed
  · rw [State.brackets, loops, kept, assigns, rest, ← taken, dispatches, frame, frame']
  · rw [frame, frame'] at notes
    exact notes

theorem moves_of_endDispatch {i : Instruction} {kind : DispatchKind}
    (closes : i.closes? = some (.dispatch kind)) (notNary : kind.isNary = false)
    (h : endDispatch ctx offset kind s = .ok () s') : Moves ctx offset i s s' := by
  obtain ⟨p, s₁, h₁, h⟩ := bind_eq_ok_iff.mp h
  obtain ⟨c, s₂, h₂, h⟩ := bind_eq_ok_iff.mp h
  obtain ⟨calls, frame⟩ := popCall_frame h₂
  have count : [c].length = if kind.isNary then 0 else 1 := by simp [notNary]
  refine .closesDispatch_of_steady closes count h₁ calls frame ?_
  refine (keeps_pop.bind fun target => (keeps_defaultFromCall kind c target p.rhs _).bind fun result =>
    keeps_joinAfter p.after result fun b named => Or.inl named) s₂ () s' ?_ h
  rw [frame, (popDispatch_frame h₁).2.2]
  exact fun _ => Or.inr

theorem moves_of_endAccessN {access : Access} {count : UInt32}
    (h : endDispatchN ctx offset (.accessN access) count.toNat s = .ok () s') :
    Moves ctx offset (.endAccessN access count) s s' := by
  obtain ⟨p, s₁, h₁, h⟩ := bind_eq_ok_iff.mp h
  refine .closesDispatch_of_steady rfl List.length_nil h₁ rfl rfl ?_
  refine ((keeps_popN _).bind fun indices => keeps_pop.bind fun target =>
    (keeps_defaultFromStack (.accessN access) target indices p.rhs _).bind fun result =>
    keeps_joinAfter p.after result fun b named => Or.inl named) s₁ () s' ?_ h
  rw [(popDispatch_frame h₁).2.2]
  exact fun _ => Or.inr

theorem moves_of_endLoop {kind : LoopKind} (h : endLoop kind s = .ok () s') :
    Moves ctx offset (.endLoop kind) s s' := by
  obtain ⟨loop, s₁, h₁, h⟩ := bind_eq_ok_iff.mp h
  obtain ⟨rest, loops, rfl, rfl⟩ := popLoop_eq_ok h₁
  obtain ⟨_, _, h₂, h⟩ := bind_eq_ok_iff.mp h
  cases h₂
  split at h
  case isFalse => cases h
  case isTrue start =>
    cases h
    rw [Draft.atStartOf, Bool.and_eq_true, decide_eq_true_eq] at start
    refine ⟨.of_shapes rfl, .closesLoop loop rfl start.1 ?_ rfl⟩
    rw [State.brackets, loops]

/-- What lowering an instruction does to the brackets. -/
theorem moves_of_lower {i : Instruction} (h : lower ctx offset i s = .ok () s') :
    Moves ctx offset i s s' := by
  have aims : ∀ {i : Instruction} {l : Label} {T : BlockId → Prop} {s s' : State} {b : BlockId},
      i.targets ctx.pool = .ok [l] → (∀ b, i.Aims ctx b → T b) → ctx.target l s = .ok b s' → T b :=
    fun targets all found => all _ ⟨_, targets, _, List.mem_cons_self, block_of_target found⟩
  cases i with
  | load literal =>
      exact .of_keeps h rfl rfl rfl fun _ => (keeps_checkLiteral literal).bind fun _ =>
        (keeps_pushOp _).bind fun _ => .pure _
  | getVar symbol missingOk =>
      exact .of_keeps h rfl rfl rfl fun _ => (keeps_constant _).bind fun _ =>
        (keeps_pushOp _).bind fun _ => .pure _
  | getDots symbol missingOk =>
      exact .of_keeps h rfl rfl rfl fun _ => (keeps_constant _).bind fun _ =>
        (keeps_pushOp _).bind fun _ => .pure _
  | setVar scope symbol =>
      exact .of_keeps h rfl rfl rfl fun _ => (keeps_constant _).bind fun _ =>
        (keeps_peekNth 0).bind fun _ => (keeps_emit _).bind fun _ => .pure _
  | pop => exact .of_keeps h rfl rfl rfl fun _ => keeps_pop.bind fun _ => .pure _
  | dup => exact .of_keeps h rfl rfl rfl fun _ => (keeps_peekNth 0).bind fun _ => keeps_push _
  | dup2nd => exact .of_keeps h rfl rfl rfl fun _ => (keeps_peekNth 1).bind fun _ => keeps_push _
  | swap => exact .of_keeps h rfl rfl rfl fun _ => keeps_swap
  | setLoopVal =>
      exact .of_keeps h rfl rfl rfl fun _ => (keeps_popN 2).bind fun _ =>
        (keeps_pushOp _).bind fun _ => .pure _
  | setVisible visible =>
      exact .of_keeps h rfl rfl rfl fun _ => (keeps_emit _).bind fun _ => .pure _
  | goto label =>
      exact .of_keeps h rfl rfl rfl fun all => (keeps_target label).bind_of_ok fun _ found =>
        keeps_jump (aims rfl all found)
  | branchIfNot call label =>
      exact .of_keeps h rfl rfl rfl fun all => keeps_pop.bind fun _ => (keeps_site call).bind fun _ =>
        (keeps_emit _).bind fun _ => (keeps_target label).bind_of_ok fun _ found =>
        keeps_branchUnless _ (aims rfl all found)
  | ret => exact .of_keeps h rfl rfl rfl fun _ => keeps_pop.bind fun _ => keeps_terminate rfl
  | returnJump => exact .of_keeps h rfl rfl rfl fun _ => keeps_pop.bind fun _ => keeps_terminate rfl
  | switch call names chrLabels numLabels => exact .of_keeps h rfl rfl rfl keeps_switch
  | logicFirst connective call label =>
      exact .of_keeps h rfl rfl rfl fun all => keeps_pop.bind fun _ => (keeps_site call).bind fun _ =>
        (keeps_pushOp _).bind fun _ => (keeps_emit _).bind fun _ =>
        (keeps_target label).bind_of_ok fun _ found => keeps_branchIf _ (aims rfl all found)
  | logicSecond connective call =>
      exact .of_keeps h rfl rfl rfl fun _ => keeps_pop.bind fun _ => keeps_pop.bind fun _ =>
        (keeps_site call).bind fun _ => (keeps_emit _).bind fun _ =>
        (keeps_pushOp _).bind fun _ => .pure _
  | startLoop endLabel => exact moves_of_startLoop h
  | startFor call symbol endLabel => exact moves_of_startFor h
  | stepFor => exact moves_of_stepFor h
  | endLoop kind => exact moves_of_endLoop h
  | leaveLoop exit => exact moves_of_leaveLoop h
  | getFun lookup symbol => exact moves_of_startCall h
  | getBuiltin internal symbol => exact moves_of_startBuiltin h
  | checkFun => exact moves_of_startValueCall h
  | makePromise code =>
      obtain ⟨unit, -, h⟩ := constant_bind_eq_ok.mp h
      exact moves_of_addOpArg rfl rfl rfl h
  | doMissing =>
      refine .of_updateCall rfl rfl rfl rfl rfl h fun changed => ?_
      cases changed
      exact addArg_grown _ _
  | doDots =>
      refine .of_updateCall rfl rfl rfl rfl rfl h fun changed => ?_
      cases changed
      exact addArg_grown _ _
  | setTag symbol =>
      obtain ⟨name, -, h⟩ := constant_bind_eq_ok.mp h
      refine .of_updateCall rfl rfl rfl rfl rfl h fun changed => ?_
      exact (List.append_nil _).symm ▸ nameLast_grown changed
  | pushArg =>
      obtain ⟨v, s₁, h₁, h⟩ := bind_eq_ok_iff.mp h
      obtain ⟨d, ⟨items⟩, loops, calls, assigns, dispatches, notes, live⟩ := s
      cases items with
      | nil => cases h₁
      | cons w rest =>
          cases h₁
          refine .of_updateCall (f := fun c => .ok (c.addValue v)) rfl rfl ?_ ?_ ?_ h fun changed => ?_
          · rfl
          · rfl
          · rfl
          · cases changed
            exact addArg_grown _ _
  | pushLiteral literal =>
      obtain ⟨_, s₁, h₁, h⟩ := bind_eq_ok_iff.mp h
      have same : s₁ = s := ensures_checkLiteral literal (P := (· = s)) s _ s₁ rfl h₁
      rw [same] at h
      exact moves_of_addOpArg rfl rfl rfl h
  | finishCall builtin call => exact moves_of_finishCall h
  | callSpecial call =>
      exact .of_keeps h rfl rfl rfl fun _ => (keeps_site call).bind fun _ =>
        (keeps_pushOp _).bind fun _ => .pure _
  | makeClosure code =>
      exact .of_keeps h rfl rfl rfl fun _ => (keeps_constant _).bind fun _ =>
        (keeps_pushOp _).bind fun _ => .pure _
  | binary op call =>
      exact .of_keeps h rfl rfl rfl fun _ => keeps_pop.bind fun _ => keeps_pop.bind fun _ =>
        (keeps_site call).bind fun _ => (keeps_pushOp _).bind fun _ => .pure _
  | unary op call =>
      exact .of_keeps h rfl rfl rfl fun _ => keeps_pop.bind fun _ => (keeps_site call).bind fun _ =>
        (keeps_pushOp _).bind fun _ => .pure _
  | isType test =>
      exact .of_keeps h rfl rfl rfl fun _ => keeps_pop.bind fun _ =>
        (keeps_pushOp _).bind fun _ => .pure _
  | startAssign scope symbol call => exact moves_of_startAssign h
  | endAssign scope symbol => exact moves_of_endAssign h
  | getterCall layer => exact moves_of_getterCall h
  | setterCall layer => exact moves_of_setterCall h
  | startDispatch kind call after => exact moves_of_startDispatch h
  | endAccess access => exact moves_of_endDispatch rfl rfl h
  | endCombine => exact moves_of_endDispatch rfl rfl h
  | endAccessN access count => exact moves_of_endAccessN h
  | dollar call symbol => cases h
  | dollarAssign call symbol => cases h
  | baseGuard call label => cases h
  | hint hint => exact .of_keeps h rfl rfl rfl fun _ => .pure _

end StackLift.Lowering
