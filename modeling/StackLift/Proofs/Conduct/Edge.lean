import StackLift.Proofs.Conduct.Basic

/-!
How the pass conducts itself at the edges of blocks. Where the invariant of the pass
holds, a state is in order, and the invariant gives what the actions ask for: the block
under construction is open, the blocks that are set aside are blank, and everything on
the stack and in the shape of a merge is a value of the language.
-/

namespace StackLift

namespace Draft

variable {d d' : Draft} {b : BlockId}

theorem singleEdges (sound : d.Sound) (reached : d.Reached) : d.SingleEdges := by
  intro b direct block live
  obtain ⟨-, few⟩ := sound.direct live direct
  have notEntry : b ≠ d.graph.entry := fun e => sound.entry_notDirect (e ▸ direct)
  have one : block.preds ≠ [] → block.preds.length = 1 := by
    intro some
    have pos := List.length_pos_iff.mpr some
    omega
  refine ⟨few, fun come => one fun none => ?_⟩
  rcases come with rfl | last
  · obtain ⟨block', live', some⟩ := reached.cursor.resolve_left notEntry
    rw [live] at live'
    cases live'
    exact some none
  · simp [(reached.bare live notEntry none).terminator] at last

/-- An end gives each new direct block among its targets its edge. -/
theorem SingleEdges.closed {t : Terminator} {slots : List ValueId} (edges : d.SingleEdges)
    (can : d.CanEnd t slots) : (d.closed t).SingleEdges := by
  intro b direct block live
  rw [block?_closed] at live
  obtain ⟨before, hbefore, rfl⟩ := Option.map_eq_some_iff.mp live
  obtain ⟨few, one⟩ := edges b direct before hbefore
  simp only [endBlock, can.apart.count, List.length_append, List.length_replicate]
  by_cases target : b ∈ t.successors
  · have none : before.preds = [] := (can.targets b target).direct direct hbefore
    rw [if_pos target, none]
    exact ⟨Nat.le_refl _, fun _ => rfl⟩
  · rw [if_neg target, Nat.add_zero]
    refine ⟨few, fun come => one ?_⟩
    rcases come with here | last
    · exact Or.inl here
    · split at last
      · rename_i here
        exact Or.inl here
      · exact Or.inr last

/-- Wiring an edge to a merge leaves direct blocks alone. -/
theorem SingleEdges.wired {source : BlockId} {slots : List ValueId} (edges : d.SingleEdges)
    (wired : d.Wired source b slots d') (merge : d.Merge b) : d'.SingleEdges := by
  intro c direct block live
  rw [wired.direct] at direct
  have other : c ≠ b := fun e => merge.notDirect (e ▸ direct)
  rw [wired.block, if_neg other] at live
  rw [wired.cursor]
  exact edges c direct block live

theorem HasType.wired {source : BlockId} {slots : List ValueId} {v : ValueId} {type : ValueType}
    (has : d.HasType v type) (wired : d.Wired source b slots d') : d'.HasType v type := by
  obtain ⟨info, get, is⟩ := has
  refine ⟨info, ?_, is⟩
  rw [wired.values, List.getElem?_append_left (List.getElem?_eq_some_iff.mp get).1, get]

theorem HasType.closed {v : ValueId} {type : ValueType} (has : d.HasType v type) (t : Terminator) :
    (d.closed t).HasType v type := by
  rw [HasType, Draft.closed, values_addEnd]
  exact has

theorem map_typeOf {vs : List ValueId} (typed : ∀ v ∈ vs, d.HasType v .value) :
    vs.map d.graph.typeOf = List.replicate vs.length .value :=
  List.map_eq_replicate_iff.mpr fun v mem => (typed v mem).typeOf

/-- A merge to which an edge may be wired. -/
structure Wirable (d : Draft) (b : BlockId) : Prop where
  merge : d.Merge b
  distinct : ∀ {block : Block}, d.graph.block? b = some block → (block.phis.map (·.value)).Nodup
  shape : ∀ v ∈ (d.shape? b).getD [], d.HasType v .value

/-- Stacks of values of the language can differ in their lengths only. -/
theorem Wirable.expected {source : BlockId} {slots : List ValueId} {f : Fault}
    (wirable : d.Wirable b) (typed : ∀ v ∈ slots, d.HasType v .value)
    (h : d.wire source b slots = .error f) : f.Expected False := by
  have phiTypes := wirable.shape
  obtain ⟨-, phis, shaped, differ, rfl⟩ := (wire_eq_error_iff (fun v mem => (typed v mem).lt)
    fun phis shaped v mem => (phiTypes v (by simpa [shaped] using mem)).lt).mp h
  rw [shaped, Option.getD_some] at phiTypes
  rw [map_typeOf phiTypes, map_typeOf typed] at differ ⊢
  refine ⟨fun same => differ ?_, fun type mem => ?_⟩
  · rw [List.length_replicate, List.length_replicate] at same
    rw [same]
  · rcases List.mem_append.mp mem with mem | mem
    · exact (List.mem_replicate.mp mem).2
    · exact (List.mem_replicate.mp mem).2

end Draft

/-- What a label may fail with is among the faults. -/
def Faults.Covers (F : Faults) (ctx : Context) (l : Label) : Prop :=
  ∀ f, ctx.labels.block l = .error f → F.Has f

namespace Lowering

variable {α β : Type} {ctx : Context} {carry : Carry} {base : Draft} {aside : BlockId → Prop}
  {phase : Phase} {hand : List (ValueId × ValueType)} {F : Faults} {R : β → State → Prop}
  {s s' : State}

/-! ### In the block under construction -/

theorem Inv.inOrder (inv : Inv ctx carry base aside phase hand s) : s.InOrder :=
  ⟨fun v mem => (inv.stack v mem).type, Draft.singleEdges inv.sound inv.reached⟩

section

variable (inv : Inv ctx carry base aside phase hand s)

include inv

theorem Inv.conducts_target {l : Label} (covers : F.Covers ctx l) :
    Conducts F (ctx.target l) s fun b s' =>
      s' = s ∧ ∃ offset, ctx.labels.blockAt? offset = some b := by
  have still : Still (ctx.target l) := by
    intro s
    rw [Context.target]
    cases ctx.labels.block l <;> rfl
  refine .still inv.inOrder still (fun f s' h => covers f ?_) fun h => ?_
  · rw [Context.target] at h
    cases found : ctx.labels.block l with
    | ok b =>
        rw [found] at h
        cases h
    | error fault =>
        rw [found] at h
        cases h
        rfl
  · obtain ⟨found, rfl⟩ := ofExcept_eq_ok h
    exact ⟨rfl, named_of_block found⟩

theorem Inv.after_target {l : Label} {g : BlockId → Lowering β} (covers : F.Covers ctx l)
    (rest : ∀ b, (∃ offset, ctx.labels.blockAt? offset = some b) → Conducts F (g b) s R) :
    Conducts F (ctx.target l >>= g) s R := by
  refine (inv.conducts_target covers).bind fun b s' found => ?_
  obtain ⟨rfl, named⟩ := found
  exact rest b named

theorem Inv.after_pop {f : ValueId → Lowering β}
    (rest : ∀ v s', Inv ctx carry base aside phase ((v, .value) :: hand) s' →
      Conducts F (f v) s' R) : Conducts F (pop >>= f) s R :=
  (Conducts.of_ensures quiet_pop ensures_pop inv.inOrder inv).bind rest

theorem Inv.after_peekNth {f : ValueId → Lowering β} (n : Nat)
    (rest : ∀ v s', Inv ctx carry base aside phase ((v, .value) :: hand) s' →
      Conducts F (f v) s' R) : Conducts F (peekNth n >>= f) s R :=
  (Conducts.of_ensures (quiet_peekNth n) (ensures_peekNth n) inv.inOrder inv).bind rest

theorem Inv.conducts_push {v : ValueId} (mem : (v, .value) ∈ hand) :
    Conducts F (push v) s fun _ => Inv ctx carry base aside phase hand :=
  .of_ensures (quiet_push v) (ensures_push mem) inv.inOrder inv

theorem Inv.after_constant {x : Except BytecodeError α} {g : α → Lowering β}
    (rest : ∀ a s', Inv ctx carry base aside phase hand s' → Conducts F (g a) s' R) :
    Conducts F (constant x >>= g) s R :=
  (Conducts.of_ensures (quiet_constant x) (.constant x) inv.inOrder inv).bind rest

theorem Inv.after_site {call : PoolIndex} {g : CallSite → Lowering β}
    (rest : ∀ a s', Inv ctx carry base aside phase hand s' → Conducts F (g a) s' R) :
    Conducts F (ctx.site call >>= g) s R :=
  (Conducts.of_ensures (quiet_site ctx call) (ensures_site call) inv.inOrder inv).bind rest

theorem Inv.conducts_emit {op : Op} (ready : phase ≠ .ended)
    (inputs : ∀ e ∈ op.inputs, e ∈ phase.reads carry hand) :
    Conducts F (Lowering.emit op) s fun v =>
      Inv ctx carry base aside phase ((v, op.resultType) :: hand) := by
  refine .act (.emit op) inv.inOrder trivial (fun f s' h => ?_) fun h => inv.emit ready h inputs
  cases h.symm.trans (emit_of_open (inv.phase.isOpen ready) op)

theorem Inv.after_emit {op : Op} {f : ValueId → Lowering β} (ready : phase ≠ .ended)
    (inputs : ∀ e ∈ op.inputs, e ∈ phase.reads carry hand)
    (rest : ∀ v s', Inv ctx carry base aside phase ((v, op.resultType) :: hand) s' →
      Conducts F (f v) s' R) : Conducts F (Lowering.emit op >>= f) s R :=
  (inv.conducts_emit ready inputs).bind rest

/-- An operation on values that can be read gives a value. -/
theorem Inv.conducts_emitValue {op : Op} (ready : phase ≠ .ended)
    (values : op.inputs = op.operands.map (·, .value)) (type : op.resultType = .value)
    (reads : ∀ w ∈ op.operands, (w, .value) ∈ phase.reads carry hand) :
    Conducts F (Lowering.emit op) s fun v s' =>
      Inv ctx carry base aside phase ((v, .value) :: hand) s' := by
  rw [← type]
  refine inv.conducts_emit ready fun e mem => ?_
  rw [values] at mem
  obtain ⟨w, hw, rfl⟩ := List.mem_map.mp mem
  exact type ▸ reads w hw

theorem Inv.after_pushOp {op : Op} {f : ValueId → Lowering β} (ready : phase ≠ .ended)
    (inputs : ∀ e ∈ op.inputs, e ∈ phase.reads carry hand) (type : op.resultType = .value)
    (rest : ∀ v s', Inv ctx carry base aside phase ((v, .value) :: hand) s' →
      Conducts F (f v) s' R) : Conducts F (pushOp op >>= f) s R := by
  refine Conducts.bind (inv.after_emit ready inputs fun v s₁ inv₁ => ?_) rest
  rw [type] at inv₁
  exact (inv₁.conducts_push List.mem_cons_self).bind fun _ s₂ inv₂ => .pure inv₂.inOrder inv₂

end

/-! ### Ending a block -/

theorem conducts_wireEach {targets : List BlockId} (inOrder : s.InOrder)
    (few : (s.draft.mergesOf targets).length ≤ 1)
    (wirable : ∀ b ∈ s.draft.mergesOf targets, s.draft.Wirable b) :
    Conducts F (wireEach targets) s fun _ _ => True := by
  induction targets generalizing s with
  | nil => exact .pure inOrder trivial
  | cons b rest ih =>
      have slots : ∀ v ∈ s.stack.slots, s.draft.HasType v .value := fun v mem =>
        inOrder.stack v (List.mem_reverse.mp mem)
      by_cases direct : b ∈ s.draft.direct
      · -- an edge to a direct block needs no wiring
        have isDirect : s.draft.isDirect b = true := List.elem_eq_true_of_mem direct
        have same : (Action.wire b).run s = .ok () s := by
          simp only [Action.run, Draft.wire, isDirect, if_true]
        have skip : s.draft.mergesOf (b :: rest) = s.draft.mergesOf rest := by
          simp [Draft.mergesOf, isDirect]
        rw [skip] at few wirable
        refine Conducts.bind (.act _ inOrder trivial ?_ id) ?_
        · intro f s' h
          rw [same] at h
          cases h
        · intro _ s' h
          rw [same] at h
          cases h
          exact ih inOrder few wirable
      · have isDirect : s.draft.isDirect b = false := by simpa [Draft.isDirect] using direct
        have split : s.draft.mergesOf (b :: rest) = b :: s.draft.mergesOf rest := by
          simp [Draft.mergesOf, isDirect]
        rw [split] at few wirable
        have here := wirable b List.mem_cons_self
        refine Conducts.bind (.act _ inOrder trivial ?_ id) ?_
        · intro f s' h
          simp only [Action.run] at h
          split at h
          · cases h
          · rename_i failed
            cases h
            exact F.expected (here.expected slots failed)
        · intro _ s' h
          simp only [Action.run] at h
          split at h
          · rename_i d' ok
            cases h
            have wired := Draft.wired_of_wire here.merge here.distinct
              (fun v mem => (slots v mem).lt) ok
            have none : d'.mergesOf rest = [] := by
              rw [Draft.mergesOf, List.filter_congr (q := fun c => !s.draft.isDirect c)
                fun c _ => by rw [Draft.isDirect, wired.direct]; rfl]
              rw [List.length_cons] at few
              exact List.eq_nil_of_length_eq_zero (by rw [← Draft.mergesOf]; omega)
            refine ih ⟨fun v mem => (inOrder.stack v mem).wired wired,
              inOrder.edges.wired wired here.merge⟩ ?_ ?_
            · simp [none]
            · simp [none]
          · cases h

theorem Inv.conducts_terminate (inv : Inv ctx carry base aside phase hand s)
    (ready : phase ≠ .ended) {t : Terminator} (inputs : ∀ e ∈ t.inputs, e ∈ phase.reads carry hand)
    (apart : t.successors.Nodup) (few : (s.draft.mergesOf t.successors).length ≤ 1)
    (targets : ∀ b ∈ t.successors, s.draft.Joint b ∨ s.draft.Untouched b)
    (next : ∀ b ∈ t.successors, b ∉ s.draft.direct → ∀ {phi next : ValueId},
      s.draft.loopIndices.lookup b = some (phi, next) → (next, .index) ∈ phase.reads carry hand) :
    Conducts F (Lowering.terminate t) s fun _ => Left ctx carry base aside hand t s := by
  have can := inv.canEnd ready apart few targets
  have conducts : Conducts F (Lowering.terminate t) s fun _ _ => True := by
    have closes : (Action.close t).run s = .ok () { s with draft := s.draft.closed t } := by
      have ends := Graph.setTerminator_eq_ok_iff (t := t) |>.mpr ⟨can.isOpen.unended, rfl⟩
      simp only [Action.run, ends]
      rfl
    rw [terminate_eq]
    refine Conducts.bind (.act (.close t) inv.inOrder (fun b mem direct => ?_) ?_ id) ?_
    · refine ⟨by rw [apart.count, if_pos mem], fun block live => ?_⟩
      exact (can.targets b mem).direct direct live
    · intro f s' h
      cases h.symm.trans closes
    · intro _ s' h
      cases h.symm.trans closes
      refine conducts_wireEach ⟨fun v mem => (inv.stack v mem).type.closed t,
        inv.inOrder.edges.closed can⟩ few fun b mem => ?_
      refine ⟨(can.merge mem).closed t, fun live => ?_, fun v mem => ?_⟩
      · rw [Draft.block?_closed] at live
        obtain ⟨before, hbefore, rfl⟩ := Option.map_eq_some_iff.mp live
        have distinct := inv.sound.distinct hbefore
        exact distinct
      · have mem : v ∈ (s.draft.shape? b).getD [] := mem
        cases shaped : s.draft.shape? b with
        | none =>
            rw [shaped] at mem
            exact absurd mem List.not_mem_nil
        | some phis =>
            rw [shaped] at mem
            exact (inv.sound.slots shaped v mem).closed t
  exact ⟨conducts.performs, conducts.fault, inv.terminate ready inputs apart few targets next⟩

theorem Inv.conducts_jump (inv : Inv ctx carry base aside phase hand s) (ready : phase ≠ .ended)
    {b : BlockId} (joint : s.draft.Joint b)
    (next : ∀ {phi next : ValueId},
      s.draft.loopIndices.lookup b = some (phi, next) → (next, .index) ∈ phase.reads carry hand) :
    Conducts F (Lowering.jump b) s fun _ => Left ctx carry base aside hand (.goto b) s := by
  refine (Conducts.quiet inv.inOrder (quiet_noteEdge b) inv.noteEdge).bind fun _ s₁ noted => ?_
  obtain ⟨inv₁, frame⟩ := noted
  rw [frame] at inv₁ ⊢
  refine (inv₁.conducts_terminate (t := .goto b) ready (fun e mem => absurd mem List.not_mem_nil)
    (by simp [Terminator.successors]) (List.length_filter_le _ _)
    (fun c mem => Or.inl (List.mem_singleton.mp mem ▸ joint))
    fun c mem _ => List.mem_singleton.mp mem ▸ next).imp fun _ s' left => ?_
  exact ⟨left.inv, left.frame, left.can, left.ended⟩

/-- A jump to a merge that has no index. -/
theorem Inv.conducts_jumpPlain (inv : Inv ctx carry base aside phase hand s)
    (ready : phase ≠ .ended) {b : BlockId} (plain : s.draft.Plain b) :
    Conducts F (Lowering.jump b) s fun _ => Left ctx carry base aside hand (.goto b) s := by
  refine inv.conducts_jump ready plain.toJoint fun registered => ?_
  rw [plain.unindexed] at registered
  cases registered

/-- A branch has at least one target that is a new direct block. -/
theorem Inv.conducts_branch (inv : Inv ctx carry base aside phase hand s) (ready : phase ≠ .ended)
    {cond : ValueId} {yes no : BlockId} (test : (cond, .test) ∈ phase.reads carry hand)
    (apart : yes ≠ no)
    (targets : s.draft.Untouched yes ∧ (s.draft.Plain no ∨ s.draft.Untouched no) ∨
      s.draft.Plain yes ∧ s.draft.Untouched no) :
    Conducts F (Lowering.branch cond yes no) s fun _ =>
      Left ctx carry base aside hand (.branch cond yes no) s := by
  refine (Conducts.quiet inv.inOrder (quiet_noteEdge yes) inv.noteEdge).bind fun _ s₁ noted => ?_
  obtain ⟨inv₁, frame₁⟩ := noted
  refine (Conducts.quiet inv₁.inOrder (quiet_noteEdge no) inv₁.noteEdge).bind fun _ s₂ noted => ?_
  obtain ⟨inv₂, frame₂⟩ := noted
  rw [frame₁] at frame₂
  rw [frame₂] at inv₂ ⊢
  have joints : ∀ b ∈ [yes, no], s.draft.Plain b ∨ s.draft.Untouched b := by
    intro b mem
    rcases List.mem_cons.mp mem with rfl | mem
    · exact targets.elim (fun h => Or.inr h.1) (fun h => Or.inl h.1)
    · obtain rfl := List.mem_singleton.mp mem
      exact targets.elim (·.2) (fun h => Or.inr h.2)
  have reads : ∀ e ∈ (Terminator.branch cond yes no).inputs, e ∈ phase.reads carry hand := by
    intro e mem
    rw [List.mem_singleton.mp mem]
    exact test
  have next : ∀ b ∈ [yes, no], b ∉ s.draft.direct → ∀ {phi next : ValueId},
      s.draft.loopIndices.lookup b = some (phi, next) →
        (next, .index) ∈ phase.reads carry hand := by
    intro b mem notDirect phi next registered
    rcases joints b mem with plain | untouched
    · rw [plain.unindexed] at registered
      cases registered
    · exact absurd untouched.mem notDirect
  refine (inv₂.conducts_terminate ready reads (by simpa [Terminator.successors] using apart)
    (Draft.length_mergesOf_pair (targets.imp (·.1.mem) (·.2.mem)))
    (fun b mem => (joints b mem).imp (·.toJoint) id) next).imp fun _ s' left => ?_
  exact ⟨left.inv, left.frame, left.can, left.ended⟩

/-! ### Going on in a block -/

theorem Inv.conducts_moveTo (inv : Inv ctx carry base aside .ended hand s) {b : BlockId}
    (set : aside b)
    (come : if b ∈ s.draft.direct then s.draft.HasPred b else (s.draft.shape? b).isSome) :
    Conducts F (Action.moveTo b).run s fun _ s' =>
      s' = { s with draft := s.draft.moveTo b } := by
  obtain ⟨blank, other⟩ := inv.aside set
  refine .act (.moveTo b) inv.inOrder ⟨blank, other, inv.phase, come⟩ (fun f s' h => ?_) fun h => ?_
  · cases h
  · cases h
    rfl

/-- The state stays in order when the pass goes on in a block that was set aside. -/
theorem Inv.inOrder_moveTo (inv : Inv ctx carry base aside .ended hand s) {b : BlockId}
    (set : aside b) (hasPred : s.draft.HasPred b) :
    State.InOrder { s with draft := s.draft.moveTo b } := by
  obtain ⟨blank, other⟩ := inv.aside set
  have act : Draft.Act carry s.draft (s.draft.moveTo b) := .moveTo inv.phase blank hasPred
  exact ⟨inv.inOrder.stack,
    Draft.singleEdges (act.sound inv.sound) (act.reached inv.sound inv.reached)⟩

/-- A direct block starts with what was left in the block that was ended by an edge to it, also if
other blocks have been built since. -/
theorem Left.conducts_resume {s₁ : State} {t : Terminator}
    (left : Left ctx carry base aside hand t s s') {b : BlockId} (mem : b ∈ t.successors)
    (untouched : s.draft.Untouched b) {aside₁ : BlockId → Prop}
    {hand₁ : List (ValueId × ValueType)} (inv₁ : Inv ctx carry base aside₁ .ended hand₁ s₁)
    (grows : s'.draft.Grows s₁.draft) (stack : s₁.stack = s'.stack) (set : aside₁ b) :
    Conducts F (enter b) s₁ fun _ s₂ =>
      Inv ctx carry base (fun c => aside₁ c ∧ c ≠ b) .running hand s₂ ∧
        s₂ = { s₁ with draft := s₁.draft.moveTo b, live := true } := by
  have conducts : Conducts F (enter b) s₁ fun _ _ => True := by
    obtain ⟨block, live⟩ := Option.isSome_iff_exists.mp untouched.live
    have direct := ((left.grows.trans grows).direct live).mpr untouched.mem
    obtain ⟨target, hb, source⟩ := (left.edge mem).mono grows
    have hasPred : s₁.draft.HasPred b := ⟨target, hb, List.ne_nil_of_mem source⟩
    rw [enter_eq]
    refine (Conducts.quiet inv₁.inOrder quiet_current id).bind fun _ _ h => ?_
    cases h
    rw [if_pos (show s₁.draft.isDirect b = true from List.elem_eq_true_of_mem direct)]
    refine (inv₁.conducts_moveTo set (by rwa [if_pos direct])).bind fun _ s₂ moved => ?_
    subst moved
    exact .quiet (inv₁.inOrder_moveTo set hasPred) (quiet_update fun _ => rfl) fun _ => trivial
  exact ⟨conducts.performs, conducts.fault, left.resume mem untouched inv₁ grows stack set⟩

theorem Left.conducts_enterDirect {t : Terminator} (left : Left ctx carry base aside hand t s s')
    {b : BlockId} (mem : b ∈ t.successors) (set : aside b) (untouched : s.draft.Untouched b) :
    Conducts F (enter b) s' fun _ s₂ =>
      Inv ctx carry base (fun c => aside c ∧ c ≠ b) .running hand s₂ ∧
        s₂ = { s' with draft := s'.draft.moveTo b, live := true } :=
  left.conducts_resume mem untouched left.inv (.refl _) rfl set

/-- A merge is entered once it has its shape. -/
theorem Inv.conducts_enterMerge (inv : Inv ctx carry base aside .ended hand s) {b : BlockId}
    (set : aside b) (merge : b ∉ s.draft.direct) (shaped : (s.draft.shape? b).isSome) :
    Conducts F (enter b) s fun _ s' => enter b s = .ok () s' := by
  have isDirect : s.draft.isDirect b = false := by simpa [Draft.isDirect] using merge
  obtain ⟨phis, shape⟩ := Option.isSome_iff_exists.mp shaped
  have hasPred := inv.reached.shaped shape (inv.ne_entry_of_aside set)
  have conducts : Conducts F (enter b) s fun _ _ => True := by
    rw [enter_eq]
    refine (Conducts.quiet inv.inOrder quiet_current id).bind fun _ _ h => ?_
    cases h
    rw [if_neg (by simp [isDirect]), shape]
    refine (inv.conducts_moveTo set (by rwa [if_neg merge])).bind fun _ s' moved => ?_
    subst moved
    exact .quiet (inv.inOrder_moveTo set hasPred) (quiet_update fun _ => rfl) fun _ => trivial
  exact ⟨conducts.performs, conducts.fault, id⟩

/-- After a jump to a merge that no code has been built in, the pass goes on there. -/
theorem Left.conducts_enterMerge {b : BlockId}
    (left : Left ctx carry base aside hand (.goto b) s s') (set : aside b)
    (plain : s.draft.Plain b) : Conducts F (enter b) s' fun _ s₂ =>
      Inv ctx carry base (fun c => aside c ∧ c ≠ b) .running [] s₂ ∧ s₂.draft.Plain b ∧
        s₂.draft.cursor = b := by
  have plain₁ := left.plain plain
  obtain ⟨phis, shape, -⟩ := left.exists_shape List.mem_cons_self plain.merge.notDirect
  refine (left.inv.conducts_enterMerge set plain₁.merge.notDirect (by simp [shape])).imp
    fun _ s₂ h₂ => ?_
  obtain ⟨inv₂, phis, -, rfl⟩ := left.inv.enterMerge set plain₁.toJoint h₂
  exact ⟨inv₂, ⟨plain₁.toJoint.moveTo b, plain₁.unindexed⟩, rfl⟩

theorem Inv.conducts_newDirect (inv : Inv ctx carry base aside phase hand s) :
    Conducts F Lowering.newDirect s fun b s' => Lowering.newDirect s = .ok b s' := by
  refine .act .newDirect inv.inOrder trivial (fun f s' h => ?_) id
  cases h

theorem Inv.conducts_newMerge (inv : Inv ctx carry base aside phase hand s) :
    Conducts F Lowering.newMerge s fun b s' => Lowering.newMerge s = .ok b s' := by
  refine .act .newMerge inv.inOrder trivial (fun f s' h => ?_) id
  cases h

/-- A branch to a label ends the block, and the pass goes on in a new direct one. -/
theorem Inv.conducts_branchOn (inv : Inv ctx carry base aside phase hand s)
    (ready : phase ≠ .ended) {target : BlockId}
    (named : ∃ offset, ctx.labels.blockAt? offset = some target) (sense : Bool) {cond : ValueId}
    (test : (cond, .test) ∈ phase.reads carry hand) :
    Conducts F (branchOn sense cond target) s fun _ s' =>
      ∃ s₁, Left ctx carry base (fun c => c = s.draft.graph.nextBlock ∨ aside c) hand
          (.branchOn sense cond target s.draft.graph.nextBlock)
          { s with draft := s.draft.newDirect.2 } s₁ ∧
        s' = { s₁ with draft := s₁.draft.moveTo s.draft.graph.nextBlock, live := true } ∧
        Inv ctx carry base aside .running hand s' := by
  have go : ∀ {yes no : BlockId}, (yes = target ∧ no = s.draft.graph.nextBlock ∨
      yes = s.draft.graph.nextBlock ∧ no = target) →
      Conducts F (Lowering.branch cond yes no >>= fun _ => enter s.draft.graph.nextBlock)
        { s with draft := s.draft.newDirect.2 } fun _ s' =>
          ∃ s₁, Left ctx carry base (fun c => c = s.draft.graph.nextBlock ∨ aside c) hand
              (.branch cond yes no) { s with draft := s.draft.newDirect.2 } s₁ ∧
            s' = { s₁ with draft := s₁.draft.moveTo s.draft.graph.nextBlock, live := true } ∧
            Inv ctx carry base aside .running hand s' := by
    intro yes no sides
    obtain ⟨inv₁, untouched, apart, -, -⟩ := inv.newDirect rfl
    have plain := inv₁.plain_label named
    have other : target ≠ s.draft.graph.nextBlock := fun e =>
      plain.merge.notDirect (e ▸ untouched.mem)
    have targets : yes ≠ no ∧ (Draft.Untouched s.draft.newDirect.2 yes ∧
        (s.draft.newDirect.2.Plain no ∨ s.draft.newDirect.2.Untouched no) ∨
        s.draft.newDirect.2.Plain yes ∧ s.draft.newDirect.2.Untouched no) := by
      rcases sides with ⟨rfl, rfl⟩ | ⟨rfl, rfl⟩
      · exact ⟨other, Or.inr ⟨plain, untouched⟩⟩
      · exact ⟨other.symm, Or.inl ⟨untouched, Or.inl plain⟩⟩
    have succ : s.draft.graph.nextBlock ∈ (Terminator.branch cond yes no).successors := by
      rcases sides with ⟨-, rfl⟩ | ⟨rfl, -⟩
      · exact List.mem_cons_of_mem _ List.mem_cons_self
      · exact List.mem_cons_self
    refine (inv₁.conducts_branch ready test targets.1 targets.2).bind fun _ s₁ left => ?_
    refine (left.conducts_enterDirect succ (Or.inl rfl) untouched).imp fun _ s₂ entered => ?_
    obtain ⟨inv₂, frame⟩ := entered
    exact ⟨s₁, left, frame, inv₂.settle fun c set => ⟨Or.inr set, apart c set⟩⟩
  cases sense with
  | true =>
      refine inv.conducts_newDirect.bind fun next s₁ h₁ => ?_
      cases h₁
      exact go (Or.inl ⟨rfl, rfl⟩)
  | false =>
      refine inv.conducts_newDirect.bind fun next s₁ h₁ => ?_
      cases h₁
      exact go (Or.inr ⟨rfl, rfl⟩)

/-! ### Results alone -/

section

variable {t : Terminator} {b : BlockId} (inv : Inv ctx carry base aside phase hand s)
  (ready : phase ≠ .ended)

include inv ready

theorem Inv.jump (joint : s.draft.Joint b)
    (next : ∀ {phi next : ValueId},
      s.draft.loopIndices.lookup b = some (phi, next) → (next, .index) ∈ phase.reads carry hand)
    (h : Lowering.jump b s = .ok () s') : Left ctx carry base aside hand (.goto b) s s' :=
  (inv.conducts_jump ready joint next).result (F := .any) h

/-- A jump to a label. -/
theorem Inv.jumpTo (named : ∃ offset, ctx.labels.blockAt? offset = some b)
    (h : Lowering.jump b s = .ok () s') : Left ctx carry base aside hand (.goto b) s s' :=
  (inv.conducts_jumpPlain ready (inv.plain_label named)).result (F := .any) h

theorem Inv.branch {cond : ValueId} {yes no : BlockId}
    (test : (cond, .test) ∈ phase.reads carry hand) (apart : yes ≠ no)
    (targets : s.draft.Untouched yes ∧ (s.draft.Plain no ∨ s.draft.Untouched no) ∨
      s.draft.Plain yes ∧ s.draft.Untouched no)
    (h : Lowering.branch cond yes no s = .ok () s') :
    Left ctx carry base aside hand (.branch cond yes no) s s' :=
  (inv.conducts_branch ready test apart targets).result (F := .any) h

end

end Lowering

end StackLift
