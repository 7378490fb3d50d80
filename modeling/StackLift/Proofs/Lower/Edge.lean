import StackLift.Proofs.Lower.Invariant

/-!
Rules for the steps that make blocks, end the block under construction and go on
in another one.
-/

namespace StackLift

/-- A branch to `target` when a condition comes out like `sense`, and to `other`
when it does not. -/
def Terminator.branchOn (sense : Bool) (cond : ValueId) (target other : BlockId) : Terminator :=
  if sense then .branch cond target other else .branch cond other target

namespace Draft

/-- A direct block that no edge leads to yet. -/
structure Untouched (d : Draft) (b : BlockId) : Prop where
  mem : b ∈ d.direct
  live : (d.graph.block? b).isSome
  none : ∀ {block : Block}, d.graph.block? b = some block → block.preds = []

/-- A block that no edge leads to, and whose shape is not fixed. -/
def Unlinked (d : Draft) (b : BlockId) : Prop :=
  ∃ block, d.graph.block? b = some block ∧ block.preds = [] ∧ d.shape? b = none

/-- An edge leads from one block to another. -/
def Edge (d : Draft) (p b : BlockId) : Prop :=
  ∃ block, d.graph.block? b = some block ∧ p ∈ block.preds

/-- The value is in scope where a block was left. -/
def LeftIn (d : Draft) (p : BlockId) (v : ValueId) : Prop :=
  ∃ block, d.graph.block? p = some block ∧ block.terminator.isSome ∧
    d.InScope v ⟨p, block.stmts.length⟩

/-- At most one of two blocks is a merge when the other is direct. -/
theorem length_mergesOf_pair {d : Draft} {yes no : BlockId}
    (one : yes ∈ d.direct ∨ no ∈ d.direct) : (d.mergesOf [yes, no]).length ≤ 1 := by
  have isDirect : ∀ {b : BlockId}, b ∈ d.direct → d.isDirect b = true := List.elem_eq_true_of_mem
  rcases one with direct | direct
  · rw [mergesOf, List.filter_cons, isDirect direct]
    exact List.length_filter_le _ _
  · rw [mergesOf, List.filter_cons, List.filter_cons, isDirect direct]
    split <;> simp

theorem Joint.moveTo {d : Draft} {c : BlockId} (joint : d.Joint c) (b : BlockId) :
    (d.moveTo b).Joint c :=
  ⟨joint.live, ⟨joint.merge.notDirect, joint.merge.phis, joint.merge.unindexed⟩,
    fun registered => (joint.index registered).mono (grows_moveTo d b)⟩

theorem Joint.emit {d : Draft} {c : BlockId} (joint : d.Joint c) (isOpen : d.Open) (op : Op) :
    (d.emitted op).Joint c :=
  have grows : d.Grows (d.emitted op) := grows_emitted isOpen
  ⟨grows.isSome joint.live, joint.merge.emit op, fun registered =>
    (joint.index registered).mono grows⟩

theorem untouched_newDirect (d : Draft) : d.newDirect.2.Untouched d.newDirect.1 := by
  have made : d.newDirect.2.graph.block? d.newDirect.1 = some {} := by
    rw [newDirect_eq, block?_addBlock]
    exact if_pos rfl
  refine ⟨List.mem_cons_self, by rw [made]; rfl, fun live => ?_⟩
  rw [made] at live
  cases live
  rfl

theorem Untouched.newDirect {d : Draft} {b : BlockId} (untouched : d.Untouched b) :
    d.newDirect.2.Untouched b := by
  obtain ⟨block, live⟩ := Option.isSome_iff_exists.mp untouched.live
  have kept : d.newDirect.2.graph.block? b = some block := block?_addBlock_of_eq_some live
  refine ⟨List.mem_cons_of_mem _ untouched.mem, by rw [kept]; rfl, fun live' => ?_⟩
  rw [kept] at live'
  cases live'
  exact untouched.none live

theorem Edge.mono {d d' : Draft} {p b : BlockId} (edge : d.Edge p b) (grows : d.Grows d') :
    d'.Edge p b := by
  obtain ⟨block, live, mem⟩ := edge
  obtain ⟨block', live', grown⟩ := grows.block live
  exact ⟨block', live', grown.preds.subset mem⟩

theorem LeftIn.mono {d d' : Draft} {p : BlockId} {v : ValueId} (left : d.LeftIn p v)
    (grows : d.Grows d') : d'.LeftIn p v := by
  obtain ⟨block, live, ended, scope⟩ := left
  obtain ⟨block', live', grown⟩ := grows.block live
  obtain ⟨stmts, last⟩ := grown.ended ended
  exact ⟨block', live', last ▸ ended, stmts ▸ scope.mono grows⟩

/-- What is in scope at the end of the block under construction is left there. -/
theorem Scoped.leftIn {d : Draft} {v : ValueId} {type : ValueType} (here : d.Scoped v type)
    (ended : d.HasEnd d.cursor) : d.LeftIn d.cursor v := by
  obtain ⟨block, live, some⟩ := ended
  refine ⟨block, live, some, ?_⟩
  have scope := here.scope
  rwa [point, stmtIndex_eq live] at scope

/-- A direct block starts with what was left in its source. -/
theorem LeftIn.inScope {d : Draft} {p b : BlockId} {v : ValueId} (left : d.LeftIn p v)
    (sound : d.Sound) (mem : b ∈ d.direct) (edge : d.Edge p b) (n : Nat) :
    d.InScope v ⟨b, n⟩ := by
  obtain ⟨block, live, ended, scope⟩ := left
  obtain ⟨target, hb, source⟩ := edge
  refine .inherit (.direct hb mem ?_) live ended scope
  -- the source is the only one
  obtain ⟨-, few⟩ := sound.direct hb mem
  cases preds : target.preds with
  | nil => simp [preds] at source
  | cons q rest =>
      rw [preds, List.length_cons] at few
      obtain rfl : rest = [] := List.eq_nil_of_length_eq_zero (by omega)
      rw [preds] at source
      rw [List.mem_singleton.mp source]

end Draft

/-- What is open, of each kind. -/
def State.brackets (s : State) :
    List LoopContext × List PendingCall × List PendingAssign × List PendingDispatch :=
  (s.loops, s.calls, s.assigns, s.dispatches)

namespace Lowering

variable {ctx : Context} {carry : Carry} {base : Draft} {aside : BlockId → Prop} {phase : Phase}
  {hand : List (ValueId × ValueType)}

/-! ### New blocks -/

theorem holds_addBlock {d : Draft} {direct : List BlockId} (holds : phase.Holds carry d) :
    phase.Holds carry (d.addBlock direct) := by
  have stmtIndex : ∀ {block : Block}, d.graph.block? d.cursor = some block →
      (d.addBlock direct).stmtIndex = d.stmtIndex := by
    intro block live
    have live' : (d.addBlock direct).graph.block? d.cursor = some block :=
      Draft.block?_addBlock_of_eq_some live
    rw [Draft.stmtIndex_eq live, Draft.stmtIndex_eq live']
  have isOpen : d.Open → (d.addBlock direct).Open := fun ⟨block, live, last⟩ =>
    ⟨block, Draft.block?_addBlock_of_eq_some live, last⟩
  cases phase with
  | begun =>
      obtain ⟨block, live, none⟩ := holds.1
      exact ⟨isOpen holds.1, holds.2.1, stmtIndex live ▸ holds.2.2⟩
  | running => exact isOpen holds
  | ended =>
      obtain ⟨block, live, some⟩ := holds
      exact ⟨block, Draft.block?_addBlock_of_eq_some live, some⟩

/-- A new block is blank, and it is not the one under construction. -/
theorem Inv.addBlock {s : State} (inv : Inv ctx carry base aside phase hand s)
    {direct : List BlockId} (act : Draft.Act carry s.draft (s.draft.addBlock direct))
    (others : ∀ {b : BlockId}, b ≠ s.draft.graph.nextBlock → (b ∈ direct ↔ b ∈ s.draft.direct)) :
    Inv ctx carry base (fun b => b = s.draft.graph.nextBlock ∨ aside b) phase hand
      { s with draft := s.draft.addBlock direct } := by
  have made := inv.act act (fun _ joint => ⟨joint.merge.addBlock others joint.live, rfl⟩) rfl id
    (holds_addBlock inv.phase)
  refine { made with aside := ?_ }
  rintro b (rfl | old)
  · refine ⟨⟨{}, by rw [Draft.block?_addBlock, if_pos rfl], rfl, rfl⟩, fun e => ?_⟩
    have live : (s.draft.graph.block? s.draft.cursor).isSome := by
      cases phase with
      | begun => obtain ⟨⟨_, live, -⟩, -⟩ := inv.phase; rw [live]; rfl
      | running => obtain ⟨_, live, -⟩ := inv.phase; rw [live]; rfl
      | ended => obtain ⟨_, live, -⟩ := inv.phase; rw [live]; rfl
    rw [show s.draft.cursor = s.draft.graph.nextBlock from e.symm, Draft.block?_nextBlock] at live
    cases live
  · exact made.aside old

theorem Inv.newDirect {s s' : State} {b : BlockId} (inv : Inv ctx carry base aside phase hand s)
    (h : newDirect s = .ok b s') :
    Inv ctx carry base (fun c => c = b ∨ aside c) phase hand s' ∧ s'.draft.Untouched b ∧
      (∀ c, aside c → c ≠ b) ∧ s' = { s with draft := s.draft.newDirect.2 } ∧
      ∀ {c : BlockId}, s.draft.Untouched c → s'.draft.Untouched c ∧ c ≠ b := by
  cases h
  refine ⟨inv.addBlock .newDirect Draft.others_newDirect, s.draft.untouched_newDirect, ?_, rfl, ?_⟩
  · rintro c set rfl
    obtain ⟨⟨block, live, -⟩, -⟩ := inv.aside set
    exact Draft.ne_nextBlock live rfl
  · intro c untouched
    refine ⟨untouched.newDirect, ?_⟩
    obtain ⟨block, live⟩ := Option.isSome_iff_exists.mp untouched.live
    exact Draft.ne_nextBlock live

theorem Inv.settle {s : State} {aside' : BlockId → Prop}
    (inv : Inv ctx carry base aside phase hand s) (less : ∀ c, aside' c → aside c) :
    Inv ctx carry base aside' phase hand s :=
  { inv with aside := fun set => inv.aside (less _ set) }

/-! ### Ending a block -/

theorem Inv.canEnd {s : State} (inv : Inv ctx carry base aside phase hand s)
    (ready : phase ≠ .ended) {t : Terminator} (apart : t.successors.Nodup)
    (few : (s.draft.mergesOf t.successors).length ≤ 1)
    (targets : ∀ b ∈ t.successors, s.draft.Joint b ∨ s.draft.Untouched b) :
    s.draft.CanEnd t s.stack.slots where
  isOpen := Phase.Holds.isOpen inv.phase ready
  apart := apart
  few := few
  targets := by
    intro b mem
    rcases targets b mem with joint | untouched
    · exact ⟨joint.live, fun _ => joint.merge, fun direct => absurd direct joint.merge.notDirect⟩
    · exact ⟨untouched.live, fun direct => absurd untouched.mem direct, fun _ => untouched.none⟩
  slots v mem := (inv.stack v (List.mem_reverse.mp mem)).type

/-- The block under construction is ended, and every edge is in place. -/
structure Left (ctx : Context) (carry : Carry) (base : Draft) (aside : BlockId → Prop)
    (hand : List (ValueId × ValueType)) (t : Terminator) (s s' : State) : Prop where
  inv : Inv ctx carry base aside .ended hand s'
  /-- Only the draft and the notes about edges have changed. -/
  frame : s' = { s with draft := s'.draft, edgeDepths := s'.edgeDepths }
  can : s.draft.CanEnd t s.stack.slots
  ended : s.draft.Ended t s.stack.slots s'.draft

theorem Left.grows {s s' : State} {t : Terminator} (left : Left ctx carry base aside hand t s s') :
    s.draft.Grows s'.draft :=
  Draft.grows_ended left.can left.ended

theorem Left.edge {s s' : State} {t : Terminator} (left : Left ctx carry base aside hand t s s')
    {b : BlockId} (mem : b ∈ t.successors) : s'.draft.Edge s'.draft.cursor b := by
  obtain ⟨target, hb⟩ := Option.isSome_iff_exists.mp (left.can.targets b mem).live
  refine ⟨_, by rw [left.ended.block, hb, Option.map_some], ?_⟩
  rw [Draft.preds_ended, left.can.apart.count, if_pos mem, left.ended.cursor]
  exact List.mem_append_right _ List.mem_cons_self

theorem Inv.terminate {s s' : State} {t : Terminator}
    (inv : Inv ctx carry base aside phase hand s) (ready : phase ≠ .ended)
    (inputs : ∀ e ∈ t.inputs, e ∈ phase.reads carry hand) (apart : t.successors.Nodup)
    (few : (s.draft.mergesOf t.successors).length ≤ 1)
    (targets : ∀ b ∈ t.successors, s.draft.Joint b ∨ s.draft.Untouched b)
    (next : ∀ b ∈ t.successors, b ∉ s.draft.direct → ∀ {phi next : ValueId},
      s.draft.loopIndices.lookup b = some (phi, next) → (next, .index) ∈ phase.reads carry hand)
    (h : terminate t s = .ok () s') : Left ctx carry base aside hand t s s' := by
  have can := inv.canEnd ready apart few targets
  rw [Lowering.terminate] at h
  split at h
  case h_2 => cases h
  case h_1 d' ok =>
    cases h
    have ended := can.ended inv.sound ok
    have act : Draft.Act carry s.draft d' :=
      .terminate can (fun e mem => inv.readable (inputs e mem))
        (fun v mem => (inv.stack v (List.mem_reverse.mp mem)).scope)
        (fun b mem direct _ _ registered => inv.readable (next b mem direct registered)) ok
    obtain ⟨block, live, -⟩ := can.isOpen
    have holds : Phase.ended.Holds carry d' := by
      refine ⟨_, by rw [ended.cursor, ended.block, live, Option.map_some], ?_⟩
      rw [Draft.terminator_ended, if_pos rfl]
      rfl
    exact ⟨inv.act act (fun _ joint => ⟨joint.merge.ended can ended, by rw [ended.loopIndices]⟩)
      ended.cursor (fun h => absurd rfl h) holds, rfl, can, ended⟩

theorem Inv.noteEdge {s s' : State} {b : BlockId} (inv : Inv ctx carry base aside phase hand s)
    (h : noteEdge b s = .ok () s') :
    Inv ctx carry base aside phase hand s' ∧ s' = { s with edgeDepths := s'.edgeDepths } := by
  cases h
  exact ⟨inv.notes _, rfl⟩

/-- The first edge gives a merge its shape, and every edge brings as many values. -/
theorem Left.exists_shape {s s' : State} {t : Terminator}
    (left : Left ctx carry base aside hand t s s') {b : BlockId} (mem : b ∈ t.successors)
    (merge : b ∉ s.draft.direct) :
    ∃ phis, s'.draft.shape? b = some phis ∧ phis.length = s.stack.items.length := by
  have target : b ∈ s.draft.mergesOf t.successors := Draft.mem_mergesOf.mpr ⟨mem, merge⟩
  refine ⟨_, by rw [left.ended.shape, if_pos target], ?_⟩
  simpa [OperandStack.slots] using congrArg List.length (left.ended.types b target)

theorem Left.shape?_of_notMem {s s' : State} {t : Terminator}
    (left : Left ctx carry base aside hand t s s') {b : BlockId} (notMem : b ∉ t.successors) :
    s'.draft.shape? b = s.draft.shape? b := by
  rw [left.ended.shape, if_neg fun target => notMem (Draft.mem_mergesOf.mp target).1]

/-! ### When a block can be ended -/

/-- Only the depth of the stack counts, because everything on it has one type. -/
theorem Inv.exists_terminate {s : State} {t : Terminator}
    (inv : Inv ctx carry base aside phase hand s) (ready : phase ≠ .ended)
    (few : (s.draft.mergesOf t.successors).length ≤ 1)
    (fits : ∀ b ∈ t.successors, b ∉ s.draft.direct → ∀ phis, s.draft.shape? b = some phis →
      phis.length = s.stack.items.length) :
    ∃ s', Lowering.terminate t s = .ok () s' ∧ s'.draft.direct = s.draft.direct := by
  have types : ∀ {vs : List ValueId}, (∀ v ∈ vs, s.draft.HasType v .value) →
      vs.map s.draft.graph.typeOf = List.replicate vs.length .value := fun typed =>
    List.map_eq_replicate_iff.mpr fun v mem => (typed v mem).typeOf
  have slots : ∀ v ∈ s.stack.slots, s.draft.HasType v .value := fun v mem =>
    (inv.stack v (List.mem_reverse.mp mem)).type
  have isOpen := Phase.Holds.isOpen inv.phase ready
  obtain ⟨d', ended, direct⟩ := Draft.exists_terminate isOpen.unended few
    (fun v mem => (slots v mem).lt)
    (fun b mem phis shaped => by
      obtain ⟨mem, merge⟩ := Draft.mem_mergesOf.mp mem
      refine ⟨fun v mem => (inv.sound.slots shaped v mem).lt, ?_⟩
      rw [types (inv.sound.slots shaped), fits b mem merge phis shaped, types slots,
        OperandStack.slots, List.length_reverse])
  exact ⟨{ s with draft := d' }, by rw [Lowering.terminate, ended], direct⟩

theorem Inv.exists_jump {s : State} {b : BlockId} (inv : Inv ctx carry base aside phase hand s)
    (ready : phase ≠ .ended)
    (fits : ∀ phis, s.draft.shape? b = some phis → phis.length = s.stack.items.length) :
    ∃ s', Lowering.jump b s = .ok () s' := by
  obtain ⟨s₁, noted⟩ : ∃ s₁, Lowering.noteEdge b s = .ok () s₁ := ⟨_, rfl⟩
  obtain ⟨inv₁, frame⟩ := inv.noteEdge noted
  obtain ⟨s', ended, -⟩ := inv₁.exists_terminate (t := .goto b) ready (List.length_filter_le _ _)
    (fun c mem _ => by
      rw [List.mem_singleton.mp mem, frame]
      exact fits)
  exact ⟨s', bind_eq_ok_iff.mpr ⟨(), s₁, noted, ended⟩⟩

theorem Inv.exists_branch {s : State} {yes no : BlockId}
    (inv : Inv ctx carry base aside phase hand s) (ready : phase ≠ .ended) (cond : ValueId)
    (one : yes ∈ s.draft.direct ∨ no ∈ s.draft.direct)
    (fits : ∀ b ∈ [yes, no], b ∉ s.draft.direct → ∀ phis, s.draft.shape? b = some phis →
      phis.length = s.stack.items.length) :
    ∃ s', Lowering.branch cond yes no s = .ok () s' ∧ s'.draft.direct = s.draft.direct := by
  obtain ⟨s₁, noted⟩ : ∃ s₁, Lowering.noteEdge yes s = .ok () s₁ := ⟨_, rfl⟩
  obtain ⟨inv₁, frame₁⟩ := inv.noteEdge noted
  obtain ⟨s₂, noted'⟩ : ∃ s₂, Lowering.noteEdge no s₁ = .ok () s₂ := ⟨_, rfl⟩
  obtain ⟨inv₂, frame₂⟩ := inv₁.noteEdge noted'
  rw [frame₁] at frame₂
  obtain ⟨s', ended, direct⟩ := inv₂.exists_terminate (t := .branch cond yes no) ready
    (by rw [frame₂]; exact Draft.length_mergesOf_pair one) (by rw [frame₂]; exact fits)
  refine ⟨s', bind_eq_ok_iff.mpr ⟨(), s₁, noted, bind_eq_ok_iff.mpr ⟨(), s₂, noted', ended⟩⟩, ?_⟩
  rw [direct, frame₂]

/-! ### Going on in a block -/

/-- The pass goes on in a block that was set aside, when what it has on the stack
and in hand is in scope there. -/
theorem Inv.moveTo {s : State} (inv : Inv ctx carry base aside .ended hand s) {b : BlockId}
    (set : aside b) (hasPred : s.draft.HasPred b) {stack : OperandStack}
    (scope : ∀ v ∈ stack.items, (s.draft.moveTo b).Scoped v .value)
    {hand' : List (ValueId × ValueType)} (holds : ∀ e ∈ hand', (s.draft.moveTo b).Scoped e.1 e.2) :
    Inv ctx carry base (fun c => aside c ∧ c ≠ b) .running hand'
      { s with draft := s.draft.moveTo b, stack, live := true } := by
  obtain ⟨blank, -⟩ := inv.aside set
  have act : Draft.Act carry s.draft (s.draft.moveTo b) := .moveTo inv.phase blank hasPred
  obtain ⟨block, live, stmts, last⟩ := blank
  have grows := act.grows inv.sound
  exact {
    sound := act.sound inv.sound
    reached := act.reached inv.sound inv.reached
    acts := inv.acts.step act
    phase := ⟨block, live, last⟩
    live := fun _ => rfl
    aims := by
      intro c aims
      have plain : s.draft.Plain c := inv.aims aims
      exact ⟨plain.toJoint.moveTo b, plain.unindexed⟩
    nexts := fun l mem => (inv.nexts l mem).moveTo b
    calls := fun c mem v hv => (inv.calls c mem v hv).mono grows
    rhs := fun q mem v hv => (inv.rhs q mem v hv).mono grows
    aside := by
      rintro c ⟨hc, other⟩
      obtain ⟨blank, -⟩ := inv.aside hc
      exact ⟨blank, other⟩
    carried := fun e mem => (inv.carried e mem).mono grows
    stack := scope
    hand := holds }

theorem Inv.enterDirect {s s' : State} (inv : Inv ctx carry base aside .ended hand s)
    {b p : BlockId} (set : aside b) (direct : b ∈ s.draft.direct) (edge : s.draft.Edge p b)
    (stack : ∀ v ∈ s.stack.items, s.draft.LeftIn p v)
    {hand' : List (ValueId × ValueType)} (holds : ∀ e ∈ hand', s.draft.LeftIn p e.1)
    (types : ∀ e ∈ hand', s.draft.HasType e.1 e.2) (h : enter b s = .ok () s') :
    Inv ctx carry base (fun c => aside c ∧ c ≠ b) .running hand' s' ∧
      s' = { s with draft := s.draft.moveTo b, live := true } := by
  have isDirect : s.draft.isDirect b = true := List.elem_eq_true_of_mem direct
  simp only [enter, isDirect, if_true] at h
  cases h
  have scope : ∀ {v : ValueId}, s.draft.LeftIn p v →
      (s.draft.moveTo b).InScope v (s.draft.moveTo b).point := fun left =>
    (left.inScope inv.sound direct edge _).mono (Draft.grows_moveTo _ b)
  have hasPred : s.draft.HasPred b := by
    obtain ⟨block, live, mem⟩ := edge
    exact ⟨block, live, List.ne_nil_of_mem mem⟩
  exact ⟨inv.moveTo set hasPred (fun v mem => ⟨scope (stack v mem), (inv.stack v mem).type⟩)
    (fun e mem => ⟨scope (holds e mem), types e mem⟩), rfl⟩

/-- A merge starts with its phis on the stack. -/
theorem scoped_shape {d : Draft} (sound : d.Sound) {b : BlockId} {block : Block}
    (live : d.graph.block? b = some block) {phis : List ValueId} (shape : d.shape? b = some phis)
    (starts : phis <+: block.phis.map (·.value)) : ∀ v ∈ phis, (d.moveTo b).Scoped v .value := by
  intro v mem
  have named : v ∈ block.phis.map (·.value) := starts.subset mem
  obtain ⟨p, hp, value⟩ := List.mem_map.mp named
  exact ⟨.phi live hp value, sound.slots shape v mem⟩

/-- The entry is not set aside. -/
theorem Inv.ne_entry_of_aside {s : State} (inv : Inv ctx carry base aside phase hand s)
    {b : BlockId} (set : aside b) : b ≠ s.draft.graph.entry := by
  rintro rfl
  obtain ⟨blank, other⟩ := inv.aside set
  rcases inv.sound.entry_left with here | left
  · exact other here.symm
  · exact blank.hasNoEnd left

theorem Inv.moveToMerge {s : State} (inv : Inv ctx carry base aside .ended hand s) {b : BlockId}
    (set : aside b) (merge : s.draft.Merge b) {phis : List ValueId}
    (shape : s.draft.shape? b = some phis) :
    Inv ctx carry base (fun c => aside c ∧ c ≠ b) .running []
      { s with draft := s.draft.moveTo b, stack := .ofSlots phis, live := true } := by
  have notEntry := inv.ne_entry_of_aside set
  obtain ⟨⟨block, live, -⟩, -⟩ := inv.aside set
  have starts : phis <+: block.phis.map (·.value) := by
    rw [merge.phis live, Draft.phisOf, shape]
    exact List.prefix_append _ _
  exact inv.moveTo set (inv.reached.shaped shape notEntry)
    (fun v mem => scoped_shape inv.sound live shape starts v (List.mem_reverse.mp mem))
    (fun e mem => absurd mem List.not_mem_nil)

theorem Inv.enterMerge {s s' : State} (inv : Inv ctx carry base aside .ended hand s)
    {b : BlockId} (set : aside b) (joint : s.draft.Joint b) (h : enter b s = .ok () s') :
    Inv ctx carry base (fun c => aside c ∧ c ≠ b) .running [] s' ∧
      ∃ phis, s.draft.shape? b = some phis ∧
        s' = { s with draft := s.draft.moveTo b, stack := .ofSlots phis, live := true } := by
  have notDirect : s.draft.isDirect b = false := by
    simpa [Draft.isDirect] using joint.merge.notDirect
  simp only [enter, notDirect] at h
  cases shape : s.draft.shape? b with
  | none =>
      simp [shape] at h
  | some phis =>
      simp only [shape, Bool.false_eq_true, if_false] at h
      cases h
      exact ⟨inv.moveToMerge set joint.merge shape, phis, rfl, rfl⟩

/-! ### Branching to a label -/

theorem Inv.plain_label {s : State} (inv : Inv ctx carry base aside phase hand s) {b : BlockId}
    (named : ∃ offset, ctx.labels.blockAt? offset = some b) : s.draft.Plain b :=
  inv.aims (Or.inl named)

/-- A new direct block starts with what was left in the block that was ended by
an edge to it, also if other blocks have been built since. -/
theorem Left.resume {s s' s₁ s₂ : State} {t : Terminator}
    (left : Left ctx carry base aside hand t s s') {b : BlockId} (mem : b ∈ t.successors)
    (untouched : s.draft.Untouched b) {aside₁ : BlockId → Prop} {hand₁ : List (ValueId × ValueType)}
    (inv₁ : Inv ctx carry base aside₁ .ended hand₁ s₁) (grows : s'.draft.Grows s₁.draft)
    (stack : s₁.stack = s'.stack) (set : aside₁ b) (h : enter b s₁ = .ok () s₂) :
    Inv ctx carry base (fun c => aside₁ c ∧ c ≠ b) .running hand s₂ ∧
      s₂ = { s₁ with draft := s₁.draft.moveTo b, live := true } := by
  have ended : s'.draft.HasEnd s'.draft.cursor := left.inv.phase
  obtain ⟨block, live⟩ := Option.isSome_iff_exists.mp untouched.live
  have direct := ((left.grows.trans grows).direct live).mpr untouched.mem
  refine inv₁.enterDirect set direct ((left.edge mem).mono grows) (fun v hv => ?_) (fun e he => ?_)
    (fun e he => ?_) h
  · rw [stack] at hv
    exact ((left.inv.stack v hv).leftIn ended).mono grows
  · exact ((left.inv.hand e he).leftIn ended).mono grows
  · exact (left.inv.hand e he).type.mono grows

theorem Left.enterDirect {s s' s'' : State} {t : Terminator}
    (left : Left ctx carry base aside hand t s s') {b : BlockId} (mem : b ∈ t.successors)
    (set : aside b) (untouched : s.draft.Untouched b) (h : enter b s' = .ok () s'') :
    Inv ctx carry base (fun c => aside c ∧ c ≠ b) .running hand s'' ∧
      s'' = { s' with draft := s'.draft.moveTo b, live := true } :=
  left.resume mem untouched left.inv (.refl _) rfl set h

/-- Branches to a block when a condition comes out like `sense`. -/
def branchOn (sense : Bool) (cond : ValueId) (target : BlockId) : Lowering Unit :=
  if sense then branchIf cond target else branchUnless cond target

theorem Inv.exists_branchOn {s : State} {target : BlockId}
    (inv : Inv ctx carry base aside phase hand s) (ready : phase ≠ .ended) (sense : Bool)
    (cond : ValueId)
    (fits : ∀ phis, s.draft.shape? target = some phis → phis.length = s.stack.items.length) :
    ∃ s', branchOn sense cond target s = .ok () s' := by
  obtain ⟨inv₁, untouched, -, -, -⟩ := inv.newDirect rfl
  have go : ∀ {yes no : BlockId}, (yes = target ∧ no = s.draft.graph.nextBlock ∨
      yes = s.draft.graph.nextBlock ∧ no = target) →
      ∃ s', (Lowering.branch cond yes no >>= fun _ => enter s.draft.graph.nextBlock)
        { s with draft := s.draft.newDirect.2 } = .ok () s' := by
    intro yes no sides
    have fits' : ∀ b ∈ [yes, no], b ∉ s.draft.newDirect.2.direct →
        ∀ phis, s.draft.shape? b = some phis → phis.length = s.stack.items.length := by
      intro b mem merge
      have other : b ≠ s.draft.graph.nextBlock := fun e => merge (e ▸ untouched.mem)
      obtain rfl : b = target := by
        rcases sides with ⟨rfl, rfl⟩ | ⟨rfl, rfl⟩ <;> simpa [other] using mem
      exact fits
    obtain ⟨s₁, ended, direct⟩ := inv₁.exists_branch ready cond
      (sides.elim (fun h => Or.inr (h.2 ▸ untouched.mem)) (fun h => Or.inl (h.1 ▸ untouched.mem)))
      fits'
    have isDirect : s₁.draft.isDirect s.draft.graph.nextBlock = true :=
      List.elem_eq_true_of_mem (direct ▸ untouched.mem)
    exact ⟨_, bind_eq_ok_iff.mpr ⟨(), s₁, ended, by rw [enter, if_pos isDirect]⟩⟩
  cases sense with
  | true => exact go (Or.inl ⟨rfl, rfl⟩)
  | false => exact go (Or.inr ⟨rfl, rfl⟩)

/-! ### Going into a merge -/

theorem Inv.joint_of_targets {s : State} (inv : Inv ctx carry base aside phase hand s) {b : BlockId}
    (target : s.Targets ctx b) : s.draft.Joint b := by
  rcases target with aims | ⟨l, mem, rfl⟩
  · exact (inv.aims aims).toJoint
  · exact inv.nexts l mem

/-- A new merge has no edges, and nothing leads to it yet. -/
theorem Inv.newMerge {s s' : State} {b : BlockId} (inv : Inv ctx carry base aside phase hand s)
    (h : newMerge s = .ok b s') :
    Inv ctx carry base (fun c => c = b ∨ aside c) phase hand s' ∧ s'.draft.Plain b ∧
      s'.draft.Unlinked b ∧ (∀ c, aside c → c ≠ b) ∧ (∀ c, s.Targets ctx c → c ≠ b) ∧
      s' = { s with draft := s.draft.newMerge.2 } := by
  cases h
  have made : s.draft.newMerge.2.graph.block? s.draft.newMerge.1 = some {} := by
    rw [Draft.newMerge_eq, Draft.block?_addBlock]
    exact if_pos rfl
  obtain ⟨shape, -, unindexed⟩ := inv.sound.unmade (Draft.block?_nextBlock s.draft.graph)
  refine ⟨inv.addBlock .newMerge fun _ => Iff.rfl, ?_, ⟨_, made, rfl, shape⟩, ?_, ?_, rfl⟩
  · exact .of_unindexed (Option.isSome_iff_exists.mpr ⟨_, made⟩) (Draft.merge_newMerge inv.sound)
      unindexed
  · rintro c set rfl
    obtain ⟨⟨block, live, -⟩, -⟩ := inv.aside set
    exact Draft.ne_nextBlock live rfl
  · rintro c target rfl
    obtain ⟨block, live⟩ := Option.isSome_iff_exists.mp (inv.joint_of_targets target).live
    exact Draft.ne_nextBlock live rfl

theorem Left.plain {s s' : State} {t : Terminator} (left : Left ctx carry base aside hand t s s')
    {b : BlockId} (plain : s.draft.Plain b) : s'.draft.Plain b := by
  refine .of_unindexed (left.grows.isSome plain.live) (plain.merge.ended left.can left.ended) ?_
  rw [left.ended.loopIndices, plain.unindexed]

/-! ### Starting over from a state -/

/-- The acts of an instruction may be counted from any state in it. -/
theorem Inv.rebase {s : State} (inv : Inv ctx carry base aside phase hand s) :
    Inv ctx carry s.draft aside phase hand s :=
  { inv with acts := .refl }

theorem Inv.of_rebase {s s' : State} (inv : Inv ctx carry base aside phase hand s)
    {aside' : BlockId → Prop} {phase' : Phase} {hand' : List (ValueId × ValueType)}
    (inv' : Inv ctx carry s.draft aside' phase' hand' s') :
    Inv ctx carry base aside' phase' hand' s' ∧ s.draft.Grows s'.draft :=
  ⟨{ inv' with acts := inv.acts.trans inv'.acts }, inv'.acts.grows inv.sound⟩

end Lowering

end StackLift
