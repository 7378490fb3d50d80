import StackLift.Proofs.Lower.Control

/-!
Loops. The head of a counting loop is a merge of its own: when the pass goes on
in it, it has the phis of the stack and one for the index, and what was in scope
before the loop is so in it. From the moment that the index is registered, every
edge to the head carries the next index.
-/

namespace StackLift

/-- The block of a label at the offset or after it. -/
def Context.Ahead (ctx : Context) (offset : Nat) (b : BlockId) : Prop :=
  ∃ later, offset ≤ later ∧ ctx.labels.blockAt? later = some b

/-- No two offsets share a block. -/
def LabelMap.Distinct (m : LabelMap) : Prop :=
  ∀ {i j : Nat} {b : BlockId}, m.blockAt? i = some b → m.blockAt? j = some b → i = j

namespace Draft

variable {d d' : Draft} {b : BlockId} {phi : ValueId}

theorem block?_addIndexPhi_of_eq_some {block : Block} (pred : BlockId) (initial : ValueId)
    (sound : d.Sound) (live : d.graph.block? b = some block) :
    (d.addIndexPhi b pred initial).2.graph.block? b =
      some (block.addPhi (d.indexPhi pred initial)) := by
  rw [block?_addIndexPhi sound, if_pos rfl, live, Option.map_some]

theorem indexPhi_mem {pred : BlockId} {initial : ValueId} (block : Block) :
    d.indexPhi pred initial ∈ (block.addPhi (d.indexPhi pred initial)).phis :=
  List.mem_append_right _ List.mem_cons_self

/-- What was left before the loop is in scope in its head. -/
theorem LeftIn.inScope_head {p : BlockId} {initial v : ValueId} {block : Block} (left : d.LeftIn p v)
    (sound : d.Sound) (live : d.graph.block? b = some block) (preds : block.preds = [p]) (n : Nat) :
    (d.addIndexPhi b p initial).2.InScope v ⟨b, n⟩ := by
  have live' := block?_addIndexPhi_of_eq_some p initial sound live
  obtain ⟨source, hsource, ended, scope⟩ := left.mono (grows_addIndexPhi (b := b) sound)
  exact .inherit (.head live' (indexPhi_mem block) rfl (by simp [Block.addPhi, preds])) hsource
    ended scope

/-- The block is a merge once the index of its loop is registered. -/
def Counting (d : Draft) (b : BlockId) (phi : ValueId) : Prop :=
  ∀ next, (d.registerLoopIndex b phi next).Merge b

theorem Merge.counting {pred : BlockId} {initial : ValueId} (merge : d.Merge b) (sound : d.Sound)
    (unindexed : d.loopIndices.lookup b = none) (shaped : (d.shape? b).isSome) :
    (d.addIndexPhi b pred initial).2.Counting b (d.addIndexPhi b pred initial).1 := by
  intro next
  constructor
  case notDirect => exact merge.notDirect
  case phis =>
    intro block live
    obtain ⟨before, hbefore, rfl⟩ := block?_addIndexPhi_eq_some sound live
    have phis := merge.phis hbefore
    rw [phisOf, unindexed] at phis
    rw [if_pos rfl, phisOf, lookup_registerLoopIndex, if_pos rfl, Block.addPhi, List.map_append,
      phis, Option.map_none, Option.toList_none, List.append_nil]
    rfl
  case unindexed =>
    intro unshaped
    have unshaped : d.shape? b = none := unshaped
    simp [unshaped] at shaped

theorem Counting.emit (counting : d.Counting b phi) (op : Op) : (d.emitted op).Counting b phi :=
  fun next => (counting next).emit op

theorem Counting.newDirect (counting : d.Counting b phi) (live : (d.graph.block? b).isSome) :
    d.newDirect.2.Counting b phi :=
  fun next => (counting next).addBlock others_newDirect live

theorem Counting.moveTo (counting : d.Counting b phi) (c : BlockId) :
    (d.moveTo c).Counting b phi :=
  fun next => ⟨(counting next).notDirect, (counting next).phis, (counting next).unindexed⟩

/-- An edge to another block does not change the phis. -/
theorem Counting.ended {t : Terminator} {slots : List ValueId} (counting : d.Counting b phi)
    (ended : d.Ended t slots d') (other : b ∉ t.successors) : d'.Counting b phi := by
  intro next
  have notMem : b ∉ d.mergesOf t.successors := fun mem => other (mem_mergesOf.mp mem).1
  have shape : d'.shape? b = d.shape? b := by rw [ended.shape, if_neg notMem]
  constructor
  case notDirect =>
    have direct : d'.direct = d.direct := ended.direct
    rw [show (d'.registerLoopIndex b phi next).direct = d'.direct from rfl, direct]
    exact (counting next).notDirect
  case phis =>
    intro block live
    obtain ⟨before, hbefore, rfl⟩ := ended.block?_eq_some live
    have phis := (counting next).phis hbefore
    rw [phisOf, lookup_registerLoopIndex, if_pos rfl] at phis ⊢
    rw [phis_ended_of_notMem notMem, phis]
    rw [show (d'.registerLoopIndex b phi next).shape? b = d'.shape? b from rfl, shape]
    rfl
  case unindexed =>
    intro none
    rw [show (d'.registerLoopIndex b phi next).shape? b = d'.shape? b from rfl, shape] at none
    have unindexed := (counting next).unindexed none
    rw [lookup_registerLoopIndex, if_pos rfl] at unindexed
    cases unindexed

/-- The head of a counting loop whose index is not registered yet. -/
structure Head (d : Draft) (b : BlockId) (phi : ValueId) : Prop where
  counting : d.Counting b phi
  unindexed : d.loopIndices.lookup b = none
  index : d.graph.DefinedAt phi ⟨b, 0⟩
  type : d.HasType phi .index

theorem Head.live (head : d.Head b phi) : (d.graph.block? b).isSome := by
  cases head.index with
  | phi live _ _ => exact Option.isSome_iff_exists.mpr ⟨_, live⟩

theorem Head.emit (head : d.Head b phi) (isOpen : d.Open) (op : Op) : (d.emitted op).Head b phi :=
  have grows : d.Grows (d.emitted op) := grows_emitted isOpen
  ⟨head.counting.emit op, head.unindexed, grows.definedAt head.index, head.type.mono grows⟩

theorem Head.newDirect (head : d.Head b phi) : d.newDirect.2.Head b phi :=
  have grows : d.Grows d.newDirect.2 := grows_addBlock others_newDirect
  ⟨head.counting.newDirect head.live, head.unindexed, grows.definedAt head.index,
    head.type.mono grows⟩

theorem Head.ended {t : Terminator} {slots : List ValueId} (head : d.Head b phi)
    (can : d.CanEnd t slots) (ended : d.Ended t slots d') (other : b ∉ t.successors) :
    d'.Head b phi :=
  have grows := grows_ended can ended
  ⟨head.counting.ended ended other, ended.loopIndices ▸ head.unindexed,
    grows.definedAt head.index, head.type.mono grows⟩

/-- With its index registered, the head of a loop is a merge like any other. -/
theorem Head.joint {next : ValueId} (head : d.Head b phi) (known : d.Known next .index) :
    (d.registerLoopIndex b phi next).Joint b := by
  refine ⟨head.live, head.counting next, fun registered => ?_⟩
  rw [lookup_registerLoopIndex, if_pos rfl] at registered
  cases registered
  exact known.mono (grows_registerLoopIndex head.unindexed)

end Draft

namespace Lowering

variable {ctx : Context} {carry : Carry} {base : Draft} {aside : BlockId → Prop} {phase : Phase}
  {hand : List (ValueId × ValueType)} {F : Faults} {s s' : State} {offset : Nat}

/-- Control goes on at an offset. The blocks of labels from there on are blank,
unless the pass has gone on in that of the offset itself. -/
inductive GoesOn (ctx : Context) (carry : Carry) (base : Draft) (offset : Nat) (s : State) : Prop
  | here (inv : Inv ctx carry base (ctx.Ahead offset) .running [] s)
  | inNext (inv : Inv ctx carry base (ctx.Ahead (offset + 1)) .running [] s)
      (named : ctx.labels.blockAt? offset = some s.draft.cursor)

/-- The block of an offset is not that of a later one. -/
theorem ahead_ne (distinct : ctx.labels.Distinct) {offset : Nat} {b c : BlockId}
    (named : ctx.labels.blockAt? offset = some b) (ahead : ctx.Ahead (offset + 1) c) :
    ctx.Ahead offset c ∧ c ≠ b := by
  obtain ⟨later, le, at_⟩ := ahead
  refine ⟨⟨later, Nat.le_of_succ_le le, at_⟩, ?_⟩
  rintro rfl
  exact Nat.ne_of_lt le (distinct named at_)

/-- Going into the block of an offset. -/
theorem Left.conducts_enterNext {b : BlockId} (distinct : ctx.labels.Distinct)
    (left : Left ctx carry base (ctx.Ahead offset) hand (.goto b) s s')
    (named : ctx.labels.blockAt? offset = some b) (plain : s.draft.Plain b) :
    Conducts F (enter b) s' fun _ s₂ =>
      Inv ctx carry base (ctx.Ahead (offset + 1)) .running [] s₂ ∧ s₂.draft.Plain b ∧
        s₂.draft.cursor = b := by
  refine (left.conducts_enterMerge ⟨_, Nat.le_refl _, named⟩ plain).imp fun _ s₂ entered => ?_
  obtain ⟨inv₂, plain₂, cursor⟩ := entered
  exact ⟨inv₂.settle fun c ahead => ahead_ne distinct named ahead, plain₂, cursor⟩

/-- A new loop leads to blocks that edges may be wired to. -/
theorem Inv.conducts_pushLoop {kind : LoopKind} {next loopEnd : BlockId}
    (inv : Inv ctx carry base aside phase hand s) (endPlain : s.draft.Plain loopEnd)
    (joint : s.draft.Joint next) : Conducts F (do
      pushLoop { kind, next, loopEnd, opened := (← current).openDepths }) s fun _ s' =>
        Inv ctx carry base aside phase hand s' ∧ s'.draft = s.draft := by
  refine (Conducts.quiet inv.inOrder quiet_current id).bind fun _ _ h => ?_
  cases h
  refine .quiet inv.inOrder (quiet_pushLoop _) fun h => ?_
  cases h
  refine ⟨inv.change { s with loops := ⟨kind, next, loopEnd, s.openDepths⟩ :: s.loops } rfl id
    (fun k mem => ?_) inv.calls (fun _ => Or.inl) inv.stack inv.hand, rfl⟩
  rcases List.mem_cons.mp mem with rfl | old
  · exact Or.inr ⟨endPlain, joint⟩
  · exact Or.inl old

theorem Inv.conducts_startLoop {endLabel : Label} (distinct : ctx.labels.Distinct)
    (inv : Inv ctx carry base (ctx.Ahead (offset + 1)) .begun [] s)
    (covers : F.Covers ctx endLabel) : Conducts F (startLoop ctx offset endLabel) s
      fun _ => GoesOn ctx carry base (offset + 1) := by
  refine inv.after_target covers fun loopEnd named => ?_
  refine (Conducts.quiet inv.inOrder (quiet_noteEdge loopEnd) inv.noteEdge).bind
    fun _ s₁ noted => ?_
  obtain ⟨inv₁, -⟩ := noted
  rw [blockAfter]
  cases label : ctx.labels.blockAt? (offset + 1) with
  | some b =>
      refine (Conducts.quiet inv₁.inOrder (quiet_pure b) id).bind fun head _ h => ?_
      cases h
      have plain := inv₁.plain_label ⟨_, label⟩
      refine (inv₁.conducts_jumpPlain (by simp) plain).bind fun _ s₂ left => ?_
      refine (left.conducts_enterNext distinct label plain).bind fun _ s₃ entered => ?_
      obtain ⟨inv₃, plain₃, cursor⟩ := entered
      refine (inv₃.conducts_pushLoop (inv₃.plain_label named) plain₃.toJoint).imp
        fun _ s' pushed => .inNext pushed.1 ?_
      rw [pushed.2, cursor, label]
  | none =>
      refine inv₁.conducts_newMerge.bind fun head s₂ h₂ => ?_
      obtain ⟨inv₂, plain, -, apart, -, -⟩ := inv₁.newMerge h₂
      refine (inv₂.conducts_jumpPlain (by simp) plain).bind fun _ s₃ left => ?_
      refine (left.conducts_enterMerge (Or.inl rfl) plain).bind fun _ s₄ entered => ?_
      obtain ⟨inv₄, plain₄, -⟩ := entered
      have inv₄ := inv₄.settle fun c ahead => ⟨Or.inr ahead, apart c ahead⟩
      exact (inv₄.conducts_pushLoop (inv₄.plain_label named) plain₄.toJoint).imp
        fun _ s' pushed => .here pushed.1

/-! ### Counting loops -/

/-- The pass has come from `s` to the start of the head of a counting loop. -/
structure AtHead (ctx : Context) (carry : Carry) (base : Draft) (aside : BlockId → Prop)
    (hand : List (ValueId × ValueType)) (head : BlockId) (index : ValueId) (s s' : State) :
    Prop where
  inv : Inv ctx carry base (fun c => aside c ∧ c ≠ head) .running ((index, .index) :: hand) s'
  cursor : s'.draft.cursor = head
  start : s'.draft.stmtIndex = 0
  head : s'.draft.Head head index
  loops : s'.loops = s.loops
  dispatches : s'.dispatches = s.dispatches

/-- The first edge to a merge gives it its only predecessor and its shape. -/
theorem Left.firstEdge {s s' : State} {b : BlockId}
    (left : Left ctx carry base aside hand (.goto b) s s') (plain : s.draft.Plain b)
    (unlinked : s.draft.Unlinked b) :
    ∃ block phis, s'.draft.graph.block? b = some block ∧ block.preds = [s'.draft.cursor] ∧
      s'.draft.shape? b = some phis ∧ block.phis.map (·.value) = phis := by
  obtain ⟨before, live, preds, -⟩ := unlinked
  have target : b ∈ s.draft.mergesOf (Terminator.goto b).successors :=
    Draft.mem_mergesOf.mpr ⟨List.mem_cons_self, plain.merge.notDirect⟩
  have live' : s'.draft.graph.block? b = some (s.draft.ended (.goto b) s.stack.slots b before) := by
    rw [left.ended.block, live, Option.map_some]
  have shape' := left.ended.shape b
  rw [if_pos target] at shape'
  refine ⟨_, _, live', ?_, shape', ?_⟩
  · rw [Draft.preds_ended, preds, left.ended.cursor]
    simp [Terminator.successors]
  · have plain' := left.plain plain
    rw [plain'.merge.phis live', Draft.phisOf, plain'.unindexed, shape']
    exact List.append_nil _

theorem Inv.addIndexPhi {s s' : State} {head : BlockId} {block : Block} {zero index : ValueId}
    (inv : Inv ctx carry base aside .ended hand s) (plain : s.draft.Plain head)
    (others : ∀ c, s.Targets ctx c → c ≠ head) (notEntry : head ≠ s.draft.graph.entry)
    (live : s.draft.graph.block? head = some block) (preds : block.preds = [s.draft.cursor])
    (initial : (zero, .index) ∈ hand)
    (h : Lowering.addIndexPhi head s.draft.cursor zero s = .ok index s') :
    Inv ctx carry base aside .ended hand s' ∧
      index = (s.draft.addIndexPhi head s.draft.cursor zero).1 ∧
      s' = { s with draft := (s.draft.addIndexPhi head s.draft.cursor zero).2 } := by
  cases h
  have ended : s.draft.HasEnd s.draft.cursor := inv.phase
  obtain ⟨source, hsource, last, scope⟩ := (inv.hand _ initial).leftIn ended
  have act : Draft.Act carry s.draft (s.draft.addIndexPhi head s.draft.cursor zero).2 :=
    .addIndexPhi live preds plain.merge.notDirect notEntry hsource last scope (inv.hand _ initial).type
  have grows := act.grows inv.sound
  refine ⟨inv.act act (fun target joint => ⟨?_, rfl⟩) rfl id (ended.mono grows), rfl, rfl⟩
  exact joint.merge.addIndexPhi inv.sound (others _ target)

/-- What is known of a new head when its first edge and the phi of the index are there. -/
structure Indexed (ctx : Context) (carry : Carry) (base : Draft) (aside : BlockId → Prop)
    (hand : List (ValueId × ValueType)) (head : BlockId) (zero index : ValueId) (s s₁ s₂ : State)
    (block : Block) (phis : List ValueId) : Prop where
  left : Left ctx carry base aside hand (.goto head) s s₁
  plain : s₁.draft.Plain head
  notEntry : head ≠ s₁.draft.graph.entry
  live : s₁.draft.graph.block? head = some block
  preds : block.preds = [s₁.draft.cursor]
  shape : s₁.draft.shape? head = some phis
  values : block.phis.map (·.value) = phis
  inv : Inv ctx carry base aside .ended hand s₂
  index : index = (s₁.draft.addIndexPhi head s₁.draft.cursor zero).1
  frame : s₂ = { s₁ with draft := (s₁.draft.addIndexPhi head s₁.draft.cursor zero).2 }

theorem Inv.indexed {s s₁ s₂ : State} {head : BlockId} {zero index : ValueId}
    (inv : Inv ctx carry base aside phase hand s) (ready : phase ≠ .ended)
    (plain : s.draft.Plain head) (unlinked : s.draft.Unlinked head)
    (others : ∀ c, s.Targets ctx c → c ≠ head) (initial : (zero, .index) ∈ hand)
    (h₁ : Lowering.jump head s = .ok () s₁)
    (h₂ : Lowering.addIndexPhi head s.draft.cursor zero s₁ = .ok index s₂) :
    ∃ block phis, Indexed ctx carry base aside hand head zero index s s₁ s₂ block phis := by
  have left := inv.jump ready plain.toJoint (fun registered => by
    rw [plain.unindexed] at registered
    cases registered) h₁
  obtain ⟨block, phis, live, preds, shape, values⟩ := left.firstEdge plain unlinked
  have notEntry : head ≠ s₁.draft.graph.entry := by
    rintro rfl
    obtain ⟨-, -, -, unshaped⟩ := unlinked
    have entry_shape := inv.sound.entry_shape
    rw [show s.draft.graph.entry = s₁.draft.graph.entry from rfl, unshaped] at entry_shape
    cases entry_shape
  have others₁ : ∀ c, s₁.Targets ctx c → c ≠ head := by
    rw [left.frame]
    exact others
  rw [← left.ended.cursor] at h₂
  obtain ⟨inv₂, index, frame⟩ :=
    left.inv.addIndexPhi (left.plain plain) others₁ notEntry live preds initial h₂
  exact ⟨block, phis, left, left.plain plain, notEntry, live, preds, shape, values, inv₂, index,
    frame⟩

/-- The stack in a new head is made of the phis of its shape. -/
theorem Indexed.enter_eq {s s₁ s₂ s' : State} {head : BlockId} {zero index : ValueId}
    {block : Block} {phis : List ValueId}
    (indexed : Indexed ctx carry base aside hand head zero index s s₁ s₂ block phis)
    (h : enter head s₂ = .ok () s') :
    s' = { s₂ with draft := s₂.draft.moveTo head, live := true, stack := .ofSlots phis } := by
  have notDirect : s₁.draft.isDirect head = false := by
    simpa [Draft.isDirect] using indexed.plain.merge.notDirect
  have notDirect₂ : s₂.draft.isDirect head = false := by
    rw [indexed.frame]
    exact notDirect
  have shape₂ : s₂.draft.shape? head = some phis := by
    rw [indexed.frame]
    exact indexed.shape
  simp only [enter, notDirect₂, shape₂, Bool.false_eq_true, if_false] at h
  cases h
  rfl

theorem Inv.enterHead {s s₁ s₂ s' : State} {head : BlockId} {zero index : ValueId}
    (inv : Inv ctx carry base aside phase hand s) (ready : phase ≠ .ended) (set : aside head)
    (plain : s.draft.Plain head) (unlinked : s.draft.Unlinked head)
    (others : ∀ c, s.Targets ctx c → c ≠ head) (initial : (zero, .index) ∈ hand)
    (h₁ : Lowering.jump head s = .ok () s₁)
    (h₂ : Lowering.addIndexPhi head s.draft.cursor zero s₁ = .ok index s₂)
    (h₃ : enter head s₂ = .ok () s') : AtHead ctx carry base aside hand head index s s' := by
  obtain ⟨block, phis, indexed⟩ := inv.indexed ready plain unlinked others initial h₁ h₂
  obtain rfl := indexed.enter_eq h₃
  obtain ⟨left, plain₁, notEntry, live, preds, shape, values, inv₂, rfl, rfl⟩ := indexed
  have live₂ : (s₁.draft.addIndexPhi head s₁.draft.cursor zero).2.graph.block? head = _ :=
    Draft.block?_addIndexPhi_of_eq_some _ _ left.inv.sound live
  have shape₂ : (s₁.draft.addIndexPhi head s₁.draft.cursor zero).2.shape? head = some phis := shape
  -- the stack is made of the phis of the shape; the rest is inherited from before the loop
  have starts : phis <+:
      (block.addPhi (s₁.draft.indexPhi s₁.draft.cursor zero)).phis.map (·.value) := by
    rw [Block.addPhi, List.map_append, values]
    exact List.prefix_append _ _
  have slots := scoped_shape inv₂.sound live₂ shape₂ starts
  have index : ((s₁.draft.addIndexPhi head s₁.draft.cursor zero).2.moveTo head).Scoped
      (s₁.draft.addIndexPhi head s₁.draft.cursor zero).1 .index :=
    ⟨.phi live₂ (Draft.indexPhi_mem block) rfl, Draft.hasType_addIndexPhi⟩
  have inherited : ∀ e ∈ hand,
      ((s₁.draft.addIndexPhi head s₁.draft.cursor zero).2.moveTo head).Scoped e.1 e.2 := by
    intro e mem
    refine ⟨?_, inv₂.hand e mem |>.type⟩
    have before := (left.inv.hand e mem).leftIn left.inv.phase
    exact (before.inScope_head left.inv.sound live preds _).mono (Draft.grows_moveTo _ head)
  have inv₃ := inv₂.moveTo set (inv₂.reached.shaped shape₂ notEntry)
    (fun v mem => slots v (List.mem_reverse.mp mem))
    (forall_mem_cons_scoped index inherited)
  obtain ⟨⟨blank, hblank, empty, -⟩, -⟩ := inv₂.aside set
  rw [show (s₁.draft.addIndexPhi head s₁.draft.cursor zero).2.graph.block? head = _ from live₂]
    at hblank
  cases hblank
  exact {
    inv := inv₃
    cursor := rfl
    start := by
      rw [Draft.stmtIndex_eq (d := (s₁.draft.addIndexPhi head s₁.draft.cursor zero).2.moveTo head)
        live₂, empty, List.length_nil]
    head := ⟨(plain₁.merge.counting left.inv.sound plain₁.unindexed (by simp [shape])).moveTo head,
      plain₁.unindexed, .phi live₂ (Draft.indexPhi_mem block) rfl, index.type⟩
    loops := by rw [left.frame]
    dispatches := by rw [left.frame] }

/-- The next index is the second statement of the head. -/
theorem AtHead.count {s s' s₁ s₂ s₃ : State} {head : BlockId} {index length one next more : ValueId}
    (at_ : AtHead ctx carry base aside hand head index s s') (mem : (length, .index) ∈ hand)
    (h₁ : emit (.indexConst 1) s' = .ok one s₁) (h₂ : emit (.indexAdd index one) s₁ = .ok next s₂)
    (h₃ : emit (.indexLe next length) s₂ = .ok more s₃) :
    Inv ctx carry base (fun c => aside c ∧ c ≠ head) .running
      ((more, .test) :: (next, .index) :: hand) s₃ ∧ s₃.draft.Head head index ∧
      s₃.draft.graph.DefinedAt next ⟨head, 2⟩ ∧ s₃.draft.cursor = head ∧ s₃.loops = s.loops ∧
      s₃.dispatches = s.dispatches := by
  have inv₁ := at_.inv.emit (by simp) h₁ (by simp [Op.inputs, Op.operands])
  have inv₂ := inv₁.emit (by simp) h₂ (by simp [Op.inputs, Phase.reads, Op.resultType])
  have inv₃ := inv₂.emit (by simp) h₃ (by simp [Op.inputs, Phase.reads, Op.resultType, mem])
  have open₁ : s'.draft.Open := at_.inv.phase
  have open₂ : s₁.draft.Open := inv₁.phase
  have open₃ : s₂.draft.Open := inv₂.phase
  obtain ⟨-, frame₁⟩ := emit_eq_ok h₁
  obtain ⟨nextEq, frame₂⟩ := emit_eq_ok h₂
  obtain ⟨-, frame₃⟩ := emit_eq_ok h₃
  have start : s₁.draft.stmtIndex = 1 := by
    rw [frame₁, Draft.stmtIndex_emitted open₁, at_.start]
  have cursor : s₁.draft.cursor = head := by
    rw [frame₁]
    exact at_.cursor
  have defined : s₂.draft.graph.DefinedAt next ⟨head, 2⟩ := by
    have defined := Draft.definedAt_emitted_self (.indexAdd index one) open₂
    rwa [start, cursor, ← nextEq, show (s₁.draft.emitted (.indexAdd index one)) = s₂.draft by
      rw [frame₂]] at defined
  refine ⟨inv₃.drop ?_, ?_, ?_, ?_, ?_, ?_⟩
  · intro e mem
    rcases List.mem_cons.mp mem with rfl | mem
    · exact List.mem_cons_self
    · rcases List.mem_cons.mp mem with rfl | mem
      · exact List.mem_cons_of_mem _ List.mem_cons_self
      · simp [mem]
  · rw [frame₃]
    refine Draft.Head.emit ?_ open₃ _
    rw [frame₂]
    refine Draft.Head.emit ?_ open₂ _
    rw [frame₁]
    exact at_.head.emit open₁ _
  · rw [frame₃]
    exact (Draft.grows_emitted open₃).definedAt defined
  · rw [frame₃, frame₂]
    exact cursor
  · rw [frame₃, frame₂, frame₁]
    exact at_.loops
  · rw [frame₃, frame₂, frame₁]
    exact at_.dispatches

section

variable {s s₁ s₂ s₃ : State} {head body loopEnd : BlockId} {index next more : ValueId}
  (inv : Inv ctx carry base aside .running hand s) (cursor : s.draft.cursor = head)
  (isHead : s.draft.Head head index) (defined : s.draft.graph.DefinedAt next ⟨head, 2⟩)
  (others : ∀ c, s.Targets ctx c → c ≠ head)
  (named : ∃ offset, ctx.labels.blockAt? offset = some loopEnd) (test : (more, .test) ∈ hand)
  (nextMem : (next, .index) ∈ hand) (h₁ : Lowering.newDirect s = .ok body s₁)
  (h₂ : Lowering.branch more body loopEnd s₁ = .ok () s₂)
  (h₃ : registerLoopIndex head index next s₂ = .ok () s₃)

include inv cursor isHead defined others named test nextMem h₁ h₂ h₃

/-- The head branches to the body, and from then on the loop has its index. -/
theorem Inv.branchToBody :
    Left ctx carry base (fun c => c = body ∨ aside c) hand (.branch more body loopEnd) s₁ s₂ ∧
      Inv ctx carry base (fun c => c = body ∨ aside c) .ended hand s₃ ∧
      s₂.draft.Grows s₃.draft ∧ s₃.draft.Joint head := by
  obtain ⟨inv₁, untouched, -, frame₁, -⟩ := inv.newDirect h₁
  have head₁ : s₁.draft.Head head index := by
    rw [frame₁]
    exact isHead.newDirect
  have plain := inv₁.plain_label named
  have notBody : head ≠ body := by
    rintro rfl
    exact (inv₁.aside (Or.inl rfl)).2 (by rw [frame₁]; exact cursor.symm)
  have other : body ≠ loopEnd := fun e => plain.merge.notDirect (e ▸ untouched.mem)
  have left := inv₁.branch (by simp) test other (Or.inl ⟨untouched, Or.inl plain⟩) h₂
  have head₂ : s₂.draft.Head head index := by
    refine head₁.ended left.can left.ended ?_
    simp only [Terminator.successors, List.mem_cons, List.not_mem_nil, or_false, not_or]
    exact ⟨notBody, (others loopEnd (Or.inl (Or.inl named))).symm⟩
  cases h₃
  have nextType : s₂.draft.HasType next .index := (left.inv.hand _ nextMem).type
  have defined₂ : s₂.draft.graph.DefinedAt next ⟨head, 2⟩ := by
    refine left.grows.definedAt ?_
    rw [frame₁]
    exact (Draft.grows_addBlock Draft.others_newDirect).definedAt defined
  have act : Draft.Act carry s₂.draft (s₂.draft.registerLoopIndex head index next) :=
    .registerLoopIndex head₂.unindexed head₂.index head₂.type defined₂ nextType
  have grows := act.grows left.inv.sound
  have others₂ : ∀ c, s₂.Targets ctx c → c ≠ head := by
    rw [left.frame, frame₁]
    exact others
  have ended : Phase.ended.Holds carry (s₂.draft.registerLoopIndex head index next) :=
    Draft.HasEnd.mono left.inv.phase grows
  have inv₃ := left.inv.act act (fun target joint =>
    ⟨joint.merge.registerLoopIndex (others₂ _ target), by
      rw [Draft.lookup_registerLoopIndex, if_neg (others₂ _ target)]⟩) rfl id ended
  exact ⟨left, inv₃, grows, head₂.joint ⟨⟨_, defined₂⟩, nextType⟩⟩

theorem Inv.enterBody {s' : State} (h₄ : enter body s₃ = .ok () s') :
    Inv ctx carry base aside .running hand s' ∧ s'.draft.Joint head := by
  obtain ⟨left, inv₃, grows, joint⟩ :=
    inv.branchToBody cursor isHead defined others named test nextMem h₁ h₂ h₃
  obtain ⟨-, untouched, apart, -, -⟩ := inv.newDirect h₁
  have stack : s₃.stack = s₂.stack := by
    cases h₃
    rfl
  obtain ⟨inv₄, frame₄⟩ := left.resume (by simp [Terminator.successors]) untouched inv₃ grows stack
    (Or.inl rfl) h₄
  refine ⟨inv₄.settle fun c set => ⟨Or.inr set, apart c set⟩, ?_⟩
  rw [frame₄]
  exact joint.moveTo body

end

theorem Inv.conducts_startFor (inv : Inv ctx carry base aside .begun [] s) (call symbol : PoolIndex)
    {endLabel : Label} (covers : F.Covers ctx endLabel) :
    Conducts F (startFor ctx call symbol endLabel) s
      fun _ => Inv ctx carry base aside .running [] := by
  refine inv.after_pop fun seq s₁ inv₁ => inv₁.after_constant fun _ s₂ inv₂ => ?_
  refine inv₂.after_constant fun name s₃ inv₃ => inv₃.after_target covers fun loopEnd named => ?_
  refine inv₃.after_emit (by simp) ?_ fun length s₅ inv₅ => ?_
  · simp [Op.inputs, Op.operands, Phase.reads]
  refine inv₅.after_emit (by simp) ?_ fun zero s₆ inv₆ => ?_
  · simp [Op.inputs, Op.operands]
  refine (Conducts.quiet inv₆.inOrder quiet_current id).bind fun _ _ h => ?_
  cases h
  refine inv₆.conducts_newMerge.bind fun head s₇ h₇ => ?_
  obtain ⟨inv₇, plain, unlinked, apart, others, frame₇⟩ := inv₆.newMerge h₇
  have others₇ : ∀ c, s₇.Targets ctx c → c ≠ head := by
    rw [frame₇]
    exact others
  have cursor₇ : s₆.draft.cursor = s₇.draft.cursor := by rw [frame₇]; rfl
  rw [cursor₇]
  refine (inv₇.conducts_jumpPlain (by simp) plain).eq.bind fun _ s₈ jumped => ?_
  obtain ⟨h₈, left⟩ := jumped
  refine Conducts.bind (.act (.addIndexPhi head s₇.draft.cursor zero) left.inv.inOrder trivial
    (fun f s' h => by cases h) id) fun index s₉ h₉ => ?_
  obtain ⟨block, phis, indexed⟩ := inv₇.indexed (by simp) plain unlinked others₇
    List.mem_cons_self h₈ h₉
  refine (indexed.inv.conducts_enterMerge (Or.inl rfl) ?_ ?_).bind fun _ s₁₀ h₁₀ => ?_
  · rw [indexed.frame]
    exact indexed.plain.merge.notDirect
  · rw [indexed.frame]
    exact Option.isSome_iff_exists.mpr ⟨phis, indexed.shape⟩
  have atHead := inv₇.enterHead (by simp) (Or.inl rfl) plain unlinked others₇ List.mem_cons_self
    h₈ h₉ h₁₀
  -- the statements of the head
  refine (atHead.inv.conducts_emit (by simp) (by simp [Op.inputs, Op.operands])).eq.bind
    fun one s₁₁ emitted => ?_
  obtain ⟨h₁₁, inv₁₁⟩ := emitted
  refine (inv₁₁.conducts_emit (by simp) (by simp [Op.inputs, Phase.reads, Op.resultType])).eq.bind
    fun next s₁₂ emitted => ?_
  obtain ⟨h₁₂, inv₁₂⟩ := emitted
  refine (inv₁₂.conducts_emit (by simp) (by simp [Op.inputs, Phase.reads, Op.resultType])).eq.bind
    fun more s₁₃ emitted => ?_
  obtain ⟨inv₁₃, isHead, defined, cursor, loops, dispatches⟩ :=
    atHead.count (List.mem_cons_of_mem _ List.mem_cons_self) h₁₁ h₁₂ emitted.1
  have others₁₃ : ∀ c, s₁₃.Targets ctx c → c ≠ head := fun c target =>
    others₇ c (target.congr loops dispatches)
  -- the branch to the body
  refine inv₁₃.conducts_newDirect.bind fun body s₁₄ h₁₄ => ?_
  obtain ⟨inv₁₄, untouched, -⟩ := inv₁₃.newDirect h₁₄
  have loopEnd_plain := inv₁₄.plain_label named
  have other : body ≠ loopEnd := fun e => loopEnd_plain.merge.notDirect (e ▸ untouched.mem)
  refine (inv₁₄.conducts_branch (by simp) List.mem_cons_self other
    (Or.inl ⟨untouched, Or.inl loopEnd_plain⟩)).eq.bind fun _ s₁₅ branched => ?_
  refine Conducts.bind (.act (.registerLoopIndex head index next) branched.2.inv.inOrder trivial
    (fun f s' h => by cases h) id) fun _ s₁₆ h₁₆ => ?_
  obtain ⟨left, inv₁₆, grows, -⟩ := inv₁₃.branchToBody cursor isHead defined others₁₃ named
    List.mem_cons_self (List.mem_cons_of_mem _ List.mem_cons_self) h₁₄ branched.1 h₁₆
  have stack : s₁₆.stack = s₁₅.stack := by
    cases h₁₆
    rfl
  refine (left.conducts_resume List.mem_cons_self untouched inv₁₆ grows stack (Or.inl rfl)).eq.bind
    fun _ s₁₇ entered => ?_
  obtain ⟨inv₁₇, joint₁₇⟩ := inv₁₃.enterBody cursor isHead defined others₁₃ named
    List.mem_cons_self (List.mem_cons_of_mem _ List.mem_cons_self) h₁₄ branched.1 h₁₆ entered.1
  -- the start of the body
  refine (inv₁₇.conducts_emit (by simp) (by simp [Op.inputs, Phase.reads])).eq.bind
    fun element s₁₈ emitted => ?_
  obtain ⟨h₁₈, inv₁₈⟩ := emitted
  refine (inv₁₈.conducts_emit (by simp)
    (by simp [Op.inputs, Op.operands, Op.resultType, Phase.reads])).eq.bind fun _ s₁₉ emitted => ?_
  obtain ⟨h₁₉, inv₁₉⟩ := emitted
  have joint₁₉ : s₁₉.draft.Joint head := by
    rw [(emit_eq_ok h₁₉).2]
    refine Draft.Joint.emit ?_ inv₁₈.phase _
    rw [(emit_eq_ok h₁₈).2]
    exact joint₁₇.emit inv₁₇.phase _
  refine ((inv₁₉.settle fun c set => ?_).conducts_pushLoop (inv₁₉.plain_label named) joint₁₉).imp
    fun _ s' pushed => pushed.1.forget
  exact ⟨Or.inr set, apart c set⟩

/-! ### Edges of a loop -/

/-- An edge back to the head of the innermost loop carries its next index. -/
theorem Inv.conducts_jumpNext {loop : LoopContext} {rest : List LoopContext}
    (inv : Inv ctx carry base aside .begun [] s) (loops : s.loops = loop :: rest)
    (held : ∀ v ∈ s.heldByLoop, (v, .index) ∈ carry.values) :
    Conducts F (Lowering.jump loop.next) s fun _ s' =>
      Left ctx carry base aside [] (.goto loop.next) s s' ∧
        ∀ v ∈ s.heldByLoop, carry.Uses s'.draft v := by
  have holds : s.heldByLoop = ((s.draft.loopIndices.lookup loop.next).map (·.2)).toList := by
    rw [State.heldByLoop, loops]
  rw [holds] at held ⊢
  have joint := inv.nexts loop (loops ▸ List.mem_cons_self)
  refine (inv.conducts_jump (by simp) joint fun {phi next} registered => ?_).imp fun _ s' left =>
    ⟨left, fun v mem => ?_⟩
  · exact List.mem_append_right _ (held next (by simp [registered]))
  · obtain ⟨-, cursor, index⟩ := inv.phase
    have target : loop.next ∈ s.draft.mergesOf (Terminator.goto loop.next).successors :=
      Draft.mem_mergesOf.mpr ⟨List.mem_cons_self, joint.merge.notDirect⟩
    have used := Draft.usedAt_carried left.can left.ended target (List.mem_append_right _ mem)
    exact ⟨_, index, cursor ▸ used⟩

theorem Inv.conducts_stepFor (inv : Inv ctx carry base aside .begun [] s)
    (held : ∀ v ∈ s.heldByLoop, (v, .index) ∈ carry.values) : Conducts F stepFor s fun _ s' =>
      Inv ctx carry base aside .ended [] s' ∧ ∀ v ∈ s.heldByLoop, carry.Uses s'.draft v := by
  refine (Conducts.quiet inv.inOrder quiet_innermostLoop id).bind fun loop s₁ h₁ => ?_
  obtain ⟨top, rfl⟩ := ofExcept_eq_ok h₁
  obtain ⟨rest, loops⟩ := Bracket.top_eq_ok top
  split
  · exact (inv.conducts_jumpNext loops held).imp fun _ _ went => ⟨went.1.inv, went.2⟩
  · exact .fail inv.inOrder (F.expected trivial)

theorem Inv.conducts_leaveLoop (inv : Inv ctx carry base aside .begun [] s) (exit : LoopExit)
    (held : exit = .next → ∀ v ∈ s.heldByLoop, (v, .index) ∈ carry.values) :
    Conducts F (leaveLoop ctx exit) s fun _ s' => Inv ctx carry base aside .ended [] s' ∧
      (exit = .next → ∀ v ∈ s.heldByLoop, carry.Uses s'.draft v) := by
  refine (Conducts.quiet inv.inOrder quiet_current id).bind fun _ _ h => ?_
  cases h
  cases loops : s.loops with
  | nil =>
      simp only
      split <;> exact .fail inv.inOrder (F.expected trivial)
  | cons loop rest =>
      cases exit with
      | next =>
          exact (inv.conducts_jumpNext loops (held rfl)).imp fun _ _ went =>
            ⟨went.1.inv, fun _ => went.2⟩
      | leave =>
          have plain : s.draft.Plain loop.loopEnd :=
            inv.aims (Or.inr (Or.inl ⟨loop, loops ▸ List.mem_cons_self, rfl⟩))
          exact (inv.conducts_jumpPlain (by simp) plain).imp fun _ _ left =>
            ⟨left.inv, fun next => by cases next⟩

/-- Closing a loop drops it. -/
theorem popLoop_eq_ok {s s' : State} {kind : LoopKind} {loop : LoopContext}
    (h : popLoop kind s = .ok loop s') :
    ∃ rest, s.loops = loop :: rest ∧ loop.kind = kind ∧ s' = { s with loops := rest } := by
  rw [popLoop] at h
  cases loops : s.loops with
  | nil =>
      rw [loops] at h
      cases h
  | cons l rest =>
      rw [loops] at h
      simp only at h
      split at h
      case isTrue same =>
        cases h
        exact ⟨rest, rfl, same, rfl⟩
      case isFalse => cases h

theorem Inv.popLoop {kind : LoopKind} {loop : LoopContext}
    (inv : Inv ctx carry base aside phase hand s) (h : Lowering.popLoop kind s = .ok loop s') :
    Inv ctx carry base aside phase hand s' := by
  obtain ⟨rest, loops, -, rfl⟩ := popLoop_eq_ok h
  refine inv.change { s with loops := rest } rfl id (fun l mem => Or.inl ?_) inv.calls
    (fun _ => Or.inl) inv.stack inv.hand
  rw [loops]
  exact List.mem_cons_of_mem loop mem

theorem Inv.conducts_endLoop (inv : Inv ctx carry base aside .begun [] s) (kind : LoopKind) :
    Conducts F (endLoop kind) s fun _ => Inv ctx carry base aside .running [] := by
  refine (Conducts.quiet inv.inOrder (quiet_popLoop kind) inv.popLoop).bind fun loop s₁ inv₁ => ?_
  refine (Conducts.quiet inv₁.inOrder quiet_current id).bind fun _ _ h => ?_
  cases h
  simp only
  split
  · exact .pure inv₁.inOrder inv₁.run
  · exact .fail inv₁.inOrder (F.expected trivial)

end Lowering

end StackLift
