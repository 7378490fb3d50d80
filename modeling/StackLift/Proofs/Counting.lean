import StackLift.Proofs.Access
import StackLift.Proofs.Building
import StackLift.Proofs.Counting.Lap

/-!
Counting loops count. `for_counts` says of every `for` loop that was translated, in the graph as it
is built: the index of the head is zero along the edge from before the loop and the next index along
every other edge, wherever in the body the edge comes from, and so the laps of every run go by
number. Code that jumps to the end of a loop it did not enter may compute the sequence anew between
two laps; then the lap is bounded by the sequence that the loop was entered with and takes its
element from the new one (`rereads_not_goes`).

The pass writes the loop in three pieces, the set-up before the loop, the head (`AtHead.builds`) and
the start of the body (`builds_body`). `Inv.builds_startFor` puts them together; what the loop does
is said of the graph alone (`Graph.Since.lap`).
-/

namespace StackLift

/-- The inputs of an index phi: the first value along the first edge, and the next index of the loop
along every other one. -/
theorem Draft.Sound.lookup_index {d : Draft} (sound : d.Sound) {head before b : BlockId}
    {block : Block} {p : Phi} {zero next : ValueId} (live : d.graph.block? head = some block)
    (mem : p ∈ block.phis) (type : p.type = .index) (starts : [(before, zero)] <+: p.inputs)
    (registered : d.loopIndices.lookup head = some (p.value, next))
    (edge : head ∈ d.graph.successorsOf b) :
    p.inputs.lookup b = some (if b = before then zero else next) := by
  obtain ⟨first, rest, inputs, others⟩ := sound.indexInputs live mem type
  rw [inputs, List.cons_prefix_cons] at starts
  obtain ⟨rfl, -⟩ := starts
  rw [inputs, List.lookup_cons]
  by_cases same : b = before
  · rw [beq_iff_eq.mpr same, if_pos same]
  · rw [beq_eq_false_iff_ne.mpr same, if_neg same]
    have isPred : b ∈ p.inputs.map (·.1) := by
      rw [sound.linked.inputs live mem]
      exact (sound.linked.recorded.mem_preds_iff live).mpr edge
    rw [inputs, List.map_cons, List.mem_cons] at isPred
    obtain ⟨e, listed, rfl⟩ := List.mem_map.mp (isPred.resolve_left same)
    cases found : rest.lookup e.1 with
    | none => simpa using List.lookup_eq_none_iff.mp found e listed
    | some v =>
        have value := others _ (Graph.mem_of_lookup_eq_some found)
        rw [registered] at value
        cases value
        rfl

/-- A phi for the index that had one input has the next index for all that came later. -/
theorem Draft.Later.exists_indexPhi {ctx : Context} {d final : Draft} (later : d.Later ctx final)
    {head before : BlockId} {block : Block} {p : Phi} {zero next : ValueId}
    (live : d.graph.block? head = some block) (mem : p ∈ block.phis) (type : p.type = .index)
    (inputs : p.inputs = [(before, zero)])
    (registered : final.loopIndices.lookup head = some (p.value, next)) :
    ∃ block' p', final.graph.block? head = some block' ∧ p' ∈ block'.phis ∧ p'.value = p.value ∧
      p'.type = .index ∧ ∀ b, head ∈ final.graph.successorsOf b →
        p'.inputs.lookup b = some (if b = before then zero else next) := by
  obtain ⟨block', live', grown⟩ := later.grows.block live
  obtain ⟨p', mem', value', type', starts⟩ := grown.phis p mem
  refine ⟨block', p', live', mem', value', type'.trans type, fun b edge => ?_⟩
  exact later.sound.lookup_index live' mem' (type'.trans type) (inputs ▸ starts)
    (value' ▸ registered) edge

/-- A direct block is entered from one block only. -/
theorem Draft.Sound.eq_of_edges {d : Draft} (sound : d.Sound) {b p q : BlockId}
    (direct : b ∈ d.direct) (edge : b ∈ d.graph.successorsOf p)
    (edge' : b ∈ d.graph.successorsOf q) : p = q := by
  obtain ⟨block, live⟩ := Option.isSome_iff_exists.mp (sound.linked.live edge)
  obtain ⟨-, single⟩ := sound.direct live direct
  have mem := (sound.linked.recorded.mem_preds_iff live).mpr edge
  have mem' := (sound.linked.recorded.mem_preds_iff live).mpr edge'
  cases preds : block.preds with
  | nil => simp [preds] at mem
  | cons first rest =>
      rw [preds, List.length_cons] at single
      obtain rfl : rest = [] := List.eq_nil_of_length_eq_zero (by omega)
      rw [preds, List.mem_singleton] at mem mem'
      exact mem.trans mem'.symm

/-- No phi is defined at the entry. -/
theorem Draft.Sound.ne_entry {d : Draft} (sound : d.Sound) {b : BlockId} {v : ValueId}
    (defined : d.graph.DefinedAt v ⟨b, 0⟩) : b ≠ d.graph.entry := by
  rintro rfl
  obtain ⟨block, live, none⟩ := sound.entry
  obtain ⟨block', live', p, mem, -⟩ := Graph.definedAt_zero.mp defined
  rw [live] at live'
  cases live'
  simp [none] at mem

theorem Draft.Grows.stmtAt {d d' : Draft} {b : BlockId} {n : Nat} {stmt : Stmt}
    (grows : d.Grows d') (there : d.graph.StmtAt b n stmt) : d'.graph.StmtAt b n stmt := by
  obtain ⟨block, live, get⟩ := there
  obtain ⟨block', live', grown⟩ := grows.block live
  exact ⟨block', live', getElem?_of_isPrefix grown.stmts get⟩

namespace Lowering

variable {ctx : Context} {carry : Carry} {base : Draft} {aside : BlockId → Prop} {phase : Phase}
  {hand : List (ValueId × ValueType)}

/-- The head of a counting loop when the pass goes on in it: its phis are the stack and the index,
which has the one input from before the loop. -/
theorem Inv.headPhis {s s₁ s₂ s' : State} {head : BlockId} {zero index : ValueId}
    (inv : Inv ctx carry base aside phase hand s) (ready : phase ≠ .ended)
    (plain : s.draft.Plain head) (unlinked : s.draft.Unlinked head)
    (others : ∀ c, s.Targets ctx c → c ≠ head) (initial : (zero, .index) ∈ hand)
    (h₁ : Lowering.jump head s = .ok () s₁)
    (h₂ : Lowering.addIndexPhi head s.draft.cursor zero s₁ = .ok index s₂)
    (h₃ : enter head s₂ = .ok () s') :
    Left ctx carry base aside hand (.goto head) s s₁ ∧ s₁.draft.Grows s'.draft ∧
      ∃ block p, s'.draft.graph.block? head = some block ∧ p ∈ block.phis ∧ p.value = index ∧
        p.type = .index ∧ p.inputs = [(s.draft.cursor, zero)] ∧
        ∀ v ∈ s'.stack.slots, s'.draft.graph.DefinedAt v ⟨head, 0⟩ := by
  obtain ⟨block, phis, indexed⟩ := inv.indexed ready plain unlinked others initial h₁ h₂
  obtain rfl := indexed.enter_eq h₃
  obtain ⟨left, -, -, live, -, -, values, -, rfl, rfl⟩ := indexed
  have live₂ := Draft.block?_addIndexPhi_of_eq_some s₁.draft.cursor zero left.inv.sound live
  refine ⟨left, (Draft.grows_addIndexPhi left.inv.sound).trans (Draft.grows_moveTo _ head), _, _,
    live₂, Draft.indexPhi_mem block, rfl, rfl, ?_, fun v mem => ?_⟩
  · rw [← left.ended.cursor]
    rfl
  · have mem : v ∈ phis := by simpa [OperandStack.slots, OperandStack.ofSlots] using mem
    rw [← values] at mem
    obtain ⟨p, listed, rfl⟩ := List.mem_map.mp mem
    exact .phi live₂ (List.mem_append_left _ listed) rfl

/-- The pass writes the head of a counting loop and goes on in the body. -/
theorem AtHead.builds {s₀ s s₁ s₂ s₃ s₄ s₅ s₆ s' : State} {head body loopEnd : BlockId}
    {length index one next more : ValueId}
    (at_ : AtHead ctx carry base aside hand head index s₀ s) (mem : (length, .index) ∈ hand)
    (others : ∀ c, s₀.Targets ctx c → c ≠ head)
    (named : ∃ offset, ctx.labels.blockAt? offset = some loopEnd)
    (h₁ : emit (.indexConst 1) s = .ok one s₁) (h₂ : emit (.indexAdd index one) s₁ = .ok next s₂)
    (h₃ : emit (.indexLe next length) s₂ = .ok more s₃)
    (h₄ : Lowering.newDirect s₃ = .ok body s₄)
    (h₅ : Lowering.branch more body loopEnd s₄ = .ok () s₅)
    (h₆ : registerLoopIndex head index next s₅ = .ok () s₆) (h₇ : enter body s₆ = .ok () s') :
    s.draft.Grows s'.draft ∧ s'.draft.Open ∧ s'.draft.point = ⟨body, 0⟩ ∧ s'.loops = s.loops ∧
      s'.draft.loopIndices.lookup head = some (index, next) ∧
      ∀ {final : Draft}, s'.draft.Later ctx final →
        final.graph.Tail head 0 [⟨one, .indexConst 1⟩, ⟨next, .indexAdd index one⟩,
          ⟨more, .indexLe next length⟩] (.branch more body loopEnd) ∧
        final.graph.Carries head loopEnd s.stack.slots ∧ final.graph.Carries head body [] ∧
        body ∈ final.direct := by
  obtain ⟨inv₃, isHead, defined, cursor, loops, dispatches⟩ := at_.count mem h₁ h₂ h₃
  have others₃ : ∀ c, s₃.Targets ctx c → c ≠ head :=
    fun c target => others c (target.congr loops dispatches)
  obtain ⟨left, inv₆, registered, -⟩ := inv₃.branchToBody cursor isHead defined others₃ named
    List.mem_cons_self (List.mem_cons_of_mem _ List.mem_cons_self) h₄ h₅ h₆
  obtain ⟨-, untouched, -, frame₄, -⟩ := inv₃.newDirect h₄
  have frame₆ : s₆ = { s₅ with draft := s₅.draft.registerLoopIndex head index next } := by
    cases h₆
    rfl
  obtain ⟨inv', frame'⟩ := left.resume (by simp [Terminator.successors]) untouched inv₆ registered
    (by rw [frame₆]) (Or.inl rfl) h₇
  -- the three statements of the head
  obtain ⟨rfl, frame₁, made₁⟩ := made_emit h₁
  obtain ⟨isNext, frame₂, made₂⟩ := made_emit h₂
  obtain ⟨isMore, frame₃, -⟩ := made_emit h₃
  have emitted : s₃.draft = s.draft.emitAll
      [.indexConst 1, .indexAdd index ⟨s.made⟩, .indexLe next length] := by
    rw [frame₃, frame₂, frame₁]
    rfl
  have isOpen : s.draft.Open := at_.inv.phase
  have grows₃ : s.draft.Grows s₃.draft := emitted ▸ Draft.grows_emitAll isOpen _
  have grows₄ : s₃.draft.Grows s₄.draft := by
    rw [frame₄]
    exact Draft.grows_addBlock Draft.others_newDirect
  have grows' : s₅.draft.Grows s'.draft := by
    rw [frame']
    exact registered.trans (Draft.grows_moveTo _ _)
  have stack : s₄.stack = s.stack := by rw [frame₄, frame₃, frame₂, frame₁]
  have cursor₄ : s₄.draft.cursor = s.draft.cursor := by
    rw [frame₄, at_.cursor]
    exact cursor
  refine ⟨grows₃.trans (grows₄.trans (left.grows.trans grows')), inv'.phase, ?_, ?_, ?_,
    fun {final} later => ?_⟩
  · obtain ⟨blank, -⟩ := inv₆.aside (Or.inl rfl)
    rw [frame', Draft.point]
    exact congrArg _ blank.stmtIndex_moveTo
  · have kept : s₅.loops = s₄.loops := congrArg (·.loops) left.frame
    rw [frame', frame₆, at_.loops, ← loops]
    exact kept.trans (by rw [frame₄])
  · rw [frame', frame₆]
    exact (Draft.lookup_registerLoopIndex head).trans (if_pos rfl)
  · have later := later.of_grows grows'
    have tail := left.tail_emitAll
      [.indexConst 1, .indexAdd index ⟨s.made⟩, .indexLe next length] isOpen cursor₄
      (fun live => by
        rw [frame₄]
        exact Draft.block?_addBlock_of_eq_some (emitted ▸ live)) later
    have carries := left.carries later.grows later.sound (later.plain named) (by
      simp [Terminator.successors]) named
    have live : (s₅.draft.graph.block? body).isSome := left.grows.isSome untouched.live
    have direct : body ∈ s₅.draft.direct := left.ended.direct ▸ untouched.mem
    obtain ⟨block, isBlock⟩ := Option.isSome_iff_exists.mp live
    rw [at_.cursor, at_.start] at tail
    rw [cursor₄, at_.cursor, stack] at carries
    rw [made₂, made₁] at isMore
    rw [made₁] at isNext
    refine ⟨?_, carries, later.carries_nil head live direct,
      (later.grows.direct isBlock).mpr direct⟩
    simpa only [Stmt.ofOps, ← isNext, ← isMore] using tail

/-- A value on the stack is defined before what the pass writes next. -/
theorem Inv.definedAt_stack {s : State} {v : ValueId} (inv : Inv ctx carry base aside phase hand s)
    (mem : v ∈ s.stack.items) :
    ∃ q, s.draft.graph.DefinedAt v q ∧ (s.draft.graph.block? q.block).isSome ∧
      (q.block = s.draft.cursor → q.index ≤ s.draft.stmtIndex) := by
  obtain ⟨q, defined⟩ := (inv.stack v mem).known.defined
  obtain ⟨block, live⟩ : ∃ block, s.draft.graph.block? q.block = some block := by
    cases defined with
    | phi live _ _ => exact ⟨_, live⟩
    | stmt live _ _ => exact ⟨_, live⟩
  refine ⟨q, defined, Option.isSome_iff_exists.mpr ⟨block, live⟩, fun here => ?_⟩
  rw [Draft.stmtIndex_eq (here ▸ live)]
  exact defined.index_le live

/-- The body starts with the element at the next index, which is stored. -/
theorem builds_body {s s₁ s₂ : State} {body : BlockId} {seq next element stored : ValueId}
    {name : String} (isOpen : s.draft.Open) (point : s.draft.point = ⟨body, 0⟩)
    (h₁ : emit (.forElement seq next) s = .ok element s₁)
    (h₂ : emit (.stVar name .current element) s₁ = .ok stored s₂) :
    s.draft.Grows s₂.draft ∧ s₂.loops = s.loops ∧
      s₂.draft.graph.StmtAt body 0 ⟨element, .forElement seq next⟩ ∧
      s₂.draft.graph.StmtAt body 1 ⟨stored, .stVar name .current element⟩ := by
  obtain ⟨cursor, index⟩ := Point.mk.inj point
  obtain ⟨rfl, frame₁, made₁⟩ := made_emit h₁
  obtain ⟨rfl, frame₂, -⟩ := made_emit h₂
  have emitted : s₂.draft =
      s.draft.emitAll [.forElement seq next, .stVar name .current ⟨s.made⟩] := by
    rw [frame₂, frame₁]
    rfl
  obtain ⟨block, live, drop⟩ := Draft.exists_emitAll isOpen
    [.forElement seq next, .stVar name .current ⟨s.made⟩]
  rw [← emitted, cursor] at live
  rw [index, List.drop_zero] at drop
  refine ⟨emitted ▸ Draft.grows_emitAll isOpen _, by rw [frame₂, frame₁], ⟨block, live, ?_⟩, block,
    live, ?_⟩
  · rw [drop]
    rfl
  · rw [drop, made₁]
    rfl

/-- The pass takes the length and a zero before it makes the head. -/
theorem builds_setUp {s s₁ s₂ s₃ : State} {seq length zero : ValueId} {head : BlockId}
    (isOpen : s.draft.Open) (h₁ : emit (.length seq) s = .ok length s₁)
    (h₂ : emit (.indexConst 0) s₁ = .ok zero s₂) (h₃ : newMerge s₂ = .ok head s₃) :
    s.draft.Grows s₃.draft ∧ s₃.draft.cursor = s.draft.cursor ∧ s₃.loops = s.loops ∧
      s.draft.graph.block? head = none ∧
      ∀ {t : Terminator} {s' : State} {final : Draft},
        Left ctx carry base aside hand t s₃ s' → s'.draft.Later ctx final →
        final.graph.Tail s.draft.cursor s.draft.stmtIndex
          [⟨length, .length seq⟩, ⟨zero, .indexConst 0⟩] t := by
  obtain ⟨rfl, frame₁, made₁⟩ := made_emit h₁
  obtain ⟨isZero, frame₂, -⟩ := made_emit h₂
  have emitted : s₂.draft = s.draft.emitAll [.length seq, .indexConst 0] := by
    rw [frame₂, frame₁]
    rfl
  have grows : s.draft.Grows s₂.draft := emitted ▸ Draft.grows_emitAll isOpen _
  cases h₃
  have cursor : s₂.draft.newMerge.2.cursor = s.draft.cursor := by
    show s₂.draft.cursor = _
    rw [emitted]
    exact Draft.cursor_emitAll _ _
  refine ⟨grows.trans (Draft.grows_addBlock fun _ => Iff.rfl), cursor, by rw [frame₂, frame₁], ?_,
    fun left later => ?_⟩
  · cases live : s.draft.graph.block? s₂.draft.graph.nextBlock with
    | none => rfl
    | some block =>
        obtain ⟨block', live', -⟩ := grows.block live
        exact absurd rfl (Draft.ne_nextBlock live')
  · have tail := left.tail_emitAll [.length seq, .indexConst 0] isOpen cursor
      (fun live => Draft.block?_addBlock_of_eq_some (emitted ▸ live)) later
    rw [made₁] at isZero
    simpa only [Stmt.ofOps, ← isZero] using tail

/-- The pass builds a counting loop. -/
theorem Inv.builds_startFor {s s' : State} {call symbol : PoolIndex} {endLabel : Label}
    (inv : Inv ctx carry base aside .begun [] s)
    (h : Lowering.startFor ctx call symbol endLabel s = .ok () s') :
    ∃ (L : ForLoop) (below : List ValueId) (opened : OpenDepths),
      s.stack.items = L.seq :: below ∧ L.before = s.draft.cursor ∧ L.place = s.draft.stmtIndex ∧
      ctx.pool.symbol symbol = .ok L.name ∧ ctx.labels.block endLabel = .ok L.loopEnd ∧
      s'.loops = ⟨.forEach, L.head, L.loopEnd, opened⟩ :: s.loops ∧
      ∀ {final : Draft}, s'.draft.Later ctx final → final.graph.HasFor L := by
  obtain ⟨seq, s₁, h₁, h⟩ := bind_eq_ok_iff.mp h
  have inv₁ := ensures_pop s seq s₁ inv h₁
  obtain ⟨below, items, rfl⟩ := pop_eq_ok h₁
  obtain ⟨_, -, h⟩ := constant_bind_eq_ok.mp h
  obtain ⟨name, isName, h⟩ := constant_bind_eq_ok.mp h
  obtain ⟨name, isName, rfl⟩ := exists_ok_of_toOption ⟨name, isName, rfl⟩
  obtain ⟨loopEnd, isEnd, h⟩ := target_bind_eq_ok.mp h
  have named := named_of_block isEnd
  -- before the loop
  obtain ⟨length, s₂, h₂, h⟩ := bind_eq_ok_iff.mp h
  have inv₂ := inv₁.emit (by simp) h₂ (by simp [Op.inputs, Op.operands, Phase.reads])
  obtain ⟨zero, s₃, h₃, h⟩ := bind_eq_ok_iff.mp h
  have inv₃ := inv₂.emit (by simp) h₃ (by simp [Op.inputs, Op.operands])
  obtain ⟨_, _, h₄, h⟩ := bind_eq_ok_iff.mp h
  cases h₄
  obtain ⟨head, s₄, h₄, h⟩ := bind_eq_ok_iff.mp h
  obtain ⟨inv₄, plain, unlinked, -, others, frame₄⟩ := inv₃.newMerge h₄
  have isOpen : s.draft.Open := Phase.Holds.isOpen inv.phase (by simp)
  obtain ⟨grows₄, cursor, loops₄, isNew, setUp⟩ :=
    builds_setUp (s := { s with stack := ⟨below⟩ }) isOpen h₂ h₃ h₄
  -- the head, which has its phis when the pass goes on in it
  obtain ⟨_, s₅, h₅, h⟩ := bind_eq_ok_iff.mp h
  obtain ⟨index, s₆, h₆, h⟩ := bind_eq_ok_iff.mp h
  obtain ⟨_, s₇, h₇, h⟩ := bind_eq_ok_iff.mp h
  have others₄ : ∀ c, s₄.Targets ctx c → c ≠ head := by
    rw [frame₄]
    exact others
  rw [show s₃.draft.cursor = s₄.draft.cursor by rw [frame₄]; rfl] at h₆
  have atHead := inv₄.enterHead (by simp) (Or.inl rfl) plain unlinked others₄ List.mem_cons_self
    h₅ h₆ h₇
  obtain ⟨left, grows₇, block, p, live, isPhi, value, type, inputs, slots⟩ :=
    inv₄.headPhis (by simp) plain unlinked others₄ List.mem_cons_self h₅ h₆ h₇
  obtain ⟨one, s₈, h₈, h⟩ := bind_eq_ok_iff.mp h
  obtain ⟨next, s₉, h₉, h⟩ := bind_eq_ok_iff.mp h
  obtain ⟨more, s₁₀, h₁₀, h⟩ := bind_eq_ok_iff.mp h
  obtain ⟨body, s₁₁, h₁₁, h⟩ := bind_eq_ok_iff.mp h
  obtain ⟨_, s₁₂, h₁₂, h⟩ := bind_eq_ok_iff.mp h
  obtain ⟨_, s₁₃, h₁₃, h⟩ := bind_eq_ok_iff.mp h
  obtain ⟨_, s₁₄, h₁₄, h⟩ := bind_eq_ok_iff.mp h
  obtain ⟨grows₁₄, isOpen₁₄, point, loops₁₄, registered, built⟩ := atHead.builds
    (List.mem_cons_of_mem _ List.mem_cons_self) others₄ named h₈ h₉ h₁₀ h₁₁ h₁₂ h₁₃ h₁₄
  -- the body
  obtain ⟨element, s₁₅, h₁₅, h⟩ := bind_eq_ok_iff.mp h
  obtain ⟨stored, s₁₆, h₁₆, h⟩ := bind_eq_ok_iff.mp h
  cases h
  obtain ⟨grows₁₆, loops₁₆, isElement, isStore⟩ := builds_body isOpen₁₄ point h₁₅ h₁₆
  refine ⟨⟨s.draft.cursor, s.draft.stmtIndex, head, body, loopEnd, seq, length, zero, index, one,
    next, more, element, name⟩, below, s₁₆.openDepths, items, rfl, rfl, isName, isEnd, ?_,
    fun {final} later => ?_⟩
  · have kept : s₁₆.loops = s.loops := by rw [loops₁₆, loops₁₄, atHead.loops, loops₄]
    exact congrArg (_ :: ·) kept
  have later₁₄ := later.of_grows grows₁₆
  have later₇ := later₁₄.of_grows grows₁₄
  have later₄ := (later₇.of_grows grows₇).of_grows left.grows
  obtain ⟨tail, toEnd, toBody, direct⟩ := built later₁₄
  obtain ⟨block', p', live', mem', value', edges⟩ := later₇.exists_indexPhi live isPhi type
    (cursor ▸ inputs) (value ▸ later₁₄.grows.loopIndex registered)
  obtain ⟨q, defined, liveSeq, bound⟩ := inv.definedAt_stack (items ▸ List.mem_cons_self)
  have apart : body ≠ loopEnd := by
    rintro rfl
    exact (later.plain named).merge.notDirect direct
  have other : q.block ≠ head := by
    rintro rfl
    rw [show s.draft.graph.block? q.block = none from isNew] at liveSeq
    cases liveSeq
  exact {
    before := setUp left (later₇.of_grows grows₇)
    index := ⟨block', p', live', mem', value'.trans value, edges⟩
    head := tail
    notEntry := later.sound.ne_entry (.phi live' mem' rfl)
    entered := fun b edge =>
      later.sound.eq_of_edges direct edge (tail.mem_successorsOf List.mem_cons_self)
    apart
    toBody
    toEnd := ⟨_, toEnd, fun v mem => later₇.grows.definedAt (slots v mem)⟩
    element := later.grows.stmtAt isElement
    store := ⟨_, later.grows.stmtAt isStore⟩
    seq := ⟨q, later₄.grows.definedAt (grows₄.definedAt defined), other, bound⟩ }

end Lowering

open Lowering

/-- In the graph of a unit there is a counting loop for every one that was translated. -/
theorem exists_hasFor {unit : CodeUnit} {pool : Pool} {options : Options} {g : Graph}
    {labels : LabelMap} {draft : Draft} {k : Nat} {call symbol : PoolIndex} {endLabel : Label}
    {a t : State} (compiles : unit.compile pool options.raw = .ok g)
    (known : LabelMap.resolve unit pool (.new unit.displayName) = .ok labels draft)
    (visits : Visits ⟨pool, labels, options.unitKind⟩ unit.instructions { draft } k
      (.startFor call symbol endLabel) a)
    (translated : Before ⟨pool, labels, options.unitKind⟩ unit.instructions { draft } (k + 1) t) :
    g.Assigned ∧ ∃ (L : ForLoop) (below : List ValueId) (opened : OpenDepths),
      a.stack.items = L.seq :: below ∧ L.before = a.draft.cursor ∧ L.place = a.draft.stmtIndex ∧
      pool.symbol symbol = .ok L.name ∧ labels.block endLabel = .ok L.loopEnd ∧
      t.loops = ⟨.forEach, L.head, L.loopEnd, opened⟩ :: a.loops ∧ g.HasFor L := by
  obtain ⟨raw, lowered, rfl⟩ := CodeUnit.compile_eq_ok.mp compiles
  obtain ⟨labels', draft', final, pass, rfl⟩ := CodeUnit.lower_eq_ok.mp lowered
  have same := pass.resolve
  rw [known] at same
  cases same
  have bound : k < unit.size := (List.getElem?_eq_some_iff.mp visits.get).1
  obtain ⟨t', lowered, rfl, inv, later⟩ :=
    visits.translation known translated pass.before_final bound (Nat.le_refl _)
  obtain ⟨L, below, opened, items, before, place, name, loopEnd, loops, built⟩ :=
    inv.builds_startFor lowered
  exact ⟨pass.assigned, L, below, opened, items, before, place, name, loopEnd, loops, built later⟩

/-- Counting loops count. Every time that control comes to the head it is in a lap that is counted
from the last entry of the loop, and each lap goes as its number tells, with the length that the
sequence had at that entry and an element that it has now. -/
theorem for_counts {unit : CodeUnit} {pool : Pool} {options : Options} {g : Graph}
    {labels : LabelMap} {draft : Draft} {k : Nat} {call symbol : PoolIndex} {endLabel : Label}
    {a t : State} (compiles : unit.compile pool options.raw = .ok g)
    (known : LabelMap.resolve unit pool (.new unit.displayName) = .ok labels draft)
    (visits : Visits ⟨pool, labels, options.unitKind⟩ unit.instructions { draft } k
      (.startFor call symbol endLabel) a)
    (translated : Before ⟨pool, labels, options.unitKind⟩ unit.instructions { draft } (k + 1) t) :
    ∃ (L : ForLoop) (below : List ValueId) (opened : OpenDepths),
      a.stack.items = L.seq :: below ∧ L.before = a.draft.cursor ∧ L.place = a.draft.stmtIndex ∧
      pool.symbol symbol = .ok L.name ∧ labels.block endLabel = .ok L.loopEnd ∧
      t.loops = ⟨.forEach, L.head, L.loopEnd, opened⟩ :: a.loops ∧ g.HasFor L ∧
      ∀ {V : Type} {I : Interp V} (M : I.Counting) {c : Config V},
        ((g.process I).Reaches c → c.block = L.head →
          ∃ c₀ n, g.Since I L.before L.head c₀ n c) ∧
        ∀ {c₀ : Config V} {n : Nat}, g.Since I L.before L.head c₀ n c →
          c.point = ⟨L.head, 0⟩ → L.Lap g M c₀ n c := by
  obtain ⟨assigned, L, below, opened, items, before, place, name, loopEnd, loops, loop⟩ :=
    exists_hasFor compiles known visits translated
  refine ⟨L, below, opened, items, before, place, name, loopEnd, loops, loop,
    fun {V I} M {c} => ⟨loop.exists_since assigned, fun since here => ?_⟩⟩
  exact since.lap loop assigned M here

/-! ### A loop with an arm that goes on with the next lap -/

/-- Some values, with a meaning for the operations of a counting loop. -/
inductive Word where
  | index (n : Nat)
  | test (b : Bool)
  | items (ns : List Nat)
deriving DecidableEq

namespace Word

def number : Word → Nat
  | index n => n
  | _ => 0

def length : Word → Nat
  | items ns => ns.length
  | _ => 0

def element : Word → Nat → Word
  | items ns, k => index (ns.getD (k - 1) 0)
  | _, _ => index 0

/-- What was stored in a variable last. -/
def stored (name : String) : List (Event Word) → Word
  | .op (.stVar name' _ _) [x] _ :: earlier => if name' = name then x else stored name earlier
  | _ :: earlier => stored name earlier
  | [] => items [0, 1]

def interp : Interp Word where
  result h op args :=
    match op, args with
    | .indexConst n, [] => index n
    | .indexAdd _ _, [i, j] => index (i.number + j.number)
    | .length _, [x] => index x.length
    | .indexLe _ _, [i, j] => test (i.number ≤ j.number)
    | .forElement _ _, [x, i] => x.element i.number
    | .ldVar name _ _, [] => stored name h
    | .asTest _ _, [x] => test (x ≠ index 0)
    | _, _ => test false
  holds
    | test b => b
    | _ => false

def counting : interp.Counting where
  number := number
  length := length
  element := element
  number_indexConst _ _ := rfl
  number_indexAdd _ _ _ := rfl
  number_length _ _ := rfl
  holds_indexLe _ _ _ := rfl
  result_forElement _ _ _ := rfl

end Word

/-- A loop that goes on with the next lap while a call is open, or else at the end of its body. -/
def nextInArm : CodeUnit where
  name := none
  instructions := [.getVar ⟨1⟩ false, .startFor ⟨0⟩ ⟨2⟩ ⟨0⟩, .getVar ⟨2⟩ false,
    .branchIfNot ⟨0⟩ ⟨1⟩, .getFun .lexical ⟨3⟩, .leaveLoop .next, .stepFor, .endLoop .forEach,
    .load .null, .ret]
  labels := [some 7, some 6]

def nextInArmPool : Pool :=
  ⟨[.expr (.symbol "for"), .symbol "xs", .symbol "i", .symbol "f"]⟩

/-- Where a run is after a number of steps, with the count of its laps: where the loop was entered
last and in which lap the run is, if it was entered. -/
def Graph.lapAfter {V : Type} (g : Graph) (I : Interp V) (before head : BlockId) :
    Nat → Option (Option (Config V × Nat) × Config V)
  | 0 => some (none, (g.process I).start)
  | n + 1 =>
    match g.lapAfter I before head n with
    | some (lap, c) =>
      match c.step g I with
      | .running c' =>
        if c'.point = ⟨head, 0⟩ then
          some (if c.block = before then some (c', 1) else lap.map fun l => (l.1, l.2 + 1), c')
        else some (lap, c')
      | _ => none
    | none => none

theorem Graph.since_of_lapAfter {V : Type} {g : Graph} {I : Interp V} {before head : BlockId}
    {n : Nat} {r : Option (Config V × Nat) × Config V} (h : g.lapAfter I before head n = some r) :
    (g.process I).Steps n (g.process I).start r.2 ∧
      ∀ l ∈ r.1, g.Since I before head l.1 l.2 r.2 := by
  induction n generalizing r with
  | zero =>
      cases h
      exact ⟨.zero _, fun l mem => absurd mem (Option.not_mem_none l)⟩
  | succ n ih =>
      rw [lapAfter] at h
      split at h
      case h_2 => cases h
      rename_i lap c counted
      obtain ⟨steps, since⟩ := ih counted
      split at h
      case h_2 => cases h
      rename_i c' last
      split at h
      · rename_i arrives
        cases h
        refine ⟨.succ steps last, fun l mem => ?_⟩
        split at mem
        · rename_i outer
          cases mem
          exact .first ⟨n, steps⟩ outer last arrives
        · rename_i other
          obtain ⟨l', was, rfl⟩ := Option.map_eq_some_iff.mp mem
          exact .again (since l' was) other last arrives
      · rename_i inside
        cases h
        exact ⟨.succ steps last, fun l mem => .inside (since l mem) last inside⟩

/-- The third lap, after one that ended with the body and one that ended in the arm. -/
theorem for_counts_nextInArm : ∃ g a L c₀ c,
    nextInArm.compile nextInArmPool (Options.raw {}) = .ok g ∧
    nextInArm.Lowers nextInArmPool .function 1 (.startFor ⟨0⟩ ⟨2⟩ ⟨0⟩) a ∧
    L.before = a.draft.cursor ∧ g.HasFor L ∧
    g.Since Word.interp L.before L.head c₀ 3 c ∧ c.point = ⟨L.head, 0⟩ ∧
    L.Lap g Word.counting c₀ 3 c := by
  have runs : ∃ g ∈ (nextInArm.compile nextInArmPool (Options.raw {})).toOption,
      (∀ block ∈ g.block? ⟨0⟩, block.terminator = some (.goto ⟨3⟩)) ∧
      ∃ r ∈ g.lapAfter Word.interp ⟨0⟩ ⟨3⟩ 25, r.2.point = ⟨⟨3⟩, 0⟩ ∧ ∃ l ∈ r.1, l.2 = 3 := by
    decide +kernel
  obtain ⟨g, compiles, last, ⟨_, c⟩, after, here, ⟨c₀, _⟩, counted, rfl⟩ :=
    exists_ok_of_toOption runs
  have visited : ∃ a ∈ nextInArm.arrival? nextInArmPool .function 1, a.live = true ∧
      a.draft.cursor = ⟨0⟩ := by
    decide +kernel
  obtain ⟨a, arrives, live, cursor⟩ := visited
  have lowers : nextInArm.Lowers nextInArmPool .function 1 (.startFor ⟨0⟩ ⟨2⟩ ⟨0⟩) a :=
    CodeUnit.lowers_of_arrival rfl arrives live
  obtain ⟨raw, lowered, -⟩ := CodeUnit.compile_eq_ok.mp compiles
  obtain ⟨labels, draft, final, pass, -⟩ := CodeUnit.lower_eq_ok.mp lowered
  obtain ⟨t, translated⟩ := exists_before pass.run 2
  obtain ⟨L, -, -, -, before, -, -, -, -, loop, counts⟩ :=
    for_counts compiles pass.resolve (pass.visits lowers) translated
  have head : L.head = ⟨3⟩ := loop.head_eq (by rwa [before, cursor])
  have since := (Graph.since_of_lapAfter after).2 _ counted
  rw [← cursor, ← before, ← head] at since
  rw [← head] at here
  exact ⟨g, a, L, c₀, c, compiles, lowers, before, loop, since, here,
    (counts Word.counting).2 since here⟩

/-! ### A loop over its own variable -/

/-- `for (x in x)`, with a jump from inside of the loop to before it, and from there to the end of
the body. -/
def rereads : CodeUnit where
  name := none
  instructions := [.getVar ⟨1⟩ false, .dup, .branchIfNot ⟨0⟩ ⟨1⟩, .startFor ⟨0⟩ ⟨1⟩ ⟨2⟩, .goto ⟨0⟩,
    .pop, .stepFor, .endLoop .forEach, .load .null, .ret]
  labels := [some 0, some 5, some 7]

def rereadsPool : Pool := ⟨[.expr (.symbol "for"), .symbol "x"]⟩

/-- The variable is read anew between the first lap and the second, where there are no two elements
any more. The second lap enters the body all the same, and what is stored there is not the second
element of the sequence that the loop was entered with. -/
theorem rereads_not_goes : ∃ g a L c₀ c x y,
    rereads.compile rereadsPool (Options.raw {}) = .ok g ∧
    rereads.Lowers rereadsPool .function 3 (.startFor ⟨0⟩ ⟨1⟩ ⟨2⟩) a ∧
    L.before = a.draft.cursor ∧ g.HasFor L ∧
    g.Since Word.interp L.before L.head c₀ 2 c ∧ c.point = ⟨L.head, 0⟩ ∧
    c₀.env L.seq = some x ∧ c.env L.seq = some y ∧
    ¬L.Goes g Word.counting 2 x x c ∧ ¬L.Goes g Word.counting 2 y y c := by
  have runs : ∃ g ∈ (rereads.compile rereadsPool (Options.raw {})).toOption,
      (∀ block ∈ g.block? ⟨4⟩, block.terminator = some (.goto ⟨5⟩)) ∧
      (∀ block ∈ g.block? ⟨5⟩, block.terminator = some (.branch ⟨8⟩ ⟨6⟩ ⟨2⟩)) ∧
      ∃ r ∈ g.lapAfter Word.interp ⟨4⟩ ⟨5⟩ 18, r.2.point = ⟨⟨5⟩, 0⟩ ∧
        r.2.env ⟨0⟩ = some (.index 0) ∧
        (∃ l ∈ r.1, l.2 = 2 ∧ l.1.env ⟨0⟩ = some (.items [0, 1])) ∧
        (∃ r ∈ g.lapAfter Word.interp ⟨4⟩ ⟨5⟩ 22, r.2.block = ⟨6⟩) ∧
        ∃ r ∈ g.lapAfter Word.interp ⟨4⟩ ⟨5⟩ 24, r.2.history.head? =
          some (.op (.stVar "x" .current ⟨0⟩) [.index 0] (.test false)) := by
    decide +kernel
  obtain ⟨g, compiles, last, leaves, ⟨_, c⟩, after, here, now, ⟨⟨c₀, _⟩, counted, rfl, atEntry⟩,
    ⟨⟨_, c₂⟩, after₂, enters⟩, ⟨_, c₃⟩, after₃, stored⟩ := exists_ok_of_toOption runs
  have visited : ∃ a ∈ rereads.arrival? rereadsPool .function 3, a.live = true ∧
      a.draft.cursor = ⟨4⟩ ∧ a.stack.items = [⟨0⟩] := by
    decide +kernel
  obtain ⟨a, arrives, live, cursor, items⟩ := visited
  have lowers : rereads.Lowers rereadsPool .function 3 (.startFor ⟨0⟩ ⟨1⟩ ⟨2⟩) a :=
    CodeUnit.lowers_of_arrival rfl arrives live
  obtain ⟨raw, lowered, -⟩ := CodeUnit.compile_eq_ok.mp compiles
  obtain ⟨labels, draft, final, pass, -⟩ := CodeUnit.lower_eq_ok.mp lowered
  obtain ⟨t, translated⟩ := exists_before pass.run 4
  obtain ⟨-, L, _, -, seq, before, -, -, -, -, loop⟩ :=
    exists_hasFor compiles pass.resolve (pass.visits lowers) translated
  rw [items] at seq
  obtain ⟨seq, -⟩ := List.cons.inj seq
  have head : L.head = ⟨5⟩ := loop.head_eq (by rwa [before, cursor])
  have loopEnd : L.loopEnd = ⟨2⟩ := by
    obtain ⟨block, live, -, ends⟩ := loop.head
    rw [leaves block (head ▸ live)] at ends
    exact (Terminator.branch.inj (Option.some.inj ends)).2.2.symm
  obtain ⟨steps, since⟩ := Graph.since_of_lapAfter after
  have since := since _ counted
  rw [← cursor, ← before, ← head] at since
  -- a lap takes four steps to the body and two more to the store
  obtain ⟨_, steps', run⟩ := (Graph.since_of_lapAfter after₂).1.split (m := 18) (by decide)
  obtain rfl := steps.det steps'
  obtain ⟨_, steps', run'⟩ := (Graph.since_of_lapAfter after₃).1.split (m := 22) (by decide)
  obtain rfl := (Graph.since_of_lapAfter after₂).1.det steps'
  refine ⟨g, a, L, c₀, c, .items [0, 1], .index 0, compiles, lowers, before, loop, since,
    head ▸ here, seq ▸ atEntry, seq ▸ now, ?_, ?_⟩
  · rintro ⟨c₁, c', j, first, -, -, -, step, -, goes⟩
    obtain rfl := run.det (.succ first step)
    rw [if_pos (by decide)] at goes
    obtain ⟨-, c', r, h, body, -, history⟩ := goes
    obtain rfl := run'.det body
    rw [history] at stored
    have elements := (Event.op.inj (Option.some.inj stored)).2.1
    cases elements
  · rintro ⟨c₁, c', j, first, -, -, -, step, -, goes⟩
    obtain rfl := run.det (.succ first step)
    rw [if_neg (by decide), loopEnd] at goes
    cases enters.symm.trans goes

end StackLift
