import StackLift.Lower.Step
import StackLift.Proofs.Draft.Reached

/-!
What holds while an instruction is lowered, and how it is shown: `Ensures P m Q`
says that a step of the pass which starts where `P` holds and succeeds ends where
`Q` holds. The rules of this module are one for each primitive step; an
instruction is a sequence of these.

An instruction begins in an open block. There it may read, besides the values it
has in hand, those that brackets hold for it. Once it has gone on to another
block it reads only what it has in hand, and when the block has its end it reads
nothing. Blocks that are set aside stay blank until the pass goes on in them.
-/

namespace StackLift

/-! ### Values in brackets -/

def Callee.values : Callee → List ValueId
  | .value v => [v]
  | .builtin _ => []

def ArgValue.values : ArgValue → List ValueId
  | .value v => [v]
  | .missing | .dots => []

/-- The values that a call holds. -/
def PendingCall.values (c : PendingCall) : List ValueId :=
  c.callee.values ++ c.args.flatMap (·.value.values)

namespace Draft

/-- The value is defined, with the type. -/
structure Known (d : Draft) (v : ValueId) (type : ValueType) : Prop where
  defined : ∃ p, d.graph.DefinedAt v p
  type : d.HasType v type

/-- The value is in scope at the next place for a statement, with the type. -/
structure Scoped (d : Draft) (v : ValueId) (type : ValueType) : Prop where
  scope : d.InScope v d.point
  type : d.HasType v type

/-- A merge to which an edge may be wired. -/
structure Joint (d : Draft) (b : BlockId) : Prop where
  live : (d.graph.block? b).isSome
  merge : d.Merge b
  index : ∀ {phi next : ValueId}, d.loopIndices.lookup b = some (phi, next) → d.Known next .index

/-- A merge that is no head of a counting loop. -/
structure Plain (d : Draft) (b : BlockId) : Prop extends d.Joint b where
  unindexed : d.loopIndices.lookup b = none

theorem Plain.of_unindexed {d : Draft} {b : BlockId} (live : (d.graph.block? b).isSome)
    (merge : d.Merge b) (unindexed : d.loopIndices.lookup b = none) : d.Plain b := by
  refine ⟨⟨live, merge, fun registered => ?_⟩, unindexed⟩
  rw [unindexed] at registered
  cases registered

theorem Scoped.known {d : Draft} {v : ValueId} {type : ValueType} (here : d.Scoped v type) :
    d.Known v type :=
  ⟨here.scope.exists_definedAt, here.type⟩

theorem Known.mono {d d' : Draft} {v : ValueId} {type : ValueType} (known : d.Known v type)
    (grows : d.Grows d') : d'.Known v type := by
  obtain ⟨p, defined⟩ := known.defined
  exact ⟨⟨p, grows.definedAt defined⟩, known.type.mono grows⟩

theorem Grows.isSome {d d' : Draft} (grows : d.Grows d') {b : BlockId}
    (live : (d.graph.block? b).isSome) : (d'.graph.block? b).isSome := by
  obtain ⟨block, hblock⟩ := Option.isSome_iff_exists.mp live
  obtain ⟨block', hblock', -⟩ := grows.block hblock
  exact Option.isSome_iff_exists.mpr ⟨block', hblock'⟩

/-- While a block is under construction, its next place moves down. -/
theorem Grows.stmtIndex_le {d d' : Draft} (grows : d.Grows d') (cursor : d'.cursor = d.cursor) :
    d.stmtIndex ≤ d'.stmtIndex := by
  rw [stmtIndex, stmtIndex, cursor]
  cases live : d.graph.block? d.cursor with
  | none => exact Nat.zero_le _
  | some block =>
      obtain ⟨block', live', grown⟩ := grows.block live
      rw [live']
      exact grown.stmts.length_le

theorem Scoped.mono {d d' : Draft} {v : ValueId} {type : ValueType} (here : d.Scoped v type)
    (grows : d.Grows d') (cursor : d'.cursor = d.cursor) : d'.Scoped v type := by
  refine ⟨?_, here.type.mono grows⟩
  rw [point, cursor]
  exact (here.scope.mono grows).later (grows.stmtIndex_le cursor)

theorem Open.emit {d : Draft} (isOpen : d.Open) (op : Op) : (d.emitted op).Open := by
  obtain ⟨block, live, none⟩ := isOpen
  refine ⟨block.append ⟨d.graph.nextValue, op⟩, ?_, none⟩
  rw [block?_emitted]
  exact (if_pos rfl).trans (congrArg _ live)

end Draft

/-! ### The invariant -/

inductive Phase where
  /-- In the block in which the instruction began. -/
  | begun
  /-- In some open block. -/
  | running
  /-- The block under construction has its end. -/
  | ended

namespace Phase

def Holds (carry : Carry) (d : Draft) : Phase → Prop
  | begun => d.Open ∧ d.cursor = carry.point.block ∧ carry.point.index ≤ d.stmtIndex
  | running => d.Open
  | ended => d.HasEnd d.cursor

/-- What may be read besides the stack. -/
def reads (carry : Carry) (hand : List (ValueId × ValueType)) : Phase → List (ValueId × ValueType)
  | begun => hand ++ carry.values
  | running => hand
  | ended => []

variable {phase : Phase} {carry : Carry} {d : Draft}

theorem Holds.isOpen (holds : phase.Holds carry d) (ready : phase ≠ .ended) : d.Open := by
  cases phase with
  | begun => exact holds.1
  | running => exact holds
  | ended => exact absurd rfl ready

theorem Holds.emit (holds : phase.Holds carry d) (ready : phase ≠ .ended) (op : Op) :
    phase.Holds carry (d.emitted op) := by
  have isOpen := Holds.isOpen holds ready
  cases phase with
  | begun =>
      have grows : d.Grows (d.emitted op) := Draft.grows_emitted isOpen
      exact ⟨isOpen.emit op, holds.2.1, Nat.le_trans holds.2.2 (grows.stmtIndex_le rfl)⟩
  | running => exact isOpen.emit op
  | ended => exact absurd rfl ready

end Phase

/-- A block where control may go from anywhere. -/
def State.Aims (ctx : Context) (s : State) (b : BlockId) : Prop :=
  (∃ offset, ctx.labels.blockAt? offset = some b) ∨ (∃ l ∈ s.loops, l.loopEnd = b) ∨
    ∃ p ∈ s.dispatches, p.after = b

/-- A block that an edge may be wired to. -/
def State.Targets (ctx : Context) (s : State) (b : BlockId) : Prop :=
  s.Aims ctx b ∨ ∃ l ∈ s.loops, l.next = b

theorem State.Targets.congr {ctx : Context} {s s' : State} {b : BlockId} (target : s'.Targets ctx b)
    (loops : s'.loops = s.loops) (dispatches : s'.dispatches = s.dispatches) : s.Targets ctx b := by
  rwa [Targets, Aims, loops, dispatches] at target

namespace Lowering

/-- Holds while an instruction is lowered that found the draft `base`. -/
structure Inv (ctx : Context) (carry : Carry) (base : Draft) (aside : BlockId → Prop)
    (phase : Phase) (hand : List (ValueId × ValueType)) (s : State) : Prop where
  sound : s.draft.Sound
  reached : s.draft.Reached
  acts : Draft.Acts carry base s.draft
  live : phase ≠ .ended → s.live = true
  phase : phase.Holds carry s.draft
  aims : ∀ {b : BlockId}, s.Aims ctx b → s.draft.Plain b
  nexts : ∀ l ∈ s.loops, s.draft.Joint l.next
  calls : ∀ c ∈ s.calls, ∀ v ∈ c.values, s.draft.Known v .value
  rhs : ∀ p ∈ s.dispatches, ∀ v ∈ p.rhs.toList, s.draft.Known v .value
  aside : ∀ {b : BlockId}, aside b → s.draft.Blank b ∧ b ≠ s.draft.cursor
  carried : ∀ e ∈ carry.values, s.draft.HasType e.1 e.2
  stack : ∀ v ∈ s.stack.items, s.draft.Scoped v .value
  hand : ∀ e ∈ hand, s.draft.Scoped e.1 e.2

/-- A step that starts in `P` and succeeds ends in `Q`. -/
def Ensures {α : Type} (P : State → Prop) (m : Lowering α) (Q : α → State → Prop) : Prop :=
  ∀ (s : State) (a : α) (s' : State), P s → m s = .ok a s' → Q a s'

section

variable {α β : Type} {P P' : State → Prop} {Q : α → State → Prop} {R : β → State → Prop}

theorem Ensures.bind {m : Lowering α} {f : α → Lowering β} (first : Ensures P m Q)
    (rest : ∀ a, Ensures (Q a) (f a) R) : Ensures P (m >>= f) R := by
  intro s b s' hP h
  obtain ⟨a, u, h₁, h₂⟩ := bind_eq_ok_iff.mp h
  exact rest a u b s' (first s a u hP h₁) h₂

theorem Ensures.pure {a : α} (post : ∀ s, P s → Q a s) : Ensures P (pure a) Q := by
  intro s a' s' hP h
  cases h
  exact post s hP

theorem Ensures.weaken {m : Lowering α} {Q' : α → State → Prop} (ensures : Ensures P m Q)
    (pre : ∀ s, P' s → P s) (post : ∀ a s, Q a s → Q' a s) : Ensures P' m Q' :=
  fun s a s' hP h => post a s' (ensures s a s' (pre s hP) h)

/-- A look-up changes nothing. -/
theorem Ensures.constant (x : Except BytecodeError α) : Ensures P (constant x) fun _ => P := by
  intro s a s' hP h
  cases x with
  | ok a => cases h; exact hP
  | error cause => cases h

theorem ofExcept_eq_ok {x : Except Fault α} {s s' : State} {a : α}
    (h : ofExcept x s = .ok a s') : x = .ok a ∧ s' = s := by
  cases x with
  | ok a => cases h; exact ⟨rfl, rfl⟩
  | error fault => cases h

theorem Ensures.ofExcept (x : Except Fault α) :
    Ensures P (ofExcept x) fun a s => P s ∧ x = .ok a := by
  intro s a s' hP h
  obtain ⟨result, rfl⟩ := ofExcept_eq_ok h
  exact ⟨hP, result⟩

end

variable {ctx : Context} {carry : Carry} {base : Draft} {aside : BlockId → Prop} {phase : Phase}
  {hand : List (ValueId × ValueType)}

/-! ### Look-ups -/

section

variable {s s' : State}

theorem constant_bind_eq_ok {α β : Type} {x : Except BytecodeError α} {f : α → Lowering β} {b : β} :
    (constant x >>= f) s = .ok b s' ↔ ∃ a, x.toOption = some a ∧ f a s = .ok b s' := by
  rw [bind_eq_ok_iff]
  cases x with
  | error e => simp [constant, Except.toOption]
  | ok a =>
      constructor
      · rintro ⟨_, _, h, h'⟩
        cases h
        exact ⟨a, rfl, h'⟩
      · rintro ⟨_, h, h'⟩
        cases h
        exact ⟨a, s, rfl, h'⟩

theorem site_bind_eq_ok {β : Type} {call : PoolIndex} {f : CallSite → Lowering β} {b : β} :
    (ctx.site call >>= f) s = .ok b s' ↔
      ∃ e, (ctx.pool.expr call).toOption = some e ∧ f (.pool call) s = .ok b s' := by
  rw [← constant_bind_eq_ok, Context.site]
  cases ctx.pool.expr call <;> rfl

theorem ofExcept_bind_eq_ok {α β : Type} {x : Except Fault α} {f : α → Lowering β} {b : β} :
    (ofExcept x >>= f) s = .ok b s' ↔ ∃ a, x = .ok a ∧ f a s = .ok b s' := by
  rw [bind_eq_ok_iff]
  constructor
  · rintro ⟨a, u, h, h'⟩
    obtain ⟨found, rfl⟩ := ofExcept_eq_ok h
    exact ⟨a, found, h'⟩
  · rintro ⟨a, rfl, h'⟩
    exact ⟨a, s, rfl, h'⟩

theorem target_bind_eq_ok {β : Type} {l : Label} {f : BlockId → Lowering β} {b : β} :
    (ctx.target l >>= f) s = .ok b s' ↔ ∃ c, ctx.labels.block l = .ok c ∧ f c s = .ok b s' :=
  ofExcept_bind_eq_ok

theorem peekNth_bind_eq_ok {β : Type} {n : Nat} {f : ValueId → Lowering β} {b : β} :
    (peekNth n >>= f) s = .ok b s' ↔ ∃ v, s.stack.items[n]? = some v ∧ f v s = .ok b s' := by
  refine (ofExcept_bind_eq_ok (x := s.stack.peekNth n)).trans (exists_congr fun v => ?_)
  rw [OperandStack.peekNth]
  cases s.stack.items[n]? <;> simp

end

/-! ### Steps that leave the draft alone -/

/-- The invariant does not depend on how much is in hand, and is kept by a change
to the stack and the brackets that brings nothing unknown into them. -/
theorem Inv.change {s : State} (inv : Inv ctx carry base aside phase hand s) (s' : State)
    (draft : s'.draft = s.draft) (live : s.live = true → s'.live = true)
    (loops : ∀ l ∈ s'.loops, l ∈ s.loops ∨ s.draft.Plain l.loopEnd ∧ s.draft.Joint l.next)
    (calls : ∀ c ∈ s'.calls, ∀ v ∈ c.values, s.draft.Known v .value)
    (dispatches : ∀ p ∈ s'.dispatches, p ∈ s.dispatches ∨
      s.draft.Plain p.after ∧ ∀ v ∈ p.rhs.toList, s.draft.Known v .value)
    (stack : ∀ v ∈ s'.stack.items, s.draft.Scoped v .value)
    {hand' : List (ValueId × ValueType)} (holds : ∀ e ∈ hand', s.draft.Scoped e.1 e.2) :
    Inv ctx carry base aside phase hand' s' where
  sound := draft ▸ inv.sound
  reached := draft ▸ inv.reached
  acts := draft ▸ inv.acts
  phase := draft ▸ inv.phase
  live ready := live (inv.live ready)
  aims := by
    intro b aims
    rw [draft]
    rcases aims with label | ⟨l, mem, rfl⟩ | ⟨p, mem, rfl⟩
    · exact inv.aims (Or.inl label)
    · rcases loops l mem with old | new
      · exact inv.aims (Or.inr (Or.inl ⟨l, old, rfl⟩))
      · exact new.1
    · rcases dispatches p mem with old | new
      · exact inv.aims (Or.inr (Or.inr ⟨p, old, rfl⟩))
      · exact new.1
  nexts := by
    intro l mem
    rw [draft]
    exact (loops l mem).elim (inv.nexts l) (·.2)
  calls := draft ▸ calls
  rhs := by
    intro p mem
    rw [draft]
    exact (dispatches p mem).elim (inv.rhs p) (·.2)
  aside := draft ▸ inv.aside
  carried := draft ▸ inv.carried
  stack := draft ▸ stack
  hand := draft ▸ holds

/-- A change to the stack only. -/
theorem Inv.restack {s : State} {stack : OperandStack}
    (inv : Inv ctx carry base aside phase hand s)
    (holds : ∀ v ∈ stack.items, s.draft.Scoped v .value)
    {hand' : List (ValueId × ValueType)} (holds' : ∀ e ∈ hand', s.draft.Scoped e.1 e.2) :
    Inv ctx carry base aside phase hand' { s with stack } :=
  inv.change { s with stack } rfl id (fun _ => Or.inl) inv.calls (fun _ => Or.inl) holds holds'

/-- A change to the notes about edges only. -/
theorem Inv.notes {s : State} (inv : Inv ctx carry base aside phase hand s)
    (edgeDepths : List (BlockId × OpenDepths)) :
    Inv ctx carry base aside phase hand { s with edgeDepths } :=
  inv.change { s with edgeDepths } rfl id (fun _ => Or.inl) inv.calls (fun _ => Or.inl)
    inv.stack inv.hand

/-- What is in hand may be forgotten. -/
theorem Inv.drop {s : State} (inv : Inv ctx carry base aside phase hand s)
    {hand' : List (ValueId × ValueType)} (less : ∀ e ∈ hand', e ∈ hand) :
    Inv ctx carry base aside phase hand' s :=
  { inv with hand := fun e mem => inv.hand e (less e mem) }

theorem Inv.forget {s : State} (inv : Inv ctx carry base aside phase hand s) :
    Inv ctx carry base aside phase [] s :=
  inv.drop fun _ mem => absurd mem List.not_mem_nil

theorem forall_mem_cons_scoped {d : Draft} {v : ValueId} {type : ValueType}
    (first : d.Scoped v type) (rest : ∀ e ∈ hand, d.Scoped e.1 e.2) :
    ∀ e ∈ (v, type) :: hand, d.Scoped e.1 e.2 := by
  intro e mem
  rcases List.mem_cons.mp mem with rfl | mem
  · exact first
  · exact rest e mem

theorem ensures_push {v : ValueId} (mem : (v, .value) ∈ hand) :
    Ensures (Inv ctx carry base aside phase hand) (push v)
      fun _ => Inv ctx carry base aside phase hand := by
  intro s _ s' inv h
  cases h
  refine inv.restack (fun w hw => ?_) inv.hand
  rcases List.mem_cons.mp hw with rfl | hw
  · exact inv.hand _ mem
  · exact inv.stack w hw

theorem ensures_pop : Ensures (Inv ctx carry base aside phase hand) pop
    fun v => Inv ctx carry base aside phase ((v, .value) :: hand) := by
  intro s v s' inv h
  obtain ⟨d, ⟨items⟩, loops, calls, assigns, dispatches, depths, live⟩ := s
  cases items with
  | nil => cases h
  | cons top rest =>
      cases h
      exact inv.restack (fun w hw => inv.stack w (List.mem_cons_of_mem v hw))
        (forall_mem_cons_scoped (inv.stack v List.mem_cons_self) inv.hand)

theorem ensures_peekNth (n : Nat) : Ensures (Inv ctx carry base aside phase hand) (peekNth n)
    fun v => Inv ctx carry base aside phase ((v, .value) :: hand) := by
  intro s v s' inv h
  rw [peekNth, OperandStack.peekNth] at h
  cases get : s.stack.items[n]? with
  | none =>
      rw [get] at h
      cases h
  | some w =>
      rw [get] at h
      cases h
      exact inv.restack inv.stack
        (forall_mem_cons_scoped (inv.stack v (List.mem_of_getElem? get)) inv.hand)

theorem ensures_popN (n : Nat) : Ensures (Inv ctx carry base aside phase hand) (popN n)
    fun vs => Inv ctx carry base aside phase (vs.map (fun v => (v, .value)) ++ hand) := by
  intro s vs s' inv h
  rw [popN, OperandStack.popN] at h
  by_cases enough : n ≤ s.stack.items.length
  · rw [if_pos enough] at h
    cases h
    refine inv.restack (fun w hw => inv.stack w (List.mem_of_mem_drop hw)) fun e mem => ?_
    rcases List.mem_append.mp mem with new | old
    · obtain ⟨w, hw, rfl⟩ := List.mem_map.mp new
      exact inv.stack w (List.mem_of_mem_take (List.mem_reverse.mp hw))
    · exact inv.hand e old
  · rw [if_neg enough] at h
    cases h

theorem ensures_replaceTop {v : ValueId} (mem : (v, .value) ∈ hand) :
    Ensures (Inv ctx carry base aside phase hand) (replaceTop v)
      fun w => Inv ctx carry base aside phase ((w, .value) :: hand) := by
  intro s w s' inv h
  obtain ⟨d, ⟨items⟩, loops, calls, assigns, dispatches, depths, live⟩ := s
  cases items with
  | nil => cases h
  | cons top rest =>
      cases h
      refine inv.restack (fun u hu => ?_)
        (forall_mem_cons_scoped (inv.stack w List.mem_cons_self) inv.hand)
      rcases List.mem_cons.mp hu with rfl | hu
      · exact inv.hand _ mem
      · exact inv.stack u (List.mem_cons_of_mem w hu)

theorem ensures_swap : Ensures (Inv ctx carry base aside phase hand) swap
    fun _ => Inv ctx carry base aside phase hand := by
  intro s _ s' inv h
  obtain ⟨d, ⟨items⟩, loops, calls, assigns, dispatches, depths, live⟩ := s
  match items with
  | [] => cases h
  | [_] => cases h
  | v :: w :: rest =>
      cases h
      refine inv.restack (fun u hu => inv.stack u ?_) inv.hand
      rcases List.mem_cons.mp hu with rfl | hu
      · exact List.mem_cons_of_mem v List.mem_cons_self
      · rcases List.mem_cons.mp hu with rfl | hu
        · exact List.mem_cons_self
        · exact List.mem_cons_of_mem v (List.mem_cons_of_mem w hu)

theorem ensures_site (call : PoolIndex) {P : State → Prop} :
    Ensures P (ctx.site call) fun _ => P :=
  (Ensures.constant _).bind fun _ => .pure fun _ h => h

theorem named_of_block {m : LabelMap} {l : Label} {b : BlockId} (h : m.block l = .ok b) :
    ∃ offset, m.blockAt? offset = some b := by
  rw [LabelMap.block] at h
  split at h
  case h_1 b' found =>
    cases h
    obtain ⟨offset, -, at_⟩ := Option.bind_eq_some_iff.mp found
    exact ⟨offset, at_⟩
  case h_2 => cases h

/-- A label leads to a block that edges may be wired to. -/
theorem ensures_target (l : Label) {P : State → Prop} :
    Ensures P (ctx.target l) fun b s => P s ∧ ∃ offset, ctx.labels.blockAt? offset = some b :=
  (Ensures.ofExcept (ctx.labels.block l)).weaken (fun _ h => h) fun _ _ ⟨hP, h⟩ =>
    ⟨hP, named_of_block h⟩

/-! ### Steps that build the draft -/

/-- An act that stays in the block under construction, and leaves the targets of
edges as they are, keeps the invariant. -/
theorem Inv.act {s : State} (inv : Inv ctx carry base aside phase hand s) {d' : Draft}
    (act : Draft.Act carry s.draft d')
    (keeps : ∀ {b : BlockId}, s.Targets ctx b → s.draft.Joint b →
      d'.Merge b ∧ d'.loopIndices.lookup b = s.draft.loopIndices.lookup b)
    (cursor : d'.cursor = s.draft.cursor) {phase' : Phase}
    (ready : phase' ≠ .ended → phase ≠ .ended) (holds : phase'.Holds carry d') :
    Inv ctx carry base aside phase' hand { s with draft := d' } := by
  have grows := act.grows inv.sound
  have joint : ∀ {b : BlockId}, s.Targets ctx b → s.draft.Joint b → d'.Joint b := by
    intro b target joint
    obtain ⟨merge, lookup⟩ := keeps target joint
    refine ⟨grows.isSome joint.live, merge, fun registered => ?_⟩
    rw [lookup] at registered
    exact (joint.index registered).mono grows
  constructor
  case sound => exact act.sound inv.sound
  case reached => exact act.reached inv.sound inv.reached
  case acts => exact inv.acts.step act
  case phase => exact holds
  case live => exact fun h => inv.live (ready h)
  case aims =>
    intro b aims
    have plain := inv.aims aims
    refine ⟨joint (Or.inl aims) plain.toJoint, ?_⟩
    rw [(keeps (Or.inl aims) plain.toJoint).2]
    exact plain.unindexed
  case nexts => exact fun l mem => joint (Or.inr ⟨l, mem, rfl⟩) (inv.nexts l mem)
  case calls => exact fun c mem v hv => (inv.calls c mem v hv).mono grows
  case rhs => exact fun p mem v hv => (inv.rhs p mem v hv).mono grows
  case aside =>
    intro b hb
    obtain ⟨blank, other⟩ := inv.aside hb
    exact ⟨act.blank inv.sound blank other, fun e => other (e.trans cursor)⟩
  case carried => exact fun e mem => (inv.carried e mem).mono grows
  case stack => exact fun v mem => (inv.stack v mem).mono grows cursor
  case hand => exact fun e mem => (inv.hand e mem).mono grows cursor

/-- What may be read is readable. -/
theorem Inv.readable {s : State} (inv : Inv ctx carry base aside phase hand s)
    {e : ValueId × ValueType} (mem : e ∈ phase.reads carry hand) :
    s.draft.Readable carry e.1 e.2 := by
  have inHand : ∀ e ∈ hand, s.draft.Readable carry e.1 e.2 := fun e mem =>
    ⟨Or.inl (inv.hand e mem).scope, (inv.hand e mem).type⟩
  cases phase with
  | begun =>
      rcases List.mem_append.mp mem with mem | mem
      · exact inHand e mem
      · obtain ⟨-, block, index⟩ := inv.phase
        exact ⟨Or.inr ⟨List.mem_map.mpr ⟨e, mem, rfl⟩, block, index⟩, inv.carried e mem⟩
  | running => exact inHand e mem
  | ended => exact absurd mem List.not_mem_nil

theorem emit_eq_ok {s s' : State} {op : Op} {v : ValueId} (h : emit op s = .ok v s') :
    v = s.draft.graph.nextValue ∧ s' = { s with draft := s.draft.emitted op } := by
  rw [emit] at h
  split at h
  case h_2 => cases h
  case h_1 emits =>
    cases h
    obtain ⟨-, rfl, rfl⟩ := Draft.emit_eq_ok_iff.mp emits
    exact ⟨rfl, rfl⟩

theorem emit_bind_eq_ok {β : Type} {s s' : State} {op : Op} {f : ValueId → Lowering β} {b : β}
    (h : (emit op >>= f) s = .ok b s') :
    f s.draft.graph.nextValue { s with draft := s.draft.emitted op } = .ok b s' := by
  obtain ⟨v, u, h₁, h₂⟩ := bind_eq_ok_iff.mp h
  obtain ⟨rfl, rfl⟩ := emit_eq_ok h₁
  exact h₂

theorem emit_of_unended {s : State} (unended : s.draft.Unended) (op : Op) :
    emit op s = .ok s.draft.graph.nextValue { s with draft := s.draft.emitted op } := by
  rw [emit, unended.emit_eq]

theorem emit_of_open {s : State} (isOpen : s.draft.Open) (op : Op) :
    emit op s = .ok s.draft.graph.nextValue { s with draft := s.draft.emitted op } :=
  emit_of_unended isOpen.unended op

theorem emit_bind_of_open {β : Type} {s : State} (isOpen : s.draft.Open) (op : Op)
    (f : ValueId → Lowering β) :
    (emit op >>= f) s = f s.draft.graph.nextValue { s with draft := s.draft.emitted op } := by
  change EStateM.bind (emit op) f s = _
  rw [EStateM.bind, emit_of_open isOpen]

theorem pushOp_bind_of_open {β : Type} {s : State} (isOpen : s.draft.Open) (op : Op)
    (f : ValueId → Lowering β) :
    (pushOp op >>= f) s = f s.draft.graph.nextValue { s with
      draft := s.draft.emitted op
      stack := s.stack.push s.draft.graph.nextValue } := by
  change EStateM.bind (emit op >>= fun v => push v >>= fun _ => Pure.pure v) f s = _
  rw [EStateM.bind, emit_bind_of_open isOpen]
  rfl

theorem Inv.emit {s s' : State} {op : Op} {v : ValueId}
    (inv : Inv ctx carry base aside phase hand s) (ready : phase ≠ .ended)
    (h : emit op s = .ok v s') (inputs : ∀ e ∈ op.inputs, e ∈ phase.reads carry hand) :
    Inv ctx carry base aside phase ((v, op.resultType) :: hand) s' := by
  obtain ⟨rfl, rfl⟩ := emit_eq_ok h
  have isOpen := Phase.Holds.isOpen inv.phase ready
  have act : Draft.Act carry s.draft (s.draft.emitted op) :=
    .emit isOpen fun e mem => inv.readable (inputs e mem)
  have emitted := inv.act act (fun _ joint => ⟨joint.merge.emit op, rfl⟩) rfl id
    (Phase.Holds.emit inv.phase ready op)
  have new : (s.draft.emitted op).Scoped s.draft.graph.nextValue op.resultType :=
    ⟨Draft.inScope_emitted isOpen, Draft.hasType_emitted⟩
  exact { emitted with hand := forall_mem_cons_scoped new emitted.hand }

/-- In the block in which it began, an instruction uses what it emits operations on. -/
theorem Inv.uses_emit {s s' : State} {op : Op} {v : ValueId}
    (inv : Inv ctx carry base aside .begun hand s) (h : Lowering.emit op s = .ok v s') :
    ∀ w ∈ op.operands, carry.Uses s'.draft w := by
  intro w mem
  obtain ⟨isOpen, cursor, index⟩ := inv.phase
  obtain ⟨-, rfl⟩ := emit_eq_ok h
  obtain ⟨block, live, get, -⟩ := Draft.stmt_emitted op isOpen
  exact ⟨_, index, cursor ▸ .stmt live get mem⟩

end Lowering

end StackLift
