import StackLift.Proofs.Core.Lower

/-!
A run of the pass over core instructions. No bracket is ever open, so between two
instructions a block has its end, or is the one under construction, or is that of
a label that the pass has not come to. The main statements say what arriving at an
offset can be, `CoreState.arrive`, what lowering an instruction there leaves,
`CoreState.lower`, and so what holds before every instruction, `coreState_before`.
-/

namespace StackLift

namespace Draft

/-- Every block has its end, except the one under construction and those that are
set aside. -/
def Tidy (d : Draft) (aside : BlockId → Prop) : Prop :=
  ∀ b, (d.graph.block? b).isSome → b = d.cursor ∨ d.HasEnd b ∨ aside b

section

variable {d d' : Draft} {aside aside' : BlockId → Prop}

theorem Tidy.extend (tidy : d.Tidy aside) (grows : d.Grows d') (extends_ : d.Extends d') :
    d'.Tidy aside := by
  intro b live
  rw [extends_.blocks] at live
  rw [extends_.cursor]
  exact (tidy b live).imp id (Or.imp (·.mono grows) id)

theorem Tidy.newDirect (tidy : d.Tidy aside) :
    d.newDirect.2.Tidy fun c => c = d.graph.nextBlock ∨ aside c := by
  intro b live
  obtain ⟨block, live⟩ := Option.isSome_iff_exists.mp live
  rcases block?_addBlock_eq_some live with ⟨rfl, -⟩ | old
  · exact Or.inr (Or.inr (Or.inl rfl))
  · have grows : d.Grows d.newDirect.2 := grows_addBlock others_newDirect
    exact (tidy b (Option.isSome_iff_exists.mpr ⟨block, old⟩)).imp id (Or.imp (·.mono grows) Or.inr)

/-- When the block under construction has its end, another one may take its place. -/
theorem Tidy.moveTo (tidy : d.Tidy aside) (ended : d.HasEnd d.cursor) {b : BlockId}
    (rest : ∀ c, aside c → c = b ∨ aside' c) : (d.moveTo b).Tidy aside' := by
  intro c live
  rcases tidy c live with rfl | ended' | set
  · exact Or.inr (Or.inl ended)
  · exact Or.inr (Or.inl ended')
  · exact (rest c set).imp id Or.inr

theorem Tidy.ended {t : Terminator} {slots : List ValueId} (tidy : d.Tidy aside)
    (can : d.CanEnd t slots) (ended : d.Ended t slots d') : d'.Tidy aside := by
  intro b live
  rw [ended.block, Option.isSome_map] at live
  rw [ended.cursor]
  exact (tidy b live).imp id (Or.imp (·.mono (grows_ended can ended)) id)

end

end Draft

/-! ### Brackets -/

theorem State.truncateBrackets_eq {s : State} (none : s.brackets = ([], [], [], []))
    (depths : OpenDepths) : s.truncateBrackets depths = s := by
  obtain ⟨d, stack, loops, calls, assigns, dispatches, edgeDepths, live⟩ := s
  cases none
  simp [truncateBrackets, Bracket.truncate]

/-- The block of a label that the pass has not come to before an offset. -/
def Context.Unvisited (ctx : Context) (visited : Nat → Prop) (offset : Nat) (b : BlockId) : Prop :=
  ∃ j, ctx.labels.blockAt? j = some b ∧ ¬(j < offset ∧ visited j)

namespace Lowering

variable {ctx : Context} {carry : Carry} {base : Draft} {aside : BlockId → Prop} {s s' : State}

/-! ### The state at the end of a routine -/

theorem mem_successors_branchOn {sense : Bool} {cond : ValueId} {target other b : BlockId} :
    b ∈ (Terminator.branchOn sense cond target other).successors ↔ b = target ∨ b = other := by
  cases sense with
  | true => simp [Terminator.branchOn, Terminator.successors]
  | false => simp [Terminator.branchOn, Terminator.successors, or_comm]

theorem Left.stack {hand : List (ValueId × ValueType)} {t : Terminator}
    (left : Left ctx carry base aside hand t s s') : s'.stack = s.stack := by
  rw [left.frame]

theorem Left.brackets {hand : List (ValueId × ValueType)} {t : Terminator}
    (left : Left ctx carry base aside hand t s s') : s'.brackets = s.brackets := by
  rw [left.frame]
  rfl

/-- The block of a label is no direct block. -/
theorem Left.notDirect {hand : List (ValueId × ValueType)} {t : Terminator} {b : BlockId}
    (left : Left ctx carry base aside hand t s s')
    (named : ∃ offset, ctx.labels.blockAt? offset = some b) : b ∉ s.draft.direct := by
  rw [← left.ended.direct]
  exact (left.inv.plain_label named).merge.notDirect

section

variable {control : Control} (leaves : Leaves ctx carry base aside s control s')

include leaves

theorem Leaves.inv :
    Inv ctx carry base aside (if control.diverts then .ended else .running) [] s' := by
  cases leaves with
  | next inv => exact inv
  | goto _ left => exact left.inv
  | branch _ _ _ inv => exact inv.forget
  | ret _ left => exact left.inv.forget

theorem Leaves.brackets : s'.brackets = s.brackets := by
  cases leaves with
  | next _ => rfl
  | goto _ left => exact left.brackets
  | branch _ _ left _ =>
      have same := left.brackets
      exact same
  | ret _ left =>
      have same := left.brackets
      exact same

theorem Leaves.tidy {set : BlockId → Prop} (isOpen : s.draft.Open) (tidy : s.draft.Tidy set) :
    s'.draft.Tidy set := by
  cases leaves with
  | next _ => exact tidy
  | goto _ left => exact tidy.ended left.can left.ended
  | branch run _ left inv =>
      have grows := Draft.grows_run isOpen run
      have made := (tidy.extend grows (Draft.extends_run run)).newDirect
      have ended := made.ended left.can left.ended
      exact ended.moveTo left.inv.phase fun _ => id
  | ret _ left =>
      have ended := tidy.ended left.can left.ended
      exact ended

theorem Leaves.grows (isOpen : s.draft.Open) : s.draft.Grows s'.draft := by
  cases leaves with
  | next _ => exact .refl _
  | goto _ left => exact left.grows
  | @branch _ _ _ _ v items draft b s₁ run _ left _ =>
      have made : draft.Grows draft.newDirect.2 := Draft.grows_addBlock Draft.others_newDirect
      exact (Draft.grows_run isOpen run).trans
        (made.trans (left.grows.trans (Draft.grows_moveTo s₁.draft _)))
  | ret _ left =>
      have grows := left.grows
      exact grows

/-- Only the block of the label that control may go to gets another shape. -/
theorem Leaves.shape?_eq {b : BlockId} (live : (s.draft.graph.block? b).isSome) :
    s'.draft.shape? b = s.draft.shape? b ∨
      ∃ l, control.label? = some l ∧ ctx.labels.block l = .ok b := by
  cases leaves with
  | next _ => exact Or.inl rfl
  | @goto label c _ target left =>
      by_cases same : b = c
      · exact Or.inr ⟨label, rfl, same ▸ target⟩
      · exact Or.inl (left.shape?_of_notMem (by simpa [Terminator.successors] using same))
  | @branch _ _ label _ _ _ _ c _ run target left inv =>
      by_cases same : b = c
      · exact Or.inr ⟨label, rfl, same ▸ target⟩
      · rw [← (Draft.extends_run run).blocks] at live
        obtain ⟨block, live⟩ := Option.isSome_iff_exists.mp live
        have old := left.shape?_of_notMem (b := b) (by
          rw [mem_successors_branchOn]
          exact not_or.mpr ⟨same, Draft.ne_nextBlock live⟩)
        exact Or.inl (old.trans ((Draft.extends_run run).shape b))
  | @ret exit _ _ _ _ left =>
      exact Or.inl (left.shape?_of_notMem (by cases exit <;> exact List.not_mem_nil))

/-- An edge leads to the block of the label that control may go to. It brings what
is left on the stack. -/
theorem Leaves.edge {l : Label} {b : BlockId} (label : control.label? = some l)
    (target : ctx.labels.block l = .ok b) :
    ∃ p phis, s'.draft.Edge p b ∧ s'.draft.shape? b = some phis ∧
      control.depth? s.stack.items.length = some phis.length := by
  cases leaves with
  | next _ => cases label
  | goto target' left =>
      cases label
      rw [target] at target'
      cases target'
      obtain ⟨phis, shape, length⟩ :=
        left.exists_shape List.mem_cons_self (left.notDirect (named_of_block target))
      exact ⟨_, phis, left.edge List.mem_cons_self, shape, by rw [length]; rfl⟩
  | branch run target' left inv =>
      cases label
      rw [target] at target'
      cases target'
      obtain ⟨phis, shape, length⟩ := left.exists_shape
        (mem_successors_branchOn.mpr (Or.inl rfl)) (left.notDirect (named_of_block target))
      refine ⟨_, phis, left.edge (mem_successors_branchOn.mpr (Or.inl rfl)), shape, ?_⟩
      rw [length, Control.depth?, ← Primitive.map_length_run Draft.perform _ _ s.draft, run]
      rfl
  | ret _ _ => cases label

/-- The depth of the stack with which control goes on. -/
theorem Leaves.depth_next (notDiverts : control.diverts = false) :
    control.depth? s.stack.items.length = some s'.stack.items.length := by
  cases leaves with
  | next _ => rfl
  | goto _ _ => cases notDiverts
  | branch run _ left _ =>
      rw [Control.depth?, ← Primitive.map_length_run Draft.perform _ _ s.draft, run]
      have same := congrArg (·.items.length) left.stack
      exact congrArg some same.symm
  | ret _ _ => cases notDiverts

theorem Leaves.exists_depth : ∃ n, control.depth? s.stack.items.length = some n := by
  cases leaves with
  | next _ => exact ⟨_, rfl⟩
  | goto _ _ => exact ⟨_, rfl⟩
  | branch run _ _ _ =>
      rw [Control.depth?, ← Primitive.map_length_run Draft.perform _ _ s.draft, run]
      exact ⟨_, rfl⟩
  | ret stack _ =>
      rw [stack]
      exact ⟨_, rfl⟩

end

/-! ### Arriving at an offset -/

variable {visited : Nat → Prop} {offset : Nat}

/-- The state before an offset of core code, where the offsets that were visited
are known. -/
structure CoreState (ctx : Context) (visited : Nat → Prop) (offset : Nat) (s : State) : Prop where
  inv : Inv ctx .nothing s.draft (ctx.Unvisited visited offset)
    (if s.live then .running else .ended) [] s
  tidy : s.draft.Tidy (ctx.Unvisited visited offset)
  brackets : s.brackets = ([], [], [], [])

/-- How the pass arrives at an offset. -/
inductive Arrives (ctx : Context) (aside : BlockId → Prop) (offset : Nat) (s : State) :
    State → Prop
  | unnamed (none : ctx.labels.blockAt? offset = none) : Arrives ctx aside offset s s
  /-- No edge leads to the block. -/
  | skipped {b : BlockId} (named : ctx.labels.blockAt? offset = some b) (dead : s.live = false)
      (shape : s.draft.shape? b = none) : Arrives ctx aside offset s s
  | joined {b : BlockId} {phis : List ValueId} (named : ctx.labels.blockAt? offset = some b)
      (dead : s.live = false) (shape : s.draft.shape? b = some phis) :
      Arrives ctx aside offset s
        { s with draft := s.draft.moveTo b, stack := .ofSlots phis, live := true }
  | fallen {b : BlockId} {phis : List ValueId} {s₁ : State}
      (named : ctx.labels.blockAt? offset = some b) (live : s.live = true)
      (left : Left ctx .nothing s.draft aside [] (.goto b) s s₁)
      (shape : s₁.draft.shape? b = some phis) :
      Arrives ctx aside offset s
        { s₁ with draft := s₁.draft.moveTo b, stack := .ofSlots phis, live := true }

theorem Arrives.live {a : State} (arrives : Arrives ctx aside offset s a) (live : s.live = true) :
    a.live = true := by
  cases arrives with
  | unnamed _ => exact live
  | skipped _ dead _ =>
      rw [live] at dead
      cases dead
  | joined _ _ _ => rfl
  | fallen _ _ _ _ => rfl

/-- Falling through keeps the depth of the stack. -/
theorem Arrives.length_eq {a : State} (arrives : Arrives ctx aside offset s a)
    (live : s.live = true) : a.stack.items.length = s.stack.items.length := by
  cases arrives with
  | unnamed _ => rfl
  | skipped _ _ _ => rfl
  | joined _ dead _ =>
      rw [live] at dead
      cases dead
  | fallen named _ left shape =>
      obtain ⟨phis, shape', length⟩ :=
        left.exists_shape List.mem_cons_self (left.notDirect ⟨_, named⟩)
      rw [shape] at shape'
      cases shape'
      rw [← length, OperandStack.ofSlots, List.length_reverse]

/-- A label that an edge leads to is not skipped. -/
theorem Arrives.live_of_shape {a : State} {b : BlockId} (arrives : Arrives ctx aside offset s a)
    (named : ctx.labels.blockAt? offset = some b) (shaped : (s.draft.shape? b).isSome) :
    a.live = true := by
  cases arrives with
  | unnamed none =>
      rw [named] at none
      cases none
  | skipped named' _ shape =>
      rw [named] at named'
      cases named'
      rw [shape] at shaped
      cases shaped
  | joined _ _ _ => rfl
  | fallen _ _ _ _ => rfl

theorem unvisited_of_named {b : BlockId} (named : ctx.labels.blockAt? offset = some b) :
    ctx.Unvisited visited offset b :=
  ⟨offset, named, fun h => Nat.lt_irrefl _ h.1⟩

section

variable {a : State} (state : CoreState ctx visited offset s)

include state

theorem CoreState.inv_live (live : s.live = true) :
    Inv ctx .nothing s.draft (ctx.Unvisited visited offset) .running [] s := by
  have inv := state.inv
  rw [live] at inv
  exact inv

theorem CoreState.inv_dead (dead : s.live = false) :
    Inv ctx .nothing s.draft (ctx.Unvisited visited offset) .ended [] s := by
  have inv := state.inv
  rw [dead] at inv
  exact inv

theorem CoreState.arrives (h : arrive ctx offset s = .ok () a) :
    Arrives ctx (ctx.Unvisited visited offset) offset s a := by
  rw [Lowering.arrive] at h
  cases named : ctx.labels.blockAt? offset with
  | none =>
      rw [named] at h
      cases h
      exact .unnamed named
  | some b =>
      rw [named] at h
      obtain ⟨_, _, h₁, h⟩ := bind_eq_ok_iff.mp h
      cases h₁
      have other : s.draft.cursor ≠ b := (state.inv.aside (unvisited_of_named named)).2.symm
      rw [if_neg other] at h
      cases live : s.live with
      | false =>
          rw [if_neg (by simp [live]), arriveAt] at h
          cases shape : s.draft.shape? b with
          | none =>
              rw [shape] at h
              obtain ⟨d, stack, loops, calls, assigns, dispatches, depths, alive⟩ := s
              cases live
              cases h
              exact .skipped named rfl shape
          | some phis =>
              simp only [shape, Bool.false_eq_true, if_false] at h
              have same := State.truncateBrackets_eq
                (s := { s with draft := s.draft.moveTo b, stack := .ofSlots phis, live := true })
                state.brackets
              split at h
              · rw [same] at h
                cases h
                exact .joined named live shape
              · cases h
                exact .joined named live shape
      | true =>
          rw [if_pos live] at h
          obtain ⟨_, s₁, jumped, h⟩ := bind_eq_ok_iff.mp h
          have left := (state.inv_live live).jumpTo (by simp) ⟨_, named⟩ jumped
          obtain ⟨phis, shape, -⟩ :=
            left.exists_shape List.mem_cons_self (left.notDirect ⟨_, named⟩)
          rw [arriveAt, shape] at h
          cases h
          exact .fallen named live left shape

/-- The pass arrives if the stack has the depth that the block of a label expects. -/
theorem CoreState.exists_arrive
    (fits : ∀ b phis, ctx.labels.blockAt? offset = some b → s.live = true →
      s.draft.shape? b = some phis → phis.length = s.stack.items.length) :
    ∃ a, arrive ctx offset s = .ok () a := by
  rw [Lowering.arrive]
  cases named : ctx.labels.blockAt? offset with
  | none => exact ⟨s, rfl⟩
  | some b =>
      have other : s.draft.cursor ≠ b := (state.inv.aside (unvisited_of_named named)).2.symm
      have arriveAt : ∀ s' falls, ∃ a, Lowering.arriveAt b falls s' = .ok () a := by
        intro s' falls
        rw [Lowering.arriveAt]
        split
        · exact ⟨_, rfl⟩
        · simp only
          split
          · exact ⟨_, rfl⟩
          · split <;> exact ⟨_, rfl⟩
      cases live : s.live with
      | false =>
          obtain ⟨a, h⟩ := arriveAt s false
          refine ⟨a, bind_eq_ok_iff.mpr ⟨s, s, rfl, ?_⟩⟩
          rw [if_neg other, if_neg (by simp [live])]
          exact h
      | true =>
          obtain ⟨s₁, jumped⟩ := state.inv.exists_jump (by simp [live]) fun phis =>
            fits b phis named live
          obtain ⟨a, h⟩ := arriveAt s₁ true
          refine ⟨a, bind_eq_ok_iff.mpr ⟨s, s, rfl, ?_⟩⟩
          rw [if_neg other, if_pos live]
          exact bind_eq_ok_iff.mpr ⟨(), s₁, jumped, h⟩

end

theorem unvisited_of_succ {b : BlockId} (unvisited : ctx.Unvisited visited (offset + 1) b) :
    ctx.Unvisited visited offset b := by
  obtain ⟨j, named, not⟩ := unvisited
  exact ⟨j, named, fun h => not ⟨Nat.lt_succ_of_lt h.1, h.2⟩⟩

/-- A visit takes just the block of its own label from those not visited. -/
theorem unvisited_succ_of_visited {b c : BlockId} (distinct : ctx.labels.Distinct)
    (named : ctx.labels.blockAt? offset = some b) (visit : visited offset) :
    ctx.Unvisited visited (offset + 1) c ↔ ctx.Unvisited visited offset c ∧ c ≠ b := by
  constructor
  · intro unvisited
    refine ⟨unvisited_of_succ unvisited, ?_⟩
    rintro rfl
    obtain ⟨j, named', not⟩ := unvisited
    obtain rfl := distinct named named'
    exact not ⟨Nat.lt_succ_self _, visit⟩
  · rintro ⟨⟨j, named', not⟩, other⟩
    refine ⟨j, named', fun h => not ⟨?_, h.2⟩⟩
    refine Nat.lt_of_le_of_ne (Nat.le_of_lt_succ h.1) ?_
    rintro rfl
    rw [named] at named'
    cases named'
    exact other rfl

/-- Where no label is, or nothing is visited, nothing changes. -/
theorem unvisited_succ {c : BlockId}
    (same : ctx.labels.blockAt? offset = none ∨ ¬visited offset)
    (unvisited : ctx.Unvisited visited offset c) : ctx.Unvisited visited (offset + 1) c := by
  obtain ⟨j, named, not⟩ := unvisited
  refine ⟨j, named, fun h => not ⟨?_, h.2⟩⟩
  refine Nat.lt_of_le_of_ne (Nat.le_of_lt_succ h.1) ?_
  rintro rfl
  rcases same with none | not
  · rw [named] at none
    cases none
  · exact not h.2

/-- The pass goes on in the block of a label. -/
theorem CoreState.enter {b : BlockId} {phis : List ValueId} (distinct : ctx.labels.Distinct)
    (inv : Inv ctx .nothing base (ctx.Unvisited visited offset) .ended [] s)
    (tidy : s.draft.Tidy (ctx.Unvisited visited offset)) (brackets : s.brackets = ([], [], [], []))
    (named : ctx.labels.blockAt? offset = some b) (shape : s.draft.shape? b = some phis)
    (visit : visited offset) :
    CoreState ctx visited (offset + 1)
      { s with draft := s.draft.moveTo b, stack := .ofSlots phis, live := true } := by
  have moved := inv.moveToMerge (unvisited_of_named named) (inv.plain_label ⟨_, named⟩).merge shape
  refine ⟨(moved.settle fun c => (unvisited_succ_of_visited distinct named visit).mp).rebase, ?_,
    brackets⟩
  refine tidy.moveTo inv.phase fun c unvisited => ?_
  by_cases same : c = b
  · exact Or.inl same
  · exact Or.inr ((unvisited_succ_of_visited distinct named visit).mpr ⟨unvisited, same⟩)

theorem CoreState.arrive {a : State} (distinct : ctx.labels.Distinct)
    (state : CoreState ctx visited offset s)
    (arrives : Arrives ctx (ctx.Unvisited visited offset) offset s a)
    (visit : visited offset ↔ a.live = true) : CoreState ctx visited (offset + 1) a := by
  have stays : ctx.labels.blockAt? offset = none ∨ ¬visited offset →
      CoreState ctx visited (offset + 1) s := fun same =>
    ⟨state.inv.settle fun c => unvisited_of_succ,
      fun b live => (state.tidy b live).imp id (Or.imp id (unvisited_succ same)), state.brackets⟩
  cases arrives with
  | unnamed none => exact stays (Or.inl none)
  | skipped _ dead _ => exact stays (Or.inr (by rw [visit, dead]; simp))
  | joined named dead shape =>
      exact CoreState.enter distinct (state.inv_dead dead) state.tidy state.brackets named shape
        (visit.mpr rfl)
  | fallen named live left shape =>
      exact CoreState.enter distinct left.inv (state.tidy.ended left.can left.ended)
        (left.brackets.trans state.brackets) named shape (visit.mpr rfl)

/-! ### Lowering an instruction -/

/-- The pass runs a routine, from `a` to `t`: the names on the stack and the draft
are `items` and `draft` at its end. -/
structure Executes (ctx : Context) (aside : BlockId → Prop) (a : State) (p : Routine)
    (items : List ValueId) (draft : Draft) (t : State) : Prop where
  ops : StackOp.runAll Draft.perform p.ops (a.stack.items, a.draft) = some (items, draft)
  inv : Inv ctx .nothing a.draft aside .running [] { a with draft, stack := ⟨items⟩ }
  leaves : Leaves ctx .nothing a.draft aside { a with draft, stack := ⟨items⟩ } p.control t

section

variable {a t : State} {i : Instruction}

theorem Inv.executes (inv : Inv ctx .nothing a.draft aside .running [] a) (core : i.isCore = true)
    (h : Lowering.lower ctx offset i a = .ok () t) :
    ∃ p items draft, i.routine? ctx.pool = some p ∧ Executes ctx aside a p items draft t := by
  obtain ⟨p, routine, h⟩ := (lower_eq_ok core inv.phase).mp h
  simp only [Lowering.routine] at h
  split at h
  case h_2 => cases h
  case h_1 items draft ops =>
    have inv' := inv.runAll (by simp) ops
    exact ⟨p, items, draft, routine, ops, inv', inv'.leaves h⟩

theorem Inv.exists_lower {p : Routine} {n : Nat}
    (inv : Inv ctx .nothing a.draft aside .running [] a) (core : i.isCore = true)
    (routine : i.routine? ctx.pool = some p) (depth : p.depth? a.stack.items.length = some n)
    (targets : ∀ l, p.control.label? = some l → ∃ b, ctx.labels.block l = .ok b ∧
      ∀ phis, a.draft.shape? b = some phis → phis.length = n) :
    ∃ t, Lowering.lower ctx offset i a = .ok () t := by
  obtain ⟨m, depth, depth'⟩ := Option.bind_eq_some_iff.mp depth
  rw [← StackOp.map_length_runAll Draft.perform _ _ a.draft] at depth
  obtain ⟨⟨items, draft⟩, ops, rfl⟩ := Option.map_eq_some_iff.mp depth
  obtain ⟨t, left⟩ := (inv.runAll (by simp) ops).exists_leave depth' fun l label => by
    obtain ⟨b, target, fits⟩ := targets l label
    refine ⟨b, target, fun phis shaped => fits phis ?_⟩
    rw [← (Draft.extends_runAll ops).shape b]
    exact shaped
  refine ⟨t, (lower_eq_ok core inv.phase).mpr ⟨p, routine, ?_⟩⟩
  simp only [Lowering.routine, ops]
  exact left

variable {p : Routine} {items : List ValueId} {draft : Draft}

theorem Executes.depth (executes : Executes ctx aside a p items draft t) :
    p.depth? a.stack.items.length = p.control.depth? items.length := by
  rw [Routine.depth?, ← StackOp.map_length_runAll Draft.perform _ _ a.draft, executes.ops]
  rfl

theorem Executes.grows (executes : Executes ctx aside a p items draft t) (sound : a.draft.Sound) :
    a.draft.Grows t.draft :=
  executes.leaves.inv.acts.grows sound

theorem CoreState.lower (state : CoreState ctx visited offset a)
    (routine : i.routine? ctx.pool = some p)
    (executes : Executes ctx (ctx.Unvisited visited offset) a p items draft t) :
    CoreState ctx visited offset (if i.diverts then { t with live := false } else t) := by
  have grows := executes.inv.acts.grows state.inv.sound
  have tidy := executes.leaves.tidy executes.inv.phase
    (state.tidy.extend grows (Draft.extends_runAll executes.ops))
  have brackets := executes.leaves.brackets.trans state.brackets
  have inv := executes.leaves.inv
  rw [(Instruction.control_of_routine? routine).1]
  cases diverts : p.control.diverts with
  | true =>
      rw [diverts] at inv
      exact ⟨inv.kill.rebase, tidy, brackets⟩
  | false =>
      rw [diverts] at inv
      refine ⟨?_, tidy, brackets⟩
      rw [if_neg (by simp), inv.live (by simp)]
      exact inv.rebase

end

/-! ### The run -/

/-- The instruction at an offset is lowered. -/
def Visited (ctx : Context) (code : List Instruction) (start : State) (offset : Nat) : Prop :=
  ∃ i a, Visits ctx code start offset i a

section

variable {code : List Instruction} {start a : State} {i : Instruction}

theorem visited_iff (get : code[offset]? = some i) (before : Before ctx code start offset s)
    (arrives : arrive ctx offset s = .ok () a) :
    Visited ctx code start offset ↔ a.live = true := by
  constructor
  · rintro ⟨i', a', get', ⟨s', before', arrives'⟩, live⟩
    cases before.unique before'
    rw [arrives] at arrives'
    cases arrives'
    exact live
  · exact fun live => ⟨i, a, get, ⟨s, before, arrives⟩, live⟩

/-- Core code that is skipped changes nothing. -/
theorem skip_eq_of_isCore (core : i.isCore = true) : skip ctx offset i s = .ok () s := by
  rw [skip.eq_def]
  split
  · cases core
  · rfl

theorem skip_of_isCore (core : i.isCore = true) (h : skip ctx offset i s = .ok () s') : s' = s := by
  rw [skip_eq_of_isCore core] at h
  cases h
  rfl

theorem coreState_before (core : ∀ i ∈ code, i.isCore = true) (distinct : ctx.labels.Distinct)
    (first : CoreState ctx (Visited ctx code start) 0 start) (le : offset ≤ code.length)
    (before : Before ctx code start offset s) :
    CoreState ctx (Visited ctx code start) offset s := by
  refine run_induction first (fun {k i s s'} get before state h => ?_) le before
  obtain ⟨a, arrives, rest⟩ := step_eq_ok.mp h
  have arrived := state.arrive distinct (state.arrives arrives) (visited_iff get before arrives)
  have isCore := core i (List.mem_of_getElem? get)
  rcases rest with ⟨live, t, lowered, rfl⟩ | ⟨-, skipped⟩
  · obtain ⟨p, items, draft, routine, executes⟩ :=
      (arrived.inv_live live).executes isCore lowered
    exact arrived.lower routine executes
  · rw [skip_of_isCore isCore skipped]
    exact arrived

end

end Lowering

end StackLift
