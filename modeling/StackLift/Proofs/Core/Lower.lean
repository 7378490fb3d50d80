import StackLift.Proofs.Core.Machine
import StackLift.Proofs.Lower.Unit

/-!
Lowering core instructions by running their routines on the names of values.
-/

namespace StackLift

/-- Emits an operation on named values. -/
def Draft.perform (p : Primitive) (vs : List ValueId) (d : Draft) : ValueId × Draft :=
  (d.graph.nextValue, d.emitted (p.on vs))

def Exit.terminator : Exit → ValueId → Terminator
  | .ret => .ret
  | .nonLocalRet => .nonLocalRet

namespace Draft

/-- Statements were appended to the block under construction. -/
structure Extends (d d' : Draft) : Prop where
  cursor : d'.cursor = d.cursor
  shape : ∀ b, d'.shape? b = d.shape? b
  blocks : ∀ b, (d'.graph.block? b).isSome = (d.graph.block? b).isSome

theorem Extends.refl (d : Draft) : d.Extends d := ⟨rfl, fun _ => rfl, fun _ => rfl⟩

theorem Extends.trans {d₁ d₂ d₃ : Draft} (h₁ : d₁.Extends d₂) (h₂ : d₂.Extends d₃) :
    d₁.Extends d₃ :=
  ⟨h₂.cursor.trans h₁.cursor, fun b => (h₂.shape b).trans (h₁.shape b),
    fun b => (h₂.blocks b).trans (h₁.blocks b)⟩

theorem extends_emit (d : Draft) (op : Op) : d.Extends (d.emitted op) := by
  refine ⟨rfl, fun _ => rfl, fun b => ?_⟩
  rw [block?_emitted]
  split
  · rw [Option.isSome_map]
  · rfl

section

variable {d d' : Draft} {vs vs' : List ValueId}

theorem extends_run {p : Primitive} {v : ValueId}
    (h : p.run perform (vs, d) = some (v, vs', d')) : d.Extends d' := by
  obtain ⟨args, -, -, emitted⟩ := Primitive.run_eq_some.mp h
  cases emitted
  exact d.extends_emit _

theorem grows_run {p : Primitive} {v : ValueId} (isOpen : d.Open)
    (h : p.run perform (vs, d) = some (v, vs', d')) : d.Grows d' := by
  obtain ⟨args, -, -, emitted⟩ := Primitive.run_eq_some.mp h
  cases emitted
  exact grows_emitted isOpen

theorem extends_stackOp {op : StackOp} (h : op.run perform (vs, d) = some (vs', d')) :
    d.Extends d' := by
  cases op with
  | drop =>
      cases vs with
      | nil => cases h
      | cons v vs => cases h; exact .refl d
  | copy n =>
      obtain ⟨v, -, heq⟩ := Option.map_eq_some_iff.mp h
      cases heq
      exact .refl d
  | swap =>
      match vs with
      | [] => cases h
      | [_] => cases h
      | v :: w :: vs => cases h; exact .refl d
  | apply p value =>
      obtain ⟨⟨v, rest, d₁⟩, run, heq⟩ := Option.map_eq_some_iff.mp h
      cases heq
      exact extends_run run

theorem extends_runAll {ops : List StackOp}
    (h : StackOp.runAll perform ops (vs, d) = some (vs', d')) : d.Extends d' := by
  induction ops generalizing vs d with
  | nil =>
      cases h
      exact .refl _
  | cons op ops ih =>
      obtain ⟨⟨vs₁, d₁⟩, first, rest⟩ := Option.bind_eq_some_iff.mp h
      exact (extends_stackOp first).trans (ih rest)

end

end Draft

namespace Lowering

/-- What the pass does at the end of a routine. -/
def leave (ctx : Context) : Control → Lowering Unit
  | .next => return
  | .goto label => do
    let b ← ctx.target label
    jump b
  | .branch p sense label _ => fun s =>
    match p.run Draft.perform (s.stack.items, s.draft) with
    | some (v, items, draft) => (do
        let b ← ctx.target label
        branchOn sense v b) { s with draft, stack := ⟨items⟩ }
    | none => .error .stackUnderflow s
  | .ret exit => do
    let v ← pop
    terminate (exit.terminator v)

/-- Lowers a routine. -/
def routine (ctx : Context) (p : Routine) : Lowering Unit := fun s =>
  match StackOp.runAll Draft.perform p.ops (s.stack.items, s.draft) with
  | some (items, draft) => leave ctx p.control { s with draft, stack := ⟨items⟩ }
  | none => .error .stackUnderflow s

variable {ctx : Context} {offset : Nat} {s s' : State}

theorem checkLiteral_bind_eq_ok {β : Type} {literal : Literal} {f : Unit → Lowering β} {b : β} :
    (checkLiteral ctx literal >>= f) s = .ok b s' ↔
      literal.isIn ctx.pool = true ∧ f () s = .ok b s' := by
  cases literal with
  | pool index =>
      rw [checkLiteral, Literal.isIn]
      cases ctx.pool.get index with
      | ok c => exact (and_iff_right rfl).symm
      | error e => exact ⟨nofun, nofun⟩
  | null => exact (and_iff_right rfl).symm
  | logical b => exact (and_iff_right rfl).symm

theorem exists_routine_map {α : Type} {o : Option α} {f : α → Routine} :
    (∃ p, o.map f = some p ∧ routine ctx p s = .ok () s') ↔
      ∃ a, o = some a ∧ routine ctx (f a) s = .ok () s' := by
  cases o <;> simp

theorem exists_routine_some {p : Routine} :
    (∃ q, some p = some q ∧ routine ctx q s = .ok () s') ↔ routine ctx p s = .ok () s' := by
  simp

/-- Lowering a core instruction is lowering its routine. -/
theorem lower_eq_ok {i : Instruction} (core : i.isCore = true) (isOpen : s.draft.Open) :
    lower ctx offset i s = .ok () s' ↔
      ∃ p, i.routine? ctx.pool = some p ∧ routine ctx p s = .ok () s' := by
  obtain ⟨d, ⟨items⟩, loops, calls, assigns, dispatches, depths, live⟩ := s
  have isOpen : d.Open := isOpen
  cases i
  case load literal =>
    rw [Instruction.routine?]
    refine checkLiteral_bind_eq_ok.trans ?_
    by_cases isIn : literal.isIn ctx.pool
    · rw [if_pos isIn, exists_routine_some]
      simp only [pushOp_bind_of_open, isOpen]
      exact and_iff_right isIn
    · rw [if_neg isIn]
      refine iff_of_false (fun h => isIn h.1) ?_
      rintro ⟨_, h, _⟩
      cases h
  case getVar | getDots | makeClosure =>
    rw [Instruction.routine?, exists_routine_map]
    refine constant_bind_eq_ok.trans (exists_congr fun _ => and_congr_right fun _ => ?_)
    simp only [pushOp_bind_of_open, isOpen]
    rfl
  case callSpecial =>
    rw [Instruction.routine?, exists_routine_map]
    refine site_bind_eq_ok.trans (exists_congr fun _ => and_congr_right fun _ => ?_)
    simp only [pushOp_bind_of_open, isOpen]
    rfl
  case setVar scope symbol =>
    rw [Instruction.routine?, exists_routine_map]
    refine constant_bind_eq_ok.trans (exists_congr fun name => and_congr_right fun _ => ?_)
    cases items with
    | nil => rfl
    | cons v rest =>
        change (emit (.stVar name scope v) >>= fun _ => pure ()) _ = _ ↔ _
        simp only [emit_bind_of_open, isOpen]
        rfl
  case setVisible =>
    rw [Instruction.routine?, exists_routine_some, lower]
    simp only [emit_bind_of_open, isOpen]
    rfl
  case goto | hint | ret | returnJump =>
    rw [Instruction.routine?, exists_routine_some]
    rfl
  case pop | dup =>
    rw [Instruction.routine?, exists_routine_some]
    cases items <;> rfl
  case isType test =>
    rw [Instruction.routine?, exists_routine_some]
    cases items with
    | nil => rfl
    | cons v rest =>
        change (pushOp (.isType test v) >>= fun _ => pure ()) ⟨d, ⟨rest⟩, _, _, _, _, _, _⟩ = _ ↔ _
        simp only [pushOp_bind_of_open, isOpen]
        rfl
  case dup2nd | swap =>
    rw [Instruction.routine?, exists_routine_some]
    rcases items with _ | ⟨_, _ | ⟨_, rest⟩⟩
    · exact iff_of_false (fun h => by cases h) fun h => by cases h
    · exact iff_of_false (fun h => by cases h) fun h => by cases h
    · rfl
  case setLoopVal =>
    rw [Instruction.routine?, exists_routine_some]
    rcases items with _ | ⟨_, _ | ⟨_, rest⟩⟩
    · exact iff_of_false (fun h => by cases h) fun h => by cases h
    · exact iff_of_false (fun h => by cases h) fun h => by cases h
    · change (pushOp (.const .null) >>= fun _ => pure ()) ⟨d, ⟨rest⟩, _, _, _, _, _, _⟩ = _ ↔ _
      simp only [pushOp_bind_of_open, isOpen]
      rfl
  case unary | branchIfNot | logicFirst =>
    rw [Instruction.routine?, exists_routine_map]
    cases items with
    | nil =>
        refine iff_of_false (fun h => by cases h) ?_
        rintro ⟨_, _, h⟩
        cases h
    | cons v rest =>
        refine site_bind_eq_ok.trans (exists_congr fun _ => and_congr_right fun _ => ?_)
        simp only [pushOp_bind_of_open, emit_bind_of_open, isOpen, isOpen.emit]
        rfl
  case binary | logicSecond =>
    rw [Instruction.routine?, exists_routine_map]
    rcases items with _ | ⟨_, _ | ⟨_, rest⟩⟩
    · refine iff_of_false (fun h => by cases h) ?_
      rintro ⟨_, _, h⟩
      cases h
    · refine iff_of_false (fun h => by cases h) ?_
      rintro ⟨_, _, h⟩
      cases h
    · refine site_bind_eq_ok.trans (exists_congr fun _ => and_congr_right fun _ => ?_)
      simp only [pushOp_bind_of_open, emit_bind_of_open, isOpen, isOpen.emit]
      rfl
  all_goals cases core

/-! ### The invariant -/

variable {carry : Carry} {base : Draft} {aside : BlockId → Prop} {phase : Phase}

/-- An operation on values of the stack gives a value of its type. -/
theorem Inv.primitive {p : Primitive} {v : ValueId} {items : List ValueId} {draft : Draft}
    (inv : Inv ctx carry base aside phase [] s) (ready : phase ≠ .ended)
    (h : p.run Draft.perform (s.stack.items, s.draft) = some (v, items, draft)) :
    Inv ctx carry base aside phase [(v, p.op.resultType)] { s with draft, stack := ⟨items⟩ } := by
  obtain ⟨args, length, split, emitted⟩ := Primitive.run_eq_some.mp h
  have operands := p.operands_on length
  have taken : Inv ctx carry base aside phase (args.map (·, .value)) { s with stack := ⟨items⟩ } := by
    refine inv.restack (fun w mem => inv.stack w ?_) fun e mem => ?_
    · rw [split]
      exact List.mem_append_right _ mem
    · obtain ⟨w, hw, rfl⟩ := List.mem_map.mp mem
      refine inv.stack w ?_
      rw [split]
      exact List.mem_append_left _ (List.mem_reverse.mpr hw)
  have done : Lowering.emit (p.on args) { s with stack := ⟨items⟩ } =
      .ok v { s with draft, stack := ⟨items⟩ } := by
    cases emitted
    exact emit_of_open (Phase.Holds.isOpen taken.phase ready) _
  have inv' := taken.emit ready done (by
    rw [p.inputs_on, operands]
    exact fun e mem => mem_reads ready mem)
  rw [Primitive.resultType_on] at inv'
  exact inv'.drop fun e mem => List.mem_singleton.mp mem ▸ List.mem_cons_self

theorem Inv.stackOp {op : StackOp} {items : List ValueId} {draft : Draft}
    (inv : Inv ctx carry base aside phase [] s) (ready : phase ≠ .ended)
    (h : op.run Draft.perform (s.stack.items, s.draft) = some (items, draft)) :
    Inv ctx carry base aside phase [] { s with draft, stack := ⟨items⟩ } := by
  have moved : ∀ {items : List ValueId}, (∀ v ∈ items, v ∈ s.stack.items) →
      Inv ctx carry base aside phase [] { s with stack := ⟨items⟩ } := fun less =>
    inv.restack (fun v mem => inv.stack v (less v mem)) inv.hand
  cases op with
  | drop =>
      cases stack : s.stack.items with
      | nil =>
          rw [stack] at h
          cases h
      | cons v rest =>
          rw [stack] at h moved
          cases h
          exact moved fun w mem => List.mem_cons_of_mem v mem
  | copy n =>
      obtain ⟨v, get, heq⟩ := Option.map_eq_some_iff.mp h
      cases heq
      exact moved (List.forall_mem_cons.mpr ⟨List.mem_of_getElem? get, fun w mem => mem⟩)
  | swap =>
      match stack : s.stack.items with
      | [] =>
          rw [stack] at h
          cases h
      | [_] =>
          rw [stack] at h
          cases h
      | v :: w :: rest =>
          rw [stack] at h moved
          cases h
          refine moved fun u mem => ?_
          simpa [or_left_comm] using mem
  | apply p value =>
      obtain ⟨⟨v, rest, d⟩, run, heq⟩ := Option.map_eq_some_iff.mp h
      cases heq
      have inv' := inv.primitive ready run
      rw [value] at inv'
      refine (inv'.restack (List.forall_mem_cons.mpr ⟨?_, inv'.stack⟩) inv'.hand).forget
      exact inv'.hand _ List.mem_cons_self

theorem Inv.runAll {ops : List StackOp} {items : List ValueId} {draft : Draft}
    (inv : Inv ctx carry base aside phase [] s) (ready : phase ≠ .ended)
    (h : StackOp.runAll Draft.perform ops (s.stack.items, s.draft) = some (items, draft)) :
    Inv ctx carry base aside phase [] { s with draft, stack := ⟨items⟩ } := by
  induction ops generalizing s with
  | nil =>
      cases h
      exact inv
  | cons op ops ih =>
      obtain ⟨⟨items', draft'⟩, first, rest⟩ := Option.bind_eq_some_iff.mp h
      exact ih (s := { s with draft := draft', stack := ⟨items'⟩ }) (inv.stackOp ready first) rest

/-! ### The end of a routine -/

/-- What the pass does at the end of a routine. -/
inductive Leaves (ctx : Context) (carry : Carry) (base : Draft) (aside : BlockId → Prop)
    (s : State) : Control → State → Prop
  | next (inv : Inv ctx carry base aside .running [] s) : Leaves ctx carry base aside s .next s
  | goto {label : Label} {b : BlockId} {s' : State} (target : ctx.labels.block label = .ok b)
      (left : Left ctx carry base aside [] (.goto b) s s') :
      Leaves ctx carry base aside s (.goto label) s'
  | branch {p : Primitive} {sense : Bool} {label : Label} {test : p.op.resultType = .test}
      {v : ValueId} {items : List ValueId} {draft : Draft} {b : BlockId} {s₁ : State}
      (run : p.run Draft.perform (s.stack.items, s.draft) = some (v, items, draft))
      (target : ctx.labels.block label = .ok b)
      (left : Left ctx carry base (fun c => c = draft.graph.nextBlock ∨ aside c) [(v, .test)]
        (.branchOn sense v b draft.graph.nextBlock)
        { s with draft := draft.newDirect.2, stack := ⟨items⟩ } s₁)
      (inv : Inv ctx carry base aside .running [(v, .test)]
        { s₁ with draft := s₁.draft.moveTo draft.graph.nextBlock, live := true }) :
      Leaves ctx carry base aside s (.branch p sense label test)
        { s₁ with draft := s₁.draft.moveTo draft.graph.nextBlock, live := true }
  | ret {exit : Exit} {v : ValueId} {items : List ValueId} {s' : State}
      (stack : s.stack.items = v :: items)
      (left : Left ctx carry base aside [(v, .value)] (exit.terminator v)
        { s with stack := ⟨items⟩ } s') : Leaves ctx carry base aside s (.ret exit) s'

theorem Inv.leaves {control : Control} (inv : Inv ctx carry base aside .running [] s)
    (h : Lowering.leave ctx control s = .ok () s') : Leaves ctx carry base aside s control s' := by
  cases control with
  | next =>
      cases h
      exact .next inv
  | goto label =>
      obtain ⟨b, target, h⟩ := target_bind_eq_ok.mp h
      exact .goto target (inv.jumpTo (by simp) (named_of_block target) h)
  | branch p sense label test =>
      simp only [Lowering.leave] at h
      split at h
      case h_2 => cases h
      case h_1 v items draft run =>
        obtain ⟨b, target, h⟩ := target_bind_eq_ok.mp h
        have inv₁ := inv.primitive (by simp) run
        rw [test] at inv₁
        obtain ⟨s₁, left, rfl, inv'⟩ :=
          (inv₁.conducts_branchOn (F := .any) (by simp) (named_of_block target) sense
            List.mem_cons_self).result h
        exact .branch run target left inv'
  | ret exit =>
      obtain ⟨v, s₁, popped, h⟩ := bind_eq_ok_iff.mp h
      have inv₁ := ensures_pop s v s₁ inv popped
      obtain ⟨d, ⟨items⟩, loops, calls, assigns, dispatches, depths, live⟩ := s
      cases items with
      | nil => cases popped
      | cons w rest =>
          cases popped
          refine .ret rfl (inv₁.terminate (by simp) (fun e mem => ?_) ?_ ?_ ?_ ?_ h)
          · cases exit <;> exact mem
          all_goals cases exit <;> simp [Exit.terminator, Terminator.successors, Draft.mergesOf]

/-- The end of a routine can be lowered if the stack is deep enough, and has the
depth that the block of the label expects. -/
theorem Inv.exists_leave {control : Control} {n : Nat}
    (inv : Inv ctx carry base aside .running [] s)
    (depth : control.depth? s.stack.items.length = some n)
    (targets : ∀ l, control.label? = some l → ∃ b, ctx.labels.block l = .ok b ∧
      ∀ phis, s.draft.shape? b = some phis → phis.length = n) :
    ∃ s', Lowering.leave ctx control s = .ok () s' := by
  cases control with
  | next => exact ⟨s, rfl⟩
  | goto label =>
      obtain ⟨b, target, fits⟩ := targets label rfl
      cases depth
      obtain ⟨s', jumped⟩ := inv.exists_jump (by simp) fits
      exact ⟨s', target_bind_eq_ok.mpr ⟨b, target, jumped⟩⟩
  | branch p sense label test =>
      obtain ⟨b, target, fits⟩ := targets label rfl
      rw [Control.depth?, ← p.map_length_run Draft.perform _ s.draft] at depth
      obtain ⟨⟨v, items, draft⟩, run, length⟩ := Option.map_eq_some_iff.mp depth
      have inv₁ := inv.primitive (by simp) run
      have fits' : ∀ phis, draft.shape? b = some phis → phis.length = items.length := by
        intro phis shaped
        rw [fits phis (((Draft.extends_run run).shape b).symm.trans shaped), ← length]
      obtain ⟨s', branched⟩ := inv₁.exists_branchOn (by simp) sense v fits'
      refine ⟨s', ?_⟩
      simp only [Lowering.leave, run]
      exact target_bind_eq_ok.mpr ⟨b, target, branched⟩
  | ret exit =>
      obtain ⟨d, ⟨items⟩, loops, calls, assigns, dispatches, depths, live⟩ := s
      cases items with
      | nil => cases depth
      | cons v rest =>
          have none : (exit.terminator v).successors = [] := by cases exit <;> rfl
          obtain ⟨s', ended, -⟩ := (ensures_pop _ _ _ inv rfl).exists_terminate
            (t := exit.terminator v) (by simp) (by simp [none, Draft.mergesOf]) (by simp [none])
          exact ⟨s', ended⟩

end Lowering

end StackLift
