import StackLift.Proofs.Lower.Steady

/-!
What an instruction may do to the brackets. It opens at most one bracket, or closes at most one, or
adds to the innermost call, and the edges that it notes lead to its labels, to the blocks of the
innermost loop, to the next instruction, or to blocks that are new (`Moves`). Here this is shown of
the instructions that neither open nor close.
-/

namespace StackLift

/-- What an instruction opens. -/
inductive Opener where
  | call
  | assign (scope : Scope)
  | dispatch (kind : DispatchKind)
  | loop (kind : LoopKind)
deriving DecidableEq

namespace Instruction

def opens? : Instruction → Option Opener
  | .getFun _ _ | .getBuiltin _ _ | .checkFun => some .call
  | .startAssign scope _ _ => some (.assign scope)
  | .startDispatch kind _ _ => some (.dispatch kind)
  | .startLoop _ => some (.loop .whileOrRepeat)
  | .startFor _ _ _ => some (.loop .forEach)
  | _ => none

/-- What has to be open for an instruction to close it. -/
def closes? : Instruction → Option Opener
  | .finishCall _ _ | .getterCall _ | .setterCall _ => some .call
  | .endAssign scope _ => some (.assign scope)
  | .endAccess access => some (.dispatch (.access access))
  | .endCombine => some (.dispatch .combine)
  | .endAccessN access _ => some (.dispatch (.accessN access))
  | .endLoop kind => some (.loop kind)
  | _ => none

/-- The arguments that an instruction adds to the innermost call. -/
def adds (s : State) : Instruction → List ArgValue
  | .pushArg => (s.stack.items.take 1).map .value
  | .doMissing => [.missing]
  | .doDots => [.dots]
  | .makePromise _ | .pushLiteral _ => [.value s.draft.graph.nextValue]
  | _ => []

end Instruction

/-- The blocks of the labels that an instruction names. -/
def Instruction.Aims (ctx : Context) (i : Instruction) (b : BlockId) : Prop :=
  ∃ ls, i.targets ctx.pool = .ok ls ∧ ∃ l ∈ ls, ctx.labels.block l = .ok b

/-- Where `break` and `next` lead. -/
def State.LoopTarget (s : State) (b : BlockId) : Prop :=
  ∃ loop rest, s.loops = loop :: rest ∧ (b = loop.loopEnd ∨ b = loop.next)

/-- The block is still to be made. -/
def State.New (s : State) (b : BlockId) : Prop := s.draft.graph.blocks.length ≤ b.index

namespace Lowering

/-- The innermost call is given arguments. -/
inductive Regrown (added : List ArgValue) : List PendingCall → List PendingCall → Prop
  | same {calls : List PendingCall} (none : added = []) : Regrown added calls calls
  | top {c c' : PendingCall} {rest : List PendingCall} (callee : c'.callee = c.callee)
      (args : c'.args.map (·.value) = c.args.map (·.value) ++ added) :
      Regrown added (c :: rest) (c' :: rest)

/-- The record of a dispatch that an instruction opens. -/
structure Records (ctx : Context) (i : Instruction) (s : State) (p : PendingDispatch) : Prop where
  instruction : ∃ after, i = .startDispatch p.kind p.call after ∧ ctx.labels.block after = .ok p.after
  rhs : p.rhs = if p.kind.isWrite then s.stack.items[0]? else none

/-- What an instruction that is lowered opens or closes, and which edges it notes. -/
inductive Effect (ctx : Context) (offset : Nat) (i : Instruction) (s s' : State) : Prop
  | stays (opens : i.opens? = none) (closes : i.closes? = none)
      (calls : Regrown (i.adds s) s.calls s'.calls) (loops : s'.loops = s.loops)
      (assigns : s'.assigns = s.assigns) (dispatches : s'.dispatches = s.dispatches)
      (notes : Noted (fun b => i.Aims ctx b ∨ s.LoopTarget b ∨ s.New b) s.openDepths s.edgeDepths
        s'.edgeDepths)
  | opensCall (opens : i.opens? = some .call) (c : PendingCall) (noArgs : c.args = [])
      (brackets : s'.brackets = (s.loops, c :: s.calls, s.assigns, s.dispatches))
      (notes : s'.edgeDepths = s.edgeDepths)
  | opensAssign (scope : Scope) (opens : i.opens? = some (.assign scope)) (a : PendingAssign)
      (brackets : s'.brackets = (s.loops, s.calls, a :: s.assigns, s.dispatches))
      (notes : s'.edgeDepths = s.edgeDepths)
  | opensDispatch (kind : DispatchKind) (opens : i.opens? = some (.dispatch kind))
      (calls : List PendingCall) (nary : kind.isNary = true → calls = [])
      (notNary : kind.isNary = false → ∃ target : ValueId,
        s.stack.items[if kind.isWrite then 1 else 0]? = some target ∧
        calls = [{ callee := .builtin kind.builtin, args := [{ value := .value target }] }])
      (p : PendingDispatch) (isKind : p.kind = kind) (records : Records ctx i s p)
      (brackets : s'.brackets = (s.loops, calls ++ s.calls, s.assigns, p :: s.dispatches))
      (notes : Noted (fun b => i.Aims ctx b ∨ s.New b) s.openDepths s.edgeDepths s'.edgeDepths)
  | opensLoop (l : LoopContext) (opens : i.opens? = some (.loop l.kind))
      (loopEnd : i.Aims ctx l.loopEnd)
      (next : ctx.labels.blockAt? (offset + 1) = some l.next ∨ s.New l.next)
      (opened : l.opened = s.openDepths) (noted : (s'.edgeDepths.lookup l.loopEnd).isSome)
      (brackets : s'.brackets = (l :: s.loops, s.calls, s.assigns, s.dispatches))
      (notes : Noted (fun b => i.Aims ctx b ∨ ctx.labels.blockAt? (offset + 1) = some b ∨ s.New b)
        s.openDepths s.edgeDepths s'.edgeDepths)
  | closesCall (closes : i.closes? = some .call) (c : PendingCall) (calls : s.calls = c :: s'.calls)
      (loops : s'.loops = s.loops) (assigns : s'.assigns.length = s.assigns.length)
      (dispatches : s'.dispatches = s.dispatches)
      (notes : Noted s.New s'.openDepths s.edgeDepths s'.edgeDepths)
  | closesAssign (scope : Scope) (closes : i.closes? = some (.assign scope)) (a : PendingAssign)
      (brackets : s.brackets = (s'.loops, s'.calls, a :: s'.assigns, s'.dispatches))
      (notes : s'.edgeDepths = s.edgeDepths)
  | closesDispatch (kind : DispatchKind) (closes : i.closes? = some (.dispatch kind))
      (calls : List PendingCall) (count : calls.length = if kind.isNary then 0 else 1)
      (p : PendingDispatch) (isKind : p.kind = kind)
      (brackets : s.brackets = (s'.loops, calls ++ s'.calls, s'.assigns, p :: s'.dispatches))
      (notes : Noted (fun b => ctx.labels.blockAt? (offset + 1) = some b ∨ s.New b) s'.openDepths
        s.edgeDepths s'.edgeDepths)
  | closesLoop (l : LoopContext) (closes : i.closes? = some (.loop l.kind))
      (atEnd : s.draft.cursor = l.loopEnd)
      (brackets : s.brackets = (l :: s'.loops, s'.calls, s'.assigns, s'.dispatches))
      (notes : s'.edgeDepths = s.edgeDepths)

/-- What lowering an instruction does to the brackets. -/
structure Moves (ctx : Context) (offset : Nat) (i : Instruction) (s s' : State) : Prop where
  noticed : Noticed s s'
  effect : Effect ctx offset i s s'

section

variable {ctx : Context} {offset : Nat} {s s' : State}

/-! ### Instructions that neither open nor close -/

theorem Moves.of_steady {i : Instruction} (opens : i.opens? = none) (closes : i.closes? = none)
    (adds : i.adds s = [])
    (steady : Steady (fun b => i.Aims ctx b ∨ s.LoopTarget b ∨ s.New b) s s') :
    Moves ctx offset i s s' := by
  obtain ⟨d, stack, loops, calls, assigns, dispatches, notes, live⟩ := s
  obtain ⟨d', stack', loops', calls', assigns', dispatches', notes', live'⟩ := s'
  obtain ⟨same, -, noted, noticed⟩ := steady
  cases same
  exact ⟨noticed, .stays opens closes (.same adds) rfl rfl rfl noted⟩

/-- Lowering that opens and closes nothing, by what it is made of. -/
theorem Moves.of_keeps {i : Instruction} {m : Lowering Unit} (h : m s = .ok () s')
    (opens : i.opens? = none) (closes : i.closes? = none) (adds : i.adds s = [])
    (keeps : ∀ {T : BlockId → Prop}, (∀ b, i.Aims ctx b → T b) → Keeps T m) :
    Moves ctx offset i s s' :=
  .of_steady opens closes adds (keeps (fun _ => Or.inl) s () s' (fun _ => Or.inr ∘ Or.inr) h)

theorem keeps_switch {call : PoolIndex} {names chrLabels : Option PoolIndex} {numLabels : PoolIndex}
    {T : BlockId → Prop}
    (all : ∀ b, (Instruction.switch call names chrLabels numLabels).Aims ctx b → T b) :
    Keeps T (switch ctx call names chrLabels numLabels) := by
  refine keeps_pop.bind fun subject => (keeps_site call).bind fun site => ?_
  refine (keeps_jumpTable numLabels).bind_of_ok fun {s₁ num s₂} _ numFound => ?_
  obtain ⟨nums, numTable, numBlocks⟩ := block_of_jumpTable numFound
  -- a table names its labels, and those of both tables are targets
  have among : ∀ {ls : List Label}, (Instruction.switch call names chrLabels numLabels).targets
      ctx.pool = .ok ls → ∀ {table : List Label}, (∀ l ∈ table, l ∈ ls) →
      ∀ {targets : List BlockId}, (∀ b ∈ targets, ∃ l ∈ table, ctx.labels.block l = .ok b) →
      ∀ b ∈ targets, T b := by
    intro ls found table less targets blocks b mem
    obtain ⟨l, hl, block⟩ := blocks b mem
    exact all b ⟨ls, found, l, less l hl, block⟩
  cases names with
  | none =>
      cases chrLabels with
      | some chrLabels => exact keeps_fail _
      | none =>
          have found : (Instruction.switch call none none numLabels).targets ctx.pool = .ok nums := by
            rw [Instruction.targets, numTable]
            rfl
          exact keeps_numericSwitch subject site (among found (fun _ => id) numBlocks)
  | some names =>
      cases chrLabels with
      | none => exact keeps_fail _
      | some chrLabels =>
          refine (keeps_constant _).bind fun strings => ?_
          refine (keeps_jumpTable chrLabels).bind_of_ok fun {s₁ chr s₂} _ chrFound => ?_
          obtain ⟨chrs, chrTable, chrBlocks⟩ := block_of_jumpTable chrFound
          have found : (Instruction.switch call (some names) (some chrLabels) numLabels).targets
              ctx.pool = .ok (chrs ++ nums) := by
            rw [Instruction.targets, numTable, Pool.optionalTable, chrTable]
            rfl
          split
          · exact keeps_namedSwitch subject site strings
              (among found (fun _ => List.mem_append_left _) chrBlocks)
              (among found (fun _ => List.mem_append_right _) numBlocks)
          · exact keeps_fail _

theorem jump_steady {i : Instruction} {b : BlockId} (target : s.LoopTarget b)
    (h : jump b s = .ok () s') :
    Steady (fun b => i.Aims ctx b ∨ s.LoopTarget b ∨ s.New b) s s' :=
  keeps_jump (T := fun b => i.Aims ctx b ∨ s.LoopTarget b ∨ s.New b) (Or.inr (Or.inl target)) s ()
    s' (fun _ => Or.inr ∘ Or.inr) h

theorem moves_of_stepFor (h : stepFor s = .ok () s') : Moves ctx offset .stepFor s s' := by
  obtain ⟨loop, s₁, h₁, h₂⟩ := bind_eq_ok_iff.mp h
  obtain ⟨top, rfl⟩ := ofExcept_eq_ok h₁
  obtain ⟨rest, loops⟩ := Bracket.top_eq_ok top
  split at h₂
  · exact .of_steady rfl rfl rfl (jump_steady ⟨loop, rest, loops, Or.inr rfl⟩ h₂)
  · cases h₂

theorem moves_of_leaveLoop {exit : LoopExit} (h : leaveLoop ctx exit s = .ok () s') :
    Moves ctx offset (.leaveLoop exit) s s' := by
  obtain ⟨_, _, h₁, h⟩ := bind_eq_ok_iff.mp h
  cases h₁
  cases loops : s.loops with
  | nil =>
      rw [loops] at h
      simp only at h
      split at h <;> cases h
  | cons loop rest =>
      rw [loops] at h
      cases exit with
      | leave => exact .of_steady rfl rfl rfl (jump_steady ⟨loop, rest, loops, Or.inl rfl⟩ h)
      | next => exact .of_steady rfl rfl rfl (jump_steady ⟨loop, rest, loops, Or.inr rfl⟩ h)

/-! ### Arguments -/

theorem updateCall_eq_ok {f : PendingCall → Except Fault PendingCall}
    (h : updateCall f s = .ok () s') : ∃ c rest c', s.calls = c :: rest ∧ f c = .ok c' ∧
      s' = { s with calls := c' :: rest } := by
  rw [updateCall] at h
  split at h
  case h_2 => cases h
  case h_1 calls updated =>
    cases h
    obtain ⟨c, rest, c', before, changed, rfl⟩ := updateTop_eq_ok updated
    exact ⟨c, rest, c', before, changed, rfl⟩

/-- An argument is added after steps that open and close nothing. -/
theorem Moves.of_updateCall {i : Instruction} {u : State} {f : PendingCall → Except Fault PendingCall}
    (opens : i.opens? = none) (closes : i.closes? = none)
    (brackets : u.brackets = s.brackets) (notes : u.edgeDepths = s.edgeDepths)
    (shapes : u.draft.shapes = s.draft.shapes) (h : updateCall f u = .ok () s')
    (grown : ∀ {c c' : PendingCall}, f c = .ok c' → c'.callee = c.callee ∧
      c'.args.map (·.value) = c.args.map (·.value) ++ i.adds s) : Moves ctx offset i s s' := by
  obtain ⟨c, rest, c', calls, changed, rfl⟩ := updateCall_eq_ok h
  obtain ⟨callee, args⟩ := grown changed
  obtain ⟨loops, same, assigns, dispatches⟩ := fields_of_brackets brackets
  refine ⟨.of_shapes shapes, .stays opens closes ?_ loops assigns dispatches ?_⟩
  · rw [← same, calls]
    exact .top callee args
  · show Noted _ _ _ u.edgeDepths
    rw [notes]
    exact .refl _ _ _

theorem addArg_grown (c : PendingCall) (a : CallArg) : (c.addArg a).callee = c.callee ∧
    (c.addArg a).args.map (·.value) = c.args.map (·.value) ++ [a.value] := by
  simp [PendingCall.addArg]

theorem nameLast_grown {c c' : PendingCall} {name : String} (h : c.nameLast name = .ok c') :
    c'.callee = c.callee ∧ c'.args.map (·.value) = c.args.map (·.value) := by
  rw [PendingCall.nameLast] at h
  cases last : c.args.getLast? with
  | none =>
      rw [last] at h
      cases h
  | some a =>
      rw [last] at h
      cases h
      obtain ⟨before, split⟩ := List.getLast?_eq_some_iff.mp last
      simp [split]

theorem moves_of_addOpArg {i : Instruction} {op : Op} (opens : i.opens? = none)
    (closes : i.closes? = none) (adds : i.adds s = [.value s.draft.graph.nextValue])
    (h : addOpArg op s = .ok () s') : Moves ctx offset i s s' := by
  obtain ⟨_, s₁, h₁, h₂⟩ := bind_eq_ok_iff.mp h
  obtain rfl : s₁ = s := ensures_requireCall (P := (· = s)) s _ s₁ rfl h₁
  refine .of_updateCall (f := fun c => .ok (c.addValue s₁.draft.graph.nextValue)) opens closes ?_ ?_
    ?_ (emit_bind_eq_ok h₂) fun changed => ?_
  · rfl
  · rfl
  · rfl
  · cases changed
    rw [adds]
    exact addArg_grown _ _

end

end Lowering

end StackLift
