import StackLift.Proofs.Lower.Dispatch

/-!
One instruction. Whatever it is, lowering it keeps the invariant and the conditions
of its actions, with the values that brackets hold for it as the only ones that it may
read besides the stack, and it uses all of them.
-/

namespace StackLift

/-- A switch whose jump table, or one of them, is empty. -/
def Instruction.EmptyTable (pool : Pool) : Instruction → Prop
  | .switch _ _ chrLabels numLabels =>
    pool.labelTable numLabels = .ok [] ∨ ∃ table ∈ chrLabels, pool.labelTable table = .ok []
  | _ => False

/-- What the labels of an instruction may fail with is among the faults. -/
structure Faults.CoversLabels (F : Faults) (ctx : Context) (i : Instruction) : Prop where
  label : ∀ {l}, i.targets ctx.pool = .ok [l] → F.Covers ctx l
  tables : ∀ {call names chrLabels numLabels}, i = .switch call names chrLabels numLabels →
    (∀ table ∈ chrLabels, F.CoversTable ctx table) ∧ F.CoversTable ctx numLabels

theorem Faults.CoversLabels.of_any (ctx : Context) (i : Instruction) :
    Faults.any.CoversLabels ctx i where
  label _ _ _ := trivial
  tables _ := ⟨fun _ _ _ _ => ⟨fun _ _ _ _ => trivial, fun _ => trivial⟩,
    fun _ _ => ⟨fun _ _ _ _ => trivial, fun _ => trivial⟩⟩

/-- Labels that are known do not fail. -/
theorem Faults.CoversLabels.of_known {ctx : Context} {i : Instruction} {targets : List Label}
    (found : i.targets ctx.pool = .ok targets)
    (known : ∀ l ∈ targets, ∃ b, ctx.labels.block l = .ok b) :
    (Faults.expectedOf (i.EmptyTable ctx.pool)).CoversLabels ctx i := by
  have covers : ∀ l ∈ targets, (Faults.expectedOf (i.EmptyTable ctx.pool)).Covers ctx l := by
    intro l mem f failed
    obtain ⟨b, block⟩ := known l mem
    rw [block] at failed
    cases failed
  constructor
  case label =>
    intro l here
    rw [found] at here
    cases here
    exact covers l List.mem_cons_self
  case tables =>
    rintro call names chrLabels numLabels rfl
    obtain ⟨chr, num, chrFound, numFound, rfl⟩ := Instruction.targets_switch_eq_ok.mp found
    refine ⟨fun table is labels here => ?_, fun labels here => ?_⟩
    · obtain rfl := Option.mem_def.mp is
      rw [show ctx.pool.labelTable table = .ok chr from chrFound] at here
      cases here
      exact ⟨fun l mem => covers l (List.mem_append_left _ mem), fun empty =>
        Or.inr ⟨table, rfl, empty ▸ chrFound⟩⟩
    · rw [numFound] at here
      cases here
      exact ⟨fun l mem => covers l (List.mem_append_right _ mem), fun empty =>
        Or.inl (empty ▸ numFound)⟩

namespace Lowering

/-- What an instruction may take from the brackets of a state. -/
def carryOf (s : State) (i : Instruction) : Carry := ⟨s.held i, s.draft.point⟩

/-- How an instruction leaves the state. -/
inductive Lowered (ctx : Context) (carry : Carry) (base : Draft) (offset : Nat) (i : Instruction)
    (s : State) : Prop
  | left (diverts : i.diverts = true)
      (inv : Inv ctx carry base (ctx.Ahead (offset + 1)) .ended [] s)
  | goesOn (notDiverts : i.diverts = false) (goes : GoesOn ctx carry base (offset + 1) s)

variable {ctx : Context} {carry : Carry} {base : Draft} {offset : Nat} {F : Faults} {s s' : State}
  {i : Instruction}

section

variable {x : Lowering Unit}

/-- Most instructions stay in a block that is open. -/
theorem Conducts.stays (conducts : Conducts F x s fun _ =>
      Inv ctx carry base (ctx.Ahead (offset + 1)) .running [])
    (notDiverts : i.diverts = false) (none : s.held i = []) :
    Conducts F x s fun _ s' => Lowered ctx carry base offset i s' ∧
      ∀ e ∈ s.held i, carry.Uses s'.draft e.1 := by
  rw [none]
  exact conducts.imp fun _ _ inv =>
    ⟨.goesOn notDiverts (.here inv), fun e mem => absurd mem List.not_mem_nil⟩

theorem Conducts.leaves (conducts : Conducts F x s fun _ =>
      Inv ctx carry base (ctx.Ahead (offset + 1)) .ended [])
    (diverts : i.diverts = true) (none : s.held i = []) :
    Conducts F x s fun _ s' => Lowered ctx carry base offset i s' ∧
      ∀ e ∈ s.held i, carry.Uses s'.draft e.1 := by
  rw [none]
  exact conducts.imp fun _ _ inv =>
    ⟨.left diverts inv, fun e mem => absurd mem List.not_mem_nil⟩

end

theorem Inv.conducts_lower (distinct : ctx.labels.Distinct)
    (held : ∀ e ∈ s.held i, e ∈ carry.values) (covers : F.CoversLabels ctx i)
    (inv : Inv ctx carry base (ctx.Ahead (offset + 1)) .begun [] s) :
    Conducts F (lower ctx offset i) s fun _ s' => Lowered ctx carry base offset i s' ∧
      ∀ e ∈ s.held i, carry.Uses s'.draft e.1 := by
  have known : ∀ {vs : List ValueId} {type : ValueType}, s.held i = vs.map (·, type) →
      ∀ v ∈ vs, (v, type) ∈ carry.values := by
    intro vs type heq v mem
    exact held _ (heq ▸ List.mem_map.mpr ⟨v, mem, rfl⟩)
  have uses : ∀ {vs : List ValueId} {type : ValueType} {s' : State}, s.held i = vs.map (·, type) →
      (∀ v ∈ vs, carry.Uses s'.draft v) → ∀ e ∈ s.held i, carry.Uses s'.draft e.1 := by
    intro vs type s' heq all e mem
    rw [heq] at mem
    obtain ⟨v, hv, rfl⟩ := List.mem_map.mp mem
    exact all v hv
  cases i with
  | load literal =>
      refine .stays ?_ rfl rfl
      exact (Conducts.of_ensures (quiet_checkLiteral ctx literal) (ensures_checkLiteral literal)
        inv.inOrder inv).bind fun _ s₁ inv₁ => inv₁.conducts_pushLeaf rfl rfl
  | getVar symbol missingOk =>
      exact .stays (inv.after_constant fun _ s₁ inv₁ => inv₁.conducts_pushLeaf rfl rfl) rfl rfl
  | getDots symbol missingOk =>
      exact .stays (inv.after_constant fun _ s₁ inv₁ => inv₁.conducts_pushLeaf rfl rfl) rfl rfl
  | setVar scope symbol => exact .stays (inv.conducts_storeVar scope symbol) rfl rfl
  | pop =>
      exact .stays (inv.after_pop fun _ s₁ inv₁ => .pure inv₁.inOrder inv₁.run) rfl rfl
  | dup =>
      exact .stays (inv.after_peekNth 0 fun v s₁ inv₁ =>
        (inv₁.conducts_push List.mem_cons_self).imp fun _ _ inv₂ => inv₂.run) rfl rfl
  | dup2nd =>
      exact .stays (inv.after_peekNth 1 fun v s₁ inv₁ =>
        (inv₁.conducts_push List.mem_cons_self).imp fun _ _ inv₂ => inv₂.run) rfl rfl
  | swap =>
      exact .stays ((Conducts.of_ensures quiet_swap ensures_swap inv.inOrder inv).imp
        fun _ _ inv₁ => inv₁.run) rfl rfl
  | setLoopVal =>
      refine .stays ?_ rfl rfl
      exact (Conducts.of_ensures (quiet_popN 2) (ensures_popN 2) inv.inOrder inv).bind
        fun _ s₁ inv₁ => inv₁.forget.conducts_pushLeaf rfl rfl
  | setVisible visible =>
      refine .stays (inv.after_emit (by simp) ?_ fun _ s₁ inv₁ => .pure inv₁.inOrder inv₁.run) rfl rfl
      exact fun e mem => absurd mem List.not_mem_nil
  | goto label => exact .leaves (inv.conducts_goto (covers.label rfl)) rfl rfl
  | branchIfNot call label =>
      exact .stays (inv.conducts_branchIfNot call (covers.label rfl)) rfl rfl
  | ret =>
      refine .leaves (inv.after_pop fun v s₁ inv₁ => inv₁.conducts_leave (by simp) ?_ rfl) rfl rfl
      simp [Terminator.inputs, Phase.reads]
  | returnJump =>
      refine .leaves (inv.after_pop fun v s₁ inv₁ => inv₁.conducts_leave (by simp) ?_ rfl) rfl rfl
      simp [Terminator.inputs, Phase.reads]
  | switch call names chrLabels numLabels =>
      obtain ⟨chr, num⟩ := covers.tables rfl
      exact .leaves (inv.conducts_switch call names chr num) rfl rfl
  | logicFirst connective call label =>
      exact .stays (inv.conducts_logicFirst connective call (covers.label rfl)) rfl rfl
  | logicSecond connective call =>
      exact .stays (inv.conducts_logicSecond connective call) rfl rfl
  | startLoop endLabel =>
      exact (inv.conducts_startLoop distinct (covers.label rfl)).imp fun _ _ goes =>
        ⟨.goesOn rfl goes, fun e mem => absurd mem List.not_mem_nil⟩
  | startFor call symbol endLabel =>
      exact .stays (inv.conducts_startFor call symbol (covers.label rfl)) rfl rfl
  | stepFor =>
      exact (inv.conducts_stepFor (known rfl)).imp fun _ _ done =>
        ⟨.left rfl done.1, uses rfl done.2⟩
  | endLoop kind => exact .stays (inv.conducts_endLoop kind) rfl rfl
  | leaveLoop exit =>
      cases exit with
      | next =>
          exact (inv.conducts_leaveLoop .next fun _ => known rfl).imp fun _ _ done =>
            ⟨.left rfl done.1, uses rfl (done.2 rfl)⟩
      | leave =>
          exact .leaves ((inv.conducts_leaveLoop .leave fun next => by cases next).imp
            fun _ _ done => done.1) rfl rfl
  | getFun lookup symbol => exact .stays (inv.conducts_startCall lookup symbol) rfl rfl
  | getBuiltin kind symbol => exact .stays (inv.conducts_startBuiltin symbol) rfl rfl
  | checkFun => exact .stays inv.conducts_startValueCall rfl rfl
  | makePromise code =>
      exact .stays (inv.after_constant fun _ s₁ inv₁ => inv₁.conducts_addOpArg rfl rfl) rfl rfl
  | doMissing =>
      exact .stays (inv.conducts_addArg fun v mem => absurd mem List.not_mem_nil) rfl rfl
  | doDots =>
      exact .stays (inv.conducts_addArg fun v mem => absurd mem List.not_mem_nil) rfl rfl
  | setTag symbol => exact .stays (inv.conducts_nameLastArg symbol) rfl rfl
  | pushArg => exact .stays inv.conducts_addPopped rfl rfl
  | pushLiteral literal =>
      refine .stays ?_ rfl rfl
      exact (Conducts.of_ensures (quiet_checkLiteral ctx literal) (ensures_checkLiteral literal)
        inv.inOrder inv).bind fun _ s₁ inv₁ => inv₁.conducts_addOpArg rfl rfl
  | finishCall kind call =>
      exact (inv.conducts_finishCall (known rfl) call).imp fun _ _ done =>
        ⟨.goesOn rfl (.here done.1), uses rfl done.2⟩
  | callSpecial call =>
      exact .stays (inv.after_site fun _ s₁ inv₁ => inv₁.conducts_pushLeaf rfl rfl) rfl rfl
  | makeClosure code =>
      exact .stays (inv.after_constant fun _ s₁ inv₁ => inv₁.conducts_pushLeaf rfl rfl) rfl rfl
  | binary op call => exact .stays (inv.conducts_binary op call) rfl rfl
  | unary op call => exact .stays (inv.conducts_unary op call) rfl rfl
  | isType test => exact .stays (inv.conducts_isType test) rfl rfl
  | startAssign scope symbol call =>
      exact .stays (inv.conducts_startAssign scope symbol call) rfl rfl
  | endAssign scope symbol => exact .stays (inv.conducts_endAssign scope symbol) rfl rfl
  | getterCall layer =>
      exact (inv.conducts_getterCall (known rfl) layer.toNat).imp fun _ _ done =>
        ⟨.goesOn rfl (.here done.1), uses rfl done.2⟩
  | setterCall layer =>
      exact (inv.conducts_setterCall (known rfl) layer.toNat).imp fun _ _ done =>
        ⟨.goesOn rfl (.here done.1), uses rfl done.2⟩
  | startDispatch kind call after =>
      exact .stays (inv.conducts_startDispatch kind call (covers.label rfl)) rfl rfl
  | endAccess access =>
      exact (inv.conducts_endDispatch distinct (known rfl)).imp fun _ _ done =>
        ⟨.goesOn rfl done.1, uses rfl done.2⟩
  | endCombine =>
      exact (inv.conducts_endDispatch distinct (known rfl)).imp fun _ _ done =>
        ⟨.goesOn rfl done.1, uses rfl done.2⟩
  | endAccessN access count =>
      exact (inv.conducts_endDispatchN distinct (known rfl)).imp fun _ _ done =>
        ⟨.goesOn rfl done.1, uses rfl done.2⟩
  | dollar call symbol => exact .fail inv.inOrder (F.expected trivial)
  | dollarAssign call symbol => exact .fail inv.inOrder (F.expected trivial)
  | baseGuard call label => exact .fail inv.inOrder (F.expected trivial)
  | hint hint => exact .stays (.pure inv.inOrder inv.run) rfl rfl

theorem Inv.lower (distinct : ctx.labels.Distinct) (held : ∀ e ∈ s.held i, e ∈ carry.values)
    (inv : Inv ctx carry base (ctx.Ahead (offset + 1)) .begun [] s)
    (h : lower ctx offset i s = .ok () s') : Lowered ctx carry base offset i s' :=
  ((inv.conducts_lower distinct held (.of_any ctx i)).result h).1

/-- An instruction uses all that brackets hold for it. -/
theorem Inv.uses_held (distinct : ctx.labels.Distinct)
    (inv : Inv ctx (carryOf s i) base (ctx.Ahead (offset + 1)) .begun [] s)
    (h : Lowering.lower ctx offset i s = .ok () s') :
    ∀ e ∈ s.held i, (carryOf s i).Uses s'.draft e.1 :=
  ((inv.conducts_lower distinct (fun _ mem => mem) (.of_any ctx i)).result h).2

end Lowering

end StackLift
