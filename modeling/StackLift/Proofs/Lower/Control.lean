import StackLift.Proofs.Lower.Straight

/-!
Instructions that end the block under construction: jumps and branches, returns and
switches.
-/

namespace StackLift

/-- What a jump table may fail with is among the faults. A table lacks a default only if it is
empty. -/
def Faults.CoversTable (F : Faults) (ctx : Context) (table : PoolIndex) : Prop :=
  ∀ labels, ctx.pool.labelTable table = .ok labels → (∀ l ∈ labels, F.Covers ctx l) ∧
    (labels = [] → F.Has (.invalid .switchWithoutDefault))

namespace Lowering

/-- The targets of a jump table: one for each arm, and the default. -/
structure Targets where
  arms : List BlockId
  default : BlockId

/-- All blocks of a jump table, the default last. -/
def Targets.all (t : Targets) : List BlockId := t.arms ++ [t.default]

theorem Targets.length_all (t : Targets) : t.all.length = t.arms.length + 1 := by
  simp [all]

theorem Targets.exists_all {targets : List BlockId} (some : targets ≠ []) :
    ∃ t : Targets, targets = t.all :=
  ⟨⟨targets.dropLast, targets.getLast some⟩, (List.dropLast_concat_getLast some).symm⟩

theorem numericSwitch_all (subject : ValueId) (site : CallSite) (t : Targets) :
    numericSwitch subject site t.all = (do
      let index ← emit (.switchIndex subject site)
      numberChain index t.default 1 t.arms) := by
  simp [numericSwitch, Targets.all]

variable {ctx : Context} {carry : Carry} {base : Draft} {aside : BlockId → Prop} {phase : Phase}
  {hand : List (ValueId × ValueType)} {F : Faults} {s s' : State}

/-! ### Branches and returns -/

/-- The block under construction is ended, and no edge leaves it. -/
theorem Inv.conducts_leave (inv : Inv ctx carry base aside phase hand s) (ready : phase ≠ .ended)
    {t : Terminator} (inputs : ∀ e ∈ t.inputs, e ∈ phase.reads carry hand)
    (final : t.successors = []) :
    Conducts F (Lowering.terminate t) s fun _ => Inv ctx carry base aside .ended [] := by
  have none : ∀ {P : BlockId → Prop}, ∀ b ∈ t.successors, P b :=
    fun b mem => absurd (final ▸ mem) List.not_mem_nil
  exact (inv.conducts_terminate ready inputs (by simp [final]) (by simp [final, Draft.mergesOf])
    none none).imp fun _ _ left => left.inv.forget

/-- A branch to a label, and on in a new block. -/
theorem Inv.conducts_branchTo (inv : Inv ctx carry base aside phase hand s) (ready : phase ≠ .ended)
    {target : BlockId} (named : ∃ offset, ctx.labels.blockAt? offset = some target) (sense : Bool)
    {cond : ValueId} (test : (cond, .test) ∈ hand) :
    Conducts F (branchOn sense cond target) s fun _ s' =>
      Inv ctx carry base aside .running hand s' ∧ s'.stack = s.stack := by
  refine (inv.conducts_branchOn ready named sense (mem_reads ready test)).imp fun _ s' went => ?_
  obtain ⟨s₁, left, rfl, inv'⟩ := went
  exact ⟨inv', congrArg (·.stack) left.frame⟩

section

variable (inv : Inv ctx carry base aside .begun [] s)

include inv

theorem Inv.conducts_goto {label : Label} (covers : F.Covers ctx label) : Conducts F (do
      let b ← ctx.target label
      Lowering.jump b) s fun _ => Inv ctx carry base aside .ended [] := by
  refine inv.after_target covers fun b named => ?_
  exact (inv.conducts_jumpPlain (by simp) (inv.plain_label named)).imp fun _ _ left => left.inv

theorem Inv.conducts_branchIfNot (call : PoolIndex) {label : Label} (covers : F.Covers ctx label) :
    Conducts F (branchIfNot ctx call label) s fun _ => Inv ctx carry base aside .running [] := by
  refine inv.after_pop fun cond s₁ inv₁ => inv₁.after_site fun site s₂ inv₂ => ?_
  refine inv₂.after_emit (by simp) ?_ fun test s₃ inv₃ => ?_
  · simp [Op.inputs, Op.operands, Phase.reads]
  · refine inv₃.after_target covers fun target named => ?_
    exact (inv₃.conducts_branchTo (by simp) named false List.mem_cons_self).imp
      fun _ _ went => went.1.forget

theorem Inv.conducts_logicFirst (connective : Connective) (call : PoolIndex) {label : Label}
    (covers : F.Covers ctx label) : Conducts F (logicFirst ctx connective call label) s
      fun _ => Inv ctx carry base aside .running [] := by
  refine inv.after_pop fun value s₁ inv₁ => inv₁.after_site fun site s₂ inv₂ => ?_
  refine inv₂.after_pushOp (by simp) ?_ rfl fun logical s₃ inv₃ => ?_
  · simp [Op.inputs, Op.operands, Phase.reads]
  · refine inv₃.after_emit (by simp) ?_ fun decided s₄ inv₄ => ?_
    · simp [Op.inputs, Op.operands, Phase.reads]
    · refine inv₄.after_target covers fun target named => ?_
      exact (inv₄.conducts_branchTo (by simp) named true List.mem_cons_self).imp
        fun _ _ went => went.1.forget

end

/-! ### Switches -/

theorem reads_singleton {v : ValueId} {type : ValueType} (ready : phase ≠ .ended)
    (mem : (v, type) ∈ hand) : ∀ e ∈ [(v, type)], e ∈ phase.reads carry hand := by
  intro e he
  rw [List.mem_singleton.mp he]
  exact mem_reads ready mem

/-- The number of an arm is compared with the index. -/
theorem reads_indexEq {index arm : ValueId} {n : Nat} (ready : phase ≠ .ended)
    (mem : (index, .index) ∈ hand) : ∀ e ∈ (Op.indexEq index arm).inputs,
      e ∈ phase.reads carry ((arm, (Op.indexConst n).resultType) :: hand) := by
  intro e he
  refine mem_reads ready ?_
  simp only [Op.inputs, List.mem_cons, List.not_mem_nil, or_false] at he
  rcases he with rfl | rfl
  · exact List.mem_cons_of_mem _ mem
  · exact List.mem_cons_self

/-- Every entry of a jump table is the block of a label. -/
theorem Inv.conducts_targetsOf (inv : Inv ctx carry base aside phase hand s) {labels : List Label}
    (covers : ∀ l ∈ labels, F.Covers ctx l) : Conducts F (targetsOf ctx labels) s fun bs s' =>
      s' = s ∧ bs.length = labels.length ∧
        ∀ b ∈ bs, ∃ offset, ctx.labels.blockAt? offset = some b := by
  induction labels with
  | nil => exact .pure inv.inOrder ⟨rfl, rfl, fun b mem => absurd mem List.not_mem_nil⟩
  | cons l rest ih =>
      obtain ⟨first, others⟩ := List.forall_mem_cons.mp covers
      refine inv.after_target first fun b named => (ih others).bind fun bs s₁ found => ?_
      obtain ⟨rfl, length, all⟩ := found
      exact .pure inv.inOrder ⟨rfl, congrArg (· + 1) length, List.forall_mem_cons.mpr ⟨named, all⟩⟩

theorem Inv.conducts_jumpTable (inv : Inv ctx carry base aside phase hand s) {table : PoolIndex}
    (covers : F.CoversTable ctx table) : Conducts F (jumpTable ctx table) s fun targets s' =>
      s' = s ∧ ∃ t : Targets, targets = t.all ∧
        ∀ b ∈ t.all, ∃ offset, ctx.labels.blockAt? offset = some b := by
  rw [jumpTable]
  cases found : ctx.pool.labelTable table with
  | error cause =>
      refine (Conducts.quiet inv.inOrder (quiet_constant _) id).bind fun _ _ h => ?_
      cases h
  | ok labels =>
      obtain ⟨labelled, empty⟩ := covers labels found
      refine (Conducts.quiet inv.inOrder (quiet_constant _) id).bind fun _ _ h => ?_
      cases h
      refine (inv.conducts_targetsOf labelled).bind fun bs s₁ found => ?_
      obtain ⟨rfl, length, named⟩ := found
      split
      case isTrue none =>
        refine .fail inv.inOrder (empty ?_)
        obtain rfl := List.isEmpty_iff.mp none
        exact List.eq_nil_of_length_eq_zero length.symm
      case isFalse some =>
        obtain ⟨t, rfl⟩ := Targets.exists_all (mt List.isEmpty_iff.mpr some)
        exact .pure inv.inOrder ⟨rfl, t, rfl, named⟩

/-- A chain has a target for each name, and one more. -/
theorem Inv.conducts_stringChain {subject : ValueId} {names : List String}
    {targets : List BlockId} (inv : Inv ctx carry base aside .running hand s)
    (fits : targets.length = names.length + 1)
    (named : ∀ b ∈ targets, ∃ offset, ctx.labels.blockAt? offset = some b)
    (mem : (subject, .value) ∈ hand) :
    Conducts F (stringChain subject names targets) s fun _ s' =>
      Inv ctx carry base aside .ended [] s' ∧ s'.stack = s.stack := by
  induction names generalizing targets s with
  | nil =>
      obtain ⟨default, rfl⟩ := List.length_eq_one_iff.mp fits
      refine (inv.conducts_jumpPlain (by simp)
        (inv.plain_label (named default List.mem_cons_self))).imp
        fun _ s' left => ⟨left.inv.forget, ?_⟩
      rw [left.frame]
  | cons name names ih =>
      obtain ⟨target, targets, rfl⟩ := List.exists_cons_of_length_eq_add_one fits
      obtain ⟨first, others⟩ := List.forall_mem_cons.mp named
      have inputs : ∀ e ∈ (Op.strEq subject name).inputs, e ∈ Phase.running.reads carry hand := by
        simpa [Op.inputs, Op.operands, Phase.reads] using mem
      refine (inv.conducts_emit (by simp) inputs).eq.bind fun test s₁ emitted => ?_
      obtain ⟨h₁, inv₁⟩ := emitted
      refine (inv₁.conducts_branchTo (by simp) first true List.mem_cons_self).bind
        fun _ s₂ went => ?_
      obtain ⟨inv₂, stack₂⟩ := went
      refine (ih (inv₂.drop fun e he => List.mem_cons_of_mem _ he) (Nat.succ.inj fits) others).imp
        fun _ s' done => ⟨done.1, done.2.trans (stack₂.trans ?_)⟩
      obtain ⟨-, rfl⟩ := emit_eq_ok h₁
      rfl

theorem Inv.conducts_numberChain {index : ValueId} {default : BlockId} {n : Nat}
    {arms : List BlockId} (inv : Inv ctx carry base aside phase hand s) (ready : phase ≠ .ended)
    (defaultNamed : ∃ offset, ctx.labels.blockAt? offset = some default)
    (named : ∀ b ∈ arms, ∃ offset, ctx.labels.blockAt? offset = some b)
    (mem : (index, .index) ∈ hand) : Conducts F (numberChain index default n arms) s
      fun _ => Inv ctx carry base aside .ended [] := by
  induction arms generalizing n phase hand s with
  | nil =>
      exact (inv.conducts_jumpPlain ready (inv.plain_label defaultNamed)).imp
        fun _ _ left => left.inv.forget
  | cons target rest ih =>
      obtain ⟨first, others⟩ := List.forall_mem_cons.mp named
      refine inv.after_emit ready (fun e he => absurd he List.not_mem_nil) fun arm s₁ inv₁ => ?_
      refine inv₁.after_emit ready (reads_indexEq ready mem) fun test s₂ inv₂ => ?_
      refine (inv₂.conducts_branchTo ready first true List.mem_cons_self).bind fun _ s₃ went => ?_
      exact ih went.1 (by simp) others (List.mem_cons_of_mem _ (List.mem_cons_of_mem _ mem))

theorem Inv.conducts_numericSwitch {subject : ValueId} {site : CallSite} {targets : Targets}
    (inv : Inv ctx carry base aside phase hand s) (ready : phase ≠ .ended)
    (named : ∀ b ∈ targets.all, ∃ offset, ctx.labels.blockAt? offset = some b)
    (mem : (subject, .value) ∈ hand) : Conducts F (numericSwitch subject site targets.all) s
      fun _ => Inv ctx carry base aside .ended [] := by
  rw [numericSwitch_all]
  obtain ⟨arms, default⟩ := List.forall_mem_append.mp named
  refine inv.after_emit ready (reads_singleton ready mem) fun index s₁ inv₁ => ?_
  exact inv₁.conducts_numberChain ready (default _ List.mem_cons_self) arms List.mem_cons_self

/-- Both cases of a named switch start with what is in scope at the test. -/
theorem Inv.conducts_namedSwitch {subject : ValueId} {site : CallSite} {names : List String}
    {chr num : Targets} (inv : Inv ctx carry base aside phase hand s) (ready : phase ≠ .ended)
    (chrNamed : ∀ b ∈ chr.all, ∃ offset, ctx.labels.blockAt? offset = some b)
    (numNamed : ∀ b ∈ num.all, ∃ offset, ctx.labels.blockAt? offset = some b)
    (fits : chr.all.length = names.length + 1)
    (mem : (subject, .value) ∈ hand) : Conducts F (namedSwitch subject site names chr.all num.all) s
      fun _ => Inv ctx carry base aside .ended [] := by
  refine inv.after_emit ready (reads_singleton ready mem) fun isChr s₁ inv₁ => ?_
  refine inv₁.after_emit ready (reads_singleton ready List.mem_cons_self) fun test s₂ inv₂ => ?_
  have held : (subject, ValueType.value) ∈ (test, (Op.asTest isChr site).resultType) ::
      (isChr, (Op.isType .character subject).resultType) :: hand :=
    List.mem_cons_of_mem _ (List.mem_cons_of_mem _ mem)
  refine inv₂.conducts_newDirect.bind fun chrBlock s₃ h₃ => ?_
  obtain ⟨inv₃, chrNew, chrApart, -, -⟩ := inv₂.newDirect h₃
  refine inv₃.conducts_newDirect.bind fun numBlock s₄ h₄ => ?_
  obtain ⟨inv₄, numNew, numApart, -, kept⟩ := inv₃.newDirect h₄
  obtain ⟨chrNew, apart⟩ := kept chrNew
  refine (inv₄.conducts_branch ready (mem_reads ready List.mem_cons_self) apart
    (Or.inl ⟨chrNew, Or.inr numNew⟩)).bind fun _ s₅ left => ?_
  refine (left.conducts_enterDirect List.mem_cons_self (Or.inr (Or.inl rfl)) chrNew).bind
    fun _ s₆ entered => ?_
  obtain ⟨inv₆, frame₆⟩ := entered
  refine (inv₆.rebase.conducts_stringChain fits chrNamed held).bind fun _ s₇ done => ?_
  obtain ⟨inv₇, stack₇⟩ := done
  obtain ⟨inv₇, grows₇⟩ := inv₆.of_rebase inv₇
  -- the number case goes on from the test, not from the end of the character case
  have grows : s₅.draft.Grows s₇.draft := by
    refine .trans ?_ grows₇
    rw [frame₆]
    exact Draft.grows_moveTo _ _
  have stack : s₇.stack = s₅.stack := by rw [stack₇, frame₆]
  refine (left.conducts_resume (List.mem_cons_of_mem _ List.mem_cons_self) numNew inv₇ grows stack
    ⟨Or.inl rfl, apart.symm⟩).bind fun _ s₈ resumed => ?_
  refine (resumed.1.settle fun c set => ?_).conducts_numericSwitch (by simp) numNamed held
  exact ⟨⟨Or.inr (Or.inr set), chrApart c set⟩, numApart c (Or.inr set)⟩

theorem Inv.conducts_switch (inv : Inv ctx carry base aside .begun [] s) (call : PoolIndex)
    (names : Option PoolIndex) {chrLabels : Option PoolIndex} {numLabels : PoolIndex}
    (chrCovers : ∀ table ∈ chrLabels, F.CoversTable ctx table)
    (numCovers : F.CoversTable ctx numLabels) :
    Conducts F (switch ctx call names chrLabels numLabels) s
      fun _ => Inv ctx carry base aside .ended [] := by
  refine inv.after_pop fun subject s₁ inv₁ => inv₁.after_site fun site s₂ inv₂ => ?_
  refine (inv₂.conducts_jumpTable numCovers).bind fun num _ found => ?_
  obtain ⟨rfl, num, rfl, numNamed⟩ := found
  cases names with
  | none =>
      cases chrLabels with
      | none => exact inv₂.conducts_numericSwitch (by simp) numNamed List.mem_cons_self
      | some chrLabels => exact .fail inv₂.inOrder (F.expected trivial)
  | some names =>
      cases chrLabels with
      | none => exact .fail inv₂.inOrder (F.expected trivial)
      | some chrLabels =>
          refine inv₂.after_constant fun names s₃ inv₃ => ?_
          refine (inv₃.conducts_jumpTable (chrCovers chrLabels rfl)).bind fun chr _ found => ?_
          obtain ⟨rfl, chr, rfl, chrNamed⟩ := found
          split
          case isTrue fits =>
            exact inv₃.conducts_namedSwitch (by simp) chrNamed numNamed fits List.mem_cons_self
          case isFalse => exact .fail inv₃.inOrder (F.expected trivial)

end Lowering

end StackLift
