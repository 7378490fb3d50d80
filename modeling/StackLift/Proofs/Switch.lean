import StackLift.Proofs.Access
import StackLift.Proofs.Building
import StackLift.Proofs.Switch.Chain

/-!
Switches. `switch_selects` says of every switch that was translated, in every later draft of the
pass: control that comes to the switch is brought to the target that the tables give for the
subject, by name for a character and by number otherwise, and what is below the subject comes
along. The blocks that the pass makes for the switch are left in no other way.

The pass builds the switch as a part of the graph (`Inv.builds_switch`), piece by piece: a
question and a branch (`Inv.ask`), and the test that tells the two chains apart (`Inv.fork`). What
the part does is said of the graph alone (`Graph.Switch.run`, `Graph.Switch.leavesBy`).
-/

namespace StackLift

namespace Lowering

variable {ctx : Context} {carry : Carry} {base final : Draft} {aside : BlockId → Prop}
  {phase : Phase} {hand : List (ValueId × ValueType)} {s s' : State}

/-! ### Building a chain -/

/-- Between two states the pass makes blocks and builds a part of the graph that goes on in them.
Every later draft has the part. -/
def Builds (ctx : Context) (part : Graph → List BlockId → Prop) (s s' : State) : Prop :=
  s.draft.Grows s'.draft ∧ ∃ blocks, (∀ b ∈ blocks, s.Makes s' b) ∧
    ∀ {final : Draft}, s'.draft.Later ctx final → part final.graph blocks

theorem Builds.since {part : Graph → List BlockId → Prop} {s₀ : State}
    (builds : Builds ctx part s s') (grows : s₀.draft.Grows s.draft) : Builds ctx part s₀ s' := by
  obtain ⟨grows', blocks, made, built⟩ := builds
  exact ⟨grows.trans grows', blocks, fun b mem => (made b mem).mono grows (.refl _), built⟩

/-- The pass builds a chain of tests of `v` from where it is. -/
def BuildsChain (ctx : Context) (v : ValueId) (default : BlockId)
    (arms : List (Question × BlockId)) (s s' : State) : Prop :=
  Builds ctx (fun g => g.Chain v s.stack.slots default s.draft.cursor s.draft.stmtIndex arms) s s'

theorem Inv.buildsChain_nil {default : BlockId} (inv : Inv ctx carry base aside phase hand s)
    (ready : phase ≠ .ended) (named : ∃ offset, ctx.labels.blockAt? offset = some default)
    (h : Lowering.jump default s = .ok () s') (v : ValueId) :
    BuildsChain ctx v default [] s s' := by
  have left := inv.jumpTo ready named h
  obtain ⟨block, live, -⟩ := left.can.isOpen
  refine ⟨left.grows, [], fun b mem => absurd mem List.not_mem_nil, fun {final} later => ?_⟩
  have tail := left.tail later live s.draft.stmtIndex
  rw [Draft.stmtIndex_eq live, List.drop_length, ← Draft.stmtIndex_eq live] at tail
  have carries :=
    left.carries later.grows later.sound (later.plain named) List.mem_cons_self named
  exact .nil tail carries

/-- A question and a branch on the answer are a link, and the chain goes on in a new block. -/
theorem Inv.ask {s₁ : State} {q : Question} {v : ValueId} {target : BlockId}
    (inv : Inv ctx carry base aside phase hand s₁) (ready : phase ≠ .ended) (isOpen : s.draft.Open)
    (known : ∀ u ∈ v :: s.stack.slots, u.index < s.made)
    (emits : s₁ = { s with draft := s.draft.emitAll (q.ops v s.made) })
    (named : ∃ offset, ctx.labels.blockAt? offset = some target)
    (test : (q.answer s.made, .test) ∈ hand)
    (h : Lowering.branchIf (q.answer s.made) target s₁ = .ok () s') :
    Inv ctx carry base aside .running hand s' ∧
      ∀ {default : BlockId} {arms : List (Question × BlockId)} {s'' : State},
        BuildsChain ctx v default arms s' s'' →
        BuildsChain ctx v default ((q, target) :: arms) s s'' := by
  have emitted : s.draft.Grows s₁.draft := by
    rw [emits]
    exact Draft.grows_emitAll isOpen _
  have cursor : s₁.draft.cursor = s.draft.cursor := by
    rw [emits]
    exact Draft.cursor_emitAll _ _
  have h : Lowering.branchOn true (q.answer s.made) target s₁ = .ok () s' := h
  obtain ⟨s₂, left, rfl, inv'⟩ :=
    (inv.conducts_branchOn (F := .any) ready named true (mem_reads ready test)).result h
  refine ⟨inv', fun {default arms s''} rest => ?_⟩
  obtain ⟨moved, blocks, made, chain⟩ := rest.since (Draft.grows_moveTo s₂.draft _)
  have added : s₁.draft.Grows s₁.draft.newDirect.2 := Draft.grows_addBlock Draft.others_newDirect
  have grows : s.draft.Grows s₂.draft := (emitted.trans added).trans left.grows
  obtain ⟨blank, -⟩ := left.inv.aside (Or.inl rfl)
  have isSome : (s₂.draft.graph.block? s₁.draft.graph.nextBlock).isSome := by
    obtain ⟨block, live, -⟩ := blank
    rw [live]
    rfl
  have makes : s₁.Makes s₂ s₁.draft.graph.nextBlock := ⟨Draft.block?_nextBlock _, isSome⟩
  refine ⟨grows.trans moved, s₁.draft.graph.nextBlock :: blocks, ?_, fun {final} later => ?_⟩
  · refine List.forall_mem_cons.mpr ⟨makes.mono emitted moved, fun b mem => ?_⟩
    exact (made b mem).mono grows (.refl _)
  · have chain := chain later
    have later := later.of_grows moved
    have tail := left.tail_emitAll (q.ops v s.made) isOpen cursor
      (fun live => Draft.block?_addBlock_of_eq_some (by rw [emits]; exact live)) later
    have carries :=
      left.carries later.grows later.sound (later.plain named) List.mem_cons_self named
    have direct : s₁.draft.graph.nextBlock ∈ s₂.draft.direct := by
      rw [left.ended.direct]
      exact List.mem_cons_self
    have stack : s₁.stack = s.stack := by rw [emits]
    have stack₂ : s₂.stack = s.stack := (congrArg (·.stack) left.frame).trans stack
    rw [show (s₂.draft.moveTo s₁.draft.graph.nextBlock).stmtIndex = 0 from blank.stmtIndex_moveTo,
      show s₂.stack.slots = s.stack.slots by rw [stack₂]] at chain
    refine .cons known tail ?_ (later.carries_nil _ isSome direct) chain
    rw [← cursor, ← stack]
    exact carries

theorem Inv.buildsChain_stringChain {subject : ValueId} {names : List String}
    {arms : List BlockId} {default : BlockId} (inv : Inv ctx carry base aside .running hand s)
    (named : ∀ b ∈ arms ++ [default], ∃ offset, ctx.labels.blockAt? offset = some b)
    (fits : arms.length = names.length) (mem : (subject, .value) ∈ hand)
    (h : Lowering.stringChain subject names (arms ++ [default]) s = .ok () s') :
    BuildsChain ctx subject default (Question.named (names.zip arms)) s s' := by
  induction names generalizing s arms with
  | nil =>
      obtain rfl := List.eq_nil_of_length_eq_zero fits
      exact inv.buildsChain_nil (by simp) (named default List.mem_cons_self) h subject
  | cons name names ih =>
      obtain ⟨target, rest, rfl⟩ := List.exists_cons_of_length_eq_add_one fits
      obtain ⟨first, others⟩ := List.forall_mem_cons.mp named
      obtain ⟨test, s₁, h₁, h⟩ := bind_eq_ok_iff.mp h
      have inv₁ := inv.emit (by simp) h₁ (by simpa [Op.inputs, Op.operands, Phase.reads] using mem)
      obtain ⟨_, s₂, h₂, h₃⟩ := bind_eq_ok_iff.mp h
      obtain ⟨rfl, emits, -⟩ := made_emit h₁
      obtain ⟨inv₂, link⟩ := inv₁.ask (q := .name name) (by simp) inv.phase (inv.known mem) emits
        first List.mem_cons_self h₂
      exact link (ih (inv₂.drop fun e he => List.mem_cons_of_mem _ he) others
        (Nat.succ.inj fits) h₃)

theorem Inv.buildsChain_numberChain {index : ValueId} {default : BlockId} {n : Nat}
    {arms : List BlockId} (inv : Inv ctx carry base aside phase hand s) (ready : phase ≠ .ended)
    (defaultNamed : ∃ offset, ctx.labels.blockAt? offset = some default)
    (named : ∀ b ∈ arms, ∃ offset, ctx.labels.blockAt? offset = some b)
    (mem : (index, .index) ∈ hand) (h : Lowering.numberChain index default n arms s = .ok () s') :
    BuildsChain ctx index default (Question.numbered n arms) s s' := by
  induction arms generalizing n phase s with
  | nil => exact inv.buildsChain_nil ready defaultNamed h index
  | cons target rest ih =>
      obtain ⟨first, others⟩ := List.forall_mem_cons.mp named
      obtain ⟨arm, s₁, h₁, h⟩ := bind_eq_ok_iff.mp h
      have inv₁ := inv.emit ready h₁ fun e he => absurd he List.not_mem_nil
      obtain ⟨test, s₂, h₂, h⟩ := bind_eq_ok_iff.mp h
      have inv₂ := inv₁.emit ready h₂ (reads_indexEq ready mem)
      obtain ⟨_, s₃, h₃, h₄⟩ := bind_eq_ok_iff.mp h
      obtain ⟨rfl, emits₁, made⟩ := made_emit h₁
      obtain ⟨answer, emits, -⟩ := made_emit h₂
      rw [emits₁] at emits
      rw [made] at answer
      obtain rfl := answer
      obtain ⟨inv₃, link⟩ := inv₂.ask (q := .number n) ready (Phase.Holds.isOpen inv.phase ready)
        (inv.known mem) emits first List.mem_cons_self h₃
      refine link (ih (inv₃.drop fun e he => ?_) (by simp) others h₄)
      exact List.mem_cons_of_mem _ (List.mem_cons_of_mem _ he)

/-! ### Building a switch -/

theorem Inv.builds_numericSwitch {subject : ValueId} {site : CallSite} {targets : Targets}
    (inv : Inv ctx carry base aside phase hand s) (ready : phase ≠ .ended)
    (named : ∀ b ∈ targets.all, ∃ offset, ctx.labels.blockAt? offset = some b)
    (mem : (subject, .value) ∈ hand)
    (h : Lowering.numericSwitch subject site targets.all s = .ok () s') :
    Builds ctx (fun g => g.NumberSwitch subject site s.stack.slots targets s.draft.cursor
      s.draft.stmtIndex) s s' := by
  have isOpen := Phase.Holds.isOpen inv.phase ready
  rw [numericSwitch_all] at h
  obtain ⟨index, s₁, h₁, h₂⟩ := bind_eq_ok_iff.mp h
  have inv₁ := inv.emit ready h₁ (reads_singleton ready mem)
  obtain ⟨arms, default⟩ := List.forall_mem_append.mp named
  obtain ⟨grows, blocks, made, chain⟩ := inv₁.buildsChain_numberChain ready
    (default _ List.mem_cons_self) arms List.mem_cons_self h₂
  have known := inv.known mem
  obtain ⟨rfl, rfl⟩ := emit_eq_ok h₁
  have emitted : s.draft.Grows (s.draft.emitted (.switchIndex subject site)) :=
    Draft.grows_emitted isOpen
  refine ⟨emitted.trans grows, blocks, fun b mem => (made b mem).mono emitted (.refl _), ?_⟩
  intro final later
  obtain ⟨block, live, get, -⟩ := Draft.stmt_emitted (.switchIndex subject site) isOpen
  obtain ⟨block', live', grown⟩ := (grows.trans later.grows).block live
  have chain := chain later
  have index : (s.draft.emitted (.switchIndex subject site)).stmtIndex = s.draft.stmtIndex + 1 :=
    Draft.stmtIndex_emitted isOpen
  refine ⟨s.made, fun u mem => known u (List.mem_cons_of_mem _ mem),
    ⟨block', live', getElem?_of_isPrefix grown.stmts get⟩, ?_⟩
  rw [← index]
  exact chain

/-- The block under construction is ended by a branch to two blocks that are made for it. -/
structure Fork (ctx : Context) (ops : List Op) (cond : ValueId) (yes no : BlockId) (s s' : State) :
    Prop where
  grows : s.draft.Grows s'.draft
  stack : s'.stack = s.stack
  yes_made : s.Makes s' yes
  no_made : s.Makes s' no
  yes_blank : s'.draft.Blank yes
  built : ∀ {final : Draft}, s'.draft.Later ctx final →
    final.graph.Tail s.draft.cursor s.draft.stmtIndex (Stmt.ofOps s.made ops)
      (.branch cond yes no) ∧
    final.graph.Carries s.draft.cursor yes [] ∧ final.graph.Carries s.draft.cursor no []

theorem Inv.fork {s₁ s₂ s₃ : State} {cond : ValueId} {yes no : BlockId} (ops : List Op)
    (inv : Inv ctx carry base aside phase hand s₁) (ready : phase ≠ .ended) (isOpen : s.draft.Open)
    (emits : s₁ = { s with draft := s.draft.emitAll ops }) (test : (cond, .test) ∈ hand)
    (h₁ : Lowering.newDirect s₁ = .ok yes s₂) (h₂ : Lowering.newDirect s₂ = .ok no s₃)
    (h₃ : Lowering.branch cond yes no s₃ = .ok () s') :
    yes ≠ no ∧ s₃.draft.Untouched yes ∧ s₃.draft.Untouched no ∧
      Left ctx carry base (fun c => c = no ∨ c = yes ∨ aside c) hand (.branch cond yes no) s₃ s' ∧
      Fork ctx ops cond yes no s s' := by
  obtain ⟨inv₁, yesNew, -, -, -⟩ := inv.newDirect h₁
  obtain ⟨inv₂, noNew, -, -, kept⟩ := inv₁.newDirect h₂
  obtain ⟨yesNew, apart⟩ := kept yesNew
  have left := inv₂.branch ready (mem_reads ready test) apart (Or.inl ⟨yesNew, Or.inr noNew⟩) h₃
  obtain ⟨makesYes, grows₁, stack₁, cursor₁, kept₁⟩ := makes_newDirect h₁
  obtain ⟨makesNo, grows₂, stack₂, cursor₂, kept₂⟩ := makes_newDirect h₂
  have emitted : s.draft.Grows s₁.draft := by
    rw [emits]
    exact Draft.grows_emitAll isOpen ops
  have cursor : s₃.draft.cursor = s.draft.cursor := by
    rw [cursor₂, cursor₁, emits]
    exact Draft.cursor_emitAll _ _
  refine ⟨apart, yesNew, noNew, left, ((emitted.trans grows₁).trans grows₂).trans left.grows, ?_,
    makesYes.mono emitted (grows₂.trans left.grows),
    makesNo.mono (emitted.trans grows₁) left.grows, (left.inv.aside (Or.inr (Or.inl rfl))).1, ?_⟩
  · rw [left.frame]
    exact stack₂.trans (stack₁.trans (by rw [emits]))
  · intro final later
    have direct : ∀ {b : BlockId}, s₃.draft.Untouched b →
        final.graph.Carries s.draft.cursor b [] := by
      intro b untouched
      refine later.carries_nil _ (left.grows.isSome untouched.live) ?_
      rw [left.ended.direct]
      exact untouched.mem
    refine ⟨?_, direct yesNew, direct noNew⟩
    exact left.tail_emitAll ops isOpen cursor
      (fun live => kept₂ (kept₁ (by rw [emits]; exact live))) later

/-- Both cases of a switch with names are built on what is in scope at the test. -/
theorem Inv.builds_namedSwitch {subject : ValueId} {site : CallSite} {names : List String}
    {chr num : Targets} (inv : Inv ctx carry base aside phase hand s) (ready : phase ≠ .ended)
    (chrNamed : ∀ b ∈ chr.all, ∃ offset, ctx.labels.blockAt? offset = some b)
    (numNamed : ∀ b ∈ num.all, ∃ offset, ctx.labels.blockAt? offset = some b)
    (fits : chr.arms.length = names.length) (mem : (subject, .value) ∈ hand)
    (h : Lowering.namedSwitch subject site names chr.all num.all s = .ok () s') :
    Builds ctx (fun g => g.Switch subject site s.stack.slots s.draft.cursor s.draft.stmtIndex
      ⟨some (names, chr), num⟩) s s' := by
  -- the test
  obtain ⟨isChr, s₁, h₁, h⟩ := bind_eq_ok_iff.mp h
  have inv₁ := inv.emit ready h₁ (reads_singleton ready mem)
  obtain ⟨test, s₂, h₂, h⟩ := bind_eq_ok_iff.mp h
  have inv₂ := inv₁.emit ready h₂ (reads_singleton ready List.mem_cons_self)
  obtain ⟨rfl, emits₁, made₁⟩ := made_emit h₁
  obtain ⟨answer, emits, -⟩ := made_emit h₂
  rw [emits₁] at emits
  rw [made₁] at answer
  obtain rfl := answer
  obtain ⟨chrBlock, s₃, h₃, h⟩ := bind_eq_ok_iff.mp h
  obtain ⟨numBlock, s₄, h₄, h⟩ := bind_eq_ok_iff.mp h
  obtain ⟨_, s₅, h₅, h⟩ := bind_eq_ok_iff.mp h
  obtain ⟨apart, chrNew, numNew, left, fork⟩ :=
    inv₂.fork [.isType .character subject, .asTest ⟨s.made⟩ site] ready
      (Phase.Holds.isOpen inv.phase ready) emits List.mem_cons_self h₃ h₄ h₅
  have held : (subject, ValueType.value) ∈
      (⟨s.made + 1⟩, (Op.asTest ⟨s.made⟩ site).resultType) ::
        (⟨s.made⟩, (Op.isType .character subject).resultType) :: hand :=
    List.mem_cons_of_mem _ (List.mem_cons_of_mem _ mem)
  -- the character case
  obtain ⟨_, s₆, h₆, h⟩ := bind_eq_ok_iff.mp h
  obtain ⟨inv₆, rfl⟩ := left.enterDirect (by simp [Terminator.successors])
    (Or.inr (Or.inl rfl)) chrNew h₆
  obtain ⟨_, s₇, h₇, h⟩ := bind_eq_ok_iff.mp h
  have length : chr.all.length = names.length + 1 := by rw [chr.length_all, fits]
  obtain ⟨inv₇, stack₇⟩ :=
    (inv₆.rebase.conducts_stringChain (F := .any) length chrNamed held).result h₇
  obtain ⟨inv₇, -⟩ := inv₆.of_rebase inv₇
  obtain ⟨grows₇, chrBlocks, chrMade, chain⟩ :=
    (inv₆.buildsChain_stringChain chrNamed fits held h₇).since (Draft.grows_moveTo s₅.draft _)
  -- the number case goes on from the test, not from the end of the character case
  obtain ⟨_, s₈, h₈, h₉⟩ := bind_eq_ok_iff.mp h
  obtain ⟨numBlank, -⟩ := inv₇.aside ⟨Or.inl rfl, apart.symm⟩
  obtain ⟨inv₈, rfl⟩ := left.resume (by simp [Terminator.successors]) numNew inv₇ grows₇ stack₇
    ⟨Or.inl rfl, apart.symm⟩ h₈
  obtain ⟨grows', numBlocks, numMade, numbers⟩ :=
    (inv₈.builds_numericSwitch (by simp) numNamed held h₉).since (Draft.grows_moveTo s₇.draft _)
  refine ⟨fork.grows.trans (grows₇.trans grows'),
    chrBlock :: numBlock :: (chrBlocks ++ numBlocks), ?_, ?_⟩
  · have after := grows₇.trans grows'
    refine List.forall_mem_cons.mpr ⟨fork.yes_made.mono (.refl _) after, List.forall_mem_cons.mpr
      ⟨fork.no_made.mono (.refl _) after,
        List.forall_mem_append.mpr ⟨fun b mem => ?_, fun b mem => ?_⟩⟩⟩
    · exact (chrMade b mem).mono fork.grows grows'
    · exact (numMade b mem).mono (fork.grows.trans grows₇) (.refl _)
  · intro final later
    have numbers := numbers later
    have chain := chain (later.of_grows grows')
    obtain ⟨tail, toChr, toNum⟩ := fork.built (later.of_grows (grows₇.trans grows'))
    have slots₅ : s₅.stack.slots = s.stack.slots := by rw [fork.stack]
    have slots₇ : s₇.stack.slots = s.stack.slots := by rw [stack₇, fork.stack]
    rw [show (s₅.draft.moveTo chrBlock).stmtIndex = 0 from fork.yes_blank.stmtIndex_moveTo,
      slots₅] at chain
    rw [show (s₇.draft.moveTo numBlock).stmtIndex = 0 from numBlank.stmtIndex_moveTo,
      slots₇] at numbers
    exact .names fits (inv.known mem) tail toChr toNum chain numbers

/-! ### The tables -/

/-- The entries of a jump table in the pool are labels of these blocks. -/
def IsTable (ctx : Context) (table : PoolIndex) (t : Targets) : Prop :=
  ∃ ls, ctx.pool.labelTable table = .ok ls ∧ ls.map ctx.labels.block = t.all.map .ok

theorem IsTable.named {table : PoolIndex} {t : Targets} (isTable : IsTable ctx table t) :
    ∀ b ∈ t.all, ∃ offset, ctx.labels.blockAt? offset = some b := by
  obtain ⟨ls, -, blocks⟩ := isTable
  intro b mem
  have mem : Except.ok b ∈ ls.map ctx.labels.block := blocks ▸ List.mem_map_of_mem mem
  obtain ⟨l, -, block⟩ := List.mem_map.mp mem
  exact named_of_block block

theorem targetsOf_eq_ok {ls : List Label} {bs : List BlockId}
    (h : targetsOf ctx ls s = .ok bs s') :
    s' = s ∧ ls.map ctx.labels.block = bs.map .ok := by
  induction ls generalizing bs s' with
  | nil =>
      cases h
      exact ⟨rfl, rfl⟩
  | cons l rest ih =>
      obtain ⟨b, block, h⟩ := target_bind_eq_ok.mp h
      obtain ⟨bs', s₁, h₁, h₂⟩ := bind_eq_ok_iff.mp h
      obtain ⟨rfl, blocks⟩ := ih h₁
      cases h₂
      exact ⟨rfl, by rw [List.map_cons, List.map_cons, block, blocks]⟩

theorem jumpTable_eq_ok {table : PoolIndex} {targets : List BlockId}
    (h : jumpTable ctx table s = .ok targets s') :
    s' = s ∧ ∃ t : Targets, targets = t.all ∧ IsTable ctx table t := by
  obtain ⟨ls, found, h⟩ := constant_bind_eq_ok.mp h
  obtain ⟨bs, s₁, h₁, h₂⟩ := bind_eq_ok_iff.mp h
  obtain ⟨rfl, blocks⟩ := targetsOf_eq_ok h₁
  split at h₂
  · cases h₂
  · rename_i some
    cases h₂
    obtain ⟨t, rfl⟩ := Targets.exists_all (mt List.isEmpty_iff.mpr some)
    obtain ⟨ls', found', rfl⟩ := exists_ok_of_toOption ⟨ls, found, rfl⟩
    exact ⟨rfl, t, rfl, ls, found', blocks⟩

end Lowering

/-- The tables that the operands of a switch stand for. -/
inductive SwitchTables.Reads (ctx : Context) (numLabels : PoolIndex) :
    Option PoolIndex → Option PoolIndex → SwitchTables → Prop
  | numbers {num : Lowering.Targets} (numTable : Lowering.IsTable ctx numLabels num) :
      Reads ctx numLabels none none ⟨none, num⟩
  | names {names chrLabels : PoolIndex} {strings : List String} {chr num : Lowering.Targets}
      (isNames : ctx.pool.strings names = .ok strings)
      (chrTable : Lowering.IsTable ctx chrLabels chr) (fits : chr.arms.length = strings.length)
      (numTable : Lowering.IsTable ctx numLabels num) :
      Reads ctx numLabels (some names) (some chrLabels) ⟨some (strings, chr), num⟩

namespace Lowering

variable {ctx : Context} {carry : Carry} {base : Draft} {aside : BlockId → Prop} {s s' : State}

theorem Inv.builds_switch {call numLabels : PoolIndex} {names chrLabels : Option PoolIndex}
    (inv : Inv ctx carry base aside .begun [] s)
    (h : Lowering.switch ctx call names chrLabels numLabels s = .ok () s') :
    ∃ subject below tables, s.stack.items = subject :: below ∧
      SwitchTables.Reads ctx numLabels names chrLabels tables ∧
      Builds ctx (fun g => g.Switch subject (.pool call) below.reverse s.draft.cursor
        s.draft.stmtIndex tables) s s' := by
  obtain ⟨subject, s₁, h₁, h⟩ := bind_eq_ok_iff.mp h
  have inv₁ := ensures_pop s subject s₁ inv h₁
  obtain ⟨below, items, rfl⟩ := pop_eq_ok h₁
  refine ⟨subject, below, ?_⟩
  obtain ⟨e, -, h⟩ := site_bind_eq_ok.mp h
  obtain ⟨_, s₂, h₂, h⟩ := bind_eq_ok_iff.mp h
  obtain ⟨rfl, num, rfl, numTable⟩ := jumpTable_eq_ok h₂
  cases names with
  | none =>
      cases chrLabels with
      | none =>
          obtain ⟨grows, blocks, made, part⟩ :=
            inv₁.builds_numericSwitch (by simp) numTable.named List.mem_cons_self h
          exact ⟨⟨none, num⟩, items, .numbers numTable, grows, blocks, made,
            fun later => .numbers (part later)⟩
      | some chrLabels => cases h
  | some names =>
      cases chrLabels with
      | none => cases h
      | some chrLabels =>
          obtain ⟨strings, found, h⟩ := constant_bind_eq_ok.mp h
          obtain ⟨_, s₃, h₃, h⟩ := bind_eq_ok_iff.mp h
          obtain ⟨rfl, chr, rfl, chrTable⟩ := jumpTable_eq_ok h₃
          split at h
          · rename_i length
            have fits : chr.arms.length = strings.length := by
              rw [chr.length_all] at length
              exact Nat.succ.inj length
            obtain ⟨strings', found', rfl⟩ := exists_ok_of_toOption ⟨strings, found, rfl⟩
            exact ⟨⟨some (strings, chr), num⟩, items, .names found' chrTable fits numTable,
              inv₁.builds_namedSwitch (by simp) chrTable.named numTable.named fits
                List.mem_cons_self h⟩
          · cases h

end Lowering

open Lowering

/-- A switch selects the target of its subject, brings along exactly what is below the subject, and
is left in no other way. This holds as soon as the switch is translated, and for the rest of the
pass. -/
theorem switch_selects {unit : CodeUnit} {pool : Pool} {kind : UnitKind} {labels : LabelMap}
    {draft : Draft} {k j : Nat} {call numLabels : PoolIndex} {names chrLabels : Option PoolIndex}
    {a t s : State} (known : LabelMap.resolve unit pool (.new unit.displayName) = .ok labels draft)
    (visits : Visits ⟨pool, labels, kind⟩ unit.instructions { draft } k
      (.switch call names chrLabels numLabels) a)
    (translated : Before ⟨pool, labels, kind⟩ unit.instructions { draft } (k + 1) t)
    (later : Before ⟨pool, labels, kind⟩ unit.instructions { draft } j s) (lt : k < j)
    (le : j ≤ unit.size) :
    ∃ subject below tables blocks, a.stack.items = subject :: below ∧
      SwitchTables.Reads ⟨pool, labels, kind⟩ numLabels names chrLabels tables ∧
      (∀ b ∈ blocks, a.Makes t b) ∧
      (∀ b ∈ a.draft.cursor :: blocks,
        s.draft.graph.LeavesBy blocks tables.targets below.reverse b) ∧
      ∀ {V : Type} {I : Interp V} (M : I.Switching) {c : Config V} {x : V} {xs : List V},
        c.block = a.draft.cursor → c.index = a.draft.stmtIndex → c.env subject = some x →
        below.map c.env = xs.map some →
        ∃ target c', M.target? tables x = some target ∧
          s.draft.graph.StepsIn I (a.draft.cursor :: blocks) c c' ∧
          s.draft.graph.Arrives target xs.reverse c' := by
  obtain ⟨t', lowered, heq, inv, isLater⟩ := visits.translation known translated later lt le
  obtain ⟨subject, below, tables, items, reads, grows, blocks, made, part⟩ :=
    inv.builds_switch lowered
  have same : t.draft = t'.draft := by rw [heq]; split <;> rfl
  have switch := part isLater
  refine ⟨subject, below, tables, blocks, items, reads, ?_, switch.leavesBy, ?_⟩
  · intro b mem
    refine ⟨(made b mem).1, ?_⟩
    rw [same]
    exact (made b mem).2
  · intro V I M c x xs block index value values
    refine switch.run (fun live => isLater.sound.distinct live) M block index value ?_
    show below.reverse.map c.env = _
    rw [List.map_reverse, values, List.map_reverse]

/-! ### A switch with a name that is repeated -/

/-- Some values, with a meaning for the operations of a switch. -/
inductive Datum where
  | text (s : String)
  | number (k : Int)
  | flag (b : Bool)

def datumInterp : Interp Datum where
  result _ op args :=
    match op, args with
    | .isType .character _, [.text _] => .flag true
    | .asTest _ _, [x] => x
    | .strEq _ name, [.text s] => .flag (s = name)
    | .switchIndex _ _, [.number k] => .number k
    | .indexConst k, [] => .number k
    | .indexEq _ _, [.number i, .number j] => .flag (i = j)
    | _, _ => .flag false
  holds
    | .flag b => b
    | _ => false

def datumSwitching : datumInterp.Switching where
  isCharacter
    | .text _ => true
    | _ => false
  text
    | .text s => s
    | _ => ""
  number
    | .number k => k
    | _ => -1
  holds_isCharacter _ _ _ x := by cases x <;> rfl
  holds_strEq _ _ x isText := by
    cases x with
    | text s => rfl
    | number k => cases isText
    | flag b => cases isText
  holds_indexEq _ _ _ _ k x := by
    have negative : ¬(-1 : Int) = k := by omega
    cases x with
    | number i => rfl
    | text s => exact (decide_eq_false negative).symm
    | flag b => exact (decide_eq_false negative).symm

def repeatedName : CodeUnit where
  name := none
  instructions := [.load .null, .load (.logical true),
    .switch ⟨0⟩ (some ⟨1⟩) (some ⟨2⟩) ⟨3⟩, .ret, .ret, .ret, .ret]
  labels := [some 3, some 4, some 5, some 6]

def repeatedNamePool : Pool where
  entries := [.expr (.symbol "x"), .strings ["b", "a", "a"],
    .labelTable [⟨0⟩, ⟨1⟩, ⟨2⟩, ⟨3⟩], .labelTable [⟨1⟩, ⟨2⟩]]

def repeatedNameLabels : LabelMap where
  offsets := [(⟨2⟩, 5), (⟨1⟩, 4), (⟨3⟩, 6), (⟨2⟩, 5), (⟨1⟩, 4), (⟨0⟩, 3)]
  blocks := [(6, ⟨4⟩), (5, ⟨3⟩), (4, ⟨2⟩), (3, ⟨1⟩)]

/-- The name `"a"` stands at the second and the third arm, and the second one is selected. -/
theorem switch_selects_repeatedName : ∃ draft a t s blocks c',
    LabelMap.resolve repeatedName repeatedNamePool (.new repeatedName.displayName) =
      .ok repeatedNameLabels draft ∧
    Visits ⟨repeatedNamePool, repeatedNameLabels, .function⟩ repeatedName.instructions { draft } 2
      (.switch ⟨0⟩ (some ⟨1⟩) (some ⟨2⟩) ⟨3⟩) a ∧
    Before ⟨repeatedNamePool, repeatedNameLabels, .function⟩ repeatedName.instructions { draft } 3
      t ∧
    Before ⟨repeatedNamePool, repeatedNameLabels, .function⟩ repeatedName.instructions { draft } 7
      s ∧
    s.draft.graph.StepsIn datumInterp (⟨0⟩ :: blocks)
      ⟨⟨0⟩, 2, fun v => [.number 5, .text "a"][v.index]?, []⟩ c' ∧
    s.draft.graph.Arrives ⟨2⟩ [.number 5] c' := by
  have visited : ∃ a ∈ repeatedName.arrival? repeatedNamePool .function 2, a.live = true ∧
      a.stack = ⟨[⟨1⟩, ⟨0⟩]⟩ ∧ a.draft.cursor = ⟨0⟩ ∧ a.draft.stmtIndex = 2 := by
    decide +kernel
  obtain ⟨a, arrives, live, stack, cursor, index⟩ := visited
  obtain ⟨labels, draft, known, visits⟩ := CodeUnit.lowers_of_arrival rfl arrives live
  have lowers : ∃ g ∈ (repeatedName.lower repeatedNamePool .function).toOption,
      g.blocks.length = 11 := by
    decide +kernel
  obtain ⟨g, lowers, -⟩ := exists_ok_of_toOption lowers
  obtain ⟨labels', draft', s, pass, -⟩ := CodeUnit.lower_eq_ok.mp lowers
  obtain ⟨_, isMap⟩ : ∃ draft, LabelMap.resolve repeatedName repeatedNamePool
      (.new repeatedName.displayName) = .ok repeatedNameLabels draft := ⟨_, rfl⟩
  have same := pass.resolve
  rw [known] at same
  cases same
  rw [known] at isMap
  cases isMap
  obtain ⟨t, translated⟩ := exists_before pass.run 3
  have later := pass.before_final
  obtain ⟨subject, below, tables, blocks, items, reads, -, -, selects⟩ :=
    switch_selects known visits translated later (by decide) (by decide)
  rw [stack] at items
  cases items
  have values : [(⟨0⟩ : ValueId)].map (fun v => [Datum.number 5, .text "a"][v.index]?) =
      [Datum.number 5].map some := rfl
  obtain ⟨target, c', selected, run, arrived⟩ := selects datumSwitching
    (c := ⟨⟨0⟩, 2, fun v => [.number 5, .text "a"][v.index]?, []⟩) cursor.symm index.symm rfl values
  -- the tables are those of the pool
  cases reads with
  | @names _ _ strings chr num isNames chrTable fits numTable =>
      cases isNames
      obtain ⟨ls, found, entries⟩ := chrTable
      cases found
      have second : (chr.all.map Except.ok)[1]? = some (.ok ⟨2⟩ : Except Fault BlockId) :=
        entries ▸ rfl
      rw [List.getElem?_map, Targets.all, List.getElem?_append_left (by rw [fits]; decide),
        Option.map_eq_some_iff] at second
      obtain ⟨b, second, heq⟩ := second
      cases heq
      have selected : chr.arms[1]? = some target := selected
      obtain rfl : target = ⟨2⟩ := Option.some.inj (selected.symm.trans second)
      exact ⟨draft, a, t, s, blocks, c', known, visits, translated, later, cursor ▸ run, arrived⟩

end StackLift
