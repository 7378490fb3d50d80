import StackLift.Proofs.Lower.Labels

/-!
Steps of the pass that open and close nothing. Such a step notes edges, with the brackets that are
open along them, and only to given blocks or to blocks that it makes itself (`Steady`). Main
statements: this goes over from the parts of a step to the whole (`Keeps.bind`), and holds of what
instructions are made of, up to the chains of a switch (`keeps_namedSwitch`).
-/

namespace StackLift

/-! ### Edges that are noted -/

/-- What is open along an edge, and along those that were noted before it. -/
def OpenDepths.along (depths : OpenDepths) : Option OpenDepths → OpenDepths
  | some seen => seen.min depths
  | none => depths

theorem OpenDepths.min_min_self (a b : OpenDepths) : (a.min b).min b = a.min b := by
  simp [OpenDepths.min]

theorem OpenDepths.along_along (depths : OpenDepths) (seen : Option OpenDepths) :
    depths.along (some (depths.along seen)) = depths.along seen := by
  cases seen with
  | none => simp [along, OpenDepths.min]
  | some seen => exact min_min_self seen depths

namespace Lowering

/-- Edges were noted, with the same brackets open along each of them, to some blocks
of a set and to no others. -/
def Noted (T : BlockId → Prop) (depths : OpenDepths) (notes notes' : List (BlockId × OpenDepths)) :
    Prop :=
  ∀ b, notes'.lookup b = notes.lookup b ∨ T b ∧ notes'.lookup b = some (depths.along (notes.lookup b))

section

variable {T T' : BlockId → Prop} {depths : OpenDepths}
  {notes notes' notes'' : List (BlockId × OpenDepths)}

theorem Noted.refl (T : BlockId → Prop) (depths : OpenDepths)
    (notes : List (BlockId × OpenDepths)) : Noted T depths notes notes :=
  fun _ => Or.inl rfl

theorem Noted.mono (noted : Noted T depths notes notes') (more : ∀ b, T b → T' b) :
    Noted T' depths notes notes' :=
  fun b => (noted b).imp id (And.imp (more b) id)

theorem Noted.trans (first : Noted T depths notes notes') (rest : Noted T depths notes' notes'') :
    Noted T depths notes notes'' := by
  intro b
  rcases first b with same | ⟨target, now⟩
  · rw [← same]
    exact rest b
  · rcases rest b with same | ⟨-, now'⟩
    · exact Or.inr ⟨target, same.trans now⟩
    · rw [now, OpenDepths.along_along] at now'
      exact Or.inr ⟨target, now'⟩

theorem Noted.isSome (noted : Noted T depths notes notes') {b : BlockId}
    (old : (notes.lookup b).isSome) : (notes'.lookup b).isSome := by
  rcases noted b with same | ⟨-, now⟩
  · rwa [same]
  · rw [now]
    rfl

end

/-- A block that got its shape got it along an edge that was noted. -/
def Noticed (s s' : State) : Prop :=
  ∀ b, (s'.draft.shape? b).isSome → (s.draft.shape? b).isSome ∨ (s'.edgeDepths.lookup b).isSome

/-- Nothing was opened or closed between two states, and edges were noted only to
blocks of a set. -/
structure Steady (T : BlockId → Prop) (s s' : State) : Prop where
  brackets : s'.brackets = s.brackets
  blocks : s.draft.graph.blocks.length ≤ s'.draft.graph.blocks.length
  notes : Noted T s.openDepths s.edgeDepths s'.edgeDepths
  noticed : Noticed s s'

/-- The set has the blocks that are still to be made. -/
def HasNew (T : BlockId → Prop) (s : State) : Prop :=
  ∀ b : BlockId, s.draft.graph.blocks.length ≤ b.index → T b

/-- A step of the pass that opens and closes nothing. -/
def Keeps {α : Type} (T : BlockId → Prop) (m : Lowering α) : Prop :=
  ∀ (s : State) (a : α) (s' : State), HasNew T s → m s = .ok a s' → Steady T s s'

section

variable {α β : Type} {T : BlockId → Prop} {s s' s'' : State}

theorem openDepths_of_brackets (same : s'.brackets = s.brackets) : s'.openDepths = s.openDepths := by
  obtain ⟨d, stack, loops, calls, assigns, dispatches, notes, live⟩ := s
  obtain ⟨d', stack', loops', calls', assigns', dispatches', notes', live'⟩ := s'
  cases same
  rfl

theorem fields_of_brackets (same : s'.brackets = s.brackets) : s'.loops = s.loops ∧
    s'.calls = s.calls ∧ s'.assigns = s.assigns ∧ s'.dispatches = s.dispatches := by
  simpa only [State.brackets, Prod.mk.injEq] using same

theorem Noticed.of_shapes (shapes : s'.draft.shapes = s.draft.shapes) : Noticed s s' :=
  fun b some => Or.inl (by rwa [Draft.shape?, shapes] at some)

theorem Steady.of_notes (brackets : s'.brackets = s.brackets)
    (blocks : s.draft.graph.blocks.length ≤ s'.draft.graph.blocks.length)
    (notes : s'.edgeDepths = s.edgeDepths) (shapes : s'.draft.shapes = s.draft.shapes) :
    Steady T s s' :=
  ⟨brackets, blocks, notes ▸ .refl _ _ _, .of_shapes shapes⟩

theorem Steady.trans (first : Steady T s s') (rest : Steady T s' s'') : Steady T s s'' := by
  have notes := rest.notes
  rw [openDepths_of_brackets first.brackets] at notes
  refine ⟨rest.brackets.trans first.brackets, Nat.le_trans first.blocks rest.blocks,
    first.notes.trans notes, fun b some => ?_⟩
  rcases rest.noticed b some with some | noted
  · exact (first.noticed b some).imp id rest.notes.isSome
  · exact Or.inr noted

theorem Steady.hasNew (steady : Steady T s s') (hasNew : HasNew T s) : HasNew T s' :=
  fun b le => hasNew b (Nat.le_trans steady.blocks le)

/-- A run goes on with a step that opens and closes nothing. -/
theorem Steady.step {m : Lowering α} {f : α → Lowering β} {b : β} (steady : Steady T s s')
    (hasNew : HasNew T s) (keeps : Keeps T m) (h : (m >>= f) s' = .ok b s'') :
    ∃ a u, Steady T s u ∧ m s' = .ok a u ∧ f a u = .ok b s'' := by
  obtain ⟨a, u, h₁, h₂⟩ := bind_eq_ok_iff.mp h
  exact ⟨a, u, steady.trans (keeps s' a u (steady.hasNew hasNew) h₁), h₁, h₂⟩

theorem Keeps.bind_of_ok {m : Lowering α} {f : α → Lowering β} (first : Keeps T m)
    (rest : ∀ {s : State} {a : α} {s' : State}, HasNew T s → m s = .ok a s' → Keeps T (f a)) :
    Keeps T (m >>= f) := by
  intro s b s' hasNew h
  obtain ⟨a, u, h₁, h₂⟩ := bind_eq_ok_iff.mp h
  have steady := first s a u hasNew h₁
  exact steady.trans (rest hasNew h₁ u b s' (steady.hasNew hasNew) h₂)

theorem Keeps.bind {m : Lowering α} {f : α → Lowering β} (first : Keeps T m)
    (rest : ∀ a, Keeps T (f a)) : Keeps T (m >>= f) :=
  first.bind_of_ok fun _ _ => rest _

theorem Keeps.pure (a : α) : Keeps T (pure a : Lowering α) := by
  intro s b s' _ h
  cases h
  exact .of_notes rfl (Nat.le_refl _) rfl rfl

/-- A look-up, or a step that changes only the stack. -/
theorem Keeps.of_frame {m : Lowering α}
    (frame : ∀ {s : State} {a : α} {s' : State}, m s = .ok a s' → ∃ stack, s' = { s with stack }) :
    Keeps T m := by
  intro s a s' _ h
  obtain ⟨stack, rfl⟩ := frame h
  exact .of_notes rfl (Nat.le_refl _) rfl rfl

end

/-! ### Steps that open and close nothing -/

/-- How many blocks a graph has room for; the next one gets this number. -/
theorem length_blocks_foldl {β : Type} (f : Graph → β → Graph)
    (same : ∀ g x, (f g x).blocks.length = g.blocks.length) (xs : List β) (g : Graph) :
    (xs.foldl f g).blocks.length = g.blocks.length := by
  induction xs generalizing g with
  | nil => rfl
  | cons x xs ih => rw [List.foldl_cons, ih, same]

theorem length_blocks_updateBlock (g : Graph) (b : BlockId) (f : Block → Block) :
    (g.updateBlock b f).blocks.length = g.blocks.length := by
  simp [Graph.updateBlock]

theorem length_blocks_terminate {t : Terminator} {slots : List ValueId} {d d' : Draft}
    (h : Draft.terminate t slots d = .ok () d') :
    d'.graph.blocks.length = d.graph.blocks.length := by
  refine Draft.wireAll_keeps (P := fun d' => d'.graph.blocks.length = d.graph.blocks.length)
    (fun _ => Draft.wire_keeps (P := fun g => g.blocks.length = d.graph.blocks.length)
      (fun _ _ _ => (length_blocks_updateBlock _ _ _).trans)
      fun _ _ _ _ _ => (length_blocks_updateBlock _ _ _).trans)
    (Draft.terminate_eq_ok_iff.mp h).2 ?_
  rw [Draft.closed, Graph.addEnd, length_blocks_foldl _ fun g b => length_blocks_updateBlock g b _]
  exact length_blocks_updateBlock _ _ _

/-- Only the end of an edge gets a shape. -/
theorem shape?_of_wire {d d' : Draft} {source target b : BlockId} {slots : List ValueId}
    (h : d.wire source target slots = .ok d') (some : (d'.shape? b).isSome) :
    (d.shape? b).isSome ∨ b = target := by
  rcases Draft.wire_cases h with ⟨-, rfl⟩ | ⟨_, -, -, rfl⟩ | ⟨-, phis, d₁, fixed, rfl⟩
  · exact Or.inl some
  · rw [Draft.addInputs_eq] at some
    exact Or.inl some
  · obtain ⟨graph, -, rfl⟩ := Draft.fixShape_eq_ok fixed
    rw [Draft.addInputs_eq] at some
    replace some : (((target, phis) :: d.shapes).lookup b).isSome := some
    rw [List.lookup_cons] at some
    split at some
    case h_1 same => exact Or.inr (eq_of_beq same)
    case h_2 => exact Or.inl some

theorem shape?_of_terminate {t : Terminator} {slots : List ValueId} {d d' : Draft} {b : BlockId}
    (h : Draft.terminate t slots d = .ok () d') (some : (d'.shape? b).isSome) :
    (d.shape? b).isSome ∨ b ∈ t.successors :=
  Draft.wireAll_keeps
    (P := fun d' => (d'.shape? b).isSome → (d.shape? b).isSome ∨ b ∈ t.successors)
    (fun mem wired before some =>
      (shape?_of_wire wired some).elim before fun same => Or.inr (same ▸ mem))
    (Draft.terminate_eq_ok_iff.mp h).2 Or.inl some

section

variable {T : BlockId → Prop}

/-- A block may be ended when the edges that leave it were noted. -/
theorem steady_terminate {t : Terminator} {s s' : State} (h : terminate t s = .ok () s')
    (noted : ∀ b ∈ t.successors, (s.edgeDepths.lookup b).isSome) : Steady T s s' := by
  rw [terminate] at h
  split at h
  case h_1 d ended =>
    cases h
    refine ⟨rfl, Nat.le_of_eq (length_blocks_terminate ended).symm, .refl _ _ _, fun b some => ?_⟩
    exact (shape?_of_terminate ended some).imp id (noted b)
  case h_2 => cases h

theorem edgeDepths_of_terminate {t : Terminator} {s s' : State} (h : terminate t s = .ok () s') :
    s'.edgeDepths = s.edgeDepths := by
  rw [terminate] at h
  split at h <;> cases h
  rfl

theorem keeps_terminate {t : Terminator} (ends : t.successors = []) : Keeps T (terminate t) :=
  fun _ _ _ _ h => steady_terminate h fun _ mem => absurd (ends ▸ mem) List.not_mem_nil

theorem keeps_emit (op : Op) : Keeps T (emit op) := by
  intro s v s' _ h
  obtain ⟨-, rfl⟩ := emit_eq_ok h
  exact .of_notes rfl (Nat.le_of_eq (length_blocks_updateBlock _ _ _).symm) rfl rfl

theorem keeps_newMerge : Keeps T newMerge := by
  intro s b s' _ h
  cases h
  exact .of_notes rfl (by simp [Graph.addBlock]) rfl rfl

theorem keeps_newDirect : Keeps T newDirect := by
  intro s b s' _ h
  cases h
  exact .of_notes rfl (by simp [Graph.addBlock]) rfl rfl

theorem keeps_addIndexPhi (b pred : BlockId) (initial : ValueId) :
    Keeps T (addIndexPhi b pred initial) := by
  intro s v s' _ h
  cases h
  refine .of_notes rfl (Nat.le_of_eq ?_) rfl rfl
  exact ((length_blocks_updateBlock _ _ _).trans (length_blocks_updateBlock _ _ _)).symm

theorem keeps_registerLoopIndex (b : BlockId) (phi next : ValueId) :
    Keeps T (registerLoopIndex b phi next) := by
  intro s _ s' _ h
  cases h
  exact .of_notes rfl (Nat.le_refl _) rfl rfl

theorem keeps_enter (b : BlockId) : Keeps T (enter b) := by
  intro s _ s' _ h
  rw [enter] at h
  simp only at h
  split at h
  · cases h
    exact .of_notes rfl (Nat.le_refl _) rfl rfl
  · split at h <;> cases h
    exact .of_notes rfl (Nat.le_refl _) rfl rfl

theorem keeps_constant {α : Type} (x : Except BytecodeError α) : Keeps T (constant x) := by
  intro s a s' _ h
  cases x with
  | ok a =>
      cases h
      exact .of_notes rfl (Nat.le_refl _) rfl rfl
  | error cause => cases h

theorem keeps_ofExcept {α : Type} (x : Except Fault α) : Keeps T (ofExcept x) := by
  intro s a s' _ h
  obtain ⟨-, rfl⟩ := ofExcept_eq_ok h
  exact .of_notes rfl (Nat.le_refl _) rfl rfl

theorem keeps_fail {α : Type} (fault : Fault) : Keeps T (fail fault : Lowering α) := by
  intro s a s' _ h
  cases h

end

section

variable {ctx : Context} {T : BlockId → Prop}

theorem keeps_push (v : ValueId) : Keeps T (push v) :=
  .of_frame fun h => by cases h; exact ⟨_, rfl⟩

theorem keeps_pop : Keeps T pop := by
  refine .of_frame fun {s} _ _ h => ?_
  rw [pop] at h
  split at h <;> cases h
  exact ⟨_, rfl⟩

theorem keeps_peekNth (n : Nat) : Keeps T (peekNth n) :=
  .of_frame fun h => ⟨_, (ofExcept_eq_ok h).2⟩

theorem keeps_popN (n : Nat) : Keeps T (popN n) := by
  refine .of_frame fun {s} _ _ h => ?_
  rw [popN] at h
  split at h <;> cases h
  exact ⟨_, rfl⟩

theorem keeps_replaceTop (v : ValueId) : Keeps T (replaceTop v) :=
  .of_frame fun h => by
    obtain ⟨_, -, rfl⟩ := replaceTop_eq_ok h
    exact ⟨_, rfl⟩

theorem keeps_swap : Keeps T swap := by
  refine .of_frame fun {s} _ _ h => ?_
  rw [swap] at h
  split at h <;> cases h
  exact ⟨_, rfl⟩

theorem keeps_pushOp (op : Op) : Keeps T (pushOp op) :=
  (keeps_emit op).bind fun v => (keeps_push v).bind fun _ => .pure v

theorem keeps_target (l : Label) : Keeps T (ctx.target l) := keeps_ofExcept _

theorem keeps_site (call : PoolIndex) : Keeps T (ctx.site call) :=
  (keeps_constant _).bind fun _ => .pure _

theorem keeps_checkLiteral (literal : Literal) : Keeps T (checkLiteral ctx literal) := by
  cases literal with
  | pool index => exact (keeps_constant _).bind fun _ => .pure _
  | null => exact .pure _
  | logical b => exact .pure _

theorem isSome_of_noteEdge {b : BlockId} {s s' : State} (h : noteEdge b s = .ok () s') :
    (s'.edgeDepths.lookup b).isSome := by
  cases h
  rw [List.lookup_cons_self]
  rfl

theorem keeps_noteEdge {b : BlockId} (target : T b) : Keeps T (noteEdge b) := by
  intro s _ s' _ h
  cases h
  refine ⟨rfl, Nat.le_refl _, fun c => ?_, .of_shapes rfl⟩
  rw [List.lookup_cons]
  by_cases same : c = b
  · subst same
    refine Or.inr ⟨target, ?_⟩
    cases seen : s.edgeDepths.lookup c <;> simp [OpenDepths.along]
  · rw [beq_eq_false_iff_ne.mpr same]
    exact Or.inl rfl

theorem keeps_jump {b : BlockId} (target : T b) : Keeps T (jump b) := by
  intro s _ s' hasNew h
  obtain ⟨_, s₁, h₁, h₂⟩ := bind_eq_ok_iff.mp h
  refine (keeps_noteEdge target s () s₁ hasNew h₁).trans (steady_terminate h₂ fun c mem => ?_)
  obtain rfl := List.mem_singleton.mp mem
  exact isSome_of_noteEdge h₁

theorem keeps_branch (cond : ValueId) {yes no : BlockId} (first : T yes) (second : T no) :
    Keeps T (branch cond yes no) := by
  intro s _ s' hasNew h
  obtain ⟨_, s₁, h₁, h⟩ := bind_eq_ok_iff.mp h
  have steady₁ := keeps_noteEdge first s () s₁ hasNew h₁
  obtain ⟨_, s₂, h₂, h₃⟩ := bind_eq_ok_iff.mp h
  have steady₂ := keeps_noteEdge second s₁ () s₂ (steady₁.hasNew hasNew) h₂
  refine (steady₁.trans steady₂).trans (steady_terminate h₃ fun c mem => ?_)
  rcases List.mem_cons.mp mem with rfl | mem
  · exact steady₂.notes.isSome (isSome_of_noteEdge h₁)
  · obtain rfl := List.mem_singleton.mp mem
    exact isSome_of_noteEdge h₂

end

section

variable {ctx : Context} {T : BlockId → Prop}

theorem new_of_newDirect {s s' : State} {b : BlockId} (hasNew : HasNew T s)
    (h : newDirect s = .ok b s') : T b := by
  cases h
  exact hasNew _ (Nat.le_refl _)

theorem keeps_branchIf (cond : ValueId) {target : BlockId} (mem : T target) :
    Keeps T (branchIf cond target) :=
  keeps_newDirect.bind_of_ok fun hasNew h =>
    (keeps_branch cond mem (new_of_newDirect hasNew h)).bind fun _ => keeps_enter _

theorem keeps_branchUnless (cond : ValueId) {target : BlockId} (mem : T target) :
    Keeps T (branchUnless cond target) :=
  keeps_newDirect.bind_of_ok fun hasNew h =>
    (keeps_branch cond (new_of_newDirect hasNew h) mem).bind fun _ => keeps_enter _

theorem keeps_argValue (a : ArgValue) : Keeps T (argValue a) := by
  cases a with
  | value v => exact .pure v
  | missing => exact keeps_emit _
  | dots => exact keeps_emit _

theorem keeps_argValues (args : List CallArg) : Keeps T (argValues args) := by
  induction args with
  | nil => exact .pure _
  | cons a rest ih => exact (keeps_argValue a.value).bind fun v => ih.bind fun vs => .pure _

theorem keeps_emitCall (c : PendingCall) (site : CallSite) : Keeps T (emitCall c site) := by
  refine (keeps_argValues c.args).bind fun args => ?_
  split
  · exact keeps_emit _
  · split <;> exact keeps_emit _

theorem keeps_emitAccess (double : Bool) (target : ValueId) (indices : List ValueId)
    (rhs : Option ValueId) (site : CallSite) :
    Keeps T (emitAccess double target indices rhs site) := by
  cases rhs with
  | some value => exact keeps_emit _
  | none => exact keeps_emit _

theorem keeps_defaultFromCall (kind : DispatchKind) (c : PendingCall) (target : ValueId)
    (rhs : Option ValueId) (site : CallSite) :
    Keeps T (defaultFromCall kind c target rhs site) := by
  simp only [defaultFromCall]
  split
  · exact keeps_emitCall c site
  · split
    · exact (keeps_argValues _).bind fun _ => keeps_emitAccess _ _ _ _ _
    · exact (keeps_emit _).bind fun _ => (keeps_argValues _).bind fun _ => keeps_emit _

theorem keeps_defaultFromStack (kind : DispatchKind) (target : ValueId) (indices : List ValueId)
    (rhs : Option ValueId) (site : CallSite) :
    Keeps T (defaultFromStack kind target indices rhs site) := by
  rw [defaultFromStack]
  split
  · exact keeps_emitAccess _ _ _ _ _
  · exact keeps_emit _

/-! ### Switches -/

theorem block_of_target {l : Label} {s s' : State} {b : BlockId} (h : ctx.target l s = .ok b s') :
    ctx.labels.block l = .ok b :=
  (ofExcept_eq_ok h).1

theorem keeps_targetsOf (labels : List Label) : Keeps T (targetsOf ctx labels) := by
  induction labels with
  | nil => exact .pure _
  | cons l rest ih => exact (keeps_target l).bind fun b => ih.bind fun bs => .pure _

theorem block_of_targetsOf {labels : List Label} {s s' : State} {bs : List BlockId}
    (h : targetsOf ctx labels s = .ok bs s') :
    ∀ b ∈ bs, ∃ l ∈ labels, ctx.labels.block l = .ok b := by
  induction labels generalizing s bs with
  | nil =>
      cases h
      exact fun b mem => absurd mem List.not_mem_nil
  | cons l rest ih =>
      obtain ⟨b, s₁, h₁, h⟩ := bind_eq_ok_iff.mp h
      obtain ⟨bs', s₂, h₂, h₃⟩ := bind_eq_ok_iff.mp h
      cases h₃
      refine List.forall_mem_cons.mpr ⟨⟨l, List.mem_cons_self, block_of_target h₁⟩, fun c mem => ?_⟩
      obtain ⟨l', mem', block⟩ := ih h₂ c mem
      exact ⟨l', List.mem_cons_of_mem _ mem', block⟩

theorem keeps_jumpTable (table : PoolIndex) : Keeps T (jumpTable ctx table) := by
  refine (keeps_constant _).bind fun labels => (keeps_targetsOf labels).bind fun blocks => ?_
  split
  · exact keeps_fail _
  · exact .pure _

/-- The targets of a jump table are the blocks of its labels. -/
theorem block_of_jumpTable {table : PoolIndex} {s s' : State} {targets : List BlockId}
    (h : jumpTable ctx table s = .ok targets s') : ∃ labels, ctx.pool.labelTable table = .ok labels ∧
      ∀ b ∈ targets, ∃ l ∈ labels, ctx.labels.block l = .ok b := by
  obtain ⟨labels, s₁, h₁, h⟩ := bind_eq_ok_iff.mp h
  obtain ⟨blocks, s₂, h₂, h⟩ := bind_eq_ok_iff.mp h
  refine ⟨labels, ?_, ?_⟩
  · cases found : ctx.pool.labelTable table with
    | ok ls =>
        rw [found] at h₁
        cases h₁
        rfl
    | error cause =>
        rw [found] at h₁
        cases h₁
  · split at h <;> cases h
    exact block_of_targetsOf h₂

theorem keeps_stringChain (subject : ValueId) (names : List String) {targets : List BlockId}
    (all : ∀ b ∈ targets, T b) : Keeps T (stringChain subject names targets) := by
  induction names generalizing targets with
  | nil =>
      cases targets with
      | nil => exact keeps_fail _
      | cons default rest => exact keeps_jump (all default List.mem_cons_self)
  | cons name names ih =>
      cases targets with
      | nil => exact keeps_fail _
      | cons target targets =>
          obtain ⟨first, others⟩ := List.forall_mem_cons.mp all
          exact (keeps_emit _).bind fun test => (keeps_branchIf test first).bind fun _ => ih others

theorem keeps_numberChain (index : ValueId) {default : BlockId} (mem : T default) (n : Nat)
    (arms : List BlockId) (all : ∀ b ∈ arms, T b) :
    Keeps T (numberChain index default n arms) := by
  induction arms generalizing n with
  | nil => exact keeps_jump mem
  | cons b rest ih =>
      obtain ⟨first, others⟩ := List.forall_mem_cons.mp all
      exact (keeps_emit _).bind fun _ => (keeps_emit _).bind fun test =>
        (keeps_branchIf test first).bind fun _ => ih (n + 1) others

theorem keeps_numericSwitch (subject : ValueId) (site : CallSite) {targets : List BlockId}
    (all : ∀ b ∈ targets, T b) : Keeps T (numericSwitch subject site targets) := by
  rw [numericSwitch]
  split
  case h_1 default last =>
    refine (keeps_emit _).bind fun index => ?_
    exact keeps_numberChain index (all default (List.mem_of_getLast? last)) 1 _
      fun b mem => all b ((List.dropLast_prefix _).subset mem)
  case h_2 => exact keeps_fail _

theorem keeps_namedSwitch (subject : ValueId) (site : CallSite) (names : List String)
    {chr num : List BlockId} (allChr : ∀ b ∈ chr, T b) (allNum : ∀ b ∈ num, T b) :
    Keeps T (namedSwitch subject site names chr num) := by
  refine (keeps_emit _).bind fun _ => (keeps_emit _).bind fun test => ?_
  refine keeps_newDirect.bind_of_ok fun {s₁ chrBlock s₂} hasNew h₁ => ?_
  refine keeps_newDirect.bind_of_ok fun {s₂ numBlock s₃} hasNew' h₂ => ?_
  refine (keeps_branch test (new_of_newDirect hasNew h₁) (new_of_newDirect hasNew' h₂)).bind
    fun _ => (keeps_enter _).bind fun _ => ?_
  exact (keeps_stringChain subject names allChr).bind fun _ =>
    (keeps_enter _).bind fun _ => keeps_numericSwitch subject site allNum

end

end Lowering

end StackLift
