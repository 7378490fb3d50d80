import StackLift.Proofs.Lower.Faults
import StackLift.Proofs.Lower.Unit

/-!
The pass never breaks the conditions of its own actions. Whatever the code is, before
each instruction the block under construction is open or the code is skipped, no block
is entered twice, every action is performed where it may be, no check of an operation
fails, and some of the other faults never arise. The main statement is
`lowering_in_order`.
-/

namespace StackLift

/-- The labels of an instruction are known. -/
def Context.Binds (ctx : Context) (i : Instruction) : Prop :=
  ∃ targets, i.targets ctx.pool = .ok targets ∧ ∀ l ∈ targets, ∃ b, ctx.labels.block l = .ok b

namespace Lowering

variable {ctx : Context} {base : Draft} {F : Faults} {s : State} {offset : Nat}

/-! ### One instruction -/

theorem Inv.conducts_arriveAt (inv : Inv ctx .nothing base (ctx.Ahead offset) .ended [] s)
    {b : BlockId} (named : ctx.labels.blockAt? offset = some b) (fallsThrough : Bool) :
    Conducts F (Lowering.arriveAt b fallsThrough) s fun _ _ => True := by
  have set : ctx.Ahead offset b := ⟨_, Nat.le_refl _, named⟩
  have merge : b ∉ s.draft.direct := (inv.plain_label ⟨_, named⟩).merge.notDirect
  rw [arriveAt_eq]
  refine (Conducts.quiet inv.inOrder quiet_current id).bind fun _ _ h => ?_
  cases h
  cases shape : s.draft.shape? b with
  | none => exact .quiet inv.inOrder (quiet_update fun _ => rfl) fun _ => trivial
  | some phis =>
      have hasPred := inv.reached.shaped shape (inv.ne_entry_of_aside set)
      refine (inv.conducts_moveTo set (by simp [merge, shape])).bind fun _ s' moved => ?_
      subst moved
      refine .quiet (inv.inOrder_moveTo set hasPred) (quiet_update fun s => ?_) fun _ => trivial
      simp only
      split
      · rfl
      · split <;> rfl

theorem GoesOn.inOrder {carry : Carry} (goes : GoesOn ctx carry base offset s) : s.InOrder := by
  cases goes with
  | here inv => exact inv.inOrder
  | inNext inv _ => exact inv.inOrder

theorem Between.inOrder (between : Between ctx offset s) : s.InOrder := by
  cases between with
  | live _ goes => exact goes.inOrder
  | dead _ inv => exact inv.inOrder

theorem Between.conducts_arrive (between : Between ctx offset s) :
    Conducts F (Lowering.arrive ctx offset) s fun _ _ => True := by
  rw [Lowering.arrive]
  cases named : ctx.labels.blockAt? offset with
  | none => exact .pure between.inOrder trivial
  | some b =>
      refine (Conducts.quiet between.inOrder quiet_current id).bind fun _ _ h => ?_
      cases h
      have ahead : ctx.Ahead offset b := ⟨_, Nat.le_refl _, named⟩
      cases between with
      | dead dead inv =>
          rw [if_neg (inv.aside ahead).2.symm, dead]
          exact inv.conducts_arriveAt named false
      | live live goes =>
          cases goes with
          | here inv =>
              rw [if_neg (inv.aside ahead).2.symm, if_pos live]
              have plain := inv.plain_label ⟨_, named⟩
              exact (inv.conducts_jumpPlain (by simp) plain).bind fun _ s₁ left =>
                left.inv.conducts_arriveAt named true
          | inNext inv here =>
              rw [named] at here
              rw [if_pos (Option.some.inj here).symm]
              exact .pure inv.inOrder trivial

theorem Between.conducts_step {i : Instruction} (between : Between ctx offset s)
    (distinct : ctx.labels.Distinct) (binds : ctx.Binds i) :
    Conducts (.expectedOf (i.EmptyTable ctx.pool)) (Lowering.step ctx offset i) s
      fun _ _ => True := by
  refine between.conducts_arrive.eq.bind fun _ a arrives => ?_
  have arrived := between.arrive distinct arrives.1
  have inOrder : a.InOrder := by
    cases arrived with
    | live _ inv => exact inv.inOrder
    | dead _ inv => exact inv.inOrder
  refine (Conducts.quiet inOrder quiet_current id).bind fun _ _ h => ?_
  cases h
  cases live : a.live with
  | false => exact .quiet inOrder (quiet_skip ctx offset i) fun _ => trivial
  | true =>
      obtain ⟨targets, found, known⟩ := binds
      have begun := (arrived.inv live).begin rfl i
      refine (begun.conducts_lower distinct (fun _ mem => mem) (.of_known found known)).bind
        fun _ t lowered => ?_
      have inOrder : t.InOrder := by
        cases lowered.1 with
        | left _ inv => exact inv.inOrder
        | goesOn _ goes => exact goes.inOrder
      split
      · exact .quiet inOrder (quiet_update fun _ => rfl) fun _ => trivial
      · exact .pure inOrder trivial

/-! ### The run -/

/-- Lowering instructions from an offset on consists of the primitive steps taken at the given
moments, and has the given result. -/
inductive RunPerforms (ctx : Context) : Nat → List Instruction → State → List Moment →
    Except CompileError State → Prop
  | done (offset : Nat) (s : State) : RunPerforms ctx offset [] s [] (.ok s)
  | next {offset : Nat} {i : Instruction} {rest : List Instruction} {s s' : State}
      {ms ms' : List Moment} {r : Except CompileError State}
      (first : Performs (step ctx offset i) s ms (.ok () s'))
      (others : RunPerforms ctx (offset + 1) rest s' ms' r) :
      RunPerforms ctx offset (i :: rest) s (ms ++ ms') r
  | stop {offset : Nat} {i : Instruction} {rest : List Instruction} {s s' : State}
      {ms : List Moment} {f : Fault} (first : Performs (step ctx offset i) s ms (.error f s')) :
      RunPerforms ctx offset (i :: rest) s ms (.error ⟨s'.locate offset, f⟩)

/-- No block is entered twice, and none that the pass had come to before. -/
theorem RunPerforms.entered {code : List Instruction} {ms : List Moment}
    {r : Except CompileError State} (performs : RunPerforms ctx offset code s ms r)
    (proper : ∀ m ∈ ms, m.Proper) :
    (ms.filterMap Moment.entered?).Nodup ∧
      ∀ b ∈ ms.filterMap Moment.entered?, ¬s.draft.Taken b := by
  induction performs with
  | done => exact ⟨.nil, fun b mem => absurd mem List.not_mem_nil⟩
  | stop first =>
      obtain ⟨nodup, fresh, -⟩ := first.entered proper
      exact ⟨nodup, fresh⟩
  | @next _ _ _ s s' ms ms' _ first _ ih =>
      obtain ⟨nodup, fresh, taken⟩ :=
        first.entered fun m mem => proper m (List.mem_append_left _ mem)
      obtain ⟨nodup', fresh'⟩ := ih fun m mem => proper m (List.mem_append_right _ mem)
      have before := taken () s' rfl
      rw [List.filterMap_append]
      refine ⟨List.nodup_append.mpr ⟨nodup, nodup', ?_⟩, fun b mem => ?_⟩
      · rintro b mem _ mem' rfl
        exact fresh' b mem' (before b (Or.inr mem))
      · rcases List.mem_append.mp mem with mem | mem
        · exact fresh b mem
        · exact fun old => fresh' b mem (before b (Or.inl old))

/-- Every run takes its primitive steps where it may, and stops only with a fault that is to be
expected of the instruction at which it stops. -/
theorem Between.conducts_run {code : List Instruction} (between : Between ctx offset s)
    (distinct : ctx.labels.Distinct) (binds : ∀ i ∈ code, ctx.Binds i) :
    (∃ ms, RunPerforms ctx offset code s ms (Lowering.run ctx offset code s) ∧
        ∀ m ∈ ms, m.Proper) ∧
      ∀ e, Lowering.run ctx offset code s = .error e → ∃ k i, code[k]? = some i ∧
        e.location.offset = offset + k ∧ e.fault.Expected (i.EmptyTable ctx.pool) := by
  induction code generalizing offset s with
  | nil => exact ⟨⟨[], .done offset s, fun m mem => absurd mem List.not_mem_nil⟩, nofun⟩
  | cons i rest ih =>
      obtain ⟨first, others⟩ := List.forall_mem_cons.mp binds
      obtain ⟨⟨ms, performs, proper⟩, faults, -⟩ := between.conducts_step distinct first
      rw [Lowering.run]
      cases h : Lowering.step ctx offset i s with
      | error f s' =>
          rw [h] at performs
          refine ⟨⟨ms, .stop performs, proper⟩, fun e he => ?_⟩
          cases he
          exact ⟨0, i, rfl, rfl, faults f s' h⟩
      | ok _ s' =>
          rw [h] at performs
          obtain ⟨_, -, -, -, between'⟩ := between.step distinct h
          obtain ⟨⟨ms', performs', proper'⟩, faults'⟩ := ih between' others
          refine ⟨⟨ms ++ ms', .next performs performs', fun m mem => ?_⟩, fun e he => ?_⟩
          · exact (List.mem_append.mp mem).elim (proper m) (proper' m)
          · obtain ⟨k, j, get, at_, expected⟩ := faults' e he
            exact ⟨k + 1, j, get, by omega, expected⟩

end Lowering

/-! ### Whole units -/

open Lowering

/-- Code that goes on has a block to go on in, and the block before skipped code has its end. -/
def State.Poised (s : State) : Prop :=
  if s.live then s.draft.Open else s.draft.HasEnd s.draft.cursor

theorem Lowering.Arrived.poised {ctx : Context} {base : Draft} {offset : Nat} {s : State}
    (arrived : Arrived ctx base offset s) : s.Poised := by
  rw [State.Poised]
  cases arrived with
  | live live inv =>
      rw [if_pos live]
      exact Phase.Holds.isOpen inv.phase (by simp)
  | dead dead inv =>
      rw [if_neg (by simp [dead])]
      exact inv.phase

theorem Lowering.Between.poised {ctx : Context} {offset : Nat} {s : State}
    (between : Between ctx offset s) : s.Poised := by
  rw [State.Poised]
  cases between with
  | live live goes =>
      rw [if_pos live]
      cases goes with
      | here inv => exact Phase.Holds.isOpen inv.phase (by simp)
      | inNext inv _ => exact Phase.Holds.isOpen inv.phase (by simp)
  | dead dead inv =>
      rw [if_neg (by simp [dead])]
      exact inv.phase

theorem State.expected_of_endFault? {emptyTable : Prop} {s : State} {f : Fault}
    (h : s.endFault? = some f) : f.Expected emptyTable := by
  rw [endFault?] at h
  split at h
  · cases h
    trivial
  · split at h
    · cases h
      trivial
    · obtain ⟨b, -, rfl⟩ := Option.map_eq_some_iff.mp h
      trivial

namespace CodeUnit

variable {unit : CodeUnit} {pool : Pool} {kind : UnitKind} {labels : LabelMap} {draft : Draft}

theorem Start.binds (start : unit.Start pool kind labels draft) :
    ∀ i ∈ unit.instructions, Context.Binds ⟨pool, labels, kind⟩ i := by
  intro i mem
  obtain ⟨targets, found, known⟩ := start.targets i mem
  refine ⟨targets, found, fun l named => ?_⟩
  obtain ⟨_, b, -, -, -, block⟩ := start.resolves.block (known l named)
  exact ⟨b, block⟩

/-- A unit that is refused has labels that cannot be resolved, or its fault is one that is to be
expected of an instruction. -/
theorem fault_of_compile {options : Options} {e : CompileError}
    (h : unit.compile pool options = .error e) :
    (e.fault.isOfLabels = true ∧
      ∀ labels draft, LabelMap.resolve unit pool (.new unit.displayName) ≠ .ok labels draft) ∨
    e.fault.Expected (∃ i, unit.instructions[e.location.offset]? = some i ∧ i.EmptyTable pool) := by
  rw [compile, lower] at h
  cases resolve : LabelMap.resolve unit pool (.new unit.displayName) with
  | error failed draft =>
      rw [resolve] at h
      cases h
      exact Or.inl ⟨LabelMap.isOfLabels_resolve resolve, fun _ _ same => by cases same⟩
  | ok labels draft =>
      have start := start_of_resolve options.unitKind resolve
      have conduct := start.between.conducts_run start.resolves.distinct start.binds
      right
      rw [resolve] at h
      simp only at h
      cases run : Lowering.run ⟨pool, labels, options.unitKind⟩ 0 unit.instructions { draft } with
      | error e' =>
          rw [run] at h
          cases h
          obtain ⟨k, i, get, at_, expected⟩ := conduct.2 e run
          rw [Nat.zero_add] at at_
          rw [at_]
          exact expected.mono fun empty => ⟨i, get, empty⟩
      | ok final =>
          rw [run] at h
          simp only at h
          cases ends : final.endFault? with
          | none =>
              rw [ends] at h
              cases h
          | some fault =>
              rw [ends] at h
              cases h
              exact State.expected_of_endFault? ends

/-- What is neither about labels nor to be expected of an instruction is never the fault. -/
theorem fault_ne_of_compile {options : Options} {e : CompileError}
    (h : unit.compile pool options = .error e) {f : Fault} (notOfLabels : f.isOfLabels = false)
    (unexpected : ∀ emptyTable, ¬f.Expected emptyTable) : e.fault ≠ f := by
  rintro rfl
  rcases fault_of_compile h with ⟨ofLabels, -⟩ | expected
  · rw [notOfLabels] at ofLabels
    cases ofLabels
  · exact unexpected _ expected

end CodeUnit

/-- The pass keeps to the conditions of its own actions, on every unit.

Before each instruction the block under construction is open, or the code is skipped and the block
has its end. Once the labels are resolved, every run consists of primitive steps that are taken
where they may be, `Moment.Proper`: direct blocks have one edge, and a block is entered when an edge
leads there. No block is entered twice. No check of an operation fails, so no statement goes to a
block with an end, no block is ended twice, and every value whose type is looked up exists. The
faults of an instruction that begins no call, opens no dispatch or closes none do not arise, nor
does a chain of tests lack its default: only an empty jump table is refused. -/
theorem lowering_in_order (unit : CodeUnit) (pool : Pool) (options : Options) :
    (∀ labels draft, LabelMap.resolve unit pool (.new unit.displayName) = .ok labels draft →
      (∀ offset s, offset ≤ unit.size →
        Before ⟨pool, labels, options.unitKind⟩ unit.instructions { draft } offset s →
        s.InOrder ∧ s.Poised ∧ ∀ a,
          Lowering.arrive ⟨pool, labels, options.unitKind⟩ offset s = .ok () a → a.Poised) ∧
      ∃ moments, RunPerforms ⟨pool, labels, options.unitKind⟩ 0 unit.instructions { draft } moments
          (Lowering.run ⟨pool, labels, options.unitKind⟩ 0 unit.instructions { draft }) ∧
        (∀ m ∈ moments, m.Proper) ∧
        (draft.cursor :: moments.filterMap Moment.entered?).Nodup) ∧
    ∀ e, unit.compile pool options = .error e →
      (∀ breach, e.fault ≠ .broken breach) ∧
      (∀ b, e.fault ≠ .invalid (.enteredBeforeEdge b)) ∧
      (∀ mnemonic, e.fault ≠ .invalid (.beginsNoCall mnemonic) ∧
        e.fault ≠ .invalid (.opensNoDispatch mnemonic) ∧
        e.fault ≠ .invalid (.closesNoDispatch mnemonic)) ∧
      e.fault ≠ .invalid .chainWithoutDefault ∧
      (e.fault = .invalid .switchWithoutDefault →
        ∃ i, unit.instructions[e.location.offset]? = some i ∧ i.EmptyTable pool) ∧
      ∀ labels draft, LabelMap.resolve unit pool (.new unit.displayName) = .ok labels draft →
        ∀ l offset?, e.fault ≠ .badLabel l offset? := by
  refine ⟨fun labels draft resolve => ?_, fun e h => ?_⟩
  · have start := CodeUnit.start_of_resolve options.unitKind resolve
    refine ⟨fun offset s le before => ?_, ?_⟩
    · have between := between_before start.resolves.distinct start.between le before
      exact ⟨between.inOrder, between.poised, fun a arrives =>
        (between.arrive start.resolves.distinct arrives).poised⟩
    · obtain ⟨⟨ms, performs, proper⟩, -⟩ :=
        start.between.conducts_run start.resolves.distinct start.binds
      obtain ⟨nodup, fresh⟩ := performs.entered proper
      exact ⟨ms, performs, proper, List.nodup_cons.mpr
        ⟨fun mem => fresh _ mem (Or.inl rfl), nodup⟩⟩
  · have never {f : Fault} := CodeUnit.fault_ne_of_compile h (f := f)
    refine ⟨fun _ => never rfl fun _ => id, fun _ => never rfl fun _ => id, fun _ =>
      ⟨never rfl fun _ => id, never rfl fun _ => id, never rfl fun _ => id⟩,
      never rfl fun _ => id, fun is => ?_, fun labels draft resolve l at_ is => ?_⟩
    · rcases CodeUnit.fault_of_compile h with ⟨ofLabels, -⟩ | expected
      · rw [is] at ofLabels
        cases ofLabels
      · rw [is] at expected
        exact expected
    · rcases CodeUnit.fault_of_compile h with ⟨-, unresolved⟩ | expected
      · exact unresolved labels draft resolve
      · rw [is] at expected
        exact expected

/-- A switch without a jump table, after a branch. -/
def switchAfterBranch : CodeUnit where
  name := none
  instructions := [.load .null, .branchIfNot ⟨0⟩ ⟨0⟩, .load .null, .switch ⟨0⟩ none none ⟨1⟩,
    .load .null, .ret]
  labels := [some 4]

def switchAfterBranchPool : Pool := ⟨[.expr (.symbol "x"), .labelTable []]⟩

/-- The unit stops at the switch, whose jump table is empty, and up to there every step is taken
where it may be. -/
theorem lowering_in_order_switchAfterBranch : ∃ labels draft moments,
    LabelMap.resolve switchAfterBranch switchAfterBranchPool (.new "<anonymous>") =
      .ok labels draft ∧
    RunPerforms ⟨switchAfterBranchPool, labels, .function⟩ 0 switchAfterBranch.instructions
      { draft } moments (Lowering.run ⟨switchAfterBranchPool, labels, .function⟩ 0
        switchAfterBranch.instructions { draft }) ∧
    (∀ m ∈ moments, m.Proper) ∧ (draft.cursor :: moments.filterMap Moment.entered?).Nodup ∧
    switchAfterBranch.compile switchAfterBranchPool {} =
      .error ⟨⟨3, ⟨2⟩, 1⟩, .invalid .switchWithoutDefault⟩ ∧
    ∃ i, switchAfterBranch.instructions[3]? = some i ∧ i.EmptyTable switchAfterBranchPool := by
  obtain ⟨conduct, faults⟩ := lowering_in_order switchAfterBranch switchAfterBranchPool {}
  have fails : switchAfterBranch.compile switchAfterBranchPool {} =
      .error ⟨⟨3, ⟨2⟩, 1⟩, .invalid .switchWithoutDefault⟩ :=
    eq_error_of_error? (by decide +kernel)
  have resolves : (match LabelMap.resolve switchAfterBranch switchAfterBranchPool
      (.new "<anonymous>") with
    | .ok _ _ => true
    | .error _ _ => false) = true := by
    decide +kernel
  cases resolve : LabelMap.resolve switchAfterBranch switchAfterBranchPool (.new "<anonymous>") with
  | error failed draft =>
      rw [resolve] at resolves
      cases resolves
  | ok labels draft =>
      obtain ⟨-, ms, performs, proper, nodup⟩ := conduct labels draft resolve
      exact ⟨labels, draft, ms, rfl, performs, proper, nodup, fails, (faults _ fails).2.2.2.2.1 rfl⟩

end StackLift
