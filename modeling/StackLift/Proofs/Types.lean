import StackLift.Proofs.Conduct
import StackLift.Proofs.Graph.Cleanup

/-!
The types of the graph. A value of the language, a truth value and a machine integer
are kept apart: each is read only where one of its type is due, and a phi joins
values of its own type. The pass builds typed graphs, cleaning up keeps them typed,
and all the while only values of the language are on the stack. The main statement is
`compile_typed`.
-/

namespace StackLift

open Lowering

/-! ### Typed graphs -/

/-- What a block defines and what it reads have the types that are due there. -/
structure Block.Typed (block : Block) (has : ValueId → ValueType → Prop) : Prop where
  results : ∀ s ∈ block.stmts, has s.value s.op.resultType
  operands : ∀ s ∈ block.stmts, ∀ e ∈ s.op.inputs, has e.1 e.2
  terminator : ∀ t ∈ block.terminator, ∀ e ∈ t.inputs, has e.1 e.2
  phis : ∀ p ∈ block.phis, p.type ≠ .test ∧ has p.value p.type
  inputs : ∀ p ∈ block.phis, ∀ e ∈ p.inputs, has e.2 p.type

namespace Graph

/-- The value is in the table, with the type. -/
def HasType (g : Graph) (v : ValueId) (type : ValueType) : Prop :=
  ∃ info, g.values[v.index]? = some info ∧ info.type = type

theorem HasType.typeOf {g : Graph} {v : ValueId} {type : ValueType} (has : g.HasType v type) :
    g.typeOf v = type := by
  obtain ⟨info, get, is⟩ := has
  rw [Graph.typeOf, get]
  exact is

def Typed (g : Graph) : Prop :=
  ∀ ⦃b : BlockId⦄ ⦃block : Block⦄, g.block? b = some block → block.Typed g.HasType

end Graph

namespace Block.Typed

variable {block : Block} {has has' : ValueId → ValueType → Prop}

theorem mono (typed : block.Typed has)
    (imp : ∀ {v : ValueId} {type : ValueType}, has v type → has' v type) : block.Typed has' where
  results := fun s mem => imp (typed.results s mem)
  operands := fun s mem e read => imp (typed.operands s mem e read)
  terminator := fun t last e read => imp (typed.terminator t last e read)
  phis := fun p mem => ⟨(typed.phis p mem).1, imp (typed.phis p mem).2⟩
  inputs := fun p mem e input => imp (typed.inputs p mem e input)

theorem empty : Block.Typed {} has := by
  constructor <;> simp

theorem append (typed : block.Typed has) {s : Stmt} (result : has s.value s.op.resultType)
    (operands : ∀ e ∈ s.op.inputs, has e.1 e.2) : (block.append s).Typed has where
  results := by
    intro s' mem
    rcases List.mem_append.mp mem with old | new
    · exact typed.results s' old
    · exact List.mem_singleton.mp new ▸ result
  operands := by
    intro s' mem
    rcases List.mem_append.mp mem with old | new
    · exact typed.operands s' old
    · exact List.mem_singleton.mp new ▸ operands
  terminator := typed.terminator
  phis := typed.phis
  inputs := typed.inputs

theorem addPhi (typed : block.Typed has) {p : Phi} (type : p.type ≠ .test) (result : has p.value p.type)
    (inputs : ∀ e ∈ p.inputs, has e.2 p.type) : (block.addPhi p).Typed has where
  results := typed.results
  operands := typed.operands
  terminator := typed.terminator
  phis := by
    intro q mem
    rcases List.mem_append.mp mem with old | new
    · exact typed.phis q old
    · exact List.mem_singleton.mp new ▸ ⟨type, result⟩
  inputs := by
    intro q mem
    rcases List.mem_append.mp mem with old | new
    · exact typed.inputs q old
    · exact List.mem_singleton.mp new ▸ inputs

theorem dropPred (typed : block.Typed has) (pred : BlockId) : (block.dropPred pred).Typed has where
  results := typed.results
  operands := typed.operands
  terminator := typed.terminator
  phis := by
    intro q mem
    obtain ⟨p, old, rfl⟩ := List.mem_map.mp mem
    exact typed.phis p old
  inputs := by
    intro q mem e input
    obtain ⟨p, old, rfl⟩ := List.mem_map.mp mem
    exact typed.inputs p old e (List.mem_filter.mp input).1

theorem dropPhi (typed : block.Typed has) (phi : ValueId) : (block.dropPhi phi).Typed has where
  results := typed.results
  operands := typed.operands
  terminator := typed.terminator
  phis := fun p mem => typed.phis p (List.mem_filter.mp mem).1
  inputs := fun p mem => typed.inputs p (List.mem_filter.mp mem).1

/-- Values may be replaced by others of the same type. -/
theorem mapUses (typed : block.Typed has) {f : ValueId → ValueId}
    (keeps : ∀ {v : ValueId} {type : ValueType}, has v type → has (f v) type) :
    (block.mapUses f).Typed has where
  results := by
    intro s mem
    obtain ⟨s, old, rfl⟩ := List.mem_map.mp mem
    rw [Op.resultType_mapOperands]
    exact typed.results s old
  operands := by
    intro s mem e read
    obtain ⟨s, old, rfl⟩ := List.mem_map.mp mem
    rw [Op.inputs_mapOperands] at read
    obtain ⟨e', read', rfl⟩ := List.mem_map.mp read
    exact keeps (typed.operands s old e' read')
  terminator := by
    intro t last e read
    obtain ⟨t', last', rfl⟩ := Option.map_eq_some_iff.mp last
    rw [Terminator.inputs_mapOperands] at read
    obtain ⟨e', read', rfl⟩ := List.mem_map.mp read
    exact keeps (typed.terminator t' last' e' read')
  phis := by
    intro q mem
    obtain ⟨p, old, rfl⟩ := List.mem_map.mp mem
    exact typed.phis p old
  inputs := by
    intro q mem e input
    obtain ⟨p, old, rfl⟩ := List.mem_map.mp mem
    obtain ⟨e', input', rfl⟩ := List.mem_map.mp input
    exact keeps (typed.inputs p old e' input')

end Block.Typed

/-! ### Cleaning up -/

namespace Graph

theorem Typed.removeBlock {g : Graph} {b : BlockId} {block : Block} (typed : g.Typed)
    (live : g.block? b = some block) : (g.removeBlock b).Typed := by
  intro c block' live'
  have values : (g.removeBlock b).values = g.values := by
    rw [Graph.removeBlock, live]
    exact values_foldl_updateBlock _ _ _
  have same {v : ValueId} {type : ValueType} (has : g.HasType v type) :
      (g.removeBlock b).HasType v type := by
    rw [HasType, values]
    exact has
  rw [block?_removeBlock live] at live'
  split at live'
  · cases live'
  · split at live'
    · obtain ⟨before, hbefore, rfl⟩ := Option.map_eq_some_iff.mp live'
      exact ((typed hbefore).dropPred b).mono same
    · exact (typed live').mono same

/-- A trivial phi and what it selects have the same type. -/
theorem Typed.replacePhi {g : Graph} {b : BlockId} {block : Block} {p : Phi} {value : ValueId}
    (typed : g.Typed) (live : g.block? b = some block) (mem : p ∈ block.phis)
    (sole : p.sole? = some value) : (g.replacePhi b p.value value).Typed := by
  obtain ⟨pred, input⟩ := Phi.mem_inputs_of_sole? sole
  have keeps {v : ValueId} {type : ValueType} (has : g.HasType v type) :
      g.HasType (subst p.value value v) type := by
    by_cases is : v = p.value
    · subst is
      rw [subst_self]
      have selected := (typed live).inputs p mem _ input
      rwa [← has.typeOf, ((typed live).phis p mem).2.typeOf]
    · rwa [subst_of_ne is]
  intro c block' live'
  rw [block?_replacePhi] at live'
  obtain ⟨before, hbefore, rfl⟩ := Option.map_eq_some_iff.mp live'
  refine Block.Typed.mapUses ?_ keeps
  split
  · exact (typed hbefore).dropPhi p.value
  · exact typed hbefore

theorem Typed.cleanup {g : Graph} (typed : g.Typed) (options : Options) :
    (options.cleanup g).Typed :=
  cleanup_induction (motive := fun g => g.Typed) (fun typed live _ _ => typed.removeBlock live)
    (fun typed live mem sole => typed.replacePhi live mem sole) options typed

end Graph

/-! ### Building -/

namespace Draft

variable {carry : Carry} {d d' : Draft}

/-- The graph is typed so far, and the phis that count loops are indices. -/
structure Typed (d : Draft) : Prop where
  graph : d.graph.Typed
  indices : ∀ {b : BlockId} {phi next : ValueId}, d.loopIndices.lookup b = some (phi, next) →
    d.HasType phi .index

theorem Typed.ended {t : Terminator} {slots : List ValueId} (typed : d.Typed) (sound : d.Sound)
    (can : d.CanEnd t slots) (ended : d.Ended t slots d')
    (inputs : ∀ e ∈ t.inputs, d.HasType e.1 e.2)
    (next : ∀ b ∈ d.mergesOf t.successors, ∀ {phi next : ValueId},
      d.loopIndices.lookup b = some (phi, next) → d.HasType next .index) : d'.Typed := by
  have grows := grows_ended can ended
  refine ⟨fun b block live => ?_, fun {b phi next} registered => ?_⟩
  · obtain ⟨before, hbefore, rfl⟩ := ended.block?_eq_some live
    have old : before.Typed d'.HasType := (typed.graph hbefore).mono fun has => HasType.mono has grows
    -- Every phi of a merge has its type, and receives a value of that type.
    have phis : ∀ p ∈ (d.ended t slots b before).phis, p.type ≠ .test ∧
        d'.HasType p.value p.type ∧ ∀ e ∈ p.inputs, d'.HasType e.2 p.type := by
      intro p mem
      by_cases target : b ∈ d.mergesOf t.successors
      · obtain ⟨q, v, hzip, rfl⟩ := mem_phis_ended target mem
        have here : q.type ≠ .test ∧ d'.HasType q.value q.type ∧
            ∀ e ∈ q.inputs, d'.HasType e.2 q.type := by
          rcases List.mem_append.mp (List.of_mem_zip hzip).1 with hq | hq
          · exact ⟨(old.phis q hq).1, (old.phis q hq).2, old.inputs q hq⟩
          · obtain ⟨-, none, value, -⟩ := mem_newPhis can.slots hq
            refine ⟨by simp [value], hasType_newPhis can ended target hq, ?_⟩
            simp [none]
        refine ⟨here.1, here.2.1, fun e input => ?_⟩
        rcases List.mem_append.mp input with before | new
        · exact here.2.2 e before
        · cases List.mem_singleton.mp new
          rcases receives sound can ended target hbefore hzip with ⟨value, slot⟩ | registered
          · have type : q.type = .value := here.2.1.typeOf.symm.trans value.typeOf
            exact type ▸ (can.slots v slot).mono grows
          · have index := (typed.indices registered).mono grows
            have type : q.type = .index := here.2.1.typeOf.symm.trans index.typeOf
            exact type ▸ (next b target registered).mono grows
      · rw [phis_ended_of_notMem target] at mem
        exact ⟨(old.phis p mem).1, (old.phis p mem).2, old.inputs p mem⟩
    constructor
    case results =>
      rw [stmts_ended]
      exact old.results
    case operands =>
      rw [stmts_ended]
      exact old.operands
    case terminator =>
      rw [terminator_ended]
      split
      · intro t' last e read
        cases last
        exact (inputs e read).mono grows
      · exact old.terminator
    case phis => exact fun p mem => ⟨(phis p mem).1, (phis p mem).2.1⟩
    case inputs => exact fun p mem => (phis p mem).2.2
  · rw [ended.loopIndices] at registered
    exact (typed.indices registered).mono grows

/-- A typed draft to which blocks were added that are typed. -/
theorem Typed.of_grows (typed : d.Typed) (grows : d.Grows d')
    (loopIndices : d'.loopIndices = d.loopIndices)
    (blocks : ∀ {b : BlockId} {block : Block}, d'.graph.block? b = some block →
      d.graph.block? b = some block ∨ block.Typed d'.HasType) : d'.Typed where
  graph := by
    intro b block live
    rcases blocks live with old | new
    · exact (typed.graph old).mono fun has => HasType.mono has grows
    · exact new
  indices := by
    intro b phi next registered
    rw [loopIndices] at registered
    exact (typed.indices registered).mono grows

theorem Act.typed (act : Act carry d d') (sound : d.Sound) (typed : d.Typed) : d'.Typed := by
  have grows := act.grows sound
  have old {b : BlockId} {block : Block} (live : d.graph.block? b = some block) :
      block.Typed d'.HasType := (typed.graph live).mono fun has => HasType.mono has grows
  cases act with
  | emit isOpen inputs =>
      refine typed.of_grows grows rfl fun live => Or.inr ?_
      obtain ⟨before, hbefore, rfl⟩ := block?_emitted_eq_some live
      split
      · exact (old hbefore).append hasType_emitted fun e read => (inputs e read).type.mono grows
      · exact old hbefore
  | newMerge =>
      refine typed.of_grows grows rfl fun live => ?_
      rcases block?_addBlock_eq_some live with ⟨-, rfl⟩ | live
      · exact Or.inr .empty
      · exact Or.inl live
  | newDirect =>
      refine typed.of_grows grows rfl fun live => ?_
      rcases block?_addBlock_eq_some live with ⟨-, rfl⟩ | live
      · exact Or.inr .empty
      · exact Or.inl live
  | terminate can inputs _ next ok =>
      refine typed.ended sound can (can.ended sound ok) (fun e read => (inputs e read).type) ?_
      intro b target phi index registered
      obtain ⟨mem, notDirect⟩ := mem_mergesOf.mp target
      exact (next b mem notDirect registered).type
  | moveTo _ _ _ => exact ⟨typed.graph, typed.indices⟩
  | addIndexPhi _ _ _ _ _ _ _ initial =>
      refine typed.of_grows grows rfl fun live => Or.inr ?_
      obtain ⟨before, hbefore, rfl⟩ := block?_addIndexPhi_eq_some sound live
      split
      · refine (old hbefore).addPhi nofun hasType_addIndexPhi fun e input => ?_
        cases List.mem_singleton.mp input
        exact initial.mono grows
      · exact old hbefore
  | registerLoopIndex _ _ indexType _ _ =>
      refine ⟨typed.graph, fun {c phi next} registered => ?_⟩
      rw [lookup_registerLoopIndex] at registered
      split at registered
      · cases registered
        exact indexType
      · exact typed.indices registered

end Draft

theorem Draft.Bare.typed {d : Draft} (bare : d.Bare) (sound : d.Sound) : d.Typed where
  graph := fun _ _ live => bare.block live ▸ .empty
  indices := by
    intro b phi next registered
    cases sound.nextIndex registered with
    | stmt live get _ =>
        rw [bare.block live] at get
        cases get

/-! ### Whole units -/

theorem CodeUnit.Pass.typed {unit : CodeUnit} {pool : Pool} {kind : UnitKind} {labels : LabelMap}
    {draft : Draft} {final : State} (pass : unit.Pass pool kind labels draft final) :
    final.draft.graph.Typed :=
  have first := pass.start.bare.typed pass.start.inv.sound
  (pass.draft_induction first fun act sound typed => act.typed sound typed).graph

/-- No operation reads a truth value. -/
theorem Op.ne_test_of_mem_inputs {op : Op} {e : ValueId × ValueType} (mem : e ∈ op.inputs) :
    e.2 ≠ .test := by
  rw [Op.inputs.eq_def] at mem
  split at mem
  case h_5 =>
    obtain ⟨v, -, rfl⟩ := List.mem_map.mp mem
    nofun
  all_goals
    simp only [List.mem_cons, List.not_mem_nil, or_false] at mem
    rcases mem with rfl | rfl <;> nofun

/-- The types of a graph that is built, of the stack and of the faults.

Every operand of an operation has the type that is due, `Op.inputs`, and so has the operand of a
terminator, `Terminator.inputs`. What a statement defines has the type of its operation, a phi has
its type in the table of values, and its inputs have that type too. Truth values are the conditions
of branches and nothing else. In every run there are only values of the language on the stack, so
stacks that do not fit together differ in how long they are. -/
theorem compile_typed (unit : CodeUnit) (pool : Pool) (options : Options) :
    (∀ g, unit.compile pool options = .ok g → g.Typed ∧
      ∀ b block, g.block? b = some block → ∀ v, g.typeOf v = .test →
        (∀ s ∈ block.stmts, v ∉ s.op.operands) ∧ (∀ p ∈ block.phis, ∀ e ∈ p.inputs, v ≠ e.2) ∧
        ∀ t ∈ block.terminator, v ∈ t.operands → ∃ yes no, t = .branch v yes no) ∧
    (∀ labels draft, LabelMap.resolve unit pool (.new unit.displayName) = .ok labels draft →
      (∃ moments, RunPerforms ⟨pool, labels, options.unitKind⟩ 0 unit.instructions { draft } moments
          (Lowering.run ⟨pool, labels, options.unitKind⟩ 0 unit.instructions { draft }) ∧
        ∀ m ∈ moments, ∀ v ∈ m.state.stack.items, m.state.draft.graph.HasType v .value) ∧
      ∀ final, Lowering.run ⟨pool, labels, options.unitKind⟩ 0 unit.instructions { draft } =
        .ok final → ∀ v ∈ final.stack.items, final.draft.graph.HasType v .value) ∧
    ∀ e, unit.compile pool options = .error e → ∀ b expected actual,
      e.fault = .phiMismatch b expected actual →
      expected.length ≠ actual.length ∧ ∀ type ∈ expected ++ actual, type = .value := by
  refine ⟨fun g h => ?_, fun labels draft resolve => ?_, fun e h b expected actual is => ?_⟩
  · obtain ⟨raw, lowered, rfl⟩ := CodeUnit.compile_eq_ok.mp h
    obtain ⟨labels, draft, final, pass, rfl⟩ := CodeUnit.lower_eq_ok.mp lowered
    have typed := pass.typed.cleanup options
    refine ⟨typed, fun b block live v test => ⟨fun s mem operand => ?_, fun p mem e input is => ?_,
      fun t last operand => ?_⟩⟩
    · rw [← s.op.map_fst_inputs] at operand
      obtain ⟨e, read, rfl⟩ := List.mem_map.mp operand
      have type := ((typed live).operands s mem e read).typeOf
      exact Op.ne_test_of_mem_inputs read (type.symm.trans test)
    · have type := ((typed live).inputs p mem e input).typeOf
      exact ((typed live).phis p mem).1 (type.symm.trans (is ▸ test))
    · rw [← t.map_fst_inputs] at operand
      obtain ⟨e, read, rfl⟩ := List.mem_map.mp operand
      have type := ((typed live).terminator t last e read).typeOf
      cases t with
      | goto target => cases read
      | branch cond yes no =>
          cases List.mem_singleton.mp read
          exact ⟨yes, no, rfl⟩
      | ret value =>
          cases List.mem_singleton.mp read
          cases type.symm.trans test
      | nonLocalRet value =>
          cases List.mem_singleton.mp read
          cases type.symm.trans test
  · have start := CodeUnit.start_of_resolve options.unitKind resolve
    obtain ⟨⟨ms, performs, proper⟩, -⟩ :=
      start.between.conducts_run start.resolves.distinct start.binds
    refine ⟨⟨ms, performs, fun m mem => (proper m mem).inOrder.stack⟩, fun final h => ?_⟩
    have before : Before ⟨pool, labels, options.unitKind⟩ unit.instructions { draft } unit.size
        final := by
      rw [Before, CodeUnit.size, List.take_length]
      exact h
    have between := between_before start.resolves.distinct start.between (Nat.le_refl _) before
    exact between.inOrder.stack
  · rcases CodeUnit.fault_of_compile h with ⟨ofLabels, -⟩ | expected
    · rw [is] at ofLabels
      cases ofLabels
    · rw [is] at expected
      exact expected

/-- A loop that counts: its head joins the indices, and branches on whether one is left. -/
def countingLoop : CodeUnit where
  name := none
  instructions := [.load .null, .startFor ⟨0⟩ ⟨1⟩ ⟨0⟩, .load .null, .pop, .stepFor,
    .endLoop .forEach, .load .null, .ret]
  labels := [some 5]

def countingLoopPool : Pool := ⟨[.expr (.symbol "x"), .symbol "i"]⟩

/-- The test of the head is not joined with the indices, and nothing but the branch reads it. -/
theorem compile_typed_countingLoop : ∃ g head, countingLoop.compile countingLoopPool {} = .ok g ∧
    g.Typed ∧ g.block? ⟨2⟩ = some head ∧ head.phis.map (·.type) = [.index] ∧
    head.terminator = some (.branch ⟨6⟩ ⟨3⟩ ⟨1⟩) ∧ (∀ s ∈ head.stmts, ⟨6⟩ ∉ s.op.operands) ∧
    ∀ p ∈ head.phis, ∀ e ∈ p.inputs, ⟨6⟩ ≠ e.2 := by
  have found : ∃ g ∈ (countingLoop.compile countingLoopPool {}).toOption,
      ∃ head ∈ g.block? ⟨2⟩, head.phis.map (·.type) = [.index] ∧
        head.terminator = some (.branch ⟨6⟩ ⟨3⟩ ⟨1⟩) ∧ g.typeOf ⟨6⟩ = .test := by
    decide +kernel
  obtain ⟨g, h, head, live, phis, last, test⟩ := exists_ok_of_toOption found
  obtain ⟨typed, apart⟩ := (compile_typed countingLoop countingLoopPool {}).1 g h
  obtain ⟨stmts, inputs, -⟩ := apart ⟨2⟩ head live ⟨6⟩ test
  exact ⟨g, head, h, typed, live, phis, last, stmts, inputs⟩

end StackLift
