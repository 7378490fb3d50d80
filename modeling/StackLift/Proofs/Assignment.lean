import StackLift.Proofs.Dominance

/-!
Single assignment. In a compiled graph every value is defined once, every value
that occurs is defined, and the table of values says where. Main statement: this
holds of the graph as it is built and of what cleaning it up leaves. It does not
follow from dominance, which brackets can break: pruning removes only blocks in
which nothing was built, and a trivial phi is replaced by a value that has a
definition of its own.
-/

namespace StackLift

open Lowering

/-- What the table of values says of a value that is defined at a point. -/
def Point.definition : Point → Definition
  | ⟨b, 0⟩ => .phi b
  | ⟨b, _ + 1⟩ => .stmt b

namespace Graph

/-- The value occurs in a block: as an operand or as the input of a phi. -/
inductive Occurs (g : Graph) (v : ValueId) : Prop
  | stmt {b : BlockId} {block : Block} {s : Stmt} (live : g.block? b = some block)
      (mem : s ∈ block.stmts) (operand : v ∈ s.op.operands)
  | terminator {b : BlockId} {block : Block} {t : Terminator} (live : g.block? b = some block)
      (last : block.terminator = some t) (operand : v ∈ t.operands)
  | phi {b pred : BlockId} {block : Block} {p : Phi} (live : g.block? b = some block)
      (mem : p ∈ block.phis) (input : (pred, v) ∈ p.inputs)

theorem Linked.usedAt_of_occurs {g : Graph} (linked : g.Linked) {v : ValueId} (occurs : g.Occurs v) :
    ∃ p, g.UsedAt v p := by
  cases occurs with
  | stmt live mem operand =>
      obtain ⟨i, get⟩ := List.mem_iff_getElem?.mp mem
      exact ⟨_, .stmt live get operand⟩
  | terminator live last operand => exact ⟨_, .terminator live last operand⟩
  | @phi b pred block p live mem input =>
      have isPred : pred ∈ block.preds := by
        rw [← linked.inputs live mem]
        exact List.mem_map_of_mem input
      have succ := (linked.recorded.mem_preds_iff live).mp isPred
      cases source : g.block? pred with
      | none =>
          rw [successorsOf, source] at succ
          exact absurd succ List.not_mem_nil
      | some block' => exact ⟨_, .phi live mem input source⟩

structure Assigned (g : Graph) : Prop where
  linked : g.Linked
  single : ∀ {v : ValueId} {p q : Point}, g.DefinedAt v p → g.DefinedAt v q → p = q
  phis : ∀ {b : BlockId} {block : Block}, g.block? b = some block →
    (block.phis.map (·.value)).Nodup
  defined : ∀ {v : ValueId} {p : Point}, g.UsedAt v p → ∃ q, g.DefinedAt v q
  recorded : ∀ {v : ValueId} {p : Point}, g.DefinedAt v p →
    ∃ info, g.values[v.index]? = some info ∧ info.definition = p.definition
  /-- Nothing is built where control does not come. -/
  bare : ∀ {b : BlockId} {block : Block}, g.block? b = some block → b ≠ g.entry →
    block.preds = [] → block.Bare

section

variable {g : Graph} {b : BlockId} {block : Block}

theorem values_removeBlock (g : Graph) (b : BlockId) : (g.removeBlock b).values = g.values := by
  rw [Graph.removeBlock]
  split
  · rfl
  · exact values_foldl_updateBlock _ _ _

theorem Assigned.removeBlock (assigned : g.Assigned) (live : g.block? b = some block)
    (none : block.preds = []) (notEntry : b ≠ g.entry) : (g.removeBlock b).Assigned := by
  have bare := assigned.bare live notEntry none
  have linked := assigned.linked
  -- the removed block defines nothing and leads nowhere
  have elsewhere : ∀ {v p}, g.DefinedAt v p → p.block ≠ b := by
    rintro v p defined rfl
    cases defined with
    | phi live' mem _ =>
        rw [live] at live'
        cases live'
        rw [bare.phis] at mem
        exact absurd mem List.not_mem_nil
    | stmt live' get _ =>
        rw [live] at live'
        cases live'
        rw [bare.stmts] at get
        simp at get
  have nowhere : g.successorsOf b = [] := by
    rw [successorsOf_eq live, Block.successors, bare.terminator]
  refine ⟨linked.removeBlock live none, fun defined defined' => ?_,
    fun hleft => nodup_phis_removeBlock linked live assigned.phis hleft, fun used => ?_,
    fun defined => ?_, fun {c left} hleft other empty => ?_⟩
  · exact assigned.single (defined.of_removeBlock linked live) (defined'.of_removeBlock linked live)
  · obtain ⟨q, defined⟩ := assigned.defined (used.of_removeBlock linked live)
    exact ⟨q, defined.removeBlock linked live (elsewhere defined)⟩
  · rw [values_removeBlock]
    exact assigned.recorded (defined.of_removeBlock linked live)
  · obtain ⟨-, whole, hwhole, rfl⟩ := linked.recorded.block?_removeBlock live hleft
    have kept : whole.preds = [] := by
      have notPred : b ∉ whole.preds := by
        rw [linked.recorded.mem_preds_iff hwhole, nowhere]
        exact List.not_mem_nil
      have same : whole.preds.filter (· ≠ b) = whole.preds := by
        refine List.filter_eq_self.mpr fun p mem => ?_
        simpa using fun e : p = b => notPred (e ▸ mem)
      exact same.symm.trans empty
    obtain ⟨phis, stmts, terminator⟩ := assigned.bare hwhole other kept
    refine ⟨?_, stmts, terminator⟩
    rw [Block.dropPred, phis]
    rfl

theorem Assigned.replacePhi {p : Phi} {value : ValueId} (assigned : g.Assigned)
    (live : g.block? b = some block) (mem : p ∈ block.phis) (sole : p.sole? = some value) :
    (g.replacePhi b p.value value).Assigned := by
  have linked := assigned.linked
  obtain ⟨other, -⟩ := Phi.sole?_eq_some sole
  -- what the phi selects is among its inputs, so it is defined
  have selected : ∃ q, g.DefinedAt value q := by
    obtain ⟨pred, input⟩ := Phi.mem_inputs_of_sole? sole
    obtain ⟨q, used⟩ := linked.usedAt_of_occurs (.phi live mem input)
    exact assigned.defined used
  refine ⟨linked.replacePhi, fun defined defined' => ?_,
    fun hnew => nodup_phis_replacePhi assigned.phis hnew, fun used => ?_,
    fun defined => ?_, fun {c new} hnew notEntry empty => ?_⟩
  · exact assigned.single defined.of_replacePhi defined'.of_replacePhi
  · obtain ⟨u, before, rfl⟩ := used.of_replacePhi
    by_cases replaced : u = p.value
    · subst replaced
      obtain ⟨q, defined⟩ := selected
      rw [subst_self]
      exact ⟨q, defined.replacePhi other⟩
    · obtain ⟨q, defined⟩ := assigned.defined before
      rw [subst_of_ne replaced]
      exact ⟨q, defined.replacePhi replaced⟩
  · exact assigned.recorded defined.of_replacePhi
  · obtain ⟨old, hold, rfl⟩ := block?_replacePhi_eq_some hnew
    rw [preds_replacePhi] at empty
    obtain ⟨phis, stmts, terminator⟩ := assigned.bare hold notEntry empty
    refine ⟨?_, ?_, ?_⟩
    · split <;> simp [Block.mapUses, Block.dropPhi, phis]
    · rw [stmts_replacePhi, stmts]
      rfl
    · rw [terminator_replacePhi, terminator]
      rfl

end

theorem Assigned.cleanup {g : Graph} (assigned : g.Assigned) (options : Options) :
    (options.cleanup g).Assigned :=
  cleanup_induction (motive := Assigned)
    (fun assigned live none notEntry => assigned.removeBlock live none notEntry)
    (fun assigned live mem sole => assigned.replacePhi live mem sole) options assigned

end Graph

/-! ### The graph as it is built -/

namespace Draft

/-- The table of values is right. -/
def Recorded (d : Draft) : Prop :=
  ∀ v p, d.graph.DefinedAt v p →
    ∃ info, d.graph.values[v.index]? = some info ∧ info.definition = p.definition

variable {carry : Carry} {d d' : Draft}

/-- Entries of the table stay, so only new definitions have to be looked at. -/
theorem Recorded.of_new (recorded : d.Recorded) (grows : d.Grows d')
    (new : ∀ {v : ValueId} {p : Point}, d'.graph.DefinedAt v p → d.graph.DefinedAt v p ∨
      ∃ info, d'.graph.values[v.index]? = some info ∧ info.definition = p.definition) :
    d'.Recorded := by
  intro v p defined
  rcases new defined with old | made
  · obtain ⟨info, get, heq⟩ := recorded v p old
    exact ⟨info, getElem?_of_isPrefix grows.values get, heq⟩
  · exact made

theorem Recorded.ended {t : Terminator} {slots : List ValueId} (recorded : d.Recorded)
    (can : d.CanEnd t slots) (ended : d.Ended t slots d') : d'.Recorded := by
  refine recorded.of_new (grows_ended can ended) fun {v p} defined => ?_
  refine (definedAt_ended ended defined).imp id ?_
  rintro ⟨b, target, rfl, q, mem, rfl⟩
  exact ⟨_, getElem?_newPhis can ended target mem, rfl⟩

theorem Act.recorded (act : Act carry d d') (sound : d.Sound) (recorded : d.Recorded) :
    d'.Recorded := by
  have grows := act.grows sound
  cases act with
  | @emit op isOpen _ =>
      refine recorded.of_new grows fun {v p} defined => (definedAt_emitted defined).imp id ?_
      rintro ⟨rfl, rfl⟩
      refine ⟨⟨op.resultType, .stmt d.cursor⟩, ?_, rfl⟩
      rw [values_emitted]
      exact List.getElem?_concat_length
  | newMerge => exact recorded.of_new grows fun defined => Or.inl (definedAt_addBlock.mp defined)
  | newDirect => exact recorded.of_new grows fun defined => Or.inl (definedAt_addBlock.mp defined)
  | terminate can _ _ _ ok => exact recorded.ended can (can.ended sound ok)
  | moveTo _ _ _ => exact recorded
  | @addIndexPhi b _ _ _ _ _ _ _ _ _ _ _ _ =>
      refine recorded.of_new grows fun defined => (definedAt_addIndexPhi sound defined).imp id ?_
      rintro ⟨rfl, rfl⟩
      refine ⟨⟨.index, .phi b⟩, ?_, rfl⟩
      rw [values_addIndexPhi]
      exact List.getElem?_concat_length
  | registerLoopIndex _ _ _ _ _ => exact recorded

end Draft

namespace CodeUnit.Pass

variable {unit : CodeUnit} {pool : Pool} {kind : UnitKind} {labels : LabelMap} {draft : Draft}
  {final : State} (pass : unit.Pass pool kind labels draft final)

include pass

/-- A value was defined when it was used, also if a bracket held it. -/
theorem exists_definedAt {v : ValueId} {p : Point} (used : final.draft.graph.UsedAt v p) :
    ∃ q, final.draft.graph.DefinedAt v q := by
  rcases pass.usedAt used with scope | ⟨offset, i, s, lowers, mem, -, -⟩
  · exact scope.exists_definedAt
  · obtain ⟨e, held, rfl⟩ := List.mem_map.mp mem
    obtain ⟨-, inv, -, -, grows, -⟩ := pass.lowered (pass.visits lowers)
    obtain ⟨q, defined⟩ := (inv.held_known i e held).defined
    exact ⟨q, grows.definedAt defined⟩

theorem assigned : final.draft.graph.Assigned where
  linked := pass.sound.1.linked
  single := pass.sound.1.single
  phis := pass.sound.1.distinct
  defined := pass.exists_definedAt
  recorded {v p} defined := by
    refine pass.draft_induction (P := Draft.Recorded) (fun v p defined => ?_)
      (fun act sound recorded => act.recorded sound recorded) v p defined
    cases defined with
    | phi live mem _ =>
        rw [pass.start.bare.block live] at mem
        exact absurd mem List.not_mem_nil
    | stmt live get _ =>
        rw [pass.start.bare.block live] at get
        cases get
  bare := pass.reached.bare

end CodeUnit.Pass

/-- Whatever the options are, a value of a compiled graph is defined by one phi or
statement at most, by one if it occurs, and where the table of values says. -/
theorem single_assignment {unit : CodeUnit} {pool : Pool} {options : Options} {g : Graph}
    (h : unit.compile pool options = .ok g) :
    (∀ v p q, g.DefinedAt v p → g.DefinedAt v q → p = q) ∧
      (∀ b block, g.block? b = some block → (block.phis.map (·.value)).Nodup) ∧
      (∀ v, g.Occurs v → ∃ p, g.DefinedAt v p) ∧
      ∀ v p, g.DefinedAt v p →
        ∃ info, g.values[v.index]? = some info ∧ info.definition = p.definition := by
  obtain ⟨raw, lowered, rfl⟩ := CodeUnit.compile_eq_ok.mp h
  obtain ⟨labels, draft, final, pass, rfl⟩ := CodeUnit.lower_eq_ok.mp lowered
  have assigned := pass.assigned.cleanup options
  refine ⟨fun v p q => assigned.single, fun b block => assigned.phis, fun v occurs => ?_,
    fun v p => assigned.recorded⟩
  obtain ⟨p, used⟩ := assigned.linked.usedAt_of_occurs occurs
  exact assigned.defined used

/-- Two arms that leave one value. -/
def twoArms : CodeUnit where
  name := none
  instructions := [.load (.logical true), .branchIfNot ⟨0⟩ ⟨0⟩, .load .null, .goto ⟨1⟩,
    .load (.logical false), .ret]
  labels := [some 4, some 5]

def twoArmsPool : Pool := ⟨[.expr (.symbol "if")]⟩

/-- The value that is returned is that of the phi where the arms meet. -/
theorem single_assignment_twoArms : ∃ g p info, twoArms.compile twoArmsPool {} = .ok g ∧
    g.DefinedAt ⟨3⟩ p ∧ (∀ q, g.DefinedAt ⟨3⟩ q → q = p) ∧
    g.values[3]? = some info ∧ info.definition = p.definition ∧ info.definition = .phi ⟨2⟩ := by
  have found : ∃ g ∈ (twoArms.compile twoArmsPool {}).toOption,
      (∃ block ∈ g.block? ⟨2⟩, block.terminator = some (.ret ⟨3⟩)) ∧
        (g.values[3]?).map (·.definition) = some (.phi ⟨2⟩) := by
    decide +kernel
  obtain ⟨g, h, ⟨block, live, last⟩, kind⟩ := exists_ok_of_toOption found
  obtain ⟨single, -, defined, recorded⟩ := single_assignment h
  obtain ⟨p, here⟩ := defined ⟨3⟩ (.terminator live last List.mem_cons_self)
  obtain ⟨info, get, heq⟩ := recorded _ p here
  refine ⟨g, p, info, h, here, fun q there => single _ q p there here, get, heq, ?_⟩
  rw [show g.values[3]? = some info from get] at kind
  exact Option.some.inj kind

end StackLift
