import StackLift.Proofs.Graph.Linked
import StackLift.Proofs.Graph.Walk

/-!
Graphs in strict single assignment form: predecessors and phi inputs are those of
the edges, a value is defined in one place, and every use of a value is dominated
by its definition. In a strict graph, moreover, every edge leads to a block that is
there, and phis list their inputs in the order of the predecessors. Cleaning up
keeps a graph strict.

For the removal of an orphan this is so because no walk comes to an orphan. For
the replacement of a trivial phi the argument is about first arrivals. The first
time that a walk comes to the block of the phi, it does so along an edge whose
input is not the phi itself, since the definition of that input was passed
before; so the input is the value that the phi is replaced by, and this value is
defined on every walk that passes the phi.
-/

namespace StackLift.Graph

/-- Strict single assignment form. -/
structure Ssa (g : Graph) : Prop where
  preds : ∀ {b : BlockId} {block : Block}, g.block? b = some block →
    block.preds.Perm (g.incoming b)
  /-- A phi has one input for each entry among the predecessors. -/
  inputs : ∀ {b : BlockId} {block : Block} {p : Phi}, g.block? b = some block → p ∈ block.phis →
    (p.inputs.map (·.1)).Perm block.preds
  single : ∀ {v : ValueId} {p q : Point}, g.DefinedAt v p → g.DefinedAt v q → p = q
  phis : ∀ {b : BlockId} {block : Block}, g.block? b = some block →
    (block.phis.map (·.value)).Nodup
  entry : ∀ {block : Block}, g.block? g.entry = some block → block.phis = []
  dominated : g.Dominated

/-- A phi has an input from each block that leads to it. -/
theorem Ssa.mem_inputs {g : Graph} (ssa : g.Ssa) {b pred : BlockId} {block : Block} {p : Phi}
    (live : g.block? b = some block) (mem : p ∈ block.phis) (edge : b ∈ g.successorsOf pred) :
    pred ∈ p.inputs.map (·.1) := by
  rw [(ssa.inputs live mem).mem_iff, (ssa.preds live).mem_iff, ← List.count_pos_iff,
    count_incoming, List.count_pos_iff]
  exact edge

structure Strict (g : Graph) : Prop where
  linked : g.Linked
  /-- A value is defined at one point only. -/
  single : ∀ {v : ValueId} {p q : Point}, g.DefinedAt v p → g.DefinedAt v q → p = q
  /-- The phis of a block are distinct. -/
  phis : ∀ {b : BlockId} {block : Block}, g.block? b = some block →
    (block.phis.map (·.value)).Nodup
  /-- No edge is taken to come to the entry, so it has nothing to select. -/
  entry : ∀ {block : Block}, g.block? g.entry = some block → block.phis = []
  dominated : g.Dominated

theorem Strict.ssa {g : Graph} (strict : g.Strict) : g.Ssa where
  preds := strict.linked.preds_perm
  inputs live mem := .of_eq (strict.linked.inputs live mem)
  single := strict.single
  phis := strict.phis
  entry := strict.entry
  dominated := strict.dominated

/-! ### Removing an orphan -/

section

variable {g : Graph} {b : BlockId} {block : Block} (linked : g.Linked)
  (live : g.block? b = some block)

include linked live

theorem Next.of_removeBlock {p q : Point} (next : (g.removeBlock b).Next p q) : g.Next p q := by
  cases next with
  | stmt hleft bound =>
      obtain ⟨-, whole, hwhole, rfl⟩ := linked.recorded.block?_removeBlock live hleft
      exact .stmt hwhole bound
  | edge hleft succ =>
      obtain ⟨-, whole, hwhole, rfl⟩ := linked.recorded.block?_removeBlock live hleft
      have edge := Next.edge hwhole succ
      exact edge

theorem Walk.of_removeBlock {w : List Point} (walk : (g.removeBlock b).Walk w) : g.Walk w := by
  induction walk with
  | start => exact .start
  | step _ next ih => exact .step ih (next.of_removeBlock linked live)

theorem DefinedAt.of_removeBlock {v : ValueId} {p : Point}
    (defined : (g.removeBlock b).DefinedAt v p) : g.DefinedAt v p := by
  cases defined with
  | phi hleft mem value =>
      obtain ⟨-, whole, hwhole, rfl⟩ := linked.recorded.block?_removeBlock live hleft
      obtain ⟨q, hq, rfl⟩ := List.mem_map.mp mem
      exact .phi hwhole hq value
  | stmt hleft get value =>
      obtain ⟨-, whole, hwhole, rfl⟩ := linked.recorded.block?_removeBlock live hleft
      exact .stmt hwhole get value

theorem UsedAt.of_removeBlock {v : ValueId} {p : Point} (used : (g.removeBlock b).UsedAt v p) :
    g.UsedAt v p := by
  cases used with
  | stmt hleft get mem =>
      obtain ⟨-, whole, hwhole, rfl⟩ := linked.recorded.block?_removeBlock live hleft
      exact .stmt hwhole get mem
  | terminator hleft last mem =>
      obtain ⟨-, whole, hwhole, rfl⟩ := linked.recorded.block?_removeBlock live hleft
      have used := UsedAt.terminator hwhole last mem
      exact used
  | phi hleft mem input hrest =>
      obtain ⟨-, whole, hwhole, rfl⟩ := linked.recorded.block?_removeBlock live hleft
      obtain ⟨-, source, hsource, rfl⟩ := linked.recorded.block?_removeBlock live hrest
      obtain ⟨q, hq, rfl⟩ := List.mem_map.mp mem
      have used := UsedAt.phi hwhole hq (List.mem_filter.mp input).1 hsource
      exact used

/-- A definition outside of the removed block stays. -/
theorem DefinedAt.removeBlock {v : ValueId} {p : Point} (defined : g.DefinedAt v p)
    (other : p.block ≠ b) : (g.removeBlock b).DefinedAt v p := by
  cases defined with
  | phi hwhole mem value =>
      exact .phi (linked.recorded.block?_removeBlock_of_ne live hwhole other)
        (List.mem_map.mpr ⟨_, mem, rfl⟩) value
  | stmt hwhole get value =>
      exact .stmt (linked.recorded.block?_removeBlock_of_ne live hwhole other) get value

/-- The phis of a block that stays are still distinct. -/
theorem nodup_phis_removeBlock
    (distinct : ∀ {c : BlockId} {block : Block}, g.block? c = some block →
      (block.phis.map (·.value)).Nodup) {c : BlockId} {left : Block}
    (hleft : (g.removeBlock b).block? c = some left) : (left.phis.map (·.value)).Nodup := by
  obtain ⟨-, whole, hwhole, rfl⟩ := linked.recorded.block?_removeBlock live hleft
  have distinct := distinct hwhole
  simpa [Block.dropPred, Function.comp_def] using distinct

omit live in
/-- A walk only comes to the entry and to blocks that have predecessors. -/
theorem Walk.block_ne_orphan {w : List Point} (walk : g.Walk w) (orphan : g.block? b = some block)
    (none : block.preds = []) (notEntry : b ≠ g.entry) : ∀ p ∈ w, p.block ≠ b := by
  induction walk with
  | start =>
      intro p hp
      rw [List.mem_singleton.mp hp]
      exact fun e => notEntry e.symm
  | step _ next ih =>
      intro p hp
      rcases List.mem_cons.mp hp with rfl | hp
      · cases next with
        | stmt _ _ =>
            have before := ih _ List.mem_cons_self
            exact before
        | @edge source _ _ hsource succ =>
            rintro rfl
            refine linked.recorded.not_mem_successorsOf orphan none source ?_
            rw [successorsOf_eq hsource]
            exact succ
      · exact ih p hp

end

theorem Strict.removeBlock {g : Graph} {b : BlockId} {block : Block} (strict : g.Strict)
    (live : g.block? b = some block) (none : block.preds = []) (notEntry : b ≠ g.entry) :
    (g.removeBlock b).Strict where
  linked := strict.linked.removeBlock live none
  single defined defined' :=
    strict.single (defined.of_removeBlock strict.linked live)
      (defined'.of_removeBlock strict.linked live)
  phis hleft := nodup_phis_removeBlock strict.linked live strict.phis hleft
  entry := by
    intro left hleft
    obtain ⟨-, whole, hwhole, rfl⟩ := strict.linked.recorded.block?_removeBlock live hleft
    simp [Block.dropPred, strict.entry hwhole]
  dominated := by
    intro v p used w walk
    have old : g.Walk (p :: w) := walk.of_removeBlock strict.linked live
    obtain ⟨q, hq, hdef⟩ :=
      strict.dominated v p (used.of_removeBlock strict.linked live) w old
    exact ⟨q, hq, hdef.removeBlock strict.linked live
      (old.block_ne_orphan strict.linked live none notEntry q hq)⟩

/-! ### Replacing a trivial phi -/

section

variable {g : Graph} {b : BlockId} {phi value : ValueId}

theorem next_replacePhi {p q : Point} : (g.replacePhi b phi value).Next p q ↔ g.Next p q := by
  constructor
  · intro next
    cases next with
    | stmt hnew bound =>
        obtain ⟨old, hold, rfl⟩ := block?_replacePhi_eq_some hnew
        rw [stmts_replacePhi, List.length_map] at bound
        exact .stmt hold bound
    | edge hnew succ =>
        obtain ⟨old, hold, rfl⟩ := block?_replacePhi_eq_some hnew
        rw [successors_replacePhi] at succ
        rw [stmts_replacePhi, List.length_map]
        exact .edge hold succ
  · intro next
    cases next with
    | stmt hold bound =>
        refine .stmt (block?_replacePhi_of_eq_some hold) ?_
        rw [stmts_replacePhi, List.length_map]
        exact bound
    | @edge b' c old hold succ =>
        have live : (g.replacePhi b phi value).block? b' = _ := block?_replacePhi_of_eq_some hold
        have here := Next.edge (c := c) live (by rw [successors_replacePhi]; exact succ)
        rwa [stmts_replacePhi, List.length_map] at here

theorem walk_replacePhi {w : List Point} : (g.replacePhi b phi value).Walk w ↔ g.Walk w := by
  constructor
  · intro walk
    induction walk with
    | start => exact .start
    | step _ next ih => exact .step ih (next_replacePhi.mp next)
  · intro walk
    induction walk with
    | start => exact .start
    | step _ next ih => exact .step ih (next_replacePhi.mpr next)

theorem DefinedAt.of_replacePhi {v : ValueId} {p : Point}
    (defined : (g.replacePhi b phi value).DefinedAt v p) : g.DefinedAt v p := by
  cases defined with
  | phi hnew mem hvalue =>
      obtain ⟨old, hold, rfl⟩ := block?_replacePhi_eq_some hnew
      obtain ⟨q, hq, -, rfl⟩ := mem_phis_replacePhi mem
      exact .phi hold hq hvalue
  | stmt hnew get hvalue =>
      obtain ⟨old, hold, rfl⟩ := block?_replacePhi_eq_some hnew
      rw [stmts_replacePhi, List.getElem?_map] at get
      obtain ⟨s, hs, rfl⟩ := Option.map_eq_some_iff.mp get
      exact .stmt hold hs hvalue

theorem DefinedAt.replacePhi {v : ValueId} {p : Point} (defined : g.DefinedAt v p)
    (other : v ≠ phi) : (g.replacePhi b phi value).DefinedAt v p := by
  cases defined with
  | @phi c old q hold mem hvalue =>
      have kept : q ∈ (if c = b then old.dropPhi phi else old).phis := by
        split
        · exact List.mem_filter.mpr ⟨mem, by simpa [hvalue] using other⟩
        · exact mem
      exact .phi (block?_replacePhi_of_eq_some hold) (List.mem_map.mpr ⟨q, kept, rfl⟩) hvalue
  | @stmt c old i s hold get hvalue =>
      refine .stmt (s := { s with op := s.op.mapOperands (subst phi value) })
        (block?_replacePhi_of_eq_some hold) ?_ hvalue
      rw [stmts_replacePhi, List.getElem?_map, get]
      rfl

theorem nodup_phis_replacePhi
    (distinct : ∀ {c : BlockId} {block : Block}, g.block? c = some block →
      (block.phis.map (·.value)).Nodup) {c : BlockId} {new : Block}
    (hnew : (g.replacePhi b phi value).block? c = some new) :
    (new.phis.map (·.value)).Nodup := by
  obtain ⟨old, hold, rfl⟩ := block?_replacePhi_eq_some hnew
  have values : ((if c = b then old.dropPhi phi else old).mapUses
      (subst phi value)).phis.map (·.value) =
      (if c = b then old.dropPhi phi else old).phis.map (·.value) := by
    simp [Block.mapUses, Function.comp_def]
  rw [values]
  split
  · exact (distinct hold).sublist (List.filter_sublist.map _)
  · exact distinct hold

/-- What is used after the replacement stands for a use before it. -/
theorem UsedAt.of_replacePhi {v : ValueId} {p : Point}
    (used : (g.replacePhi b phi value).UsedAt v p) :
    ∃ u, g.UsedAt u p ∧ v = subst phi value u := by
  cases used with
  | stmt hnew get mem =>
      obtain ⟨old, hold, rfl⟩ := block?_replacePhi_eq_some hnew
      rw [stmts_replacePhi, List.getElem?_map] at get
      obtain ⟨s, hs, rfl⟩ := Option.map_eq_some_iff.mp get
      rw [Op.operands_mapOperands] at mem
      obtain ⟨u, hu, rfl⟩ := List.mem_map.mp mem
      exact ⟨u, .stmt hold hs hu, rfl⟩
  | terminator hnew last mem =>
      obtain ⟨old, hold, rfl⟩ := block?_replacePhi_eq_some hnew
      rw [terminator_replacePhi] at last
      obtain ⟨t, ht, rfl⟩ := Option.map_eq_some_iff.mp last
      rw [Terminator.operands_mapOperands] at mem
      obtain ⟨u, hu, rfl⟩ := List.mem_map.mp mem
      refine ⟨u, ?_, rfl⟩
      rw [stmts_replacePhi, List.length_map]
      exact .terminator hold ht hu
  | phi hnew mem input hnew' =>
      obtain ⟨old, hold, rfl⟩ := block?_replacePhi_eq_some hnew
      obtain ⟨source, hsource, rfl⟩ := block?_replacePhi_eq_some hnew'
      obtain ⟨q, hq, -, rfl⟩ := mem_phis_replacePhi mem
      obtain ⟨⟨e, u⟩, hu, heq⟩ := List.mem_map.mp input
      cases heq
      refine ⟨u, ?_, rfl⟩
      rw [stmts_replacePhi, List.length_map]
      exact .phi hold hq hu hsource

end

section

variable {g : Graph} {b : BlockId} {block : Block} {p : Phi} {value : ValueId}
  (ssa : g.Ssa) (live : g.block? b = some block) (mem : p ∈ block.phis)
  (sole : p.sole? = some value)

include ssa live mem sole

/-- On the first arrival at the block of a trivial phi, the value that it
selects was defined before. -/
theorem Ssa.definedAt_before_phi {w : List Point} (walk : g.Walk (⟨b, 0⟩ :: w))
    (first : (⟨b, 0⟩ : Point) ∉ w) : ∃ q ∈ w, g.DefinedAt value q := by
  rcases walk.cases_zero with ⟨rfl, -⟩ | ⟨pred, source, t, rfl, hsource, succ, walk⟩
  · rw [ssa.entry live] at mem
    exact absurd mem List.not_mem_nil
  · have isPred : pred ∈ p.inputs.map (·.1) := by
      refine ssa.mem_inputs live mem ?_
      rw [successorsOf_eq hsource]
      exact succ
    obtain ⟨⟨pred', u⟩, input, rfl⟩ := List.mem_map.mp isPred
    obtain ⟨q, hq, hdef⟩ := ssa.dominated u _ (.phi live mem input hsource) t walk
    rcases (Phi.sole?_eq_some sole).2 _ input with rfl | self
    · exact ⟨q, hq, hdef⟩
    · have here : q = ⟨b, 0⟩ := ssa.single hdef (.phi live mem self.symm)
      exact absurd (here ▸ hq) first

/-- Wherever a trivial phi is defined, so is the value that it selects. -/
theorem Ssa.definedAt_of_phi {w : List Point} (walk : g.Walk w)
    (passed : ∃ q ∈ w, g.DefinedAt p.value q) : ∃ q ∈ w, g.DefinedAt value q := by
  obtain ⟨q, t, suffix, walk, hdef, first⟩ := walk.exists_first passed
  obtain rfl : q = ⟨b, 0⟩ := ssa.single hdef (.phi live mem rfl)
  have notIn : (⟨b, 0⟩ : Point) ∉ t := fun h => first _ h hdef
  obtain ⟨r, hr, hvalue⟩ := ssa.definedAt_before_phi live mem sole walk notIn
  exact ⟨r, suffix.subset (List.mem_cons_of_mem _ hr), hvalue⟩

/-- The value that a trivial phi selects is not defined together with the phi,
if control comes there at all. -/
theorem Ssa.not_definedAt_start (reaches : g.Reaches ⟨b, 0⟩) :
    ¬g.DefinedAt value ⟨b, 0⟩ := by
  intro hvalue
  obtain ⟨w, walk⟩ := reaches
  have here : ∃ q ∈ (⟨b, 0⟩ :: w : List Point), q = ⟨b, 0⟩ := ⟨_, List.mem_cons_self, rfl⟩
  obtain ⟨q, t, -, walk, rfl, first⟩ := walk.exists_first here
  have notIn : (⟨b, 0⟩ : Point) ∉ t := fun h => first _ h rfl
  obtain ⟨r, hr, hdef⟩ := ssa.definedAt_before_phi live mem sole walk notIn
  exact notIn (ssa.single hdef hvalue ▸ hr)

/-- Where the selected value is defined, control can be without having come to
the phi. -/
theorem Ssa.not_dominates_phi {q : Point} {w : List Point} (walk : g.Walk (q :: w))
    (hvalue : g.DefinedAt value q) : ¬g.Dominates p.value q := by
  obtain ⟨r, t, -, direct, hr, first⟩ :=
    walk.exists_first ⟨q, List.mem_cons_self, hvalue⟩
  obtain rfl : r = q := ssa.single hr hvalue
  refine not_dominates_of_walk direct fun s hs hphi => ?_
  rcases List.mem_cons.mp hs with rfl | hs
  · obtain rfl : s = ⟨b, 0⟩ := ssa.single hphi (.phi live mem rfl)
    exact ssa.not_definedAt_start live mem sole ⟨t, direct⟩ hvalue
  · have rest : g.Walk t := direct.suffix (List.suffix_cons r t) (List.ne_nil_of_mem hs)
    obtain ⟨u, hu, hdef⟩ := ssa.definedAt_of_phi live mem sole rest ⟨s, hs, hphi⟩
    exact first u hu hdef

theorem Ssa.replacePhi : (g.replacePhi b p.value value).Ssa where
  preds := by
    intro c new hnew
    obtain ⟨old, hold, rfl⟩ := block?_replacePhi_eq_some hnew
    rw [preds_replacePhi, List.perm_iff_count]
    intro q
    rw [(ssa.preds hold).count_eq, count_incoming, count_incoming, successorsOf_replacePhi]
  inputs := by
    intro c new q hnew hq
    obtain ⟨old, hold, rfl⟩ := block?_replacePhi_eq_some hnew
    obtain ⟨r, hr, -, rfl⟩ := mem_phis_replacePhi hq
    rw [preds_replacePhi, List.map_map]
    exact ssa.inputs hold hr
  single defined defined' := ssa.single defined.of_replacePhi defined'.of_replacePhi
  phis hnew := nodup_phis_replacePhi ssa.phis hnew
  entry := by
    intro new hnew
    obtain ⟨old, hold, rfl⟩ := block?_replacePhi_eq_some hnew
    have nil : old.phis = [] := ssa.entry hold
    split <;> simp [Block.mapUses, Block.dropPhi, nil]
  dominated := by
    intro v q used w walk
    rw [walk_replacePhi] at walk
    obtain ⟨u, hused, rfl⟩ := used.of_replacePhi
    have passed := ssa.dominated u q hused w walk
    by_cases hu : u = p.value
    · subst hu
      obtain ⟨r, hr, hdef⟩ := ssa.definedAt_of_phi live mem sole walk passed
      rw [subst_self]
      exact ⟨r, hr, hdef.replacePhi (Phi.sole?_eq_some sole).1⟩
    · obtain ⟨r, hr, hdef⟩ := passed
      rw [subst_of_ne hu]
      exact ⟨r, hr, hdef.replacePhi hu⟩

end

theorem Strict.replacePhi {g : Graph} {b : BlockId} {block : Block} {p : Phi} {value : ValueId}
    (strict : g.Strict) (live : g.block? b = some block) (mem : p ∈ block.phis)
    (sole : p.sole? = some value) : (g.replacePhi b p.value value).Strict := by
  obtain ⟨-, -, single, phis, entry, dominated⟩ := strict.ssa.replacePhi live mem sole
  exact ⟨strict.linked.replacePhi, single, phis, entry, dominated⟩

theorem Strict.cleanup {g : Graph} (strict : g.Strict) (options : Options) :
    (options.cleanup g).Strict :=
  cleanup_induction (motive := Strict)
    (fun strict live none notEntry => strict.removeBlock live none notEntry)
    (fun strict live mem sole => strict.replacePhi live mem sole) options strict

end StackLift.Graph
