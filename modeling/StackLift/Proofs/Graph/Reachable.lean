import StackLift.Proofs.Graph.Linked

/-!
The blocks that control can come to, and what pruning does when there is nothing
in the blocks that no edge leads to.

Pruning only looks at predecessors, so in general it misses a cycle that no edge
enters, and removing a block may uncover another one. If the blocks without
predecessors are bare, neither happens: one round removes them all, the other
blocks stay as they are, and it does not matter whether trivial phis are replaced
before or after.
-/

namespace StackLift

/-- Nothing was built in a block. -/
structure Block.Bare (block : Block) : Prop where
  phis : block.phis = []
  stmts : block.stmts = []
  terminator : block.terminator = none

theorem Block.Bare.successors {block : Block} (bare : block.Bare) : block.successors = [] := by
  rw [Block.successors, bare.terminator]

namespace Graph

/-- Edges lead from the entry to the block. -/
inductive Reachable (g : Graph) : BlockId → Prop
  | entry : Reachable g g.entry
  | edge {b c : BlockId} (source : Reachable g b) (succ : c ∈ g.successorsOf b) : Reachable g c

theorem Reachable.mono {g g' : Graph} {b : BlockId} (reachable : g.Reachable b)
    (edges : ∀ {b c : BlockId}, c ∈ g.successorsOf b → c ∈ g'.successorsOf b) :
    g'.Reachable b := by
  induction reachable with
  | entry => exact .entry
  | edge _ succ ih => exact .edge ih (edges succ)

/-- Only what is reachable has an end. -/
def Traced (g : Graph) : Prop :=
  ∀ ⦃b : BlockId⦄ ⦃block : Block⦄, g.block? b = some block → block.terminator.isSome →
    g.Reachable b

/-- The blocks that no edge leads to are bare. -/
def OrphansBare (g : Graph) : Prop :=
  ∀ ⦃b : BlockId⦄ ⦃block : Block⦄, g.block? b = some block → b ≠ g.entry → block.preds = [] →
    block.Bare

/-! ### Some of the blocks -/

theorem ext_block? {g g' : Graph} (name : g.name = g'.name) (values : g.values = g'.values)
    (length : g.blocks.length = g'.blocks.length) (block : ∀ b, g.block? b = g'.block? b) :
    g = g' := by
  have blocks : g.blocks = g'.blocks := by
    refine List.ext_getElem length fun i h h' => ?_
    simpa [block?, h, h'] using block ⟨i⟩
  cases g
  cases g'
  cases name
  cases values
  cases blocks
  rfl

/-- The blocks that are to be kept; the others leave their places empty. -/
def restrict (g : Graph) (keep : BlockId → Block → Bool) : Graph :=
  { g with blocks := g.blocks.mapIdx fun i block => block.filter (keep ⟨i⟩) }

variable {g : Graph} {keep : BlockId → Block → Bool}

theorem block?_restrict (b : BlockId) :
    (g.restrict keep).block? b = (g.block? b).filter (keep b) := by
  simp only [restrict, block?, List.getElem?_mapIdx]
  cases g.blocks[b.index]? with
  | none => rfl
  | some block => rfl

theorem length_blocks_restrict : (g.restrict keep).blocks.length = g.blocks.length :=
  List.length_mapIdx

theorem liveBlocks_restrict :
    (g.restrict keep).liveBlocks = g.liveBlocks.filter fun (b, block) => keep b block := by
  have general : ∀ (blocks : List (Option Block)) (n : Nat),
      liveFrom n (blocks.mapIdx fun i block => block.filter (keep ⟨n + i⟩)) =
        (liveFrom n blocks).filter fun (b, block) => keep b block := by
    intro blocks
    induction blocks with
    | nil => exact fun _ => rfl
    | cons block blocks ih =>
        intro n
        have rest := ih (n + 1)
        simp only [Nat.add_assoc, Nat.add_comm 1] at rest
        rw [List.mapIdx_cons]
        cases block with
        | none => exact rest
        | some block =>
            simp only [Nat.add_zero, Option.filter_some, liveFrom, List.filter_cons]
            split
            · rw [liveFrom, rest]
            · exact rest
  simpa [restrict, liveBlocks] using general g.blocks 0

/-- The phis of a graph with the blocks that they stand in, in block order. -/
def phis (g : Graph) : List (BlockId × Phi) :=
  g.liveBlocks.flatMap fun (b, block) => block.phis.map fun p => (b, p)

theorem phiCount_eq_length_phis (g : Graph) : g.phiCount = g.phis.length := by
  simp [phiCount, phis, List.length_flatMap]

theorem trivialPhi?_eq_findSome? (g : Graph) :
    g.trivialPhi? = g.phis.findSome? fun (b, p) => p.sole?.map fun v => (b, p.value, v) := by
  rw [trivialPhi?, phis]
  induction g.liveBlocks with
  | nil => rfl
  | cons e rest ih =>
      rw [List.findSome?_cons, List.flatMap_cons, List.findSome?_append, ih, List.findSome?_map]
      simp only [Function.comp_def]
      cases e.2.phis.findSome? fun p => p.sole?.map fun v => (e.1, p.value, v) <;> rfl

/-- Leaving blocks without phis out keeps the phis. -/
theorem phis_restrict (out : ∀ {b : BlockId} {block : Block}, g.block? b = some block →
    keep b block = false → block.phis = []) : (g.restrict keep).phis = g.phis := by
  have general : ∀ l : List (BlockId × Block), (∀ e ∈ l, keep e.1 e.2 = false → e.2.phis = []) →
      (l.filter fun (b, block) => keep b block).flatMap
          (fun (b, block) => block.phis.map fun p => (b, p)) =
        l.flatMap fun (b, block) => block.phis.map fun p => (b, p) := by
    intro l
    induction l with
    | nil => exact fun _ => rfl
    | cons e l ih =>
        intro out
        have rest := ih fun e' mem => out e' (List.mem_cons_of_mem e mem)
        obtain ⟨b, block⟩ := e
        by_cases kept : keep b block = true
        · rw [List.filter_cons_of_pos (by exact kept), List.flatMap_cons, List.flatMap_cons, rest]
        · have none : block.phis = [] := out _ List.mem_cons_self (by simpa using kept)
          rw [List.filter_cons_of_neg (by exact kept), List.flatMap_cons, rest]
          simp [none]
  rw [phis, liveBlocks_restrict]
  exact general _ fun e mem => out (mem_liveBlocks.mp mem)

/-! ### The graph without its orphans -/

/-- The entry, and the blocks that edges lead to. -/
def withoutOrphans (g : Graph) : Graph :=
  g.restrict fun b block => b = g.entry || !block.preds.isEmpty

theorem block?_withoutOrphans (g : Graph) (b : BlockId) :
    g.withoutOrphans.block? b =
      (g.block? b).filter fun block => b = g.entry || !block.preds.isEmpty :=
  block?_restrict b

theorem block?_withoutOrphans_eq_some {b : BlockId} {block : Block} :
    g.withoutOrphans.block? b = some block ↔
      g.block? b = some block ∧ (b = g.entry ∨ block.preds ≠ []) := by
  rw [block?_withoutOrphans, Option.filter_eq_some_iff]
  simp

theorem orphans_withoutOrphans (g : Graph) : g.withoutOrphans.orphans = [] := by
  refine List.eq_nil_iff_forall_not_mem.mpr fun b mem => ?_
  obtain ⟨notEntry, block, live, none⟩ := mem_orphans.mp mem
  obtain ⟨-, entry | some⟩ := block?_withoutOrphans_eq_some.mp live
  · exact notEntry entry
  · exact some none

theorem withoutOrphans_eq_self (none : g.orphans = []) : g.withoutOrphans = g := by
  refine ext_block? rfl rfl length_blocks_restrict fun b => ?_
  cases live : g.block? b with
  | none => rw [block?_withoutOrphans, live, Option.filter_none]
  | some block =>
      refine block?_withoutOrphans_eq_some.mpr ⟨live, Decidable.or_iff_not_imp_left.mpr ?_⟩
      intro notEntry preds
      have mem := mem_orphans.mpr ⟨notEntry, block, live, preds⟩
      rw [none] at mem
      exact List.not_mem_nil mem

section

variable (bare : g.OrphansBare)

include bare

/-- A block stays as it is, or it is bare and goes away. -/
theorem OrphansBare.block?_withoutOrphans (b : BlockId) :
    g.withoutOrphans.block? b = g.block? b ∨
      g.withoutOrphans.block? b = none ∧ ∃ block, g.block? b = some block ∧ block.preds = [] ∧
        block.phis = [] ∧ block.stmts = [] ∧ block.terminator = none := by
  rw [Graph.block?_withoutOrphans]
  cases live : g.block? b with
  | none => exact Or.inl rfl
  | some block =>
      by_cases kept : b = g.entry ∨ block.preds ≠ []
      · refine Or.inl (Option.filter_eq_some_iff.mpr ⟨rfl, ?_⟩)
        simpa using kept
      · obtain ⟨notEntry, none⟩ := not_or.mp kept
        have none := Decidable.not_not.mp none
        obtain ⟨phis, stmts, terminator⟩ := bare live notEntry none
        refine Or.inr ⟨?_, block, rfl, none, phis, stmts, terminator⟩
        simp [Option.filter_some, notEntry, none]

theorem successorsOf_withoutOrphans (b : BlockId) :
    g.withoutOrphans.successorsOf b = g.successorsOf b := by
  rcases bare.block?_withoutOrphans b with same | ⟨gone, block, live, -, -, -, none⟩
  · rw [successorsOf, same, successorsOf]
  · rw [successorsOf, gone, successorsOf_eq live, Block.successors, none]

theorem phis_withoutOrphans : g.withoutOrphans.phis = g.phis := by
  refine phis_restrict fun {b block} live out => ?_
  simp only [Bool.or_eq_false_iff, decide_eq_false_iff_not, Bool.not_eq_false',
    List.isEmpty_iff] at out
  exact (bare live out.1 out.2).phis

theorem Traced.withoutOrphans (traced : g.Traced) : g.withoutOrphans.Traced := by
  intro b block live ended
  have reachable := traced (block?_withoutOrphans_eq_some.mp live).1 ended
  refine reachable.mono fun succ => ?_
  rwa [successorsOf_withoutOrphans bare]

end

/-! ### Pruning -/

theorem restrict_restrict {keep' : BlockId → Block → Bool} :
    (g.restrict keep).restrict keep' = g.restrict fun b block => keep b block && keep' b block := by
  refine ext_block? rfl rfl ?_ fun b => ?_
  · simp only [length_blocks_restrict]
  · rw [block?_restrict, block?_restrict, block?_restrict, Option.filter_filter]

theorem restrict_congr {keep' : BlockId → Block → Bool}
    (same : ∀ {b : BlockId} {block : Block}, g.block? b = some block →
      keep b block = keep' b block) : g.restrict keep = g.restrict keep' := by
  refine ext_block? rfl rfl ?_ fun b => ?_
  · simp only [length_blocks_restrict]
  · rw [block?_restrict, block?_restrict]
    cases live : g.block? b with
    | none => rfl
    | some block => rw [Option.filter_some, Option.filter_some, same live]

/-- Removing a bare block leaves the others as they are. -/
theorem removeBlock_of_bare {b : BlockId} {block : Block} (live : g.block? b = some block)
    (bare : block.Bare) : g.removeBlock b = g.restrict fun c _ => c ≠ b := by
  have cleared : g.removeBlock b = { g with blocks := g.blocks.set b.index none } := by
    simp only [removeBlock, live, bare.successors, List.foldl_nil]
  refine ext_block? ?_ ?_ ?_ fun c => ?_
  · rw [cleared]
    rfl
  · rw [cleared]
    rfl
  · rw [cleared, length_blocks_restrict, List.length_set]
  · rw [block?_removeBlock live, bare.successors, block?_restrict]
    by_cases here : c = b
    · cases g.block? c <;> simp [here, Option.filter_some]
    · cases g.block? c <;> simp [here, Option.filter_some]

theorem removeBlocks_of_bare {bs : List BlockId} (distinct : bs.Nodup)
    (bare : ∀ b ∈ bs, ∃ block, g.block? b = some block ∧ block.Bare) :
    g.removeBlocks bs = g.restrict fun c _ => c ∉ bs := by
  induction bs generalizing g with
  | nil =>
      refine ext_block? rfl rfl length_blocks_restrict.symm fun c => ?_
      rw [block?_restrict, removeBlocks, List.foldl_nil]
      cases g.block? c <;> simp [Option.filter_some]
  | cons b bs ih =>
      obtain ⟨fresh, distinct⟩ := List.nodup_cons.mp distinct
      obtain ⟨block, live, isBare⟩ := bare b List.mem_cons_self
      have first := removeBlock_of_bare live isBare
      have rest : ∀ b' ∈ bs, ∃ block, (g.removeBlock b).block? b' = some block ∧ block.Bare := by
        intro b' mem
        obtain ⟨block', live', bare'⟩ := bare b' (List.mem_cons_of_mem b mem)
        have other : b' ≠ b := fun e => fresh (e ▸ mem)
        exact ⟨block', by rw [first, block?_restrict, live']; simp [other], bare'⟩
      have unfolded : g.removeBlocks (b :: bs) = (g.removeBlock b).removeBlocks bs := rfl
      rw [unfolded, ih distinct rest, first, restrict_restrict]
      exact restrict_congr fun _ => by simp

/-- Where orphans are bare, pruning only takes them away. -/
theorem OrphansBare.prune_eq (bare : g.OrphansBare) : g.prune.1 = g.withoutOrphans := by
  have round : g.removeBlocks g.orphans = g.withoutOrphans := by
    rw [removeBlocks_of_bare g.nodup_orphans fun b mem => ?_]
    · refine restrict_congr fun {b block} live => ?_
      rw [Bool.eq_iff_iff]
      simp only [decide_eq_true_eq, mem_orphans, live, Bool.or_eq_true, Bool.not_eq_true',
        List.isEmpty_eq_false_iff]
      grind
    · obtain ⟨notEntry, block, live, none⟩ := mem_orphans.mp mem
      exact ⟨block, live, bare live notEntry none⟩
  -- A round leaves no orphan behind, so there is no other.
  have stop : ∀ n, (pruneRounds n g.withoutOrphans).1 = g.withoutOrphans := by
    intro n
    cases n with
    | zero => rfl
    | succ n => rw [pruneRounds, orphans_withoutOrphans]
  rw [prune]
  cases count : g.liveCount with
  | zero =>
      have none : g.liveBlocks = [] := List.length_eq_zero_iff.mp count
      have noOrphans : g.orphans = [] := by simp [orphans, none]
      exact (withoutOrphans_eq_self noOrphans).symm
  | succ n =>
      rw [pruneRounds]
      cases found : g.orphans with
      | nil => exact (withoutOrphans_eq_self found).symm
      | cons b bs =>
          simp only
          rw [← found, round]
          exact stop n

/-! ### Replacing phis -/

section

variable {b : BlockId} {phi value : ValueId}

theorem OrphansBare.replacePhi (bare : g.OrphansBare) : (g.replacePhi b phi value).OrphansBare := by
  intro c new live notEntry none
  obtain ⟨old, hold, rfl⟩ := block?_replacePhi_eq_some live
  rw [preds_replacePhi] at none
  obtain ⟨phis, stmts, terminator⟩ := bare hold notEntry none
  refine ⟨?_, ?_, ?_⟩
  · split <;> simp [Block.mapUses, Block.dropPhi, phis]
  · rw [stmts_replacePhi, stmts, List.map_nil]
  · rw [terminator_replacePhi, terminator, Option.map_none]

theorem Traced.replacePhi (traced : g.Traced) : (g.replacePhi b phi value).Traced := by
  intro c new live ended
  obtain ⟨old, hold, rfl⟩ := block?_replacePhi_eq_some live
  rw [terminator_replacePhi, Option.isSome_map] at ended
  refine (traced hold ended).mono fun succ => ?_
  rwa [successorsOf_replacePhi]

theorem withoutOrphans_replacePhi :
    (g.replacePhi b phi value).withoutOrphans = g.withoutOrphans.replacePhi b phi value := by
  refine ext_block? rfl rfl ?_ fun c => ?_
  · simp [withoutOrphans, length_blocks_restrict, replacePhi, replaceUses, mapUses, updateBlock]
  · rw [block?_replacePhi, block?_withoutOrphans, block?_withoutOrphans, block?_replacePhi]
    cases g.block? c with
    | none => rfl
    | some old =>
        rw [Option.map_some, Option.filter_some, Option.filter_some, preds_replacePhi]
        have entry : (g.replacePhi b phi value).entry = g.entry := rfl
        rw [entry]
        split <;> rfl

end

/-- Bare orphans play no part in the replacement of phis. -/
theorem OrphansBare.simplifyPhis_withoutOrphans (bare : g.OrphansBare) :
    g.withoutOrphans.simplifyPhis.1 = g.simplifyPhis.1.withoutOrphans := by
  have steps : ∀ (n : Nat) (g : Graph), g.OrphansBare →
      (simplifySteps n g.withoutOrphans).1 = (simplifySteps n g).1.withoutOrphans := by
    intro n
    induction n with
    | zero => exact fun _ _ => rfl
    | succ n ih =>
        intro g bare
        have same : g.withoutOrphans.trivialPhi? = g.trivialPhi? := by
          rw [trivialPhi?_eq_findSome?, trivialPhi?_eq_findSome?, phis_withoutOrphans bare]
        rw [simplifySteps, simplifySteps, same]
        cases g.trivialPhi? with
        | none => rfl
        | some found =>
            obtain ⟨b, phi, value⟩ := found
            have rest := ih (g.replacePhi b phi value) bare.replacePhi
            rw [withoutOrphans_replacePhi] at rest
            exact rest
  have count : g.withoutOrphans.phiCount = g.phiCount := by
    rw [phiCount_eq_length_phis, phiCount_eq_length_phis, phis_withoutOrphans bare]
  rw [Graph.simplifyPhis, Graph.simplifyPhis, count]
  exact steps _ g bare

/-- A graph with bare orphans is cleaned up as if it were not pruned, and then
loses its orphans if it is pruned. -/
theorem OrphansBare.cleanup_eq (bare : g.OrphansBare) (options : Options) :
    options.cleanup g =
      let unpruned := { options with pruneUnreachable := false }.cleanup g
      if options.pruneUnreachable then unpruned.withoutOrphans else unpruned := by
  obtain ⟨kind, prune, simplify⟩ := options
  cases prune with
  | false => rfl
  | true =>
      cases simplify with
      | false => exact bare.prune_eq
      | true =>
          show g.prune.1.simplifyPhis.1 = g.simplifyPhis.1.withoutOrphans
          rw [bare.prune_eq, bare.simplifyPhis_withoutOrphans]

/-- What replacing phis keeps holds of a graph that is cleaned up but not pruned. -/
theorem unpruned_induction {motive : Graph → Prop} (options : Options)
    (replace : ∀ {g : Graph} {b : BlockId} {phi value : ValueId}, motive g →
      motive (g.replacePhi b phi value)) (h : motive g) :
    motive ({ options with pruneUnreachable := false }.cleanup g) := by
  obtain ⟨kind, prune, simplify⟩ := options
  cases simplify with
  | false => exact h
  | true => exact simplifyPhis_induction (fun h _ _ _ => replace h) h

end Graph

end StackLift
