import Mathlib.Data.Fintype.EquivFin
import StackLift.Proofs.Graph.Reachable

/-!
What pruning leaves of any graph whose edges are recorded. Removing an orphan takes it out of the
blocks that it led to, and this may make orphans of them; but control comes to none of these
blocks. So what control comes to stays, and each block that stays loses just the edges from
blocks that went away.

Pruning looks at one edge at a time, so it does not notice a cycle that no edge enters. Where
there is none, every block that control does not come to goes away, since otherwise there would
be no end to going back from one of them along edges. The main statement is
`prune_keeps_reachable`.
-/

namespace StackLift

/-- The block with the edges from some of its predecessors only. -/
def Block.onlyFrom (keep : BlockId → Bool) (block : Block) : Block :=
  { block with
    preds := block.preds.filter keep
    phis := block.phis.map fun p => { p with inputs := p.inputs.filter fun e => keep e.1 } }

theorem Block.dropPred_onlyFrom (keep : BlockId → Bool) (b : BlockId) (block : Block) :
    (block.onlyFrom keep).dropPred b = block.onlyFrom fun p => p ≠ b && keep p := by
  simp [onlyFrom, dropPred, List.filter_filter, Function.comp_def]

namespace Graph

/-! ### The rounds of pruning -/

/-- Pruning in rounds. In a round all orphans are removed; there is another round as long as
there are orphans. -/
inductive PrunesTo : Graph → Graph → Nat → Prop
  | done {g : Graph} (none : g.orphans = []) : PrunesTo g g 0
  | round {g pruned : Graph} {count : Nat} (some : g.orphans ≠ [])
      (rest : PrunesTo (g.removeBlocks g.orphans) pruned count) :
      PrunesTo g pruned (g.orphans.length + count)

theorem prunesTo_pruneRounds {rounds : Nat} {g : Graph} (enough : g.liveCount ≤ rounds) :
    g.PrunesTo (pruneRounds rounds g).1 (pruneRounds rounds g).2 := by
  induction rounds generalizing g with
  | zero =>
      have none : g.liveBlocks = [] := List.length_eq_zero_iff.mp (Nat.le_zero.mp enough)
      exact .done (by simp [orphans, none])
  | succ rounds ih =>
      have shrink := g.liveCount_removeBlocks_orphans
      rw [pruneRounds]
      cases h : g.orphans with
      | nil => exact .done h
      | cons b bs =>
          rw [h, List.length_cons] at shrink
          have rest := ih (show (g.removeBlocks (b :: bs)).liveCount ≤ rounds by omega)
          rw [← h] at rest
          have round := PrunesTo.round (by simp [h]) rest
          rwa [h] at round

/-! ### What stays -/

variable {g h : Graph}

/-- How far a graph was pruned: what is left of it still has its edges recorded, the blocks that
are left only lost edges from blocks that are not, and control comes to none of the others. -/
structure Pruned (g h : Graph) : Prop where
  recorded : h.Recorded
  left : ∀ {b : BlockId} {block : Block}, h.block? b = some block →
    ∃ whole, g.block? b = some whole ∧ block = whole.onlyFrom fun p => (h.block? p).isSome
  reachable : ∀ {b : BlockId}, g.Reachable b → (g.block? b).isSome → (h.block? b).isSome

/-- What is left was there. -/
theorem Pruned.isSome (pruned : g.Pruned h) {b : BlockId} (live : (h.block? b).isSome) :
    (g.block? b).isSome := by
  obtain ⟨block, hblock⟩ := Option.isSome_iff_exists.mp live
  obtain ⟨whole, hwhole, -⟩ := pruned.left hblock
  rw [hwhole, Option.isSome_some]

theorem Pruned.successorsOf (pruned : g.Pruned h) {b : BlockId} (live : (h.block? b).isSome) :
    h.successorsOf b = g.successorsOf b := by
  obtain ⟨block, hblock⟩ := Option.isSome_iff_exists.mp live
  obtain ⟨whole, hwhole, rfl⟩ := pruned.left hblock
  rw [successorsOf_eq hblock, successorsOf_eq hwhole]
  rfl

theorem isSome_of_mem_successorsOf {b c : BlockId} (succ : c ∈ g.successorsOf b) :
    (g.block? b).isSome := by
  rw [successorsOf] at succ
  split at succ
  · rename_i live
    simp [live]
  · exact absurd succ List.not_mem_nil

/-- All predecessors are there. -/
theorem Recorded.isSome_of_mem_preds (recorded : g.Recorded) {b p : BlockId} {block : Block}
    (live : g.block? b = some block) (mem : p ∈ block.preds) : (g.block? p).isSome :=
  isSome_of_mem_successorsOf ((recorded.mem_preds_iff live).mp mem)

theorem Recorded.pruned_refl (recorded : g.Recorded) : g.Pruned g where
  recorded := recorded
  left := by
    intro b block live
    refine ⟨block, live, ?_⟩
    have preds : block.preds.filter (fun p => (g.block? p).isSome) = block.preds :=
      List.filter_eq_self.mpr fun p mem => recorded.isSome_of_mem_preds live mem
    have phis : block.phis.map (fun p =>
        { p with inputs := p.inputs.filter fun e => (g.block? e.1).isSome }) = block.phis := by
      refine (List.map_congr_left fun p mem => ?_).trans (List.map_id block.phis)
      have inputs : p.inputs.filter (fun e => (g.block? e.1).isSome) = p.inputs :=
        List.filter_eq_self.mpr fun e input =>
          recorded.isSome_of_mem_preds live (recorded.inputs live mem e input)
      rw [inputs]
      rfl
    rw [Block.onlyFrom, preds, phis]
  reachable := fun _ live => live

/-- Control does not come to an orphan of what is left. -/
theorem Pruned.not_reachable_orphan (pruned : g.Pruned h) {b : BlockId} {block : Block}
    (live : h.block? b = some block) (none : block.preds = []) (notEntry : b ≠ g.entry) :
    ¬ g.Reachable b := by
  intro reachable
  cases reachable with
  | entry => exact notEntry rfl
  | edge source succ =>
      have sourceLive := pruned.reachable source (isSome_of_mem_successorsOf succ)
      rw [← pruned.successorsOf sourceLive] at succ
      exact pruned.recorded.not_mem_successorsOf live none _ succ

theorem isSome_removeBlock {b : BlockId} {block : Block} (live : g.block? b = some block)
    (c : BlockId) : ((g.removeBlock b).block? c).isSome = (c ≠ b && (g.block? c).isSome) := by
  rw [block?_removeBlock live]
  by_cases same : c = b
  · simp [same]
  · rw [if_neg same]
    split <;> simp [same]

/-- One orphan less. -/
theorem Pruned.removeBlock (pruned : g.Pruned h) {b : BlockId} {block : Block}
    (live : h.block? b = some block) (none : block.preds = []) (notEntry : b ≠ g.entry) :
    g.Pruned (h.removeBlock b) where
  recorded := pruned.recorded.removeBlock live
  left := by
    intro c rest hrest
    obtain ⟨-, before, hbefore, rfl⟩ := pruned.recorded.block?_removeBlock live hrest
    obtain ⟨whole, hwhole, rfl⟩ := pruned.left hbefore
    refine ⟨whole, hwhole, ?_⟩
    rw [Block.dropPred_onlyFrom]
    congr 1
    funext p
    rw [isSome_removeBlock live]
  reachable := by
    intro c reachable hc
    have other : c ≠ b := by
      rintro rfl
      exact pruned.not_reachable_orphan live none notEntry reachable
    exact isSome_block?_removeBlock other (pruned.reachable reachable hc)

theorem Recorded.pruned (recorded : g.Recorded) : g.Pruned g.prune.1 :=
  prune_induction (fun pruned live none notEntry => pruned.removeBlock live none notEntry)
    recorded.pruned_refl

/-- What is left and is not the entry has a predecessor that is left. -/
theorem Recorded.exists_pred_prune (recorded : g.Recorded) {b : BlockId} {block : Block}
    (live : g.prune.1.block? b = some block) (notEntry : b ≠ g.entry) :
    ∃ p ∈ block.preds, (g.prune.1.block? p).isSome := by
  have some : block.preds ≠ [] := by
    intro none
    have mem : b ∈ g.prune.1.orphans := mem_orphans.mpr ⟨notEntry, block, live, none⟩
    rw [g.orphans_prune] at mem
    exact List.not_mem_nil mem
  obtain ⟨p, mem⟩ := List.exists_mem_of_ne_nil _ some
  exact ⟨p, mem, recorded.pruned.recorded.isSome_of_mem_preds live mem⟩

/-! ### Where no cycle is out of reach -/

/-- An edge between blocks that control does not come to. -/
def DeadEdge (g : Graph) (b c : BlockId) : Prop :=
  c ∈ g.successorsOf b ∧ ¬ g.Reachable b ∧ ¬ g.Reachable c

/-- No way along such edges comes back to where it began. -/
def DeadAcyclic (g : Graph) : Prop := ∀ b, ¬ Relation.TransGen g.DeadEdge b b

/-- A graph has finitely many blocks, so without a cycle going back comes to an end. -/
theorem DeadAcyclic.wellFounded (acyclic : g.DeadAcyclic) :
    WellFounded fun b c : { b : BlockId // (g.block? b).isSome } => g.DeadEdge b c := by
  have bound : ∀ b : { b : BlockId // (g.block? b).isSome }, b.1.index < g.blocks.length := by
    rintro ⟨b, live⟩
    rw [block?] at live
    by_contra outside
    rw [List.getElem?_eq_none (Nat.le_of_not_lt outside)] at live
    cases live
  have finite : Finite { b : BlockId // (g.block? b).isSome } := by
    refine Finite.of_injective (fun b => (⟨b.1.index, bound b⟩ : Fin g.blocks.length)) ?_
    intro b c same
    exact Subtype.ext (BlockId.ext_iff.mpr (Fin.mk.inj_iff.mp same))
  let later (b c : { b : BlockId // (g.block? b).isSome }) : Prop :=
    Relation.TransGen g.DeadEdge b c
  have trans : IsTrans _ later := ⟨fun _ _ _ => Relation.TransGen.trans⟩
  have irrefl : Std.Irrefl later := ⟨fun b => acyclic b⟩
  exact Subrelation.wf (fun edge => Relation.TransGen.single edge)
    (Finite.wellFounded_of_trans_of_irrefl later)

theorem Recorded.reachable_of_live_prune (recorded : g.Recorded) (acyclic : g.DeadAcyclic)
    {b : BlockId} (live : (g.prune.1.block? b).isSome) : g.Reachable b := by
  have pruned := recorded.pruned
  -- Induction back along dead edges: a block that is left has a predecessor that is left.
  have back : ∀ b : { b : BlockId // (g.block? b).isSome }, (g.prune.1.block? b).isSome →
      g.Reachable b := by
    intro b
    induction b using acyclic.wellFounded.induction with
    | _ b ih =>
        intro live
        by_contra dead
        have notEntry : b.1 ≠ g.entry := by
          intro entry
          exact dead (entry ▸ .entry)
        obtain ⟨block, hblock⟩ := Option.isSome_iff_exists.mp live
        obtain ⟨p, mem, left⟩ := recorded.exists_pred_prune hblock notEntry
        have succ : b.1 ∈ g.successorsOf p := by
          rw [← pruned.successorsOf left]
          exact (pruned.recorded.mem_preds_iff hblock).mp mem
        have deadPred : ¬ g.Reachable p := fun reachable => dead (.edge reachable succ)
        exact deadPred (ih ⟨p, pruned.isSome left⟩ ⟨succ, deadPred, dead⟩ left)
  exact back ⟨b, pruned.isSome live⟩ live

/-- Pruning a graph whose edges are recorded comes to an end and leaves such a graph again. Every
block that control comes to stays as it is, but for edges from blocks that go away. A block that
stays is the entry or has a predecessor that stays. The blocks that go away are counted. If the
blocks that control does not come to form no cycle, they all go away. -/
theorem prune_keeps_reachable (g : Graph) (recorded : g.Recorded) :
    g.PrunesTo g.prune.1 g.prune.2 ∧
    g.prune.1.Recorded ∧
    (∀ b block, g.Reachable b → g.block? b = some block → g.prune.1.block? b =
      some (block.onlyFrom fun p => (g.prune.1.block? p).isSome)) ∧
    (∀ b block, g.prune.1.block? b = some block → b ≠ g.entry →
      ∃ p ∈ block.preds, (g.prune.1.block? p).isSome) ∧
    g.prune.1.liveCount + g.prune.2 = g.liveCount ∧
    (g.DeadAcyclic → ∀ b, (g.prune.1.block? b).isSome ↔ g.Reachable b ∧ (g.block? b).isSome) := by
  have pruned := recorded.pruned
  refine ⟨prunesTo_pruneRounds (Nat.le_refl _), pruned.recorded, ?_, ?_, ?_, ?_⟩
  · intro b block reachable live
    obtain ⟨left, hleft⟩ := Option.isSome_iff_exists.mp
      (pruned.reachable reachable (by rw [live, Option.isSome_some]))
    obtain ⟨whole, hwhole, rfl⟩ := pruned.left hleft
    rw [live] at hwhole
    cases hwhole
    exact hleft
  · exact fun b block live notEntry => recorded.exists_pred_prune live notEntry
  · exact g.liveCount_prune
  · intro acyclic b
    constructor
    · intro live
      exact ⟨recorded.reachable_of_live_prune acyclic live, pruned.isSome live⟩
    · rintro ⟨reachable, live⟩
      exact pruned.reachable reachable live

-- A block that only leads to itself has a predecessor, so it is not noticed.
example : (Graph.mk "spin" [some { terminator := some (.ret ⟨0⟩) },
    some { terminator := some (.goto ⟨1⟩), preds := [⟨1⟩] }] []).prune.2 = 0 := by
  decide

/-- A branch with two edges to the block 1, and a chain from 2 over 3 that leads there as well. -/
def chainIntoMerge : Graph where
  name := "chain"
  blocks := [
    some { stmts := [⟨⟨0⟩, .const .null⟩, ⟨⟨1⟩, .isTruth true ⟨0⟩⟩],
           terminator := some (.branch ⟨1⟩ ⟨1⟩ ⟨1⟩) },
    some { phis := [{ value := ⟨2⟩, type := .value,
                      inputs := [(⟨0⟩, ⟨0⟩), (⟨0⟩, ⟨0⟩), (⟨3⟩, ⟨0⟩)] }],
           terminator := some (.ret ⟨2⟩), preds := [⟨0⟩, ⟨0⟩, ⟨3⟩] },
    some { terminator := some (.goto ⟨3⟩) },
    some { terminator := some (.goto ⟨1⟩), preds := [⟨2⟩] }]
  values := [⟨.value, .stmt ⟨0⟩⟩, ⟨.test, .stmt ⟨0⟩⟩, ⟨.value, .phi ⟨1⟩⟩]

theorem deadAcyclic_chainIntoMerge : chainIntoMerge.DeadAcyclic := by
  have merge : chainIntoMerge.Reachable ⟨1⟩ := .edge .entry (by decide)
  have forward : ∀ {b c : BlockId}, chainIntoMerge.DeadEdge b c → b.index < c.index := by
    rintro ⟨_ | _ | _ | _ | n⟩ c ⟨succ, -, dead⟩
    · have mem : c ∈ [(⟨1⟩ : BlockId), ⟨1⟩] := succ
      obtain rfl : c = ⟨1⟩ := by simpa using mem
      exact absurd merge dead
    · exact absurd succ List.not_mem_nil
    · obtain rfl : c = ⟨3⟩ := List.mem_singleton.mp succ
      decide
    · obtain rfl : c = ⟨1⟩ := List.mem_singleton.mp succ
      exact absurd merge dead
    · exact absurd succ List.not_mem_nil
  have all : ∀ {b c : BlockId}, Relation.TransGen chainIntoMerge.DeadEdge b c →
      b.index < c.index := by
    intro b c way
    induction way with
    | single edge => exact forward edge
    | tail _ edge ih => exact Nat.lt_trans ih (forward edge)
  exact fun b way => Nat.lt_irrefl _ (all way)

/-- The chain goes away in two rounds, and the phi at its end keeps its inputs from the branch. -/
theorem prune_keeps_reachable_chainIntoMerge :
    chainIntoMerge.Recorded ∧ chainIntoMerge.DeadAcyclic ∧
    chainIntoMerge.PrunesTo chainIntoMerge.prune.1 2 ∧
    (∀ b, (chainIntoMerge.prune.1.block? b).isSome ↔
      chainIntoMerge.Reachable b ∧ (chainIntoMerge.block? b).isSome) ∧
    ∃ block, chainIntoMerge.prune.1.block? ⟨1⟩ = some block ∧ block.preds = [⟨0⟩, ⟨0⟩] ∧
      block.phis.map (·.inputs) = [[(⟨0⟩, ⟨0⟩), (⟨0⟩, ⟨0⟩)]] := by
  have recorded : chainIntoMerge.Recorded := by decide
  obtain ⟨prunes, -, keeps, -, -, left⟩ := prune_keeps_reachable chainIntoMerge recorded
  have kept := keeps ⟨1⟩ _ (.edge .entry (by decide)) rfl
  exact ⟨recorded, deadAcyclic_chainIntoMerge, prunes, left deadAcyclic_chainIntoMerge,
    _, kept, by decide, by decide⟩

end Graph

end StackLift
