import StackLift.Graph.Lemmas

/-!
Pruning removes the blocks that no edge leads to, apart from the entry, until
every block that is left is the entry or has a predecessor. Removing a block
may leave another one without predecessors, so this goes on in rounds; each
round but the last removes a block, so there are at most as many as blocks.
Main statements: pruning leaves no orphan, and it counts what it removes.
-/

namespace StackLift.Graph

/-- The live blocks other than the entry that no edge leads to. -/
def orphans (g : Graph) : List BlockId :=
  (g.liveBlocks.filter fun (b, block) => b ≠ g.entry ∧ block.preds.isEmpty).map (·.1)

def removeBlocks (g : Graph) (bs : List BlockId) : Graph := bs.foldl removeBlock g

/-- Removes orphans for a number of rounds; counts the blocks removed. -/
def pruneRounds : Nat → Graph → Graph × Nat
  | 0, g => (g, 0)
  | rounds + 1, g =>
    match g.orphans with
    | [] => (g, 0)
    | bs =>
      let (pruned, count) := pruneRounds rounds (g.removeBlocks bs)
      (pruned, bs.length + count)

/-- Removes orphans until there are none; counts the blocks removed. -/
def prune (g : Graph) : Graph × Nat := pruneRounds g.liveCount g

theorem mem_orphans {g : Graph} {b : BlockId} :
    b ∈ g.orphans ↔ b ≠ g.entry ∧ ∃ block, g.block? b = some block ∧ block.preds = [] := by
  simp only [orphans, List.mem_map, List.mem_filter, decide_eq_true_eq, List.isEmpty_iff]
  constructor
  · rintro ⟨⟨b', block⟩, ⟨hmem, hne, hpreds⟩, rfl⟩
    exact ⟨hne, block, mem_liveBlocks.mp hmem, hpreds⟩
  · rintro ⟨hne, block, hblock, hpreds⟩
    exact ⟨(b, block), ⟨mem_liveBlocks.mpr hblock, hne, hpreds⟩, rfl⟩

theorem nodup_orphans (g : Graph) : g.orphans.Nodup :=
  List.Sublist.nodup (List.filter_sublist.map _) g.nodup_liveBlocks

/-- Removing one block leaves the others alive. -/
theorem isSome_block?_removeBlock {g : Graph} {b c : BlockId} (hne : c ≠ b)
    (hc : (g.block? c).isSome) : ((g.removeBlock b).block? c).isSome := by
  cases hb : g.block? b with
  | none => rwa [block?_removeBlock_of_eq_none hb]
  | some block =>
      rw [block?_removeBlock hb, if_neg hne]
      split <;> simpa using hc

theorem liveCount_removeBlocks {bs : List BlockId} {g : Graph} (distinct : bs.Nodup)
    (live : ∀ b ∈ bs, (g.block? b).isSome) :
    (g.removeBlocks bs).liveCount + bs.length = g.liveCount := by
  induction bs generalizing g with
  | nil => rfl
  | cons b bs ih =>
      obtain ⟨fresh, distinct⟩ := List.nodup_cons.mp distinct
      obtain ⟨block, hblock⟩ := Option.isSome_iff_exists.mp (live b List.mem_cons_self)
      have rest : ∀ c ∈ bs, ((g.removeBlock b).block? c).isSome := by
        intro c hc
        have hne : c ≠ b := fun e => fresh (e ▸ hc)
        exact isSome_block?_removeBlock hne (live c (List.mem_cons_of_mem b hc))
      have removed := ih distinct rest
      have one := liveCount_removeBlock hblock
      simp only [removeBlocks, List.foldl_cons, List.length_cons] at removed ⊢
      omega

theorem liveCount_removeBlocks_orphans (g : Graph) :
    (g.removeBlocks g.orphans).liveCount + g.orphans.length = g.liveCount := by
  refine liveCount_removeBlocks g.nodup_orphans fun b hb => ?_
  obtain ⟨-, block, hblock, -⟩ := mem_orphans.mp hb
  simp [hblock]

theorem orphans_pruneRounds {rounds : Nat} {g : Graph} (enough : g.liveCount ≤ rounds) :
    (pruneRounds rounds g).1.orphans = [] := by
  induction rounds generalizing g with
  | zero =>
      have none : g.liveBlocks = [] := List.length_eq_zero_iff.mp (Nat.le_zero.mp enough)
      simp [pruneRounds, orphans, none]
  | succ rounds ih =>
      have shrink := g.liveCount_removeBlocks_orphans
      rw [pruneRounds]
      cases h : g.orphans with
      | nil => simpa using h
      | cons b bs =>
          rw [h, List.length_cons] at shrink
          exact ih (by omega)

/-- Pruning leaves no orphan. -/
theorem orphans_prune (g : Graph) : g.prune.1.orphans = [] :=
  orphans_pruneRounds (Nat.le_refl _)

theorem liveCount_pruneRounds (rounds : Nat) (g : Graph) :
    (pruneRounds rounds g).1.liveCount + (pruneRounds rounds g).2 = g.liveCount := by
  induction rounds generalizing g with
  | zero => rfl
  | succ rounds ih =>
      have shrink := g.liveCount_removeBlocks_orphans
      rw [pruneRounds]
      cases h : g.orphans with
      | nil => rfl
      | cons b bs =>
          have inner := ih (g.removeBlocks (b :: bs))
          rw [h] at shrink
          simp only
          omega

/-- Pruning counts the blocks that it removes. -/
theorem liveCount_prune (g : Graph) : g.prune.1.liveCount + g.prune.2 = g.liveCount :=
  liveCount_pruneRounds _ g

end StackLift.Graph
