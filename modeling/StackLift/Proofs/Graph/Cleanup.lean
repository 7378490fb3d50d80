import StackLift.Options

/-!
What cleaning a graph up does, one step at a time: pruning removes orphans one
after the other, and simplifying replaces trivial phis one after the other. A
property that each such step keeps is kept by `Options.cleanup`.
-/

namespace StackLift

/-- The value that a phi is replaced by differs from the phi, and all inputs of
the phi are that value or the phi itself. -/
theorem Phi.sole?_eq_some {p : Phi} {v : ValueId} (h : p.sole? = some v) :
    v ≠ p.value ∧ ∀ e ∈ p.inputs, e.2 = v ∨ e.2 = p.value := by
  unfold Phi.sole? at h
  split at h
  · exact absurd h (by simp)
  · rename_i w rest heq
    split at h
    · rename_i same
      obtain rfl : w = v := by simpa using h
      have hw : w ∈ (p.inputs.map (·.2)).filter (· ≠ p.value) := heq ▸ List.mem_cons_self
      refine ⟨by simpa using (List.mem_filter.mp hw).2, fun e he => ?_⟩
      by_cases self : e.2 = p.value
      · exact Or.inr self
      · left
        have hmem : e.2 ∈ (p.inputs.map (·.2)).filter (· ≠ p.value) :=
          List.mem_filter.mpr ⟨List.mem_map.mpr ⟨e, he, rfl⟩, by simpa using self⟩
        rw [heq] at hmem
        rcases List.mem_cons.mp hmem with eq | mem
        · exact eq
        · simpa using List.all_eq_true.mp same e.2 mem
    · exact absurd h (by simp)

/-- What a trivial phi selects is one of its inputs. -/
theorem Phi.mem_inputs_of_sole? {p : Phi} {v : ValueId} (h : p.sole? = some v) :
    ∃ pred, (pred, v) ∈ p.inputs := by
  unfold Phi.sole? at h
  split at h
  · cases h
  · rename_i w rest heq
    have mem : w ∈ (p.inputs.map (·.2)).filter (· ≠ p.value) := heq ▸ List.mem_cons_self
    split at h
    · cases h
      obtain ⟨⟨pred, _⟩, input, rfl⟩ := List.mem_map.mp (List.mem_filter.mp mem).1
      exact ⟨pred, input⟩
    · cases h

namespace Graph

/-- The substitution that replacing a phi makes. -/
def subst (old new v : ValueId) : ValueId := if v = old then new else v

@[simp] theorem subst_self (old new : ValueId) : subst old new old = new := if_pos rfl

theorem subst_of_ne {old new v : ValueId} (h : v ≠ old) : subst old new v = v := if_neg h

theorem block?_replacePhi (g : Graph) (b c : BlockId) (phi value : ValueId) :
    (g.replacePhi b phi value).block? c =
      (g.block? c).map fun block =>
        (if c = b then block.dropPhi phi else block).mapUses (subst phi value) := by
  have unfolded : g.replacePhi b phi value =
      (g.updateBlock b (·.dropPhi phi)).mapUses (Graph.subst phi value) := rfl
  rw [unfolded, block?_mapUses, block?_updateBlock]
  by_cases h : c = b
  · subst h
    cases g.block? c <;> simp
  · simp [h]

section

variable {motive : Graph → Prop}

theorem removeBlocks_induction
    (step : ∀ {g : Graph} {b : BlockId} {block : Block}, motive g → g.block? b = some block →
      block.preds = [] → b ≠ g.entry → motive (g.removeBlock b))
    {bs : List BlockId} {g : Graph} (distinct : bs.Nodup)
    (orphans : ∀ b ∈ bs, b ≠ g.entry ∧ ∃ block, g.block? b = some block ∧ block.preds = [])
    (h : motive g) : motive (g.removeBlocks bs) := by
  induction bs generalizing g with
  | nil => exact h
  | cons b bs ih =>
      obtain ⟨fresh, distinct⟩ := List.nodup_cons.mp distinct
      obtain ⟨notEntry, block, live, none⟩ := orphans b List.mem_cons_self
      refine ih (g := g.removeBlock b) distinct (fun c hc => ?_) (step h live none notEntry)
      have hne : c ≠ b := fun e => fresh (e ▸ hc)
      obtain ⟨notEntry', block', live', none'⟩ := orphans c (List.mem_cons_of_mem b hc)
      refine ⟨notEntry', ?_⟩
      rw [block?_removeBlock live, if_neg hne, live']
      split
      · exact ⟨_, rfl, by simp [Block.dropPred, none']⟩
      · exact ⟨_, rfl, none'⟩

theorem prune_induction
    (step : ∀ {g : Graph} {b : BlockId} {block : Block}, motive g → g.block? b = some block →
      block.preds = [] → b ≠ g.entry → motive (g.removeBlock b))
    {g : Graph} (h : motive g) : motive g.prune.1 := by
  have rounds : ∀ (n : Nat) (g : Graph), motive g → motive (pruneRounds n g).1 := by
    intro n
    induction n with
    | zero => exact fun g h => h
    | succ n ih =>
        intro g h
        rw [pruneRounds]
        split
        · exact h
        · refine ih _ (removeBlocks_induction step g.nodup_orphans ?_ h)
          exact fun b hb => mem_orphans.mp hb
  exact rounds _ g h

theorem simplifyPhis_induction
    (step : ∀ {g : Graph} {b : BlockId} {block : Block} {p : Phi} {value : ValueId}, motive g →
      g.block? b = some block → p ∈ block.phis → p.sole? = some value →
      motive (g.replacePhi b p.value value))
    {g : Graph} (h : motive g) : motive g.simplifyPhis.1 := by
  have steps : ∀ (n : Nat) (g : Graph), motive g → motive (simplifySteps n g).1 := by
    intro n
    induction n with
    | zero => exact fun g h => h
    | succ n ih =>
        intro g h
        rw [simplifySteps]
        split
        · exact h
        · rename_i b phi value found
          obtain ⟨block, live, p, mem, rfl, sole⟩ := trivialPhi?_eq_some found
          exact ih _ (step h live mem sole)
  exact steps _ g h

/-- What removing an orphan and replacing a trivial phi keep is kept by all
that is done with a graph once it is built. -/
theorem cleanup_induction
    (remove : ∀ {g : Graph} {b : BlockId} {block : Block}, motive g → g.block? b = some block →
      block.preds = [] → b ≠ g.entry → motive (g.removeBlock b))
    (replace : ∀ {g : Graph} {b : BlockId} {block : Block} {p : Phi} {value : ValueId}, motive g →
      g.block? b = some block → p ∈ block.phis → p.sole? = some value →
      motive (g.replacePhi b p.value value))
    (options : Options) {g : Graph} (h : motive g) : motive (options.cleanup g) := by
  have pruned : motive (if options.pruneUnreachable then g.prune.1 else g) := by
    split
    · exact prune_induction remove h
    · exact h
  rw [Options.cleanup]
  split
  · exact simplifyPhis_induction replace pruned
  · exact pruned

end

end Graph

end StackLift
