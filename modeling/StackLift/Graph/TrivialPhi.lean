import StackLift.Graph.Lemmas

/-!
A phi is trivial when its inputs, apart from itself, are all one value. It then
is that value: the phi is removed and its uses become uses of the value. This
may make another phi trivial, so the first trivial phi in block order is
replaced until there is none; each step removes a phi, so there are at most as
many as phis. Main statement: no trivial phi is left.
-/

namespace StackLift

/-- The one value that a trivial phi selects. -/
def Phi.sole? (p : Phi) : Option ValueId :=
  match (p.inputs.map (·.2)).filter (· ≠ p.value) with
  | [] => none
  | v :: rest => if rest.all (· = v) then some v else none

namespace Graph

def phiCount (g : Graph) : Nat := (g.liveBlocks.flatMap fun (_, b) => b.phis).length

/-- The first trivial phi: its block, its value, and the value that it selects. -/
def trivialPhi? (g : Graph) : Option (BlockId × ValueId × ValueId) :=
  g.liveBlocks.findSome? fun (b, block) =>
    block.phis.findSome? fun p => p.sole?.map fun v => (b, p.value, v)

/-- Removes a phi and puts a value in place of its uses. -/
def replacePhi (g : Graph) (b : BlockId) (phi value : ValueId) : Graph :=
  (g.updateBlock b (·.dropPhi phi)).replaceUses phi value

/-- Replaces trivial phis for a number of steps; counts the phis replaced. -/
def simplifySteps : Nat → Graph → Graph × Nat
  | 0, g => (g, 0)
  | steps + 1, g =>
    match g.trivialPhi? with
    | none => (g, 0)
    | some (b, phi, value) =>
      let (simplified, count) := simplifySteps steps (g.replacePhi b phi value)
      (simplified, count + 1)

/-- Replaces trivial phis until there are none; counts the phis replaced. -/
def simplifyPhis (g : Graph) : Graph × Nat := simplifySteps g.phiCount g

theorem trivialPhi?_eq_some {g : Graph} {b : BlockId} {phi value : ValueId}
    (h : g.trivialPhi? = some (b, phi, value)) :
    ∃ block, g.block? b = some block ∧
      ∃ p ∈ block.phis, p.value = phi ∧ p.sole? = some value := by
  obtain ⟨⟨b', block⟩, hmem, hfind⟩ := List.exists_of_findSome?_eq_some h
  obtain ⟨p, hp, hsole⟩ := List.exists_of_findSome?_eq_some hfind
  obtain ⟨v, hv, heq⟩ := Option.map_eq_some_iff.mp hsole
  cases heq
  exact ⟨block, mem_liveBlocks.mp hmem, p, hp, rfl, hv⟩

theorem phiCount_updateBlock_lt {g : Graph} {b : BlockId} {block : Block} {f : Block → Block}
    (h : g.block? b = some block) (fewer : (f block).phis.length < block.phis.length) :
    (g.updateBlock b f).phiCount < g.phiCount := by
  have general : ∀ (blocks : List (Option Block)) (i n : Nat), blocks[i]? = some (some block) →
      ((liveFrom n (blocks.modify i (Option.map f))).flatMap fun (_, b) => b.phis).length <
        ((liveFrom n blocks).flatMap fun (_, b) => b.phis).length := by
    intro blocks
    induction blocks with
    | nil => intro i n hget; simp at hget
    | cons o blocks ih =>
        intro i n hget
        cases i with
        | zero =>
            simp only [List.getElem?_cons_zero, Option.some.injEq] at hget
            subst hget
            simpa [liveFrom] using fewer
        | succ i =>
            have inner := ih i (n + 1) (by simpa using hget)
            cases o with
            | none => simpa [liveFrom] using inner
            | some block' => simpa [liveFrom] using inner
  have hget : g.blocks[b.index]? = some (some block) := Option.join_eq_some_iff.mp h
  exact general g.blocks b.index 0 hget

theorem phiCount_mapUses (g : Graph) (f : ValueId → ValueId) :
    (g.mapUses f).phiCount = g.phiCount := by
  have general : ∀ (blocks : List (Option Block)) (n : Nat),
      ((liveFrom n (blocks.map (Option.map (Block.mapUses f)))).flatMap
        fun (_, b) => b.phis).length = ((liveFrom n blocks).flatMap fun (_, b) => b.phis).length := by
    intro blocks
    induction blocks with
    | nil => intro n; rfl
    | cons o blocks ih =>
        intro n
        have inner := ih (n + 1)
        cases o with
        | none => simpa [liveFrom] using inner
        | some block => simpa [liveFrom, Block.mapUses] using inner
  exact general g.blocks 0

/-- Replacing a phi of a block leaves fewer phis. -/
theorem phiCount_replacePhi_lt {g : Graph} {b : BlockId} {block : Block} {p : Phi}
    (h : g.block? b = some block) (hp : p ∈ block.phis) (value : ValueId) :
    (g.replacePhi b p.value value).phiCount < g.phiCount := by
  rw [replacePhi, replaceUses, phiCount_mapUses]
  refine phiCount_updateBlock_lt h ?_
  rw [Block.dropPhi]
  exact List.length_filter_lt_length_iff_exists.mpr ⟨p, hp, by simp⟩

theorem trivialPhi?_simplifySteps {steps : Nat} {g : Graph} (enough : g.phiCount ≤ steps) :
    (simplifySteps steps g).1.trivialPhi? = none := by
  induction steps generalizing g with
  | zero =>
      rw [simplifySteps]
      cases h : g.trivialPhi? with
      | none => rfl
      | some found =>
          obtain ⟨b, phi, value⟩ := found
          obtain ⟨block, hblock, p, hp, rfl, -⟩ := trivialPhi?_eq_some h
          have := phiCount_replacePhi_lt hblock hp value
          omega
  | succ steps ih =>
      rw [simplifySteps]
      cases h : g.trivialPhi? with
      | none => simpa using h
      | some found =>
          obtain ⟨b, phi, value⟩ := found
          obtain ⟨block, hblock, p, hp, rfl, -⟩ := trivialPhi?_eq_some h
          have := phiCount_replacePhi_lt hblock hp value
          exact ih (by omega)

/-- Simplifying leaves no trivial phi. -/
theorem trivialPhi?_simplifyPhis (g : Graph) : g.simplifyPhis.1.trivialPhi? = none :=
  trivialPhi?_simplifySteps (Nat.le_refl _)

end Graph

end StackLift
