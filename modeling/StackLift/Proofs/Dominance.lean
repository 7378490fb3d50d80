import StackLift.Proofs.Draft.Dominance
import StackLift.Proofs.Graph.Strict
import StackLift.Proofs.Lower.Arrival

/-!
Dominance in a compiled graph. A value that the pass takes from the stack, from
a phi or from a loop under construction is defined on every way to its use. A
value that an open bracket holds is not merged where control merges: it is
defined on every way to its use just when the code that opens the bracket lies on
every way to the instruction that closes it, and the pass does not check this.
-/

namespace StackLift

open Lowering

/-- What brackets hold for an instruction is defined on every way to it. -/
def CodeUnit.HeldDominate (unit : CodeUnit) (pool : Pool) (kind : UnitKind) (g : Graph) : Prop :=
  ∀ offset i s, unit.Lowers pool kind offset i s →
    ∀ e ∈ s.held i, g.Dominates e.1 s.draft.point

namespace CodeUnit.Pass

variable {unit : CodeUnit} {pool : Pool} {kind : UnitKind} {labels : LabelMap} {draft : Draft}
  {final : State} (pass : unit.Pass pool kind labels draft final)

include pass

theorem visits {offset : Nat} {i : Instruction} {s : State}
    (lowers : unit.Lowers pool kind offset i s) :
    Visits ⟨pool, labels, kind⟩ unit.instructions { draft } offset i s := by
  obtain ⟨labels', draft', resolve, visits⟩ := lowers
  rw [pass.resolve] at resolve
  cases resolve
  exact visits

/-- Every value is used in its scope, or was held by a bracket. -/
theorem usedAt {v : ValueId} {p : Point} (used : final.draft.graph.UsedAt v p) :
    final.draft.InScope v p ∨
      ∃ offset i s, unit.Lowers pool kind offset i s ∧ (carryOf s i).Allows v p := by
  refine run_induction (P := fun _ s => ∀ {v p}, s.draft.graph.UsedAt v p → s.draft.InScope v p ∨
    ∃ offset i s, unit.Lowers pool kind offset i s ∧ (carryOf s i).Allows v p)
    ?_ ?_ (Nat.le_refl _) pass.before_final used
  · exact fun used => absurd used pass.start.bare.notUsed
  · intro offset i s s' get before ih h v p used
    have between := pass.between (Nat.le_of_lt (List.getElem?_eq_some_iff.mp get).1) before
    obtain ⟨a, arrives, arrived, stepped, -⟩ := between.step pass.start.resolves.distinct h
    obtain ⟨sound, acts⟩ := arrived.acts
    have grows := stepped.grows sound
    have arrival : ∀ {v p}, a.draft.graph.UsedAt v p → a.draft.InScope v p ∨
        ∃ offset i s, unit.Lowers pool kind offset i s ∧ (carryOf s i).Allows v p := by
      intro v p used
      rcases acts.usedAt between.sound used with old | scope | ⟨none, -⟩
      · exact (ih old).imp (·.mono (acts.grows between.sound)) id
      · exact Or.inl scope
      · exact absurd none List.not_mem_nil
    cases stepped with
    | skipped _ same =>
        rw [same] at used ⊢
        exact arrival used
    | lowered live acts _ =>
        rcases acts.usedAt sound used with old | scope | allows
        · exact (arrival old).imp (·.mono grows) id
        · exact Or.inl scope
        · exact Or.inr ⟨offset, i, a, ⟨labels, draft, pass.resolve, get, ⟨s, before, arrives⟩, live⟩,
            allows⟩

theorem dominated (held : unit.HeldDominate pool kind final.draft.graph) :
    final.draft.graph.Dominated := by
  refine pass.sound.1.dominated fun {v p} used => ?_
  refine (pass.usedAt used).imp id ?_
  rintro ⟨offset, i, s, lowers, mem, block, index⟩
  obtain ⟨e, he, rfl⟩ := List.mem_map.mp mem
  obtain ⟨b, n⟩ := p
  obtain rfl : b = s.draft.cursor := block
  exact (held offset i s lowers e he).mono index

theorem heldDominate (dominated : final.draft.graph.Dominated) :
    unit.HeldDominate pool kind final.draft.graph := by
  intro offset i s lowers e mem
  have visits := pass.visits lowers
  obtain ⟨s', inv, stepped, sound', grows, grows'⟩ := pass.lowered visits
  cases stepped with
  | skipped dead _ =>
      rw [visits.live] at dead
      cases dead
  | lowered _ _ uses =>
      obtain ⟨index, le, used⟩ := (uses e mem).mono grows' sound'
      obtain ⟨block, here, -⟩ := inv.phase
      obtain ⟨block', here', -⟩ := grows.block here
      refine (dominated _ _ used).of_le here' (used.index_le here') le fun k after later => ?_
      -- the value was defined when the bracket held it
      obtain ⟨p, defined⟩ := (inv.held_known i e mem).defined
      obtain rfl := pass.sound.1.single (grows.definedAt defined) later
      have before := defined.index_le here
      rw [← Draft.stmtIndex_eq here] at before
      exact absurd before (Nat.not_le_of_lt after)

theorem strict (dominated : final.draft.graph.Dominated) : final.draft.graph.Strict where
  linked := pass.sound.1.linked
  single := pass.sound.1.single
  phis := pass.sound.1.distinct
  entry := by
    intro block live
    obtain ⟨entry, live', none⟩ := pass.sound.1.entry
    rw [live] at live'
    cases live'
    exact none
  dominated := dominated

end CodeUnit.Pass

/-- The graph as it is built is dominated just when what brackets hold is, and
pruning it and simplifying its phis keeps it so. -/
theorem dominated_iff_heldDominate {unit : CodeUnit} {pool : Pool} {options : Options} {g : Graph}
    (h : unit.compile pool options = .ok g) :
    ∃ raw, unit.lower pool options.unitKind = .ok raw ∧ g = options.cleanup raw ∧
      (raw.Dominated ↔ unit.HeldDominate pool options.unitKind raw) ∧
      (unit.HeldDominate pool options.unitKind raw → g.Dominated) := by
  obtain ⟨raw, lowered, rfl⟩ := CodeUnit.compile_eq_ok.mp h
  refine ⟨raw, lowered, rfl, ?_⟩
  obtain ⟨labels, draft, final, pass, rfl⟩ := CodeUnit.lower_eq_ok.mp lowered
  exact ⟨⟨pass.heldDominate, pass.dominated⟩, fun held =>
    ((pass.strict (pass.dominated held)).cleanup options).dominated⟩

/-- A jump leads past the opening of a call to its end. -/
def jumpIntoCall : CodeUnit where
  name := none
  instructions := [.load (.logical true), .branchIfNot ⟨0⟩ ⟨0⟩, .getFun .lexical ⟨1⟩,
    .finishCall false ⟨0⟩, .ret]
  labels := [some 3]

def jumpIntoCallPool : Pool := ⟨[.expr (.symbol "f"), .symbol "f"]⟩

/-- The call needs the function that is found past the branch, and the branch
leads to the call. -/
theorem jumpIntoCall_way : ∃ g, jumpIntoCall.compile jumpIntoCallPool {} = .ok g ∧
    g.UsedAt ⟨2⟩ ⟨⟨1⟩, 0⟩ ∧ ¬g.Dominates ⟨2⟩ ⟨⟨1⟩, 0⟩ := by
  have found : ∃ g ∈ (jumpIntoCall.compile jumpIntoCallPool {}).toOption,
      (∃ block ∈ g.block? ⟨1⟩, ∃ s ∈ block.stmts[0]?, ⟨2⟩ ∈ s.op.operands) ∧
      g.Walk [⟨⟨1⟩, 0⟩, ⟨⟨0⟩, 2⟩, ⟨⟨0⟩, 1⟩, ⟨⟨0⟩, 0⟩] ∧
      ∀ q ∈ [⟨⟨1⟩, 0⟩, ⟨⟨0⟩, 2⟩, ⟨⟨0⟩, 1⟩, ⟨⟨0⟩, 0⟩], ¬g.DefinedAt ⟨2⟩ q := by
    decide +kernel
  obtain ⟨g, h, ⟨block, live, s, get, mem⟩, walk, avoids⟩ := exists_ok_of_toOption found
  exact ⟨g, h, .stmt live get mem, Graph.not_dominates_of_walk walk avoids⟩

/-- The unit is compiled, and its graph is not dominated. -/
theorem jumpIntoCall_not_dominated :
    ∃ g, jumpIntoCall.compile jumpIntoCallPool {} = .ok g ∧ ¬g.Dominated := by
  obtain ⟨g, h, used, avoided⟩ := jumpIntoCall_way
  exact ⟨g, h, fun dominated => avoided (dominated _ _ used)⟩

/-- What fails is a value that a bracket holds. -/
theorem jumpIntoCall_not_heldDominate :
    ∃ raw, jumpIntoCall.lower jumpIntoCallPool .function = .ok raw ∧ ¬raw.Dominated ∧
      ¬jumpIntoCall.HeldDominate jumpIntoCallPool .function raw := by
  obtain ⟨g, h, used, avoided⟩ := jumpIntoCall_way
  obtain ⟨raw, lowered, -, dominated_iff, cleaned⟩ := dominated_iff_heldDominate h
  have fails : ¬jumpIntoCall.HeldDominate jumpIntoCallPool .function raw := fun held =>
    avoided (cleaned held _ _ used)
  exact ⟨raw, lowered, fun dominated => fails (dominated_iff.mp dominated), fails⟩

end StackLift
