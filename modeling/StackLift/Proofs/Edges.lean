import StackLift.Proofs.Lower.Unit

/-!
The edges of a compiled graph. Every edge leads to a block that is there, a block
lists its predecessors once for each edge, its phis have one input for each
predecessor, and control does not run into a block without an end.
-/

namespace StackLift

theorem CodeUnit.Pass.linked {unit : CodeUnit} {pool : Pool} {kind : UnitKind} {labels : LabelMap}
    {draft : Draft} {final : State} (pass : unit.Pass pool kind labels draft final) :
    final.draft.graph.Linked :=
  pass.sound.1.linked

/-- Whatever the options are, the graph of a unit has an entry, its edges are
recorded at both ends, and the blocks that control can come to have an end. -/
theorem edges_recorded {unit : CodeUnit} {pool : Pool} {options : Options} {g : Graph}
    (h : unit.compile pool options = .ok g) :
    (∃ entry, g.block? g.entry = some entry) ∧ ∀ b block, g.block? b = some block →
      (∀ c ∈ block.successors, ∃ target, g.block? c = some target) ∧
      block.preds.Perm (g.incoming b) ∧
      (∀ p ∈ block.phis, (p.inputs.map (·.1)).Perm block.preds) ∧
      (b = g.entry ∨ block.preds ≠ [] ∨ options.pruneUnreachable = true →
        ∃ t, block.terminator = some t) := by
  obtain ⟨raw, lowered, rfl⟩ := CodeUnit.compile_eq_ok.mp h
  obtain ⟨labels, draft, final, pass, rfl⟩ := CodeUnit.lower_eq_ok.mp lowered
  have linked := pass.linked.cleanup options
  have complete : (options.cleanup final.draft.graph).Complete :=
    Graph.Complete.cleanup pass.graph_complete pass.linked options
  obtain ⟨entry, live, -⟩ := pass.sound.1.entry
  have entryLive := Graph.entry_isSome_cleanup (Option.isSome_iff_exists.mpr ⟨entry, live⟩) options
  refine ⟨Option.isSome_iff_exists.mp entryLive, fun b block live => ⟨fun c mem => ?_, ?_, ?_, ?_⟩⟩
  · rw [← Graph.successorsOf_eq live] at mem
    exact Option.isSome_iff_exists.mp (linked.live mem)
  · exact linked.preds_perm live
  · intro p mem
    rw [linked.inputs live mem]
  · intro reached
    refine Option.isSome_iff_exists.mp (complete live ?_)
    rcases reached with entry | some | on
    · exact Or.inl entry
    · exact Or.inr some
    · exact Graph.preds_ne_nil_cleanup final.draft.graph on live

/-- A loop over the empty sequence, whose body is empty. -/
def emptyLoop : CodeUnit where
  name := none
  instructions :=
    [.load .null, .startFor ⟨0⟩ ⟨1⟩ ⟨0⟩, .stepFor, .endLoop .forEach, .load .null, .ret]
  labels := [some 3]

def emptyLoopPool : Pool := ⟨[.expr (.symbol "for"), .symbol "i"]⟩

/-- The head of the loop has two predecessors and a phi for the index. -/
theorem edges_recorded_emptyLoop : ∃ g head, emptyLoop.compile emptyLoopPool {} = .ok g ∧
    g.block? ⟨2⟩ = some head ∧ head.preds.length = 2 ∧ head.phis.length = 1 ∧
    head.preds.Perm (g.incoming ⟨2⟩) ∧ (∀ p ∈ head.phis, (p.inputs.map (·.1)).Perm head.preds) ∧
    ∃ t, head.terminator = some t := by
  obtain ⟨g, head, h, live, preds, phis⟩ : ∃ g head, emptyLoop.compile emptyLoopPool {} = .ok g ∧
      g.block? ⟨2⟩ = some head ∧ head.preds.length = 2 ∧ head.phis.length = 1 :=
    ⟨_, _, rfl, rfl, rfl, rfl⟩
  obtain ⟨-, sources, inputs, ended⟩ := (edges_recorded h).2 ⟨2⟩ head live
  exact ⟨g, head, h, live, preds, phis, sources, inputs, ended (Or.inr (Or.inr rfl))⟩

end StackLift
