import StackLift.Proofs.Draft.Act
import StackLift.Proofs.Graph.Reachable

/-!
Where code is built. Besides the entry, the pass goes on only in blocks that an
edge leads to, so a block that no edge leads to stays as it was made: it has no
phis, no statements and no end.
-/

namespace StackLift

namespace Draft

variable {carry : Carry} {d d' : Draft} {b : BlockId}

theorem HasPred.mono (hasPred : d.HasPred b) (grows : d.Grows d') : d'.HasPred b := by
  obtain ⟨block, live, some⟩ := hasPred
  obtain ⟨block', live', grown⟩ := grows.block live
  obtain ⟨more, heq⟩ := grown.preds
  refine ⟨block', live', fun none => some ?_⟩
  rw [none, List.append_eq_nil_iff] at heq
  exact heq.1

structure Reached (d : Draft) : Prop where
  /-- A merge has its shape from an edge. -/
  shaped : ∀ {b : BlockId} {phis : List ValueId}, d.shape? b = some phis →
    b ≠ d.graph.entry → d.HasPred b
  cursor : d.cursor = d.graph.entry ∨ d.HasPred d.cursor
  bare : ∀ {b : BlockId} {block : Block}, d.graph.block? b = some block → b ≠ d.graph.entry →
    block.preds = [] → block.Bare

/-- What only changes blocks that an edge leads to keeps the others bare. -/
theorem Reached.of_grows (reached : d.Reached) (grows : d.Grows d')
    (shape : ∀ {b : BlockId} {phis : List ValueId}, d'.shape? b = some phis →
      d.shape? b = some phis ∨ d'.HasPred b)
    (cursor : d'.cursor = d.cursor)
    (bare : ∀ {b : BlockId} {block : Block}, d'.graph.block? b = some block →
      b ≠ d.graph.entry → block.preds = [] → b ≠ d.cursor →
      block.Bare ∨ ∃ before, d.graph.block? b = some before ∧ before.preds = [] ∧
        (before.Bare → block.Bare)) : d'.Reached where
  shaped shaped notEntry := by
    rcases shape shaped with old | new
    · exact (reached.shaped old notEntry).mono grows
    · exact new
  cursor := by
    rw [cursor]
    exact reached.cursor.imp id (·.mono grows)
  bare := by
    intro b block live notEntry none
    have other : b ≠ d.cursor := by
      rintro rfl
      rcases reached.cursor with entry | hasPred
      · exact notEntry entry
      · obtain ⟨block', live', some⟩ := hasPred.mono grows
        rw [live] at live'
        cases live'
        exact some none
    rcases bare live notEntry none other with made | ⟨before, hbefore, none', kept⟩
    · exact made
    · exact kept (reached.bare hbefore notEntry none')

theorem Reached.addBlock {direct : List BlockId} (reached : d.Reached)
    (grows : d.Grows (d.addBlock direct)) : (d.addBlock direct).Reached := by
  refine reached.of_grows grows Or.inl rfl fun live _ none _ => ?_
  rcases block?_addBlock_eq_some live with ⟨-, rfl⟩ | old
  · exact Or.inl ⟨rfl, rfl, rfl⟩
  · exact Or.inr ⟨_, old, none, id⟩

theorem Reached.ended {t : Terminator} {slots : List ValueId} (reached : d.Reached)
    (can : d.CanEnd t slots) (ended : d.Ended t slots d') : d'.Reached := by
  refine reached.of_grows (grows_ended can ended) (fun {b phis} shaped => ?_) ended.cursor
    (fun {b block} live _ none other => ?_)
  · rw [ended.shape] at shaped
    split at shaped
    · rename_i target
      obtain ⟨mem, -⟩ := mem_mergesOf.mp target
      obtain ⟨block, live⟩ := Option.isSome_iff_exists.mp (can.targets b mem).live
      refine Or.inr ⟨_, by rw [ended.block, live, Option.map_some], ?_⟩
      rw [preds_ended, can.apart.count, if_pos mem]
      simp
    · exact Or.inl shaped
  · obtain ⟨before, hbefore, rfl⟩ := ended.block?_eq_some live
    rw [preds_ended, List.append_eq_nil_iff, List.replicate_eq_nil_iff] at none
    have notTarget : b ∉ d.mergesOf t.successors := fun target =>
      List.count_eq_zero.mp none.2 (mem_mergesOf.mp target).1
    refine Or.inr ⟨before, hbefore, none.1, fun bare => ⟨?_, ?_, ?_⟩⟩
    · rw [phis_ended_of_notMem notTarget, bare.phis]
    · rw [stmts_ended, bare.stmts]
    · rw [terminator_ended, if_neg other, bare.terminator]

theorem Act.reached (act : Act carry d d') (sound : d.Sound) (reached : d.Reached) :
    d'.Reached := by
  have grows := act.grows sound
  cases act with
  | emit _ _ =>
      refine reached.of_grows grows Or.inl rfl fun {b block} live _ none other => ?_
      rw [block?_emitted, if_neg other] at live
      exact Or.inr ⟨block, live, none, id⟩
  | newMerge => exact reached.addBlock grows
  | newDirect => exact reached.addBlock grows
  | terminate can _ _ _ ok => exact reached.ended can (can.ended sound ok)
  | moveTo _ _ hasPred =>
      exact ⟨reached.shaped, Or.inr hasPred, reached.bare⟩
  | @addIndexPhi c pred _ head _ live preds _ _ _ _ _ _ =>
      refine reached.of_grows grows Or.inl rfl fun {b block} live' _ none _ => ?_
      obtain ⟨before, hbefore, rfl⟩ := block?_addIndexPhi_eq_some sound live'
      rw [preds_addIndexPhi] at none
      have other : b ≠ c := by
        rintro rfl
        rw [live] at hbefore
        cases hbefore
        rw [preds] at none
        cases none
      rw [if_neg other]
      exact Or.inr ⟨before, hbefore, none, id⟩
  | registerLoopIndex _ _ _ _ _ =>
      exact reached.of_grows grows Or.inl rfl fun live _ none _ => Or.inr ⟨_, live, none, id⟩

end Draft

end StackLift
