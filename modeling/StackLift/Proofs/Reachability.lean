import StackLift.Proofs.Lower.Unit

/-!
Code is only built where control comes to. Whenever the pass goes on in a block,
an edge leads there from a block that has its end, so by induction over the acts
of the pass edges lead there from the entry; a block gets its end only then. So
every block with an end is reachable, and the blocks that no edge leads to are
bare. Pruning therefore leaves exactly the reachable blocks, and it changes none
of them.
-/

namespace StackLift

namespace Draft

variable {carry : Carry} {d d' : Draft}

/-- Edges lead from the entry to the block under construction and to every block
that has its end. -/
structure Traced (d : Draft) : Prop where
  cursor : d.graph.Reachable d.cursor
  ended : ∀ {b : BlockId}, d.HasEnd b → d.graph.Reachable b

/-- Edges stay as a draft grows. -/
theorem Grows.reachable (grows : d.Grows d') {b : BlockId} (reachable : d.graph.Reachable b) :
    d'.graph.Reachable b := by
  refine reachable.mono fun {b c} succ => ?_
  rw [Graph.successorsOf] at succ
  split at succ
  · rename_i block live
    obtain ⟨block', live', grown⟩ := grows.block live
    have ended : block.terminator.isSome := by
      rw [Block.successors] at succ
      split at succ
      · rename_i t last
        rw [last, Option.isSome_some]
      · exact absurd succ List.not_mem_nil
    rw [Graph.successorsOf_eq live', Block.successors, (grown.ended ended).2]
    exact succ
  · exact absurd succ List.not_mem_nil

/-- An act gives an end to no block but the one under construction. -/
theorem Act.hasEnd (act : Act carry d d') (sound : d.Sound) {b : BlockId} (ended : d'.HasEnd b) :
    d.HasEnd b ∨ b = d.cursor := by
  obtain ⟨block, live, last⟩ := ended
  cases act with
  | emit _ _ =>
      obtain ⟨before, hbefore, rfl⟩ := block?_emitted_eq_some live
      split at last
      · rename_i here
        exact Or.inr here
      · exact Or.inl ⟨before, hbefore, last⟩
  | newMerge =>
      rcases block?_addBlock_eq_some live with ⟨-, rfl⟩ | old
      · cases last
      · exact Or.inl ⟨block, old, last⟩
  | newDirect =>
      rcases block?_addBlock_eq_some live with ⟨-, rfl⟩ | old
      · cases last
      · exact Or.inl ⟨block, old, last⟩
  | terminate can _ _ _ ok =>
      obtain ⟨before, hbefore, rfl⟩ := (can.ended sound ok).block?_eq_some live
      rw [terminator_ended] at last
      split at last
      · rename_i here
        exact Or.inr here
      · exact Or.inl ⟨before, hbefore, last⟩
  | moveTo _ _ _ => exact Or.inl ⟨block, live, last⟩
  | addIndexPhi _ _ _ _ _ _ _ _ =>
      obtain ⟨before, hbefore, rfl⟩ := block?_addIndexPhi_eq_some sound live
      refine Or.inl ⟨before, hbefore, ?_⟩
      split at last
      · exact last
      · exact last
  | registerLoopIndex _ _ _ _ _ => exact Or.inl ⟨block, live, last⟩

/-- A block that an edge leads to is reachable, since the edge leaves a block
that has its end. -/
theorem Traced.of_hasPred (traced : d.Traced) (sound : d.Sound) {b : BlockId}
    (hasPred : d.HasPred b) : d.graph.Reachable b := by
  obtain ⟨block, live, some⟩ := hasPred
  obtain ⟨p, mem⟩ := List.exists_mem_of_ne_nil _ some
  have succ := (sound.linked.recorded.mem_preds_iff live).mp mem
  have ended : d.HasEnd p := by
    rw [Graph.successorsOf] at succ
    split at succ
    · rename_i source hsource
      refine ⟨source, hsource, ?_⟩
      rw [Block.successors] at succ
      split at succ
      · rename_i t last
        rw [last, Option.isSome_some]
      · exact absurd succ List.not_mem_nil
    · exact absurd succ List.not_mem_nil
  exact .edge (traced.ended ended) succ

theorem Act.traced (act : Act carry d d') (sound : d.Sound) (traced : d.Traced) : d'.Traced := by
  have grows := act.grows sound
  refine ⟨?_, fun {b} ended => ?_⟩
  · cases act with
    | emit _ _ => exact grows.reachable traced.cursor
    | newMerge => exact grows.reachable traced.cursor
    | newDirect => exact grows.reachable traced.cursor
    | terminate can _ _ _ ok =>
        rw [(can.ended sound ok).cursor]
        exact grows.reachable traced.cursor
    | moveTo _ _ hasPred => exact traced.of_hasPred sound hasPred
    | addIndexPhi _ _ _ _ _ _ _ _ => exact grows.reachable traced.cursor
    | registerLoopIndex _ _ _ _ _ => exact traced.cursor
  · rcases act.hasEnd sound ended with before | rfl
    · exact grows.reachable (traced.ended before)
    · exact grows.reachable traced.cursor

end Draft

namespace CodeUnit.Pass

variable {unit : CodeUnit} {pool : Pool} {kind : UnitKind} {labels : LabelMap} {draft : Draft}
  {final : State} (pass : unit.Pass pool kind labels draft final)

include pass

theorem traced : final.draft.graph.Traced := by
  have start : draft.Traced := by
    refine ⟨?_, fun {b} ended => ?_⟩
    · rw [pass.start.bare.cursor]
      exact .entry
    · obtain ⟨block, live, last⟩ := ended
      rw [pass.start.bare.block live] at last
      cases last
  have traced := pass.draft_induction start fun act sound traced => act.traced sound traced
  exact fun b block live last => traced.ended ⟨block, live, last⟩

theorem orphansBare : final.draft.graph.OrphansBare := fun _ _ => pass.reached.bare

end CodeUnit.Pass

/-- Whatever the options are, a block of a compiled graph that has an end is
reachable. If unreachable blocks are pruned, the blocks that are there are the
reachable ones. Pruning takes away blocks with nothing in them that no edge leads
to, and leaves the others as they are. -/
theorem live_iff_reachable {unit : CodeUnit} {pool : Pool} {options : Options} {g : Graph}
    (h : unit.compile pool options = .ok g) :
    (∀ b block, g.block? b = some block → block.terminator.isSome → g.Reachable b) ∧
      (options.pruneUnreachable = true →
        ∀ b, (∃ block, g.block? b = some block) ↔ g.Reachable b) ∧
      ∃ pruned unpruned,
        unit.compile pool { options with pruneUnreachable := true } = .ok pruned ∧
        unit.compile pool { options with pruneUnreachable := false } = .ok unpruned ∧
        pruned.values = unpruned.values ∧
        ∀ b, pruned.block? b = unpruned.block? b ∨
          pruned.block? b = none ∧ ∃ block, unpruned.block? b = some block ∧
            block.preds = [] ∧ block.phis = [] ∧ block.stmts = [] ∧ block.terminator = none := by
  obtain ⟨raw, lowered, rfl⟩ := CodeUnit.compile_eq_ok.mp h
  obtain ⟨labels, draft, final, pass, rfl⟩ := CodeUnit.lower_eq_ok.mp lowered
  have unprunedTraced : ({ options with pruneUnreachable := false }.cleanup
      final.draft.graph).Traced := Graph.unpruned_induction options Graph.Traced.replacePhi pass.traced
  have unprunedBare : ({ options with pruneUnreachable := false }.cleanup
      final.draft.graph).OrphansBare :=
    Graph.unpruned_induction options Graph.OrphansBare.replacePhi pass.orphansBare
  have traced : (options.cleanup final.draft.graph).Traced := by
    rw [pass.orphansBare.cleanup_eq options]
    simp only
    split
    · exact Graph.Traced.withoutOrphans unprunedBare unprunedTraced
    · exact unprunedTraced
  have linked := pass.sound.1.linked.cleanup options
  have complete : (options.cleanup final.draft.graph).Complete :=
    Graph.Complete.cleanup pass.graph_complete pass.sound.1.linked options
  refine ⟨traced, fun on b => ⟨?_, fun reachable => ?_⟩, ?_⟩
  · rintro ⟨block, live⟩
    exact traced live (complete live (Graph.preds_ne_nil_cleanup final.draft.graph on live))
  · cases reachable with
    | entry =>
        obtain ⟨entry, live, -⟩ := pass.sound.1.entry
        have entryLive : (final.draft.graph.block? final.draft.graph.entry).isSome := by
          rw [live, Option.isSome_some]
        exact Option.isSome_iff_exists.mp (Graph.entry_isSome_cleanup entryLive options)
    | edge _ succ => exact Option.isSome_iff_exists.mp (linked.live succ)
  · refine ⟨_, _, CodeUnit.compile_eq_ok.mpr ⟨_, lowered, rfl⟩,
      CodeUnit.compile_eq_ok.mpr ⟨_, lowered, rfl⟩, ?_, fun b => ?_⟩
    · rw [pass.orphansBare.cleanup_eq { options with pruneUnreachable := true }]
      rfl
    · rw [pass.orphansBare.cleanup_eq { options with pruneUnreachable := true }]
      exact unprunedBare.block?_withoutOrphans b

/-- A loop after the return: its head leads to itself, but control never comes there. -/
def loopAfterReturn : CodeUnit where
  name := none
  instructions := [.load .null, .ret, .load .null, .pop, .goto ⟨0⟩]
  labels := [some 2]

/-- No code is built for the loop, and pruning takes its head away. -/
theorem live_iff_reachable_loopAfterReturn : ∃ pruned unpruned block,
    loopAfterReturn.compile ⟨[]⟩ {} = .ok pruned ∧ pruned.Reachable ⟨0⟩ ∧ ¬pruned.Reachable ⟨1⟩ ∧
    loopAfterReturn.compile ⟨[]⟩ { pruneUnreachable := false } = .ok unpruned ∧
    unpruned.block? ⟨1⟩ = some block ∧ block.preds = [] ∧ block.stmts = [] := by
  have found : ∃ g ∈ (loopAfterReturn.compile ⟨[]⟩ {}).toOption,
      (g.block? ⟨0⟩).isSome ∧ g.block? ⟨1⟩ = none := by
    decide +kernel
  have unpruned : ∃ g ∈ (loopAfterReturn.compile ⟨[]⟩ { pruneUnreachable := false }).toOption,
      (g.block? ⟨1⟩).isSome := by
    decide +kernel
  obtain ⟨g, h, entry, head⟩ := exists_ok_of_toOption found
  obtain ⟨raw, hraw, live⟩ := exists_ok_of_toOption unpruned
  obtain ⟨-, reachable, g', raw', h', hraw', -, same⟩ := live_iff_reachable h
  obtain rfl : g' = g := Except.ok.inj (h'.symm.trans h)
  obtain rfl : raw' = raw := Except.ok.inj (hraw'.symm.trans hraw)
  rcases same ⟨1⟩ with kept | ⟨-, block, there, none, -, stmts, -⟩
  · rw [← kept, head] at live
    cases live
  · refine ⟨g', raw', block, h, ?_, fun reached => ?_, hraw, there, none, stmts⟩
    · exact (reachable rfl ⟨0⟩).mp (Option.isSome_iff_exists.mp entry)
    · obtain ⟨block, live⟩ := (reachable rfl ⟨1⟩).mpr reached
      rw [head] at live
      cases live

end StackLift
