import StackLift.Proofs.Graph.Cleanup

/-!
Graphs whose edges are recorded at both ends. In a recorded graph a block lists
the source of each edge that leads to it, and its phis have inputs from these
only. In a linked graph moreover every edge leads to a block that is there, and
each phi has one input for each edge. In a complete graph control does not run
into a block that has no end. Removing a block that no edge leads to keeps a graph
recorded; cleaning up keeps it linked and complete, and after pruning every block
has an end.
-/

namespace StackLift

namespace Graph

/-- The blocks that a block leads to; a block that was removed leads nowhere. -/
def successorsOf (g : Graph) (b : BlockId) : List BlockId :=
  match g.block? b with
  | some block => block.successors
  | none => []

theorem successorsOf_eq {g : Graph} {b : BlockId} {block : Block} (h : g.block? b = some block) :
    g.successorsOf b = block.successors := by
  simp [successorsOf, h]

/-- The sources of the edges that lead to a block, once for each edge. -/
def incoming (g : Graph) (b : BlockId) : List BlockId :=
  g.liveBlocks.flatMap fun (p, block) => List.replicate (block.successors.count b) p

structure Recorded (g : Graph) : Prop where
  /-- The predecessors of a block are the sources of the edges to it. -/
  preds : ∀ {b : BlockId} {block : Block}, g.block? b = some block →
    block.preds.Perm (g.incoming b)
  /-- Phis have inputs from predecessors only. -/
  inputs : ∀ {b : BlockId} {block : Block} {p : Phi}, g.block? b = some block → p ∈ block.phis →
    ∀ e ∈ p.inputs, e.1 ∈ block.preds

theorem recorded_iff {g : Graph} : g.Recorded ↔ ∀ e ∈ g.liveBlocks,
    e.2.preds.Perm (g.incoming e.1) ∧ ∀ p ∈ e.2.phis, ∀ input ∈ p.inputs, input.1 ∈ e.2.preds := by
  constructor
  · intro recorded e mem
    have live := mem_liveBlocks.mp mem
    exact ⟨recorded.preds live, fun p => recorded.inputs live⟩
  · intro all
    exact ⟨fun live => (all _ (mem_liveBlocks.mpr live)).1,
      fun live mem => (all _ (mem_liveBlocks.mpr live)).2 _ mem⟩

instance (g : Graph) : Decidable g.Recorded := decidable_of_iff' _ recorded_iff

structure Linked (g : Graph) : Prop where
  /-- Edges lead to blocks that are there. -/
  live : ∀ {b c : BlockId}, c ∈ g.successorsOf b → (g.block? c).isSome
  /-- The predecessors of a block are the sources of the edges to it. -/
  preds : ∀ {b : BlockId} {block : Block}, g.block? b = some block →
    ∀ p, block.preds.count p = (g.successorsOf p).count b
  /-- A phi has an input for each predecessor. -/
  inputs : ∀ {b : BlockId} {block : Block} {p : Phi}, g.block? b = some block → p ∈ block.phis →
    p.inputs.map (·.1) = block.preds

/-- The entry and every block that an edge leads to have an end. -/
def Complete (g : Graph) : Prop :=
  ∀ {b : BlockId} {block : Block}, g.block? b = some block → b = g.entry ∨ block.preds ≠ [] →
    block.terminator.isSome

/-- In the sources of the edges to a block, each block occurs as often as it
leads there. -/
theorem count_incoming (g : Graph) (b p : BlockId) :
    (g.incoming b).count p = (g.successorsOf p).count b := by
  have general : ∀ l : List (BlockId × Block), (l.map (·.1)).Nodup →
      (l.flatMap fun (q, block) => List.replicate (block.successors.count b) q).count p =
        match l.lookup p with
        | some block => block.successors.count b
        | none => 0 := by
    intro l
    induction l with
    | nil => simp
    | cons e l ih =>
        intro distinct
        obtain ⟨q, block⟩ := e
        obtain ⟨fresh, distinct⟩ := List.nodup_cons.mp distinct
        rw [List.flatMap_cons, List.count_append, ih distinct, List.count_replicate]
        by_cases h : q = p
        · subst h
          have none : l.lookup q = none := by
            rw [List.lookup_eq_none_iff]
            intro e he
            refine bne_iff_ne.mpr ?_
            rintro rfl
            exact fresh (List.mem_map.mpr ⟨e, he, rfl⟩)
          simp [none]
        · have hne : p ≠ q := fun e => h e.symm
          have look : List.lookup p ((q, block) :: l) = l.lookup p := by
            rw [List.lookup_cons, beq_eq_false_iff_ne.mpr hne]
          simp [look, h]
  rw [incoming, general _ g.nodup_liveBlocks, successorsOf]
  have look : g.liveBlocks.lookup p = g.block? p := by
    cases h : g.block? p with
    | none =>
        rw [List.lookup_eq_none_iff]
        intro e he
        refine bne_iff_ne.mpr ?_
        rintro rfl
        rw [mem_liveBlocks.mp he] at h
        cases h
    | some block =>
        rw [List.lookup_eq_some_iff]
        obtain ⟨before, after, heq⟩ := List.append_of_mem (mem_liveBlocks.mpr h)
        refine ⟨before, after, heq, fun e he => ?_⟩
        have distinct := g.nodup_liveBlocks
        rw [heq, List.map_append, List.map_cons] at distinct
        have := (List.nodup_append.mp distinct).2.2 e.1 (List.mem_map_of_mem he) p List.mem_cons_self
        exact bne_iff_ne.mpr fun eq => this eq.symm
  rw [look]
  cases g.block? p <;> rfl

theorem Linked.preds_perm {g : Graph} (linked : g.Linked) {b : BlockId} {block : Block}
    (h : g.block? b = some block) : block.preds.Perm (g.incoming b) := by
  rw [List.perm_iff_count]
  intro p
  rw [linked.preds h, count_incoming]

theorem Linked.recorded {g : Graph} (linked : g.Linked) : g.Recorded where
  preds := linked.preds_perm
  inputs := by
    intro b block p live mem e input
    rw [← linked.inputs live mem]
    exact List.mem_map_of_mem input

theorem Recorded.count_preds {g : Graph} (recorded : g.Recorded) {b : BlockId} {block : Block}
    (h : g.block? b = some block) (p : BlockId) :
    block.preds.count p = (g.successorsOf p).count b := by
  rw [(recorded.preds h).count_eq, count_incoming]

/-- A block is among the predecessors of the blocks it leads to. -/
theorem Recorded.mem_preds_iff {g : Graph} (recorded : g.Recorded) {b p : BlockId} {block : Block}
    (h : g.block? b = some block) : p ∈ block.preds ↔ b ∈ g.successorsOf p := by
  rw [← List.count_pos_iff, recorded.count_preds h, List.count_pos_iff]

/-! ### Removing an orphan -/

section

variable {g : Graph} {b : BlockId} {block : Block}

/-- No edge leads to a block without predecessors. -/
theorem Recorded.not_mem_successorsOf (recorded : g.Recorded) (h : g.block? b = some block)
    (none : block.preds = []) (p : BlockId) : b ∉ g.successorsOf p := by
  rw [← recorded.mem_preds_iff h, none]
  exact List.not_mem_nil

theorem successorsOf_removeBlock (h : g.block? b = some block) (p : BlockId) :
    (g.removeBlock b).successorsOf p = if p = b then [] else g.successorsOf p := by
  rw [successorsOf, block?_removeBlock h]
  by_cases hp : p = b
  · simp [hp]
  · rw [if_neg hp, if_neg hp, successorsOf]
    by_cases hs : p ∈ block.successors
    · rw [if_pos hs]
      cases g.block? p <;> rfl
    · rw [if_neg hs]

/-- What is left of another block when a block is removed: the removed block is
no longer among its predecessors, and its phis lose the inputs from there. -/
theorem Recorded.block?_removeBlock (recorded : g.Recorded) (h : g.block? b = some block)
    {c : BlockId} {left : Block} (live : (g.removeBlock b).block? c = some left) :
    c ≠ b ∧ ∃ whole, g.block? c = some whole ∧ left = whole.dropPred b := by
  rw [Graph.block?_removeBlock h] at live
  by_cases hc : c = b
  · simp [hc] at live
  · refine ⟨hc, ?_⟩
    rw [if_neg hc] at live
    split at live
    · obtain ⟨whole, hwhole, rfl⟩ := Option.map_eq_some_iff.mp live
      exact ⟨whole, hwhole, rfl⟩
    · rename_i notSucc
      refine ⟨left, live, ?_⟩
      have absent : b ∉ left.preds := by
        rw [recorded.mem_preds_iff live, successorsOf_eq h]
        exact notSucc
      have preds : left.preds.filter (· ≠ b) = left.preds :=
        List.filter_eq_self.mpr fun p hp => by
          simpa using fun e : p = b => absent (e ▸ hp)
      have inputs : ∀ p ∈ left.phis, p.inputs.filter (·.1 ≠ b) = p.inputs := by
        intro p hp
        refine List.filter_eq_self.mpr fun e he => ?_
        simpa using fun eq : e.1 = b => absent (eq ▸ recorded.inputs live hp e he)
      have phis : left.phis.map (fun p => { p with inputs := p.inputs.filter (·.1 ≠ b) }) =
          left.phis := by
        refine (List.map_congr_left fun p hp => ?_).trans (List.map_id left.phis)
        rw [inputs p hp]
        rfl
      rw [Block.dropPred, preds, phis]

theorem Recorded.block?_removeBlock_of_ne (recorded : g.Recorded) (h : g.block? b = some block)
    {c : BlockId} {whole : Block} (hwhole : g.block? c = some whole) (hne : c ≠ b) :
    (g.removeBlock b).block? c = some (whole.dropPred b) := by
  have hsome := isSome_block?_removeBlock hne (g := g) (by simp [hwhole])
  obtain ⟨left, hleft⟩ := Option.isSome_iff_exists.mp hsome
  obtain ⟨-, whole', hwhole', rfl⟩ := recorded.block?_removeBlock h hleft
  rw [hwhole] at hwhole'
  cases hwhole'
  exact hleft

theorem Recorded.block?_removeBlock_eq_none (recorded : g.Recorded) (h : g.block? b = some block)
    {c : BlockId} (hnone : g.block? c = none) : (g.removeBlock b).block? c = none := by
  cases hleft : (g.removeBlock b).block? c with
  | none => rfl
  | some left =>
      obtain ⟨-, whole, hwhole, -⟩ := recorded.block?_removeBlock h hleft
      rw [hnone] at hwhole
      cases hwhole

theorem Recorded.removeBlock (recorded : g.Recorded) (h : g.block? b = some block) :
    (g.removeBlock b).Recorded where
  preds := by
    intro c left live
    obtain ⟨hc, whole, hwhole, rfl⟩ := recorded.block?_removeBlock h live
    refine List.perm_iff_count.mpr fun p => ?_
    rw [count_incoming, successorsOf_removeBlock h, Block.dropPred]
    by_cases hp : p = b
    · subst hp
      simp only [ite_true, List.count_nil]
      exact List.count_eq_zero.mpr fun mem => by simp at mem
    · rw [if_neg hp, List.count_filter (by simpa using hp), recorded.count_preds hwhole]
  inputs := by
    intro c left p live mem e input
    obtain ⟨-, whole, hwhole, rfl⟩ := recorded.block?_removeBlock h live
    obtain ⟨q, hq, rfl⟩ := List.mem_map.mp mem
    obtain ⟨old, other⟩ := List.mem_filter.mp input
    exact List.mem_filter.mpr ⟨recorded.inputs hwhole hq e old, other⟩

theorem Linked.removeBlock (linked : g.Linked) (h : g.block? b = some block)
    (none : block.preds = []) : (g.removeBlock b).Linked where
  live := by
    intro p c hc
    rw [successorsOf_removeBlock h] at hc
    split at hc
    · simp at hc
    · have hne : c ≠ b := fun e => linked.recorded.not_mem_successorsOf h none p (e ▸ hc)
      exact isSome_block?_removeBlock hne (linked.live hc)
  preds := (linked.recorded.removeBlock h).count_preds
  inputs := by
    intro c left p live mem
    obtain ⟨-, whole, hwhole, rfl⟩ := linked.recorded.block?_removeBlock h live
    obtain ⟨q, hq, rfl⟩ := List.mem_map.mp mem
    have whole_inputs := linked.inputs hwhole hq
    simp only [Block.dropPred, ← whole_inputs, List.filter_map]
    rfl

end

/-! ### Replacing a phi -/

section

variable {g : Graph} {b : BlockId} {phi value : ValueId}

/-- A phi that is left after a replacement was a phi before, with the same
predecessors. -/
theorem block?_replacePhi_eq_some {c : BlockId} {new : Block}
    (live : (g.replacePhi b phi value).block? c = some new) :
    ∃ old, g.block? c = some old ∧
      new = (if c = b then old.dropPhi phi else old).mapUses (subst phi value) := by
  rw [block?_replacePhi] at live
  obtain ⟨old, hold, rfl⟩ := Option.map_eq_some_iff.mp live
  exact ⟨old, hold, rfl⟩

theorem block?_replacePhi_of_eq_some {c : BlockId} {old : Block} (live : g.block? c = some old) :
    (g.replacePhi b phi value).block? c =
      some ((if c = b then old.dropPhi phi else old).mapUses (subst phi value)) := by
  rw [block?_replacePhi, live]
  rfl

theorem mem_phis_replacePhi {c : BlockId} {old : Block} {p : Phi}
    (mem : p ∈ ((if c = b then old.dropPhi phi else old).mapUses (subst phi value)).phis) :
    ∃ q ∈ old.phis, (c = b → q.value ≠ phi) ∧
      p = { q with inputs := q.inputs.map fun (e, v) => (e, subst phi value v) } := by
  obtain ⟨q, hq, rfl⟩ := List.mem_map.mp mem
  by_cases hc : c = b
  · rw [if_pos hc] at hq
    obtain ⟨hq, hne⟩ := List.mem_filter.mp hq
    exact ⟨q, hq, fun _ => by simpa using hne, rfl⟩
  · rw [if_neg hc] at hq
    exact ⟨q, hq, fun h => absurd h hc, rfl⟩

theorem preds_replacePhi (c : BlockId) (old : Block) :
    ((if c = b then old.dropPhi phi else old).mapUses (subst phi value)).preds = old.preds := by
  split <;> rfl

theorem stmts_replacePhi (c : BlockId) (old : Block) :
    ((if c = b then old.dropPhi phi else old).mapUses (subst phi value)).stmts =
      old.stmts.map fun s => { s with op := s.op.mapOperands (subst phi value) } := by
  split <;> rfl

theorem terminator_replacePhi (c : BlockId) (old : Block) :
    ((if c = b then old.dropPhi phi else old).mapUses (subst phi value)).terminator =
      old.terminator.map (·.mapOperands (subst phi value)) := by
  split <;> rfl

theorem successors_replacePhi (c : BlockId) (old : Block) :
    ((if c = b then old.dropPhi phi else old).mapUses (subst phi value)).successors =
      old.successors := by
  rw [Block.successors, terminator_replacePhi, Block.successors]
  cases old.terminator with
  | none => rfl
  | some t => simp

@[simp] theorem successorsOf_replacePhi (c : BlockId) :
    (g.replacePhi b phi value).successorsOf c = g.successorsOf c := by
  rw [successorsOf, successorsOf, block?_replacePhi]
  cases g.block? c with
  | none => rfl
  | some old => exact successors_replacePhi c old

theorem Linked.replacePhi (linked : g.Linked) : (g.replacePhi b phi value).Linked where
  live := by
    intro p c hc
    rw [successorsOf_replacePhi] at hc
    rw [block?_replacePhi, Option.isSome_map]
    exact linked.live hc
  preds := by
    intro c new live p
    obtain ⟨old, hold, rfl⟩ := block?_replacePhi_eq_some live
    rw [preds_replacePhi, successorsOf_replacePhi, linked.preds hold]
  inputs := by
    intro c new p live mem
    obtain ⟨old, hold, rfl⟩ := block?_replacePhi_eq_some live
    obtain ⟨q, hq, -, rfl⟩ := mem_phis_replacePhi mem
    rw [preds_replacePhi, ← linked.inputs hold hq, List.map_map]
    rfl

end

/-! ### Cleaning up -/

theorem Linked.cleanup {g : Graph} (linked : g.Linked) (options : Options) :
    (options.cleanup g).Linked :=
  cleanup_induction (motive := Linked) (fun linked live none _ => linked.removeBlock live none)
    (fun linked _ _ _ => linked.replacePhi) options linked

/-- A complete graph stays so, as long as its edges are recorded at both ends. -/
theorem Complete.cleanup {g : Graph} (complete : g.Complete) (linked : g.Linked)
    (options : Options) : (options.cleanup g).Complete := by
  refine (cleanup_induction (motive := fun g => g.Linked ∧ g.Complete) ?_ ?_ options
    ⟨linked, complete⟩).2
  · intro g b block ⟨linked, complete⟩ live none _
    refine ⟨linked.removeBlock live none, fun {c left} hleft reached => ?_⟩
    obtain ⟨-, whole, hwhole, rfl⟩ := linked.recorded.block?_removeBlock live hleft
    have before : c = g.entry ∨ whole.preds ≠ [] :=
      reached.imp id fun some nil => some (by simp [Block.dropPred, nil])
    have ended := complete hwhole before
    exact ended
  · intro g b block p value ⟨linked, complete⟩ _ _ _
    refine ⟨linked.replacePhi, fun {c new} hnew reached => ?_⟩
    obtain ⟨old, hold, rfl⟩ := block?_replacePhi_eq_some hnew
    rw [preds_replacePhi] at reached
    rw [terminator_replacePhi, Option.isSome_map]
    exact complete hold reached

theorem entry_isSome_cleanup {g : Graph} (live : (g.block? g.entry).isSome) (options : Options) :
    ((options.cleanup g).block? (options.cleanup g).entry).isSome := by
  refine cleanup_induction (motive := fun g => (g.block? g.entry).isSome) ?_ ?_ options live
  · intro g b block live orphan _ notEntry
    rw [block?_removeBlock orphan, if_neg (fun e => notEntry e.symm)]
    split
    · rw [Option.isSome_map]
      exact live
    · exact live
  · intro g b block p value live _ _ _
    rw [block?_replacePhi, Option.isSome_map]
    exact live

/-- Once a graph was pruned, every block other than the entry has a
predecessor. -/
theorem preds_ne_nil_cleanup (g : Graph) {options : Options} (on : options.pruneUnreachable = true)
    {b : BlockId} {block : Block} (live : (options.cleanup g).block? b = some block) :
    b = g.entry ∨ block.preds ≠ [] := by
  have pruned : ∀ {b : BlockId} {block : Block}, g.prune.1.block? b = some block →
      b = g.entry ∨ block.preds ≠ [] := by
    intro b block live
    have none := g.orphans_prune
    by_cases entry : b = g.entry
    · exact Or.inl entry
    · right
      intro nil
      have : b ∈ g.prune.1.orphans := mem_orphans.mpr ⟨entry, block, live, nil⟩
      rw [none] at this
      exact List.not_mem_nil this
  rw [Options.cleanup, if_pos on] at live
  split at live
  · refine simplifyPhis_induction (motive := fun h => ∀ {b : BlockId} {block : Block},
      h.block? b = some block → b = g.entry ∨ block.preds ≠ []) ?_ pruned live
    intro h b block p value ih _ _ _ c new live
    obtain ⟨old, hold, rfl⟩ := block?_replacePhi_eq_some live
    rw [preds_replacePhi]
    exact ih hold
  · exact pruned live

end Graph

end StackLift
