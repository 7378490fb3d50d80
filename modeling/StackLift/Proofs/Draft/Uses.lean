import StackLift.Proofs.Draft.Ended

/-!
The uses of values in a draft. Each operation adds only the uses that it is
asked for: a statement those of its operands, the end of a block those of the
terminator and those of the phis that the edges lead to, all at the point where
the block was left off.
-/

namespace StackLift.Draft

variable {d d' : Draft}

/-- A phi takes its inputs from blocks that have their end. -/
theorem Sound.hasEnd_of_input (sound : d.Sound) {b pred : BlockId} {block : Block} {p : Phi}
    {v : ValueId} (live : d.graph.block? b = some block) (mem : p ∈ block.phis)
    (input : (pred, v) ∈ p.inputs) : d.HasEnd pred := by
  have source : pred ∈ block.preds := by
    rw [← sound.linked.inputs live mem]
    exact List.mem_map.mpr ⟨(pred, v), input, rfl⟩
  rw [sound.linked.recorded.mem_preds_iff live] at source
  cases hpred : d.graph.block? pred with
  | none => simp [Graph.successorsOf, hpred] at source
  | some block =>
      refine ⟨block, hpred, ?_⟩
      rw [Graph.successorsOf_eq hpred, Block.successors] at source
      cases last : block.terminator with
      | none => simp [last] at source
      | some t => rfl

/-- A use of a value stays where it is. -/
theorem Grows.usedAt (grows : d.Grows d') (sound : d.Sound) {v : ValueId} {p : Point}
    (used : d.graph.UsedAt v p) : d'.graph.UsedAt v p := by
  cases used with
  | stmt live get mem =>
      obtain ⟨block', live', grown⟩ := grows.block live
      exact .stmt live' (getElem?_of_isPrefix grown.stmts get) mem
  | terminator live last mem =>
      obtain ⟨block', live', grown⟩ := grows.block live
      obtain ⟨stmts, last'⟩ := grown.ended (by simp [last])
      rw [← stmts]
      exact .terminator live' (last'.trans last) mem
  | phi live mem input source_live =>
      obtain ⟨block', live', grown⟩ := grows.block live
      obtain ⟨p', mem', -, -, inputs⟩ := grown.phis _ mem
      obtain ⟨source', source_live', grown'⟩ := grows.block source_live
      obtain ⟨_, hsource, ended⟩ := sound.hasEnd_of_input live mem input
      rw [source_live] at hsource
      cases hsource
      rw [← (grown'.ended ended).1]
      exact .phi live' mem' (inputs.subset input) source_live'

theorem usedAt_emitted (sound : d.Sound) (isOpen : d.Open) {op : Op} {v : ValueId} {p : Point}
    (used : (d.emitted op).graph.UsedAt v p) :
    d.graph.UsedAt v p ∨ v ∈ op.operands ∧ p = d.point := by
  cases used with
  | @stmt b _ i s live get mem =>
      obtain ⟨before, hbefore, rfl⟩ := block?_emitted_eq_some live
      by_cases hb : b = d.cursor
      · subst hb
        rw [if_pos rfl] at get
        rcases getElem?_concat_eq_some get with old | ⟨rfl, rfl⟩
        · exact Or.inl (.stmt hbefore old mem)
        · refine Or.inr ⟨mem, ?_⟩
          rw [point, stmtIndex_eq hbefore]
      · rw [if_neg hb] at get
        exact Or.inl (.stmt hbefore get mem)
  | @terminator b _ t live last mem =>
      obtain ⟨before, hbefore, rfl⟩ := block?_emitted_eq_some live
      by_cases hb : b = d.cursor
      · subst hb
        rw [if_pos rfl] at last
        refine absurd ⟨before, hbefore, ?_⟩ isOpen.hasNoEnd
        have last : before.terminator = some t := last
        simp [last]
      · rw [if_neg hb] at last ⊢
        exact Or.inl (.terminator hbefore last mem)
  | @phi b pred _ _ q live mem input source_live =>
      obtain ⟨before, hbefore, phis, -⟩ := phis_emitted live
      obtain ⟨source, hsource, rfl⟩ := block?_emitted_eq_some source_live
      rw [phis] at mem
      have other : pred ≠ d.cursor := by
        rintro rfl
        exact isOpen.hasNoEnd (sound.hasEnd_of_input hbefore mem input)
      rw [if_neg other]
      exact Or.inl (.phi hbefore mem input hsource)

theorem usedAt_addBlock (sound : d.Sound) {direct : List BlockId} {v : ValueId} {p : Point}
    (used : (d.addBlock direct).graph.UsedAt v p) : d.graph.UsedAt v p := by
  cases used with
  | stmt live get mem =>
      rcases block?_addBlock_eq_some live with ⟨-, rfl⟩ | live
      · simp at get
      · exact .stmt live get mem
  | terminator live last mem =>
      rcases block?_addBlock_eq_some live with ⟨-, rfl⟩ | live
      · simp at last
      · exact .terminator live last mem
  | phi live mem input source_live =>
      rcases block?_addBlock_eq_some live with ⟨-, rfl⟩ | live
      · simp at mem
      · obtain ⟨source, hsource, -⟩ := sound.hasEnd_of_input live mem input
        rw [block?_addBlock_of_eq_some hsource] at source_live
        cases source_live
        exact .phi live mem input hsource

theorem usedAt_addIndexPhi (sound : d.Sound) {b pred : BlockId} {initial v : ValueId} {p : Point}
    (used : (d.addIndexPhi b pred initial).2.graph.UsedAt v p) :
    d.graph.UsedAt v p ∨ v = initial ∧
      ∃ source, d.graph.block? pred = some source ∧ p = ⟨pred, source.stmts.length⟩ := by
  have stmts : ∀ (c : BlockId) (before : Block),
      (if c = b then before.addPhi (d.indexPhi pred initial) else before).stmts = before.stmts := by
    intro c before
    split <;> rfl
  have terminator : ∀ (c : BlockId) (before : Block),
      (if c = b then before.addPhi (d.indexPhi pred initial) else before).terminator =
        before.terminator := by
    intro c before
    split <;> rfl
  cases used with
  | stmt live get mem =>
      obtain ⟨before, hbefore, rfl⟩ := block?_addIndexPhi_eq_some sound live
      rw [stmts] at get
      exact Or.inl (.stmt hbefore get mem)
  | terminator live last mem =>
      obtain ⟨before, hbefore, rfl⟩ := block?_addIndexPhi_eq_some sound live
      rw [terminator] at last
      rw [stmts]
      exact Or.inl (.terminator hbefore last mem)
  | phi live mem input source_live =>
      obtain ⟨before, hbefore, rfl⟩ := block?_addIndexPhi_eq_some sound live
      obtain ⟨source, hsource, rfl⟩ := block?_addIndexPhi_eq_some sound source_live
      rw [stmts]
      rcases mem_phis_addIndexPhi mem with old | ⟨rfl, rfl⟩
      · exact Or.inl (.phi hbefore old input hsource)
      · cases List.mem_singleton.mp input
        exact Or.inr ⟨rfl, source, hsource, rfl⟩

theorem usedAt_ended {t : Terminator} {slots : List ValueId}
    (can : d.CanEnd t slots) (ended : d.Ended t slots d') {v : ValueId} {p : Point}
    (used : d'.graph.UsedAt v p) :
    d.graph.UsedAt v p ∨
      p = d.point ∧ (v ∈ t.operands ∨ ∃ b ∈ d.mergesOf t.successors, v ∈ d.carried b slots) := by
  cases used with
  | stmt live get mem =>
      obtain ⟨before, hbefore, rfl⟩ := ended.block?_eq_some live
      rw [stmts_ended] at get
      exact Or.inl (.stmt hbefore get mem)
  | @terminator b _ t' live last mem =>
      obtain ⟨before, hbefore, rfl⟩ := ended.block?_eq_some live
      rw [terminator_ended] at last
      rw [stmts_ended]
      by_cases hb : b = d.cursor
      · subst hb
        rw [if_pos rfl] at last
        cases last
        exact Or.inr ⟨by rw [point, stmtIndex_eq hbefore], Or.inl mem⟩
      · rw [if_neg hb] at last
        exact Or.inl (.terminator hbefore last mem)
  | @phi b pred _ _ q live mem input source_live =>
      obtain ⟨before, hbefore, rfl⟩ := ended.block?_eq_some live
      obtain ⟨source, hsource, rfl⟩ := ended.block?_eq_some source_live
      rw [stmts_ended]
      by_cases target : b ∈ d.mergesOf t.successors
      · obtain ⟨q', w, hzip, rfl⟩ := mem_phis_ended target mem
        rcases List.mem_append.mp input with old | new
        · rcases List.mem_append.mp (List.of_mem_zip hzip).1 with hq | hq
          · exact Or.inl (.phi hbefore hq old hsource)
          · rw [(mem_newPhis can.slots hq).2.1] at old
            exact absurd old List.not_mem_nil
        · cases List.mem_singleton.mp new
          refine Or.inr ⟨?_, Or.inr ⟨b, target, (List.of_mem_zip hzip).2⟩⟩
          rw [point, stmtIndex_eq hsource]
      · rw [phis_ended_of_notMem target] at mem
        exact Or.inl (.phi hbefore mem input hsource)

/-- What an edge carries to a merge is used at the end of its source. -/
theorem usedAt_carried {t : Terminator} {slots : List ValueId} (can : d.CanEnd t slots)
    (ended : d.Ended t slots d') {b : BlockId} (target : b ∈ d.mergesOf t.successors) {v : ValueId}
    (mem : v ∈ d.carried b slots) : d'.graph.UsedAt v d.point := by
  obtain ⟨source, hsource, -⟩ := can.isOpen
  obtain ⟨block, live⟩ := Option.isSome_iff_exists.mp (can.targets b (mem_mergesOf.mp target).1).live
  have length := can.length ended target live
  obtain ⟨i, bound, rfl⟩ := List.getElem_of_mem mem
  have zipped : ((block.phis ++ d.newPhis b slots)[i], (d.carried b slots)[i]) ∈
      (block.phis ++ d.newPhis b slots).zip (d.carried b slots) :=
    List.mem_iff_getElem.mpr ⟨i, by rw [List.length_zip]; omega, List.getElem_zip⟩
  have received : ((block.phis ++ d.newPhis b slots)[i].receive d.cursor (d.carried b slots)[i]) ∈
      (d.ended t slots b block).phis := by
    rw [ended_of_mem target]
    exact List.mem_map.mpr ⟨_, zipped, rfl⟩
  have live' : d'.graph.block? b = some (d.ended t slots b block) := by
    rw [ended.block, live, Option.map_some]
  have hsource' : d'.graph.block? d.cursor = some (d.ended t slots d.cursor source) := by
    rw [ended.block, hsource, Option.map_some]
  have used := Graph.UsedAt.phi live' received (List.mem_append_right _ List.mem_cons_self) hsource'
  rwa [stmts_ended, ← stmtIndex_eq hsource] at used

end StackLift.Draft
