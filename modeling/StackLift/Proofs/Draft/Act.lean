import StackLift.Proofs.Draft.Uses

/-!
The acts that build a draft. An act is one of the operations of a draft together
with the conditions in which the pass performs it: what is read is in scope, or
is a value that a bracket held for the instruction, and has the type that it is
read at. Every act keeps a draft sound and lets it grow, and it uses no value
but those that it may read.
-/

namespace StackLift

/-- What an operation reads, with the types it reads it at. -/
def Op.inputs : Op → List (ValueId × ValueType)
  | .indexAdd lhs rhs | .indexLe lhs rhs | .indexEq lhs rhs => [(lhs, .index), (rhs, .index)]
  | .forElement seq index => [(seq, .value), (index, .index)]
  | op => op.operands.map fun v => (v, .value)

def Terminator.inputs : Terminator → List (ValueId × ValueType)
  | .goto _ => []
  | .branch cond _ _ => [(cond, .test)]
  | .ret value | .nonLocalRet value => [(value, .value)]

theorem Op.map_fst_inputs (op : Op) : op.inputs.map (·.1) = op.operands := by
  cases op <;> simp [Op.inputs, Op.operands, Function.comp_def]

theorem Op.inputs_mapOperands (f : ValueId → ValueId) (op : Op) :
    (op.mapOperands f).inputs = op.inputs.map fun e => (f e.1, e.2) := by
  cases op <;> simp [Op.inputs, Op.operands, Op.mapOperands, Function.comp_def]

theorem Terminator.map_fst_inputs (t : Terminator) : t.inputs.map (·.1) = t.operands := by
  cases t <;> rfl

theorem Terminator.inputs_mapOperands (f : ValueId → ValueId) (t : Terminator) :
    (t.mapOperands f).inputs = t.inputs.map fun e => (f e.1, e.2) := by
  cases t <;> rfl

/-- Values that brackets hold for an instruction, with the types it reads them
at, and the point from which on it takes them. -/
structure Carry where
  values : List (ValueId × ValueType)
  point : Point

/-- The instruction may take the value there from a bracket. -/
def Carry.Allows (carry : Carry) (v : ValueId) (p : Point) : Prop :=
  v ∈ carry.values.map (·.1) ∧ p.block = carry.point.block ∧ carry.point.index ≤ p.index

/-- The value is used where the instruction may take it from a bracket. -/
def Carry.Uses (carry : Carry) (d : Draft) (v : ValueId) : Prop :=
  ∃ index, carry.point.index ≤ index ∧ d.graph.UsedAt v ⟨carry.point.block, index⟩

theorem Carry.Uses.mono {carry : Carry} {d d' : Draft} {v : ValueId} (uses : carry.Uses d v)
    (grows : d.Grows d') (sound : d.Sound) : carry.Uses d' v := by
  obtain ⟨index, le, used⟩ := uses
  exact ⟨index, le, grows.usedAt sound used⟩

namespace Draft

/-- An edge leads to the block. -/
def HasPred (d : Draft) (b : BlockId) : Prop :=
  ∃ block, d.graph.block? b = some block ∧ block.preds ≠ []

/-- The value may be read at the place for the next statement. -/
structure Readable (d : Draft) (carry : Carry) (v : ValueId) (type : ValueType) : Prop where
  scope : d.InScope v d.point ∨ carry.Allows v d.point
  type : d.HasType v type

inductive Act (carry : Carry) (d : Draft) : Draft → Prop
  | emit {op : Op} (isOpen : d.Open) (inputs : ∀ e ∈ op.inputs, d.Readable carry e.1 e.2) :
      Act carry d (d.emitted op)
  | newMerge : Act carry d d.newMerge.2
  | newDirect : Act carry d d.newDirect.2
  | terminate {t : Terminator} {slots : List ValueId} {d' : Draft} (can : d.CanEnd t slots)
      (inputs : ∀ e ∈ t.inputs, d.Readable carry e.1 e.2)
      (scope : ∀ v ∈ slots, d.InScope v d.point)
      (next : ∀ b ∈ t.successors, b ∉ d.direct → ∀ {phi next : ValueId},
        d.loopIndices.lookup b = some (phi, next) → d.Readable carry next .index)
      (ok : terminate t slots d = .ok () d') : Act carry d d'
  | moveTo {b : BlockId} (ended : d.HasEnd d.cursor) (blank : d.Blank b) (hasPred : d.HasPred b) :
      Act carry d (d.moveTo b)
  | addIndexPhi {b pred : BlockId} {initial : ValueId} {block source : Block}
      (live : d.graph.block? b = some block) (preds : block.preds = [pred])
      (notDirect : b ∉ d.direct) (notEntry : b ≠ d.graph.entry)
      (source_live : d.graph.block? pred = some source) (ended : source.terminator.isSome)
      (scope : d.InScope initial ⟨pred, source.stmts.length⟩) (type : d.HasType initial .index) :
      Act carry d (d.addIndexPhi b pred initial).2
  | registerLoopIndex {b : BlockId} {phi next : ValueId}
      (unindexed : d.loopIndices.lookup b = none) (index : d.graph.DefinedAt phi ⟨b, 0⟩)
      (indexType : d.HasType phi .index)
      (defined : d.graph.DefinedAt next ⟨b, 2⟩) (type : d.HasType next .index) :
      Act carry d (d.registerLoopIndex b phi next)

variable {carry : Carry} {d d' : Draft}

theorem others_newDirect {b : BlockId} (ne : b ≠ d.graph.nextBlock) :
    b ∈ d.graph.nextBlock :: d.direct ↔ b ∈ d.direct := by
  rw [List.mem_cons]
  exact ⟨fun h => h.resolve_left ne, Or.inr⟩

theorem Act.sound (act : Act carry d d') (sound : d.Sound) : d'.Sound := by
  cases act with
  | emit isOpen _ => exact sound.emit isOpen _
  | newMerge => exact sound.addBlock fun _ => Iff.rfl
  | newDirect => exact sound.addBlock others_newDirect
  | terminate can _ _ _ ok => exact sound_ended sound can (can.ended sound ok)
  | moveTo ended _ _ => exact sound.moveTo ended _
  | addIndexPhi live preds notDirect notEntry _ _ _ _ =>
      exact sound.addIndexPhi live preds notDirect notEntry
  | registerLoopIndex unindexed _ _ defined _ => exact sound.registerLoopIndex unindexed defined

theorem Act.grows (act : Act carry d d') (sound : d.Sound) : d.Grows d' := by
  cases act with
  | emit isOpen _ => exact grows_emitted isOpen
  | newMerge => exact grows_addBlock fun _ => Iff.rfl
  | newDirect => exact grows_addBlock others_newDirect
  | terminate can _ _ _ ok => exact grows_ended can (can.ended sound ok)
  | moveTo _ _ _ => exact grows_moveTo d _
  | addIndexPhi _ _ _ _ _ _ _ _ => exact grows_addIndexPhi sound
  | registerLoopIndex unindexed _ _ _ _ => exact grows_registerLoopIndex unindexed

/-- What the end of a block brings to a merge may be read there. -/
theorem readable_carried {slots : List ValueId} {b : BlockId} {v : ValueId}
    (scope : ∀ v ∈ slots, d.InScope v d.point)
    (next : ∀ {phi next : ValueId}, d.loopIndices.lookup b = some (phi, next) →
      d.Readable carry next .index)
    (mem : v ∈ d.carried b slots) : d.InScope v d.point ∨ carry.Allows v d.point := by
  rcases List.mem_append.mp mem with slot | index
  · exact Or.inl (scope v slot)
  · cases registered : d.loopIndices.lookup b with
    | none => simp [registered] at index
    | some e =>
        obtain ⟨phi, w⟩ := e
        obtain rfl : v = w := by simpa [registered] using index
        exact (next registered).scope

/-- The values that an act uses are in scope, or a bracket held them. -/
theorem Act.usedAt (act : Act carry d d') (sound : d.Sound) {v : ValueId} {p : Point}
    (used : d'.graph.UsedAt v p) :
    d.graph.UsedAt v p ∨ d'.InScope v p ∨ carry.Allows v p := by
  have grows := act.grows sound
  cases act with
  | @emit op isOpen inputs =>
      refine (usedAt_emitted sound isOpen used).imp id ?_
      rintro ⟨mem, rfl⟩
      rw [← op.map_fst_inputs] at mem
      obtain ⟨e, he, rfl⟩ := List.mem_map.mp mem
      exact (inputs e he).scope.imp (·.mono grows) id
  | newMerge => exact Or.inl (usedAt_addBlock sound used)
  | newDirect => exact Or.inl (usedAt_addBlock sound used)
  | @terminate t slots _ can inputs scope next ok =>
      refine (usedAt_ended can (can.ended sound ok) used).imp id ?_
      rintro ⟨rfl, operand | ⟨b, target, carried⟩⟩
      · rw [← t.map_fst_inputs] at operand
        obtain ⟨e, he, rfl⟩ := List.mem_map.mp operand
        exact (inputs e he).scope.imp (·.mono grows) id
      · obtain ⟨mem, notDirect⟩ := mem_mergesOf.mp target
        exact (readable_carried scope (next b mem notDirect) carried).imp (·.mono grows) id
  | moveTo _ _ _ => exact Or.inl used
  | addIndexPhi _ _ _ _ source_live _ scope _ =>
      refine (usedAt_addIndexPhi sound used).imp id ?_
      rintro ⟨rfl, source, hsource, rfl⟩
      rw [source_live] at hsource
      cases hsource
      exact Or.inl (scope.mono grows)
  | registerLoopIndex _ _ _ _ _ => exact Or.inl used

/-- Acts, one after the other. -/
inductive Acts (carry : Carry) (d : Draft) : Draft → Prop
  | refl : Acts carry d d
  | step {d₁ d₂ : Draft} (acts : Acts carry d d₁) (act : Act carry d₁ d₂) : Acts carry d d₂

theorem Acts.trans {d₁ d₂ : Draft} (first : Acts carry d d₁) (second : Acts carry d₁ d₂) :
    Acts carry d d₂ := by
  induction second with
  | refl => exact first
  | step _ act ih => exact ih.step act

theorem Acts.sound (acts : Acts carry d d') (sound : d.Sound) : d'.Sound := by
  induction acts with
  | refl => exact sound
  | step _ act ih => exact act.sound ih

theorem Acts.grows (acts : Acts carry d d') (sound : d.Sound) : d.Grows d' := by
  induction acts with
  | refl => exact .refl d
  | step acts act ih => exact ih.trans (act.grows (acts.sound sound))

/-- The values that acts use are in scope, or a bracket held them. -/
theorem Acts.usedAt (acts : Acts carry d d') (sound : d.Sound) {v : ValueId} {p : Point}
    (used : d'.graph.UsedAt v p) :
    d.graph.UsedAt v p ∨ d'.InScope v p ∨ carry.Allows v p := by
  induction acts with
  | refl => exact Or.inl used
  | step acts act ih =>
      rcases act.usedAt (acts.sound sound) used with before | now
      · exact (ih before).imp id (Or.imp (·.mono (act.grows (acts.sound sound))) id)
      · exact Or.inr now

/-! ### Merges and blank blocks -/

/-- Nothing is written to a blank block while another one is under construction. -/
theorem Act.blank (act : Act carry d d') (sound : d.Sound) {b : BlockId} (blank : d.Blank b)
    (other : b ≠ d.cursor) : d'.Blank b := by
  obtain ⟨block, live, stmts, none⟩ := blank
  cases act with
  | emit _ _ => exact ⟨block, by rw [block?_emitted, if_neg other, live], stmts, none⟩
  | newMerge => exact ⟨block, block?_addBlock_of_eq_some live, stmts, none⟩
  | newDirect => exact ⟨block, block?_addBlock_of_eq_some live, stmts, none⟩
  | terminate can _ _ _ ok =>
      refine ⟨_, by rw [(can.ended sound ok).block, live, Option.map_some], ?_, ?_⟩
      · rw [stmts_ended, stmts]
      · rw [terminator_ended, if_neg other, none]
  | moveTo _ _ _ => exact ⟨block, live, stmts, none⟩
  | @addIndexPhi c pred initial _ _ _ _ _ _ _ _ _ _ =>
      rw [Blank, block?_addIndexPhi sound]
      by_cases hb : b = c
      · rw [if_pos hb, live]
        exact ⟨_, rfl, stmts, none⟩
      · rw [if_neg hb]
        exact ⟨block, live, stmts, none⟩
  | registerLoopIndex _ _ _ _ _ => exact ⟨block, live, stmts, none⟩

theorem Merge.emit {c : BlockId} (merge : d.Merge c) (op : Op) : (d.emitted op).Merge c where
  notDirect := merge.notDirect
  phis := by
    intro block live
    obtain ⟨before, hbefore, phis, -⟩ := phis_emitted live
    rw [phis, merge.phis hbefore]
    rfl
  unindexed := merge.unindexed

theorem Merge.addBlock {direct : List BlockId}
    (others : ∀ {b : BlockId}, b ≠ d.graph.nextBlock → (b ∈ direct ↔ b ∈ d.direct)) {c : BlockId}
    (merge : d.Merge c) (made : (d.graph.block? c).isSome) : (d.addBlock direct).Merge c := by
  obtain ⟨block, live⟩ := Option.isSome_iff_exists.mp made
  refine ⟨fun mem => merge.notDirect ((others (ne_nextBlock live)).mp mem), ?_, merge.unindexed⟩
  intro block' live'
  rw [block?_addBlock_of_eq_some live] at live'
  cases live'
  exact merge.phis live

/-- A new merge has no phis yet. -/
theorem merge_newMerge (sound : d.Sound) : d.newMerge.2.Merge d.newMerge.1 := by
  obtain ⟨shape, notDirect, index⟩ := sound.unmade (block?_nextBlock d.graph)
  refine ⟨notDirect, ?_, fun _ => index⟩
  intro block live
  rcases block?_addBlock_eq_some live with ⟨-, rfl⟩ | live
  · have none : d.newMerge.2.phisOf d.newMerge.1 = [] := by
      have shape : d.newMerge.2.shape? d.newMerge.1 = Option.none := shape
      have index : d.newMerge.2.loopIndices.lookup d.newMerge.1 = Option.none := index
      simp [phisOf, shape, index]
    rw [none]
    rfl
  · exact absurd rfl (ne_nextBlock live)

theorem Merge.ended {t : Terminator} {slots : List ValueId} (can : d.CanEnd t slots)
    (ended : d.Ended t slots d') {c : BlockId} (merge : d.Merge c) : d'.Merge c where
  notDirect := ended.direct ▸ merge.notDirect
  phis := by
    intro block live
    obtain ⟨before, hbefore, rfl⟩ := ended.block?_eq_some live
    rw [phisOf, ended.shape, ended.loopIndices]
    by_cases target : c ∈ d.mergesOf t.successors
    · rw [map_value_ended can ended target hbefore, if_pos target, merge.phis hbefore, phisOf]
      cases shape : d.shape? c with
      | some phis => simp [newPhis_eq_nil shape]
      | none => simp [merge.unindexed shape]
    · rw [phis_ended_of_notMem target, if_neg target, merge.phis hbefore, phisOf]
  unindexed := by
    intro none
    rw [ended.loopIndices]
    rw [ended.shape] at none
    split at none
    · cases none
    · exact merge.unindexed none

theorem Merge.addIndexPhi (sound : d.Sound) {b c pred : BlockId} {initial : ValueId}
    (merge : d.Merge c) (other : c ≠ b) : (d.addIndexPhi b pred initial).2.Merge c where
  notDirect := merge.notDirect
  phis := by
    intro block live
    rw [block?_addIndexPhi sound, if_neg other] at live
    exact merge.phis live
  unindexed := merge.unindexed

theorem Merge.registerLoopIndex {b c : BlockId} {phi next : ValueId} (merge : d.Merge c)
    (other : c ≠ b) : (d.registerLoopIndex b phi next).Merge c where
  notDirect := merge.notDirect
  phis := by
    intro block live
    rw [phisOf, lookup_registerLoopIndex, if_neg other]
    exact merge.phis live
  unindexed := by
    rw [lookup_registerLoopIndex, if_neg other]
    exact merge.unindexed

end Draft

end StackLift
