import StackLift.Graph.Basic

/-!
What each operation does to the blocks of a graph, read through `block?`, and
how many blocks it leaves. With these, no later argument looks at the list that
holds the blocks.
-/

namespace StackLift

theorem BlockId.ext_iff {b c : BlockId} : b = c ↔ b.index = c.index := by
  cases b
  cases c
  simp

namespace Graph

theorem block?_updateBlock (g : Graph) (b c : BlockId) (f : Block → Block) :
    (g.updateBlock b f).block? c = if c = b then (g.block? c).map f else g.block? c := by
  simp only [updateBlock, block?, List.getElem?_modify]
  by_cases h : b.index = c.index
  · have hcb : c = b := BlockId.ext_iff.mpr h.symm
    subst hcb
    cases g.blocks[c.index]? with
    | none => simp
    | some block => simp
  · have hcb : c ≠ b := fun e => h (congrArg BlockId.index e.symm)
    simp [h, hcb]

@[simp] theorem block?_addValue (g : Graph) (type : ValueType) (definition : Definition)
    (b : BlockId) : (g.addValue type definition).block? b = g.block? b := rfl

theorem block?_addBlock (g : Graph) (b : BlockId) :
    g.addBlock.2.block? b = if b = g.nextBlock then some {} else g.block? b := by
  simp only [addBlock, block?, nextBlock, BlockId.ext_iff, List.getElem?_append]
  by_cases h : b.index < g.blocks.length
  · simp [h, Nat.ne_of_lt h]
  · by_cases heq : b.index = g.blocks.length
    · simp [heq]
    · have hpos : b.index - g.blocks.length ≠ 0 := by omega
      obtain ⟨k, hk⟩ := Nat.exists_eq_succ_of_ne_zero hpos
      simp [h, heq, hk]

theorem block?_addStmt (g : Graph) (b c : BlockId) (op : Op) :
    (g.addStmt b op).2.block? c =
      if c = b then (g.block? c).map (·.append ⟨g.nextValue, op⟩) else g.block? c := by
  simp [addStmt, block?_updateBlock]

theorem block?_addPhi (g : Graph) (b c : BlockId) (type : ValueType) :
    (g.addPhi b type).2.block? c =
      if c = b then (g.block? c).map (·.addPhi { value := g.nextValue, type }) else g.block? c := by
  simp [addPhi, block?_updateBlock]

theorem block?_addPhiInput (g : Graph) (b c pred : BlockId) (phi value : ValueId) :
    (g.addPhiInput b phi pred value).block? c =
      if c = b then (g.block? c).map (·.addInput phi pred value) else g.block? c := by
  simp [addPhiInput, block?_updateBlock]

/-- Each block takes on the source once for every edge that leads to it. -/
theorem block?_foldl_addPred (succs : List BlockId) (b c : BlockId) (g : Graph) :
    (succs.foldl (fun g succ => g.updateBlock succ (·.addPred b)) g).block? c =
      (g.block? c).map fun block =>
        { block with preds := block.preds ++ List.replicate (succs.count c) b } := by
  induction succs generalizing g with
  | nil => cases h : g.block? c <;> simp [h]
  | cons succ succs ih =>
      rw [List.foldl_cons, ih, block?_updateBlock]
      by_cases h : c = succ
      · subst h
        cases g.block? c with
        | none => simp
        | some block => simp [Block.addPred, List.replicate_succ]
      · have hne : succ ≠ c := fun e => h e.symm
        simp [h, List.count_cons_of_ne hne]

theorem block?_addEnd (g : Graph) (b c : BlockId) (t : Terminator) :
    (g.addEnd b t).block? c =
      (g.block? c).map fun block =>
        { block with
          terminator := if c = b then some t else block.terminator
          preds := block.preds ++ List.replicate (t.successors.count c) b } := by
  rw [addEnd, block?_foldl_addPred, block?_updateBlock]
  by_cases h : c = b
  · subst h
    cases g.block? c <;> simp
  · simp [h]

/-! ### Conditions of operations -/

theorem setTerminator_eq_ok_iff {g g' : Graph} {b : BlockId} {t : Terminator} :
    g.setTerminator b t = .ok g' ↔ g.isTerminated b = false ∧ g.addEnd b t = g' := by
  rw [setTerminator]
  cases g.isTerminated b <;> simp

/-- The type of a value, where the value is there. -/
def typeOf (g : Graph) (v : ValueId) : ValueType :=
  match g.values[v.index]? with
  | some info => info.type
  | none => .value

theorem valueType_eq_ok_iff {g : Graph} {v : ValueId} {type : ValueType} :
    g.valueType v = .ok type ↔ v.index < g.values.length ∧ g.typeOf v = type := by
  rw [valueType, typeOf]
  by_cases known : v.index < g.values.length
  · simp [known]
  · simp [known]

theorem valueTypes_eq_ok_iff {g : Graph} {vs : List ValueId} {types : List ValueType} :
    g.valueTypes vs = .ok types ↔
      (∀ v ∈ vs, v.index < g.values.length) ∧ vs.map g.typeOf = types := by
  induction vs generalizing types with
  | nil => simp [valueTypes, pure, Except.pure]
  | cons v rest ih =>
      rw [valueTypes]
      cases first : g.valueType v with
      | error breach =>
          have unknown : ¬ v.index < g.values.length := fun known => by
            simp [valueType_eq_ok_iff.mpr ⟨known, rfl⟩] at first
          simp [bind, Except.bind, unknown]
      | ok type =>
          obtain ⟨known, isType⟩ := valueType_eq_ok_iff.mp first
          cases others : g.valueTypes rest with
          | error breach =>
              have unknown : ¬ ∀ v ∈ rest, v.index < g.values.length := fun known => by
                simp [ih.mpr ⟨known, rfl⟩] at others
              simp [bind, Except.bind, unknown]
          | ok types' =>
              obtain ⟨known', areTypes⟩ := ih.mp others
              simp only [bind, Except.bind, pure, Except.pure, List.forall_mem_cons, known,
                List.map_cons, isType, areTypes, Except.ok.injEq, true_and]
              exact ⟨fun same => ⟨known', same⟩, And.right⟩

theorem Block.dropPred_dropPred (b : BlockId) (block : Block) :
    (block.dropPred b).dropPred b = block.dropPred b := by
  simp [Block.dropPred]

theorem block?_foldl_dropPred (succs : List BlockId) (b c : BlockId) (g : Graph) :
    (succs.foldl (fun g succ => g.updateBlock succ (·.dropPred b)) g).block? c =
      if c ∈ succs then (g.block? c).map (·.dropPred b) else g.block? c := by
  induction succs generalizing g with
  | nil => simp
  | cons succ succs ih =>
      rw [List.foldl_cons, ih, block?_updateBlock]
      by_cases h : c = succ
      · subst h
        cases g.block? c with
        | none => simp
        | some block => simp [Block.dropPred_dropPred]
      · simp [h]

theorem values_foldl_updateBlock (f : Block → Block) (bs : List BlockId) (g : Graph) :
    (bs.foldl (fun g b => g.updateBlock b f) g).values = g.values := by
  induction bs generalizing g with
  | nil => rfl
  | cons b bs ih => exact ih _

theorem block?_removeBlock_of_eq_none {g : Graph} {b : BlockId} (h : g.block? b = none) :
    g.removeBlock b = g := by
  simp [removeBlock, h]

theorem block?_removeBlock {g : Graph} {b : BlockId} {block : Block}
    (h : g.block? b = some block) (c : BlockId) :
    (g.removeBlock b).block? c =
      if c = b then none
      else if c ∈ block.successors then (g.block? c).map (·.dropPred b)
      else g.block? c := by
  have cleared : ({ g with blocks := g.blocks.set b.index none } : Graph).block? c =
      if c = b then none else g.block? c := by
    simp only [block?, List.getElem?_set]
    by_cases hcb : c = b
    · subst hcb
      by_cases hlt : c.index < g.blocks.length <;> simp [hlt]
    · have : b.index ≠ c.index := fun e => hcb (BlockId.ext_iff.mpr e.symm)
      simp [this, hcb]
  simp only [removeBlock, h]
  rw [block?_foldl_dropPred, cleared]
  by_cases hcb : c = b
  · simp [hcb]
  · simp [hcb]

@[simp] theorem block?_mapUses (g : Graph) (f : ValueId → ValueId) (b : BlockId) :
    (g.mapUses f).block? b = (g.block? b).map (Block.mapUses f) := by
  simp only [mapUses, block?, List.getElem?_map]
  cases g.blocks[b.index]? with
  | none => rfl
  | some block => cases block <;> rfl

/-! ### The live blocks -/

theorem mem_liveFrom {n : Nat} {blocks : List (Option Block)} {b : BlockId} {block : Block} :
    (b, block) ∈ liveFrom n blocks ↔
      n ≤ b.index ∧ blocks[b.index - n]? = some (some block) := by
  induction blocks generalizing n with
  | nil => simp [liveFrom]
  | cons o blocks ih =>
      have shift : n < b.index → (o :: blocks)[b.index - n]? = blocks[b.index - (n + 1)]? := by
        intro hlt
        have hsub : b.index - n = b.index - (n + 1) + 1 := by omega
        rw [hsub, List.getElem?_cons_succ]
      rcases Nat.lt_trichotomy b.index n with hlt | heq | hgt
      · have hle : ¬n ≤ b.index := by omega
        have hle' : ¬n + 1 ≤ b.index := by omega
        have hne : b ≠ ⟨n⟩ := fun e => by simp [e] at hlt
        cases o <;> simp [liveFrom, ih, hle, hle', hne]
      · have hb : b = ⟨n⟩ := BlockId.ext_iff.mpr heq
        subst hb
        have hnot : ¬n + 1 ≤ n := Nat.not_succ_le_self n
        cases o with
        | none => simp [liveFrom, ih, hnot]
        | some block' => simp [liveFrom, ih, hnot, eq_comm]
      · have hle : n ≤ b.index := by omega
        have hle' : n + 1 ≤ b.index := by omega
        have hne : b ≠ ⟨n⟩ := fun e => by simp [e] at hgt
        rw [shift hgt]
        cases o <;> simp [liveFrom, ih, hle, hle', hne]

theorem mem_liveBlocks {g : Graph} {b : BlockId} {block : Block} :
    (b, block) ∈ g.liveBlocks ↔ g.block? b = some block := by
  rw [liveBlocks, mem_liveFrom, block?, Option.join_eq_some_iff]
  simp

theorem nodup_liveFrom (n : Nat) (blocks : List (Option Block)) :
    ((liveFrom n blocks).map (·.1)).Nodup := by
  induction blocks generalizing n with
  | nil => simp [liveFrom]
  | cons o blocks ih =>
      cases o with
      | none => exact ih (n + 1)
      | some block =>
          rw [liveFrom, List.map_cons, List.nodup_cons]
          refine ⟨fun hmem => ?_, ih (n + 1)⟩
          obtain ⟨⟨b, block'⟩, hin, rfl⟩ := List.mem_map.mp hmem
          exact Nat.not_succ_le_self n (mem_liveFrom.mp hin).1

/-- A block is listed once. -/
theorem nodup_liveBlocks (g : Graph) : (g.liveBlocks.map (·.1)).Nodup :=
  nodup_liveFrom 0 g.blocks

theorem length_liveFrom (n : Nat) (blocks : List (Option Block)) :
    (liveFrom n blocks).length = blocks.countP Option.isSome := by
  induction blocks generalizing n with
  | nil => rfl
  | cons o blocks ih => cases o <;> simp [liveFrom, ih]

/-- The number of live blocks only depends on which places are empty. -/
theorem liveCount_eq_countP (g : Graph) : g.liveCount = g.blocks.countP Option.isSome :=
  length_liveFrom 0 g.blocks

@[simp] theorem liveCount_updateBlock (g : Graph) (b : BlockId) (f : Block → Block) :
    (g.updateBlock b f).liveCount = g.liveCount := by
  simp only [liveCount_eq_countP, updateBlock]
  induction g.blocks generalizing b with
  | nil => simp
  | cons o blocks ih =>
      obtain ⟨i⟩ := b
      cases i with
      | zero => cases o <;> simp
      | succ i =>
          have := ih ⟨i⟩
          cases o <;> simp_all

theorem liveCount_foldl_updateBlock (succs : List BlockId) (f : BlockId → Block → Block)
    (g : Graph) :
    (succs.foldl (fun g succ => g.updateBlock succ (f succ)) g).liveCount = g.liveCount := by
  induction succs generalizing g with
  | nil => rfl
  | cons succ succs ih => rw [List.foldl_cons, ih, liveCount_updateBlock]

theorem countP_set_none {blocks : List (Option Block)} {i : Nat} {block : Block}
    (h : blocks[i]? = some (some block)) :
    (blocks.set i none).countP Option.isSome + 1 = blocks.countP Option.isSome := by
  induction blocks generalizing i with
  | nil => simp at h
  | cons o blocks ih =>
      cases i with
      | zero =>
          simp only [List.getElem?_cons_zero, Option.some.injEq] at h
          subst h
          simp
      | succ i =>
          have := ih (by simpa using h)
          cases o with
          | none => simpa using this
          | some _ =>
              simp only [List.set_cons_succ, List.countP_cons, Option.isSome_some, ite_true]
              omega

/-- Removing a live block leaves one block less. -/
theorem liveCount_removeBlock {g : Graph} {b : BlockId} {block : Block}
    (h : g.block? b = some block) : (g.removeBlock b).liveCount + 1 = g.liveCount := by
  simp only [removeBlock, h]
  rw [liveCount_foldl_updateBlock block.successors (fun _ blk => blk.dropPred b)]
  simp only [liveCount_eq_countP]
  have hget : g.blocks[b.index]? = some (some block) := by
    simp only [block?] at h
    cases hget : g.blocks[b.index]? with
    | none => simp [hget] at h
    | some o => simp_all
  exact countP_set_none hget

end Graph

end StackLift
