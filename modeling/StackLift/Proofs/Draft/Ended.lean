import StackLift.Proofs.Draft.Sound

/-!
Ending a block keeps a draft sound, when the block under construction is open,
the edges lead to different blocks, and every target is a merge or a direct
block that no edge leads to yet.
-/

namespace StackLift

theorem exists_zip_of_mem {α β : Type} {as : List α} {bs : List β} (length : as.length = bs.length)
    {a : α} (mem : a ∈ as) : ∃ b, (a, b) ∈ as.zip bs := by
  induction as generalizing bs with
  | nil => simp at mem
  | cons a' as ih =>
      cases bs with
      | nil => simp at length
      | cons b bs =>
          rcases List.mem_cons.mp mem with rfl | mem
          · exact ⟨b, List.mem_cons_self⟩
          · obtain ⟨b', hmem⟩ := ih (Nat.succ.inj length) mem
            exact ⟨b', List.mem_cons_of_mem _ hmem⟩

/-- Receiving an input changes the values of no phi. -/
theorem Phi.map_value_receive (source : BlockId) {phis : List Phi} {values : List ValueId}
    (length : phis.length = values.length) :
    ((phis.zip values).map fun (p, v) => p.receive source v).map (·.value) =
      phis.map (·.value) := by
  have firsts : phis.map (·.value) = ((phis.zip values).map Prod.fst).map (·.value) := by
    rw [List.map_fst_zip (Nat.le_of_eq length)]
  rw [firsts, List.map_map, List.map_map]
  rfl

namespace Draft

/-- A block to which an edge may be wired. -/
structure Target (d : Draft) (b : BlockId) : Prop where
  live : (d.graph.block? b).isSome
  merge : b ∉ d.direct → d.Merge b
  direct : b ∈ d.direct → ∀ {block : Block}, d.graph.block? b = some block → block.preds = []

/-- Where the block under construction may be ended in this way. -/
structure CanEnd (d : Draft) (t : Terminator) (slots : List ValueId) : Prop where
  isOpen : d.Open
  apart : t.successors.Nodup
  few : (d.mergesOf t.successors).length ≤ 1
  targets : ∀ b ∈ t.successors, d.Target b
  slots : ∀ v ∈ slots, d.HasType v .value

section

variable {d d' : Draft} {t : Terminator} {slots : List ValueId}

theorem CanEnd.merge (can : d.CanEnd t slots) {b : BlockId} (mem : b ∈ d.mergesOf t.successors) :
    d.Merge b := by
  obtain ⟨mem, notDirect⟩ := mem_mergesOf.mp mem
  exact (can.targets b mem).merge notDirect

theorem CanEnd.ended (can : d.CanEnd t slots) (sound : d.Sound)
    (h : terminate t slots d = .ok () d') : d.Ended t slots d' :=
  ended_of_terminate can.few (fun _ => can.merge) sound.distinct (fun v mem => (can.slots v mem).lt)
    h

/-- An edge has a value for every phi of the merge it leads to. -/
theorem CanEnd.length (can : d.CanEnd t slots) (ended : d.Ended t slots d') {b : BlockId}
    {block : Block} (mem : b ∈ d.mergesOf t.successors) (live : d.graph.block? b = some block) :
    (block.phis ++ d.newPhis b slots).length = (d.carried b slots).length := by
  have ids := congrArg List.length ((can.merge mem).phis live)
  have types := congrArg List.length (ended.types b mem)
  simp only [List.length_map, List.length_append, phisOf, carried] at ids types ⊢
  have index : ((d.loopIndices.lookup b).map (·.1)).toList.length =
      ((d.loopIndices.lookup b).map (·.2)).toList.length := by
    cases d.loopIndices.lookup b <;> rfl
  omega

/-- A phi of a merge was there before or is new, and it received what the edge
carries for it. -/
theorem mem_phis_ended {b : BlockId} {block : Block} {p : Phi}
    (mem : b ∈ d.mergesOf t.successors) (hp : p ∈ (d.ended t slots b block).phis) :
    ∃ q v, (q, v) ∈ (block.phis ++ d.newPhis b slots).zip (d.carried b slots) ∧
      p = q.receive d.cursor v := by
  rw [ended_of_mem mem] at hp
  obtain ⟨⟨q, v⟩, hmem, rfl⟩ := List.mem_map.mp hp
  exact ⟨q, v, hmem, rfl⟩

theorem phis_ended_of_notMem {b : BlockId} (notMem : b ∉ d.mergesOf t.successors) (block : Block) :
    (d.ended t slots b block).phis = block.phis := by
  rw [ended_of_notMem notMem]
  rfl

@[simp] theorem stmts_ended (b : BlockId) (block : Block) :
    (d.ended t slots b block).stmts = block.stmts := by
  rw [Draft.ended]
  split <;> rfl

@[simp] theorem preds_ended (b : BlockId) (block : Block) :
    (d.ended t slots b block).preds =
      block.preds ++ List.replicate (t.successors.count b) d.cursor := by
  rw [Draft.ended]
  split <;> rfl

@[simp] theorem terminator_ended (b : BlockId) (block : Block) :
    (d.ended t slots b block).terminator = if b = d.cursor then some t else block.terminator := by
  rw [Draft.ended]
  split <;> rfl

/-- A merge gets new phis when it has no shape: without inputs, for values, and
numbered after all values. -/
theorem mem_newPhis (typed : ∀ v ∈ slots, d.HasType v .value) {b : BlockId} {p : Phi}
    (mem : p ∈ d.newPhis b slots) :
    d.shape? b = none ∧ p.inputs = [] ∧ p.type = .value ∧
      d.graph.values.length ≤ p.value.index := by
  cases shape : d.shape? b with
  | some phis =>
      rw [newPhis_eq_nil shape] at mem
      exact absurd mem List.not_mem_nil
  | none =>
      rw [newPhis_eq_fresh shape] at mem
      refine ⟨rfl, Phi.inputs_of_mem_fresh mem, ?_, (Phi.value_of_mem_fresh mem).1⟩
      have type := List.mem_map_of_mem (f := Phi.type) mem
      rw [Phi.map_type_fresh] at type
      obtain ⟨v, hv, heq⟩ := List.mem_map.mp type
      rw [← heq, (typed v hv).typeOf]

variable (sound : d.Sound) (can : d.CanEnd t slots) (ended : d.Ended t slots d')

include ended in
theorem Ended.block?_eq_some {b : BlockId} {block : Block} (live : d'.graph.block? b = some block) :
    ∃ before, d.graph.block? b = some before ∧ block = d.ended t slots b before := by
  rw [ended.block] at live
  obtain ⟨before, hbefore, rfl⟩ := Option.map_eq_some_iff.mp live
  exact ⟨before, hbefore, rfl⟩

include can ended in
theorem phis_grow {b : BlockId} {block : Block} (live : d.graph.block? b = some block) :
    ∀ p ∈ block.phis, ∃ p' ∈ (d.ended t slots b block).phis, p'.value = p.value ∧
      p'.type = p.type ∧ p.inputs <+: p'.inputs := by
  intro p mem
  by_cases target : b ∈ d.mergesOf t.successors
  · obtain ⟨v, hmem⟩ := exists_zip_of_mem (can.length ended target live)
      (List.mem_append_left (d.newPhis b slots) mem)
    rw [ended_of_mem target]
    exact ⟨p.receive d.cursor v, List.mem_map.mpr ⟨(p, v), hmem, rfl⟩, rfl, rfl,
      List.prefix_append _ _⟩
  · rw [phis_ended_of_notMem target]
    exact ⟨p, mem, rfl, rfl, List.prefix_refl _⟩

include can ended in
/-- A merge that an edge was wired to has its phis and the new ones. -/
theorem map_value_ended {b : BlockId} {block : Block} (target : b ∈ d.mergesOf t.successors)
    (live : d.graph.block? b = some block) :
    (d.ended t slots b block).phis.map (·.value) =
      block.phis.map (·.value) ++ (d.newPhis b slots).map (·.value) := by
  have values := Phi.map_value_receive d.cursor (can.length ended target live)
  rw [ended_of_mem target, ← List.map_append]
  exact values

include can ended in
theorem grows_ended : d.Grows d' where
  block := by
    intro b block live
    refine ⟨d.ended t slots b block, by rw [ended.block, live, Option.map_some], ?_, fun some => ?_,
      phis_grow can ended live, ?_⟩
    · exact stmts_ended b block ▸ List.prefix_refl _
    · have other : b ≠ d.cursor := by
        rintro rfl
        exact can.isOpen.hasNoEnd ⟨block, live, some⟩
      rw [stmts_ended, terminator_ended, if_neg other]
      exact ⟨rfl, rfl⟩
    · rw [preds_ended]
      exact List.prefix_append _ _
  values := by
    rw [ended.values]
    exact List.prefix_append _ _
  shape := by
    intro b phis shaped
    rw [ended.shape]
    split
    · rw [newPhis_eq_nil shaped, shaped, Option.getD_some, List.map_nil, List.append_nil]
    · exact shaped
  direct _ := by rw [ended.direct]
  source := by
    intro b p block block' live live' mem preds
    obtain ⟨before, hbefore, rfl⟩ := ended.block?_eq_some live'
    rw [live] at hbefore
    cases hbefore
    have notTarget : b ∉ t.successors := by
      intro target
      have none := (can.targets b target).direct mem live
      rw [preds] at none
      cases none
    rw [preds_ended, List.count_eq_zero.mpr notTarget, preds]
    rfl
  loopIndex := by
    intro b e registered
    rw [ended.loopIndices]
    exact registered

include can ended in
theorem successorsOf_ended (b : BlockId) : d'.graph.successorsOf b =
    if b = d.cursor then t.successors else d.graph.successorsOf b := by
  rw [Graph.successorsOf, Graph.successorsOf, ended.block]
  by_cases hb : b = d.cursor
  · obtain ⟨block, live, -⟩ := can.isOpen
    rw [if_pos hb, hb, live, Option.map_some]
    simp [Block.successors]
  · rw [if_neg hb]
    cases d.graph.block? b with
    | none => rfl
    | some block => simp [Block.successors, hb]

/-- The open block leads nowhere yet. -/
theorem Open.successorsOf (isOpen : d.Open) : d.graph.successorsOf d.cursor = [] := by
  obtain ⟨block, live, none⟩ := isOpen
  rw [Graph.successorsOf_eq live, Block.successors, none]

include sound can ended in
theorem linked_ended : d'.graph.Linked where
  live := by
    intro b c mem
    have live : (d.graph.block? c).isSome := by
      rw [successorsOf_ended can ended] at mem
      split at mem
      · exact (can.targets c mem).live
      · exact sound.linked.live mem
    rw [ended.block, Option.isSome_map]
    exact live
  preds := by
    intro b block live p
    obtain ⟨before, hbefore, rfl⟩ := ended.block?_eq_some live
    rw [successorsOf_ended can ended, preds_ended, List.count_append, sound.linked.preds hbefore,
      List.count_replicate]
    by_cases hp : p = d.cursor
    · subst hp
      simp [can.isOpen.successorsOf]
    · have other : (d.cursor == p) = false := beq_eq_false_iff_ne.mpr fun e => hp e.symm
      simp [hp, other]
  inputs := by
    intro b block p live mem
    obtain ⟨before, hbefore, rfl⟩ := ended.block?_eq_some live
    rw [preds_ended]
    by_cases target : b ∈ d.mergesOf t.successors
    · obtain ⟨q, v, hzip, rfl⟩ := mem_phis_ended target mem
      have once : t.successors.count b = 1 :=
        by
        rw [can.apart.count, if_pos (mem_mergesOf.mp target).1]
      have inputs : q.inputs.map (·.1) = before.preds := by
        rcases List.mem_append.mp (List.of_mem_zip hzip).1 with old | new
        · exact sound.linked.inputs hbefore old
        · obtain ⟨none, inputs, -⟩ := mem_newPhis can.slots new
          rw [inputs, sound.unshaped hbefore (mem_mergesOf.mp target).2 none]
          rfl
      simp [Phi.receive, inputs, once]
    · rw [phis_ended_of_notMem target] at mem
      have notMem : b ∉ t.successors := by
        intro hb
        have direct : b ∈ d.direct := by
          by_cases h : b ∈ d.direct
          · exact h
          · exact absurd (mem_mergesOf.mpr ⟨hb, h⟩) target
        rw [(sound.direct hbefore direct).1] at mem
        exact List.not_mem_nil mem
      rw [List.count_eq_zero.mpr notMem, List.replicate_zero, List.append_nil]
      exact sound.linked.inputs hbefore mem

include ended in
/-- The new definitions are those of the new phis. -/
theorem definedAt_ended {v : ValueId} {p : Point} (defined : d'.graph.DefinedAt v p) :
    d.graph.DefinedAt v p ∨ ∃ b ∈ d.mergesOf t.successors, p = ⟨b, 0⟩ ∧
      ∃ q ∈ d.newPhis b slots, q.value = v := by
  cases defined with
  | @phi b block q live mem value =>
      obtain ⟨before, hbefore, rfl⟩ := ended.block?_eq_some live
      by_cases target : b ∈ d.mergesOf t.successors
      · obtain ⟨q', w, hzip, rfl⟩ := mem_phis_ended target mem
        rcases List.mem_append.mp (List.of_mem_zip hzip).1 with old | new
        · exact Or.inl (.phi hbefore old value)
        · exact Or.inr ⟨b, target, rfl, q', new, value⟩
      · rw [phis_ended_of_notMem target] at mem
        exact Or.inl (.phi hbefore mem value)
  | stmt live get value =>
      obtain ⟨before, hbefore, rfl⟩ := ended.block?_eq_some live
      rw [stmts_ended] at get
      exact Or.inl (.stmt hbefore get value)

include can in
/-- There is only one merge among the targets. -/
theorem CanEnd.mergesOf_eq {b : BlockId} (mem : b ∈ d.mergesOf t.successors) :
    d.mergesOf t.successors = [b] := by
  have few := can.few
  cases merges : d.mergesOf t.successors with
  | nil => simp [merges] at mem
  | cons a rest =>
      rw [merges, List.length_cons] at few
      obtain rfl : rest = [] := List.eq_nil_of_length_eq_zero (by omega)
      rw [merges] at mem
      rw [List.mem_singleton.mp mem]

include can ended in
/-- The table of values has the new phis. -/
theorem getElem?_newPhis {b : BlockId} (target : b ∈ d.mergesOf t.successors) {p : Phi}
    (mem : p ∈ d.newPhis b slots) :
    d'.graph.values[p.value.index]? = some ⟨p.type, .phi b⟩ := by
  have shape := (mem_newPhis can.slots mem).1
  rw [newPhis_eq_fresh shape] at mem
  rw [ended.values, can.mergesOf_eq target, List.flatMap_singleton, newPhis_eq_fresh shape]
  exact Phi.getElem?_fresh mem

include can ended in
theorem hasType_newPhis {b : BlockId} (target : b ∈ d.mergesOf t.successors) {p : Phi}
    (mem : p ∈ d.newPhis b slots) : d'.HasType p.value p.type :=
  ⟨_, getElem?_newPhis can ended target mem, rfl⟩

include sound can ended in
/-- Along an edge, the phis of a merge for values receive the slots, and the index phi of a loop
head the next index. -/
theorem receives {b : BlockId} {block : Block} (target : b ∈ d.mergesOf t.successors)
    (live : d.graph.block? b = some block) {p : Phi} {v : ValueId}
    (hzip : (p, v) ∈ (block.phis ++ d.newPhis b slots).zip (d.carried b slots)) :
    d'.HasType p.value .value ∧ v ∈ slots ∨ d.loopIndices.lookup b = some (p.value, v) := by
  have length := congrArg List.length (ended.types b target)
  rw [List.length_map, List.length_map] at length
  -- The phis of the slots stand before the index phi, which was there before.
  have ids : (block.phis ++ d.newPhis b slots).map (·.value) =
      ((d.shape? b).getD [] ++ (d.newPhis b slots).map (·.value)) ++
        ((d.loopIndices.lookup b).map (·.1)).toList := by
    rw [List.map_append, (can.merge target).phis live, phisOf]
    cases shape : d.shape? b with
    | some phis => simp [newPhis_eq_nil shape]
    | none => simp [(can.merge target).unindexed shape]
  have named : (p.value, v) ∈ ((block.phis ++ d.newPhis b slots).map (·.value)).zip
      (d.carried b slots) := by
    rw [← List.map_id (d.carried b slots), List.zip_map]
    exact List.mem_map.mpr ⟨(p, v), hzip, rfl⟩
  rw [ids, carried, List.zip_append length] at named
  rcases List.mem_append.mp named with slot | next
  · refine Or.inl ⟨?_, (List.of_mem_zip slot).2⟩
    rcases List.mem_append.mp (List.of_mem_zip slot).1 with shaped | new
    · cases shape : d.shape? b with
      | none => simp [shape] at shaped
      | some phis =>
          rw [shape, Option.getD_some] at shaped
          exact (sound.slots shape _ shaped).mono (grows_ended can ended)
    · obtain ⟨q, hq, heq⟩ := List.mem_map.mp new
      have type := (mem_newPhis can.slots hq).2.2.1
      exact heq ▸ type ▸ hasType_newPhis can ended target hq
  · cases registered : d.loopIndices.lookup b with
    | none => simp [registered] at next
    | some e =>
        obtain ⟨phi, w⟩ := e
        have heq : (p.value, v) = (phi, w) := by simpa [registered] using next
        rw [heq]
        exact Or.inr rfl

include sound can ended in
/-- Along an edge, the index phi of a loop head receives the next index. -/
theorem receives_next {b : BlockId} {block : Block} (target : b ∈ d.mergesOf t.successors)
    (live : d.graph.block? b = some block) {p : Phi} {v : ValueId}
    (hzip : (p, v) ∈ (block.phis ++ d.newPhis b slots).zip (d.carried b slots))
    (index : p.type = .index) : p ∈ block.phis ∧ d.loopIndices.lookup b = some (p.value, v) := by
  have old : p ∈ block.phis := by
    rcases List.mem_append.mp (List.of_mem_zip hzip).1 with old | new
    · exact old
    · have type := (mem_newPhis can.slots new).2.2.1
      rw [index] at type
      cases type
  refine ⟨old, ?_⟩
  rcases receives sound can ended target live hzip with ⟨typed, -⟩ | next
  · have typed' := (sound.phiTypes live p old).mono (grows_ended can ended)
    have clash := typed.typeOf.symm.trans typed'.typeOf
    rw [index] at clash
    cases clash
  · exact next

include sound can ended in
/-- Ending the block under construction keeps a draft sound. -/
theorem sound_ended : d'.Sound := by
  have grows := grows_ended can ended
  constructor
  case linked => exact linked_ended sound can ended
  case numbered =>
    intro v p defined
    rcases definedAt_ended ended defined with old | ⟨b, target, -, q, new, rfl⟩
    · exact Nat.lt_of_lt_of_le (sound.numbered old) grows.values.length_le
    · exact (hasType_newPhis can ended target new).lt
  case single =>
    intro v p q
    refine single_of_new (fun _ p => ∃ b ∈ d.mergesOf t.successors, p = ⟨b, 0⟩)
      sound.numbered sound.single (fun defined => ?_) ?_
    · refine (definedAt_ended ended defined).imp id ?_
      rintro ⟨b, target, hp, q, new, rfl⟩
      exact ⟨(mem_newPhis can.slots new).2.2.2, b, target, hp⟩
    · rintro v _ _ ⟨b, hb, rfl⟩ ⟨c, hc, rfl⟩
      rw [can.mergesOf_eq hc] at hb
      rw [List.mem_singleton.mp hb]
  case distinct =>
    intro b block live
    obtain ⟨before, hbefore, rfl⟩ := ended.block?_eq_some live
    by_cases target : b ∈ d.mergesOf t.successors
    · rw [map_value_ended can ended target hbefore, List.nodup_append]
      refine ⟨sound.distinct hbefore, ?_, fun v hv w hw => ?_⟩
      · rw [newPhis]
        split
        · exact List.nodup_nil
        · exact Phi.nodup_map_value_fresh _ _
      · obtain ⟨p, hp, rfl⟩ := List.mem_map.mp hv
        obtain ⟨q, hq, rfl⟩ := List.mem_map.mp hw
        intro heq
        have lt := sound.numbered (.phi hbefore hp heq)
        exact Nat.not_lt.mpr (mem_newPhis can.slots hq).2.2.2 lt
    · rw [phis_ended_of_notMem target]
      exact sound.distinct hbefore
  case entry =>
    obtain ⟨block, live, none⟩ := sound.entry
    refine ⟨_, by rw [ended.block]; exact congrArg _ live, ?_⟩
    rw [Draft.ended]
    split
    · have new : d.newPhis d'.graph.entry slots = [] := newPhis_eq_nil sound.entry_shape
      simp [Block.receive, endBlock, none, new]
    · exact none
  case entry_notDirect =>
    rw [ended.direct]
    exact sound.entry_notDirect
  case entry_shape => exact grows.shape sound.entry_shape
  case entry_left =>
    rw [ended.cursor]
    exact sound.entry_left.imp id fun left => left.mono grows
  case unmade =>
    intro b none
    rw [ended.block, Option.map_eq_none_iff] at none
    have notTarget : b ∉ d.mergesOf t.successors := by
      intro target
      have live := (can.targets b (mem_mergesOf.mp target).1).live
      rw [none] at live
      cases live
    rw [ended.shape, if_neg notTarget, ended.direct, ended.loopIndices]
    exact sound.unmade none
  case direct =>
    intro b block live mem
    obtain ⟨before, hbefore, rfl⟩ := ended.block?_eq_some live
    rw [ended.direct] at mem
    obtain ⟨none, few⟩ := sound.direct hbefore mem
    have notMerge : b ∉ d.mergesOf t.successors := fun target => (mem_mergesOf.mp target).2 mem
    rw [phis_ended_of_notMem notMerge, preds_ended]
    refine ⟨none, ?_⟩
    rw [can.apart.count]
    split
    · rename_i target
      rw [(can.targets b target).direct mem hbefore]
      exact Nat.le_refl 1
    · rw [List.replicate_zero, List.append_nil]
      exact few
  case unshaped =>
    intro b block live notDirect none
    obtain ⟨before, hbefore, rfl⟩ := ended.block?_eq_some live
    rw [ended.direct] at notDirect
    rw [ended.shape] at none
    split at none
    · cases none
    · rename_i notMerge
      have notTarget : b ∉ t.successors := fun target =>
        notMerge (mem_mergesOf.mpr ⟨target, notDirect⟩)
      rw [preds_ended, List.count_eq_zero.mpr notTarget, sound.unshaped hbefore notDirect none]
      rfl
  case slots =>
    intro b phis shape v mem
    rw [ended.shape] at shape
    split at shape
    · rename_i target
      cases shape
      rcases List.mem_append.mp mem with old | new
      · cases shaped : d.shape? b with
        | none => simp [shaped] at old
        | some phis =>
            rw [shaped, Option.getD_some] at old
            exact (sound.slots shaped v old).mono grows
      · obtain ⟨p, hp, rfl⟩ := List.mem_map.mp new
        have type := (mem_newPhis can.slots hp).2.2.1
        exact type ▸ hasType_newPhis can ended target hp
    · exact (sound.slots shape v mem).mono grows
  case phiTypes =>
    intro b block live p mem
    obtain ⟨before, hbefore, rfl⟩ := ended.block?_eq_some live
    by_cases target : b ∈ d.mergesOf t.successors
    · obtain ⟨q, v, hzip, rfl⟩ := mem_phis_ended target mem
      rcases List.mem_append.mp (List.of_mem_zip hzip).1 with old | new
      · exact (sound.phiTypes hbefore q old).mono grows
      · have typed := hasType_newPhis can ended target new
        exact typed
    · rw [phis_ended_of_notMem target] at mem
      exact (sound.phiTypes hbefore p mem).mono grows
  case indexInputs =>
    intro b block p live mem index
    obtain ⟨before, hbefore, rfl⟩ := ended.block?_eq_some live
    rw [ended.loopIndices]
    by_cases target : b ∈ d.mergesOf t.successors
    · obtain ⟨q, v, hzip, rfl⟩ := mem_phis_ended target mem
      obtain ⟨old, registered⟩ := receives_next sound can ended target hbefore hzip index
      obtain ⟨first, rest, inputs, later⟩ := sound.indexInputs hbefore old index
      refine ⟨first, rest ++ [(d.cursor, v)], by rw [Phi.receive, inputs, List.cons_append], ?_⟩
      intro e he
      rcases List.mem_append.mp he with he | he
      · exact later e he
      · rw [List.mem_singleton.mp he]
        exact registered
    · rw [phis_ended_of_notMem target] at mem
      exact sound.indexInputs hbefore mem index
  case nextIndex =>
    intro b phi next registered
    rw [ended.loopIndices] at registered
    exact grows.definedAt (sound.nextIndex registered)

end

end Draft

end StackLift
