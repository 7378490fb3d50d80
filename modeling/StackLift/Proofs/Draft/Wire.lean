import StackLift.Draft
import StackLift.Graph.Lemmas

/-!
What wiring an edge does to a draft. Only the block that the edge leads to
changes: a merge that no edge led to before gets a phi for each slot of the
stack, and then each of its phis gets one input, the index phi of a loop head
the registered next index.
-/

namespace StackLift

/-- The phi with one input more. -/
def Phi.receive (source : BlockId) (p : Phi) (v : ValueId) : Phi :=
  { p with inputs := p.inputs ++ [(source, v)] }

/-- Phis without inputs, numbered from `n` on. -/
def Phi.fresh : Nat → List ValueType → List Phi
  | _, [] => []
  | n, type :: rest => { value := ⟨n⟩, type } :: fresh (n + 1) rest

namespace Phi

@[simp] theorem length_fresh (n : Nat) (types : List ValueType) :
    (fresh n types).length = types.length := by
  induction types generalizing n with
  | nil => rfl
  | cons type types ih => simp [fresh, ih]

@[simp] theorem map_type_fresh (n : Nat) (types : List ValueType) :
    (fresh n types).map (·.type) = types := by
  induction types generalizing n with
  | nil => rfl
  | cons type types ih => simp [fresh, ih]

theorem inputs_of_mem_fresh {n : Nat} {types : List ValueType} {p : Phi}
    (mem : p ∈ fresh n types) : p.inputs = [] := by
  induction types generalizing n with
  | nil => simp [fresh] at mem
  | cons type types ih =>
      rcases List.mem_cons.mp mem with rfl | mem
      · rfl
      · exact ih mem

theorem value_of_mem_fresh {n : Nat} {types : List ValueType} {p : Phi}
    (mem : p ∈ fresh n types) : n ≤ p.value.index ∧ p.value.index < n + types.length := by
  induction types generalizing n with
  | nil => simp [fresh] at mem
  | cons type types ih =>
      rcases List.mem_cons.mp mem with rfl | mem
      · simp
      · have bounds := ih mem
        simp only [List.length_cons]
        omega

theorem nodup_map_value_fresh (n : Nat) (types : List ValueType) :
    ((fresh n types).map (·.value)).Nodup := by
  induction types generalizing n with
  | nil => simp [fresh]
  | cons type types ih =>
      rw [fresh, List.map_cons, List.nodup_cons]
      refine ⟨fun mem => ?_, ih (n + 1)⟩
      obtain ⟨p, hp, heq⟩ := List.mem_map.mp mem
      have bounds := value_of_mem_fresh hp
      rw [heq] at bounds
      exact Nat.not_succ_le_self n bounds.1

/-- The table of values has the types of fresh phis where they are numbered. -/
theorem getElem?_fresh {infos : List ValueInfo} {types : List ValueType} {b : BlockId} {p : Phi}
    (mem : p ∈ fresh infos.length types) :
    (infos ++ (fresh infos.length types).map fun p => (⟨p.type, .phi b⟩ : ValueInfo))[p.value.index]? =
      some ⟨p.type, .phi b⟩ := by
  induction types generalizing infos with
  | nil => simp [fresh] at mem
  | cons type types ih =>
      rcases List.mem_cons.mp mem with rfl | mem
      · simp [fresh]
      · have size : (infos ++ [(⟨type, .phi b⟩ : ValueInfo)]).length = infos.length + 1 := by simp
        rw [← size] at mem
        have rest := ih mem
        rw [size, List.append_assoc, List.singleton_append] at rest
        rw [fresh, List.map_cons]
        exact rest

end Phi

/-! ### Inputs of the phis of one block -/

namespace Block

/-- Gives inputs from one source to phis of the block, named by their values. -/
def addInputs (source : BlockId) (entries : List (ValueId × ValueId)) (block : Block) : Block :=
  entries.foldl (fun block e => block.addInput e.1 source e.2) block

/-- The block with new phis, and one input more for each phi. -/
def receive (source : BlockId) (new : List Phi) (values : List ValueId) (block : Block) : Block :=
  { block with phis := ((block.phis ++ new).zip values).map fun (p, v) => p.receive source v }

theorem addInput_go_append {before after : List Phi} {p : Phi} {source : BlockId} {v : ValueId}
    (absent : p.value ∉ before.map (·.value)) :
    addInput.go p.value source v (before ++ p :: after) = before ++ p.receive source v :: after := by
  induction before with
  | nil => simp [addInput.go, Phi.receive]
  | cons q before ih =>
      rw [List.map_cons, List.mem_cons, not_or] at absent
      have hne : q.value ≠ p.value := fun e => absent.1 e.symm
      rw [List.cons_append, addInput.go, if_neg hne, ih absent.2, List.cons_append]

/-- When every phi is named once and in order, each gets its own input. -/
theorem addInputs_zip {source : BlockId} {values : List ValueId} {before phis : List Phi}
    {block : Block} (split : block.phis = before ++ phis)
    (distinct : (block.phis.map (·.value)).Nodup) (length : values.length = phis.length) :
    block.addInputs source ((phis.map (·.value)).zip values) =
      { block with phis := before ++ (phis.zip values).map fun (p, v) => p.receive source v } := by
  induction phis generalizing before values block with
  | nil => simp [addInputs, ← split]
  | cons p phis ih =>
      cases values with
      | nil => simp at length
      | cons v values =>
          have absent : p.value ∉ before.map (·.value) := by
            rw [split, List.map_append, List.map_cons] at distinct
            intro mem
            exact (List.nodup_append.mp distinct).2.2 _ mem _ List.mem_cons_self rfl
          have first : block.addInput p.value source v =
              { block with phis := (before ++ [p.receive source v]) ++ phis } := by
            rw [addInput, split, addInput_go_append absent, List.append_assoc,
              List.singleton_append]
          have rest : (block.addInput p.value source v).addInputs source
              ((phis.map (·.value)).zip values) = { block with
                phis := (before ++ [p.receive source v]) ++
                  (phis.zip values).map fun (p, v) => p.receive source v } := by
            rw [first]
            exact ih rfl (by simpa [split, Phi.receive] using distinct) (Nat.succ.inj length)
          rw [List.map_cons, List.zip_cons_cons, addInputs, List.foldl_cons]
          rw [addInputs] at rest
          rw [rest, List.zip_cons_cons, List.map_cons, List.append_assoc, List.singleton_append]

end Block

namespace Draft

/-! ### Fixing a shape -/

/-- Adding a phi extends the table of types. -/
theorem typeOf_addPhi {g : Graph} {b : BlockId} {type : ValueType} {v : ValueId}
    (known : v.index < g.values.length) : (g.addPhi b type).2.typeOf v = g.typeOf v := by
  simp [Graph.typeOf, Graph.addPhi, Graph.updateBlock, Graph.addValue,
    List.getElem?_append_left known]

/-- Phis can be added for values that are there. -/
theorem addPhis_eq {g : Graph} {b : BlockId} {slots : List ValueId}
    (known : ∀ v ∈ slots, v.index < g.values.length) :
    ∃ g', addPhis g b slots =
        .ok ((Phi.fresh g.values.length (slots.map g.typeOf)).map (·.value), g') ∧
      g'.values = g.values ++ slots.map (fun v => ⟨g.typeOf v, .phi b⟩) ∧
      ∀ c, g'.block? c =
        if c = b then (g.block? c).map fun block =>
          { block with phis := block.phis ++ Phi.fresh g.values.length (slots.map g.typeOf) }
        else g.block? c := by
  induction slots generalizing g with
  | nil =>
      refine ⟨g, rfl, by simp, fun c => ?_⟩
      cases h : g.block? c <;> simp [Phi.fresh]
  | cons v slots ih =>
      let added := (g.addPhi b (g.typeOf v)).2
      have values : added.values = g.values ++ [⟨g.typeOf v, .phi b⟩] := rfl
      have size : added.values.length = g.values.length + 1 := by simp [values]
      have types : ∀ w ∈ slots, added.typeOf w = g.typeOf w := fun w hw =>
        typeOf_addPhi (known w (List.mem_cons_of_mem v hw))
      obtain ⟨g', adds, infos, blocks⟩ := ih (g := added) fun w hw => by
        have := known w (List.mem_cons_of_mem v hw)
        omega
      rw [List.map_congr_left types, size] at adds blocks
      refine ⟨g', ?_, ?_, fun c => ?_⟩
      · have type := Graph.valueType_eq_ok_iff.mpr ⟨known v List.mem_cons_self, rfl⟩
        rw [addPhis, type]
        simp only [bind, Except.bind]
        rw [adds]
        rfl
      · rw [List.map_congr_left fun w hw => by rw [types w hw], values] at infos
        rw [List.map_cons, infos, List.append_assoc, List.singleton_append]
      · rw [blocks, Graph.block?_addPhi]
        by_cases hc : c = b
        · subst hc
          cases g.block? c with
          | none => simp
          | some block => simp [Block.addPhi, Phi.fresh, Graph.nextValue]
        · simp [hc]

/-- What each new phi keeps, all of them keep. -/
theorem addPhis_keeps {P : Graph → Prop} {b : BlockId}
    (step : ∀ g type, P g → P (g.addPhi b type).2) {slots phis : List ValueId} {g g' : Graph}
    (added : addPhis g b slots = .ok (phis, g')) (start : P g) : P g' := by
  induction slots generalizing g phis with
  | nil =>
      cases added
      exact start
  | cons v slots ih =>
      rw [addPhis] at added
      cases found : g.valueType v with
      | error breach => simp [found, bind, Except.bind] at added
      | ok type =>
          simp only [found, bind, Except.bind] at added
          cases rest : addPhis (g.addPhi b type).2 b slots with
          | error breach => simp [rest] at added
          | ok more =>
              rw [rest] at added
              cases added
              exact ih rest (step g type start)

/-! ### Giving the phis of a merge their inputs -/

/-- The phis of a merge: those of the slots, and the index phi of a loop head. -/
def phisOf (d : Draft) (b : BlockId) : List ValueId :=
  (d.shape? b).getD [] ++ ((d.loopIndices.lookup b).map (·.1)).toList

/-- What an edge brings to the phis of a merge. -/
def carried (d : Draft) (b : BlockId) (slots : List ValueId) : List ValueId :=
  slots ++ ((d.loopIndices.lookup b).map (·.2)).toList

theorem foldl_addPhiInput (source target : BlockId) (entries : List (ValueId × ValueId))
    (d : Draft) :
    entries.foldl (fun d (phi, v) => d.addPhiInput target phi source v) d =
      { d with graph := d.graph.updateBlock target (Block.addInputs source entries) } := by
  induction entries generalizing d with
  | nil =>
      have same : d.graph.updateBlock target (Block.addInputs source []) = d.graph := by
        have id : (Option.map (Block.addInputs source []) : Option Block → Option Block) = id := by
          funext o
          cases o <;> rfl
        simp [Graph.updateBlock, id]
      rw [List.foldl_nil, same]
  | cons e entries ih =>
      rw [List.foldl_cons, ih]
      simp only [addPhiInput, Graph.addPhiInput, Graph.updateBlock, List.modify_modify_eq]
      congr 3
      funext o
      cases o <;> rfl

theorem addInputs_eq (d : Draft) (source target : BlockId) (phis slots : List ValueId) :
    d.addInputs source target phis slots =
      { d with graph := d.graph.updateBlock target (Block.addInputs source
        (phis.zip slots ++ (d.loopIndices.lookup target).toList)) } := by
  simp only [← foldl_addPhiInput, List.foldl_append]
  rw [addInputs]
  have index : ((phis.zip slots).foldl (fun d (phi, v) => d.addPhiInput target phi source v)
      d).loopIndices = d.loopIndices := by
    rw [foldl_addPhiInput]
  simp only [index]
  cases d.loopIndices.lookup target <;> rfl

/-- A block that edges may lead to from several sources: it has the phis that
the draft knows of. -/
structure Merge (d : Draft) (b : BlockId) : Prop where
  notDirect : b ∉ d.direct
  phis : ∀ {block : Block}, d.graph.block? b = some block →
    block.phis.map (·.value) = d.phisOf b
  /-- A counting loop has an edge to its head before it has an index. -/
  unindexed : d.shape? b = none → d.loopIndices.lookup b = none

/-- The phis that a merge gets when an edge is wired to it. -/
def newPhis (d : Draft) (b : BlockId) (slots : List ValueId) : List Phi :=
  if (d.shape? b).isSome then [] else Phi.fresh d.graph.values.length (slots.map d.graph.typeOf)

/-- What an edge that was wired to a merge changed. -/
structure Wired (d : Draft) (source b : BlockId) (slots : List ValueId) (d' : Draft) : Prop where
  cursor : d'.cursor = d.cursor
  direct : d'.direct = d.direct
  loopIndices : d'.loopIndices = d.loopIndices
  values : d'.graph.values = d.graph.values ++ (d.newPhis b slots).map fun p => ⟨p.type, .phi b⟩
  shape : ∀ c, d'.shape? c = if c = b then
      some ((d.shape? b).getD [] ++ (d.newPhis b slots).map (·.value)) else d.shape? c
  block : ∀ c, d'.graph.block? c = if c = b then (d.graph.block? c).map
      (Block.receive source (d.newPhis b slots) (d.carried b slots)) else d.graph.block? c
  /-- The stack has the types of the slots. -/
  types : ((d.shape? b).getD [] ++ (d.newPhis b slots).map (·.value)).map d'.graph.typeOf =
    slots.map d.graph.typeOf

/-- Values added at the end have the types they were added with. -/
theorem map_typeOf_fresh {g : Graph} {infos : List ValueInfo} {b : BlockId}
    {types : List ValueType}
    (values : g.values = infos ++ types.map fun type => ⟨type, .phi b⟩) :
    ((Phi.fresh infos.length types).map (·.value)).map g.typeOf = types := by
  induction types generalizing infos with
  | nil => rfl
  | cons type types ih =>
      have moved : g.values =
          (infos ++ [⟨type, .phi b⟩]) ++ types.map fun type => ⟨type, .phi b⟩ := by
        simp [values]
      have rest := ih moved
      rw [List.length_append, List.length_singleton] at rest
      simp only [Phi.fresh, List.map_cons]
      rw [rest]
      simp [Graph.typeOf, values]

/-- Along an edge to a merge that has its shape, every phi gets its own input. -/
theorem block?_addInputs {d : Draft} {b : BlockId} {phis : List ValueId} (merge : d.Merge b)
    (shaped : d.shape? b = some phis)
    (distinct : ∀ {block : Block}, d.graph.block? b = some block →
      (block.phis.map (·.value)).Nodup)
    {slots : List ValueId} (length : phis.length = slots.length) (source c : BlockId) :
    (d.addInputs source b phis slots).graph.block? c =
      if c = b then (d.graph.block? c).map (Block.receive source [] (d.carried b slots))
      else d.graph.block? c := by
  rw [addInputs_eq, Graph.block?_updateBlock]
  by_cases hc : c = b
  · subst hc
    rw [if_pos rfl, if_pos rfl]
    cases live : d.graph.block? c with
    | none => rfl
    | some block =>
        have ids := merge.phis live
        rw [phisOf, shaped, Option.getD_some] at ids
        have entries : phis.zip slots ++ (d.loopIndices.lookup c).toList =
            (block.phis.map (·.value)).zip (d.carried c slots) := by
          rw [ids, carried, List.zip_append length]
          cases d.loopIndices.lookup c <;> rfl
        have same : (d.carried c slots).length = block.phis.length := by
          have sizes := congrArg List.length ids
          rw [List.length_map, List.length_append, length] at sizes
          rw [carried, List.length_append, sizes]
          cases d.loopIndices.lookup c <;> rfl
        rw [Option.map_some, Option.map_some, entries,
          Block.addInputs_zip (List.nil_append _).symm (distinct live) same, Block.receive,
          List.append_nil, List.nil_append]
  · rw [if_neg hc, if_neg hc]

theorem newPhis_eq_nil {d : Draft} {b : BlockId} {slots phis : List ValueId}
    (shaped : d.shape? b = some phis) : d.newPhis b slots = [] := by
  simp [newPhis, shaped]

theorem newPhis_eq_fresh {d : Draft} {b : BlockId} {slots : List ValueId}
    (unshaped : d.shape? b = none) :
    d.newPhis b slots = Phi.fresh d.graph.values.length (slots.map d.graph.typeOf) := by
  simp [newPhis, unshaped]

/-- What fixing the shape of a block changed. -/
structure Shaped (d : Draft) (b : BlockId) (slots : List ValueId) (d' : Draft) : Prop where
  cursor : d'.cursor = d.cursor
  direct : d'.direct = d.direct
  loopIndices : d'.loopIndices = d.loopIndices
  values : d'.graph.values = d.graph.values ++ (d.newPhis b slots).map fun p => ⟨p.type, .phi b⟩
  shape : ∀ c, d'.shape? c =
    if c = b then some ((d.newPhis b slots).map (·.value)) else d.shape? c
  block : ∀ c, d'.graph.block? c = if c = b then (d.graph.block? c).map fun block =>
      { block with phis := block.phis ++ d.newPhis b slots } else d.graph.block? c

theorem fixShape_eq_ok {d d' : Draft} {b : BlockId} {slots phis : List ValueId}
    (fixed : d.fixShape b slots = .ok (phis, d')) :
    ∃ graph, addPhis d.graph b slots = .ok (phis, graph) ∧
      d' = { d with graph, shapes := (b, phis) :: d.shapes } := by
  rw [fixShape] at fixed
  cases adds : addPhis d.graph b slots with
  | error breach => simp [adds, bind, Except.bind] at fixed
  | ok r =>
      rw [adds] at fixed
      cases fixed
      exact ⟨r.2, rfl, rfl⟩

theorem fixShape_eq {d : Draft} {b : BlockId} {slots : List ValueId}
    (unshaped : d.shape? b = none) (known : ∀ v ∈ slots, v.index < d.graph.values.length) :
    ∃ d', d.fixShape b slots = .ok ((d.newPhis b slots).map (·.value), d') ∧
      d.Shaped b slots d' := by
  obtain ⟨graph, adds, values, blocks⟩ := addPhis_eq (b := b) known
  rw [← newPhis_eq_fresh unshaped] at adds blocks
  refine ⟨{ d with graph, shapes := (b, (d.newPhis b slots).map (·.value)) :: d.shapes }, ?_,
    rfl, rfl, rfl, ?_, fun c => ?_, blocks⟩
  · rw [fixShape, adds]
    rfl
  · have types : (d.newPhis b slots).map (fun p => (⟨p.type, .phi b⟩ : ValueInfo)) =
        slots.map fun v => ⟨d.graph.typeOf v, .phi b⟩ := by
      rw [newPhis_eq_fresh unshaped,
        ← Function.comp_def (fun type => (⟨type, .phi b⟩ : ValueInfo)) Phi.type,
        ← List.map_map, Phi.map_type_fresh, List.map_map]
      rfl
    rw [types]
    exact values
  · by_cases hc : c = b
    · subst hc
      simp [shape?]
    · have other : (c == b) = false := beq_eq_false_iff_ne.mpr hc
      simp [shape?, List.lookup_cons, other, hc]

namespace Shaped

variable {d d' : Draft} {b : BlockId} {slots : List ValueId} (merge : d.Merge b)
  (unshaped : d.shape? b = none) (shaped : d.Shaped b slots d')

include merge unshaped shaped in
/-- A merge that no edge led to before has just its new phis. -/
theorem phis {block : Block} (live : d'.graph.block? b = some block) :
    block.phis = d.newPhis b slots := by
  rw [shaped.block, if_pos rfl] at live
  obtain ⟨before, hbefore, rfl⟩ := Option.map_eq_some_iff.mp live
  have none : before.phis = [] := by
    simpa [phisOf, unshaped, merge.unindexed unshaped] using merge.phis hbefore
  simp [none]

include merge unshaped shaped in
theorem merge_after : d'.Merge b where
  notDirect := by
    rw [shaped.direct]
    exact merge.notDirect
  phis := by
    intro block live
    rw [shaped.phis merge unshaped live, phisOf, shaped.shape, if_pos rfl, Option.getD_some,
      shaped.loopIndices, merge.unindexed unshaped]
    simp
  unindexed := by
    intro none
    rw [shaped.shape, if_pos rfl] at none
    cases none

end Shaped

/-! ### Wiring an edge -/

theorem mapError_bind_eq_ok {α β : Type} {x : Except Breach α} {f : α → Except Fault β} {b : β}
    (h : (x.mapError .broken >>= f) = .ok b) : ∃ a, x = .ok a ∧ f a = .ok b := by
  cases x with
  | ok a => exact ⟨a, rfl, h⟩
  | error breach => cases h

theorem mapError_bind_eq_error {α β : Type} {x : Except Breach α} {f : α → Except Fault β}
    {e : Fault} (h : (x.mapError .broken >>= f) = .error e) :
    (∃ breach, e = .broken breach) ∨ ∃ a, x = .ok a ∧ f a = .error e := by
  cases x with
  | ok a => exact .inr ⟨a, rfl, h⟩
  | error breach =>
      cases h
      exact .inl ⟨breach, rfl⟩

/-- What wiring an edge takes: the target is direct, or has a shape of the types
of the stack, or gets one. -/
theorem wire_cases {d d' : Draft} {source b : BlockId} {slots : List ValueId}
    (h : d.wire source b slots = .ok d') :
    b ∈ d.direct ∧ d' = d ∨
    (∃ phis, d.shape? b = some phis ∧ phis.map d.graph.typeOf = slots.map d.graph.typeOf ∧
      d' = d.addInputs source b phis slots) ∨
    d.shape? b = none ∧ ∃ phis d₁, d.fixShape b slots = .ok (phis, d₁) ∧
      d' = d₁.addInputs source b phis slots := by
  rw [wire] at h
  split at h
  case isTrue direct =>
    cases h
    exact .inl ⟨by simpa [isDirect] using direct, rfl⟩
  case isFalse =>
    right
    cases shaped : d.shape? b with
    | some phis =>
        simp only [shaped] at h
        obtain ⟨expected, expects, h⟩ := mapError_bind_eq_ok h
        obtain ⟨actual, brings, h⟩ := mapError_bind_eq_ok h
        split at h
        case isFalse => cases h
        rename_i same
        cases h
        obtain ⟨-, rfl⟩ := Graph.valueTypes_eq_ok_iff.mp expects
        obtain ⟨-, rfl⟩ := Graph.valueTypes_eq_ok_iff.mp brings
        exact .inl ⟨phis, rfl, same, rfl⟩
    | none =>
        simp only [shaped] at h
        obtain ⟨r, fixed, h⟩ := mapError_bind_eq_ok h
        cases h
        exact .inr ⟨rfl, r.1, r.2, fixed, rfl⟩

/-- An edge that cannot be wired has a stack of other types, or values are missing. -/
theorem wire_eq_error {d : Draft} {source b : BlockId} {slots : List ValueId} {f : Fault}
    (h : d.wire source b slots = .error f) :
    (∃ breach, f = .broken breach) ∨ ∃ expected actual, f = .phiMismatch b expected actual := by
  rw [wire] at h
  split at h
  · cases h
  · cases shaped : d.shape? b with
    | some phis =>
        simp only [shaped] at h
        rcases mapError_bind_eq_error h with broken | ⟨expected, -, h⟩
        · exact .inl broken
        rcases mapError_bind_eq_error h with broken | ⟨actual, -, h⟩
        · exact .inl broken
        split at h <;> cases h
        exact .inr ⟨expected, actual, rfl⟩
    | none =>
        simp only [shaped] at h
        rcases mapError_bind_eq_error h with broken | ⟨_, -, h⟩
        · exact .inl broken
        cases h

/-- What a new phi and an input of a phi keep, an edge keeps. -/
theorem wire_keeps {P : Graph → Prop} (phi : ∀ g b type, P g → P (g.addPhi b type).2)
    (input : ∀ g b phi pred v, P g → P (g.addPhiInput b phi pred v)) {d d' : Draft}
    {source b : BlockId} {slots : List ValueId} (h : d.wire source b slots = .ok d')
    (start : P d.graph) : P d'.graph := by
  have each : ∀ (pairs : List (ValueId × ValueId)) (d : Draft), P d.graph →
      P (pairs.foldl (fun d e => d.addPhiInput b e.1 source e.2) d).graph := by
    intro pairs
    induction pairs with
    | nil => exact fun d start => start
    | cons pair rest ih => exact fun d start => ih _ (input _ _ _ _ _ start)
  have inputs : ∀ {d : Draft} {phis : List ValueId}, P d.graph →
      P (d.addInputs source b phis slots).graph := by
    intro d phis start
    rw [addInputs]
    split
    · exact input _ _ _ _ _ (each _ d start)
    · exact each _ d start
  rcases wire_cases h with ⟨-, rfl⟩ | ⟨_, -, -, rfl⟩ | ⟨-, phis, d₁, fixed, rfl⟩
  · exact start
  · exact inputs start
  · obtain ⟨graph, added, rfl⟩ := fixShape_eq_ok fixed
    exact inputs (addPhis_keeps (phi · b) added start)

/-- What each edge keeps, all of them keep. -/
theorem wireAll_keeps {P : Draft → Prop} {source : BlockId} {slots : List ValueId}
    {targets : List BlockId}
    (step : ∀ {d d' b}, b ∈ targets → d.wire source b slots = .ok d' → P d → P d') {d d' : Draft}
    (h : wireAll source slots targets d = .ok () d') (start : P d) : P d' := by
  induction targets generalizing d with
  | nil =>
      cases h
      exact start
  | cons target targets ih =>
      rw [wireAll] at h
      split at h
      case h_1 d₁ wired =>
        exact ih (fun mem => step (List.mem_cons_of_mem _ mem)) h
          (step List.mem_cons_self wired start)
      case h_2 => cases h

theorem wire_of_direct {d : Draft} {source b : BlockId} {slots : List ValueId}
    (direct : b ∈ d.direct) : d.wire source b slots = .ok d := by
  rw [wire, if_pos (by simpa [isDirect] using direct)]

theorem wire_of_shape {d : Draft} {source b : BlockId} {slots phis : List ValueId}
    (notDirect : b ∉ d.direct) (shaped : d.shape? b = some phis)
    (known : ∀ v ∈ phis ++ slots, v.index < d.graph.values.length) :
    d.wire source b slots =
      if phis.map d.graph.typeOf = slots.map d.graph.typeOf then
        .ok (d.addInputs source b phis slots)
      else .error (.phiMismatch b (phis.map d.graph.typeOf) (slots.map d.graph.typeOf)) := by
  rw [List.forall_mem_append] at known
  have expects := Graph.valueTypes_eq_ok_iff.mpr ⟨known.1, rfl⟩
  have brings := Graph.valueTypes_eq_ok_iff.mpr ⟨known.2, rfl⟩
  rw [wire, if_neg (by simpa [isDirect] using notDirect)]
  simp only [shaped, expects, brings]
  rfl

theorem wire_of_unshaped {d : Draft} (source : BlockId) {b : BlockId} {slots : List ValueId}
    (notDirect : b ∉ d.direct) (unshaped : d.shape? b = none)
    (known : ∀ v ∈ slots, v.index < d.graph.values.length) :
    ∃ d', d.Shaped b slots d' ∧ d.wire source b slots =
      .ok (d'.addInputs source b ((d.newPhis b slots).map (·.value)) slots) := by
  obtain ⟨d', fixed, shaped⟩ := fixShape_eq unshaped known
  refine ⟨d', shaped, ?_⟩
  rw [wire, if_neg (by simpa [isDirect] using notDirect)]
  simp only [unshaped, fixed]
  rfl

/-- Wiring an edge to a merge does what `Wired` says. -/
theorem wired_of_wire {d d' : Draft} {source b : BlockId} {slots : List ValueId}
    (merge : d.Merge b)
    (distinct : ∀ {block : Block}, d.graph.block? b = some block →
      (block.phis.map (·.value)).Nodup)
    (known : ∀ v ∈ slots, v.index < d.graph.values.length)
    (h : d.wire source b slots = .ok d') : Wired d source b slots d' := by
  rcases wire_cases h with ⟨direct, -⟩ | ⟨phis, shaped, types, rfl⟩ | ⟨unshaped, -⟩
  · exact absurd direct merge.notDirect
  · have length : phis.length = slots.length := by simpa using congrArg List.length types
    have new : d.newPhis b slots = [] := newPhis_eq_nil shaped
    have block := block?_addInputs merge shaped distinct length source
    rw [addInputs_eq] at block ⊢
    refine ⟨rfl, rfl, rfl, ?_, fun c => ?_, fun c => ?_, ?_⟩
    · rw [new, List.map_nil, List.append_nil]
      rfl
    · rw [new, shaped, Option.getD_some, List.map_nil, List.append_nil]
      by_cases hc : c = b
      · rw [if_pos hc, hc]
        exact shaped
      · rw [if_neg hc]
        rfl
    · rw [new, block]
    · rw [new, shaped, Option.getD_some, List.map_nil, List.append_nil]
      exact types
  · obtain ⟨d₁, shaped, wires⟩ := wire_of_unshaped source merge.notDirect unshaped known
    cases h.symm.trans wires
    have new : d.newPhis b slots =
        Phi.fresh d.graph.values.length (slots.map d.graph.typeOf) := newPhis_eq_fresh unshaped
    have values := shaped.values
    have length : ((d.newPhis b slots).map (·.value)).length = slots.length := by simp [new]
    have block := block?_addInputs (shaped.merge_after merge unshaped)
      ((shaped.shape b).trans (if_pos rfl))
      (fun live => by
        rw [shaped.phis merge unshaped live, new]
        exact Phi.nodup_map_value_fresh _ _)
      length source
    rw [addInputs_eq] at block ⊢
    refine ⟨shaped.cursor, shaped.direct, shaped.loopIndices, values, fun c => ?_, fun c => ?_, ?_⟩
    · rw [unshaped, Option.getD_none, List.nil_append]
      exact shaped.shape c
    · rw [block, shaped.block]
      by_cases hc : c = b
      · simp only [if_pos hc, Option.map_map]
        congr 1
        funext before
        simp [Block.receive, carried, shaped.loopIndices]
      · simp only [if_neg hc]
    · rw [unshaped, Option.getD_none, List.nil_append, new]
      refine map_typeOf_fresh (b := b) ?_
      rw [new] at values
      rw [← Function.comp_def (fun type => (⟨type, .phi b⟩ : ValueInfo)) Phi.type,
        ← List.map_map, Phi.map_type_fresh] at values
      exact values

/-- An edge that carries values that are there cannot be wired just when it leads to
a merge with a shape of other types. -/
theorem wire_eq_error_iff {d : Draft} {source b : BlockId} {slots : List ValueId} {f : Fault}
    (known : ∀ v ∈ slots, v.index < d.graph.values.length)
    (shapes : ∀ phis, d.shape? b = some phis → ∀ v ∈ phis, v.index < d.graph.values.length) :
    d.wire source b slots = .error f ↔ b ∉ d.direct ∧ ∃ phis, d.shape? b = some phis ∧
      phis.map d.graph.typeOf ≠ slots.map d.graph.typeOf ∧
      f = .phiMismatch b (phis.map d.graph.typeOf) (slots.map d.graph.typeOf) := by
  by_cases direct : b ∈ d.direct
  · simp [wire_of_direct direct, direct]
  · cases shaped : d.shape? b with
    | none =>
        obtain ⟨d', -, wires⟩ := wire_of_unshaped source direct shaped known
        simp [wires]
    | some phis =>
        rw [wire_of_shape direct shaped
          (List.forall_mem_append.mpr ⟨shapes phis shaped, known⟩)]
        by_cases same : phis.map d.graph.typeOf = slots.map d.graph.typeOf
        · simp [same]
        · simp only [if_neg same, Except.error.injEq]
          constructor
          · rintro rfl
            exact ⟨direct, phis, rfl, same, rfl⟩
          · rintro ⟨-, _, is, -, rfl⟩
            cases is
            rfl

/-! ### Ending a block -/

theorem frame_wire {d d' : Draft} {source b : BlockId} {slots : List ValueId}
    (h : d.wire source b slots = .ok d') : d'.cursor = d.cursor ∧ d'.direct = d.direct := by
  rcases wire_cases h with ⟨-, rfl⟩ | ⟨_, -, -, rfl⟩ | ⟨-, phis, d₁, fixed, rfl⟩
  · exact ⟨rfl, rfl⟩
  · rw [addInputs_eq]
    exact ⟨rfl, rfl⟩
  · rw [addInputs_eq]
    obtain ⟨graph, -, rfl⟩ := fixShape_eq_ok fixed
    exact ⟨rfl, rfl⟩

/-- The merges among blocks. -/
def mergesOf (d : Draft) (targets : List BlockId) : List BlockId :=
  targets.filter fun b => !d.isDirect b

theorem mem_mergesOf {d : Draft} {targets : List BlockId} {b : BlockId} :
    b ∈ d.mergesOf targets ↔ b ∈ targets ∧ b ∉ d.direct := by
  simp [mergesOf, isDirect]

theorem mergesOf_cons (d : Draft) (target : BlockId) (targets : List BlockId) :
    d.mergesOf (target :: targets) =
      if d.isDirect target then d.mergesOf targets else target :: d.mergesOf targets := by
  cases direct : d.isDirect target <;> simp [mergesOf, direct]

/-- Wiring edges to direct blocks changes nothing. -/
theorem wireAll_of_mergesOf_nil {source : BlockId} {slots : List ValueId}
    {targets : List BlockId} {d : Draft} (none : d.mergesOf targets = []) :
    wireAll source slots targets d = .ok () d := by
  induction targets with
  | nil => rfl
  | cons target targets ih =>
      rw [mergesOf_cons] at none
      split at none
      case isTrue direct =>
        rw [wireAll, wire, if_pos direct]
        exact ih none
      case isFalse => cases none

/-- With one merge among the targets only the edge to it counts. -/
theorem wireAll_eq_ok_iff {source b : BlockId} {slots : List ValueId} {targets : List BlockId}
    {d d' : Draft} (one : d.mergesOf targets = [b]) :
    wireAll source slots targets d = .ok () d' ↔ d.wire source b slots = .ok d' := by
  induction targets with
  | nil => simp [mergesOf] at one
  | cons target targets ih =>
      rw [mergesOf_cons] at one
      split at one
      case isTrue direct =>
        rw [wireAll, wire, if_pos direct]
        exact ih one
      case isFalse =>
        obtain ⟨rfl, none⟩ := List.cons.inj one
        rw [wireAll]
        cases wired : d.wire source target slots with
        | error fault => simp
        | ok d₁ =>
            have rest : d₁.mergesOf targets = [] := by
              rw [mergesOf] at none ⊢
              simpa only [isDirect, (frame_wire wired).2] using none
            simp [wireAll_of_mergesOf_nil rest]

/-- With one merge among the targets, all edges can be wired when the stack has
the types of its slots. -/
theorem exists_wireAll {source : BlockId} {slots : List ValueId} {targets : List BlockId}
    {d : Draft} (few : (d.mergesOf targets).length ≤ 1)
    (known : ∀ v ∈ slots, v.index < d.graph.values.length)
    (fits : ∀ b ∈ d.mergesOf targets, ∀ phis, d.shape? b = some phis →
      (∀ v ∈ phis, v.index < d.graph.values.length) ∧
        phis.map d.graph.typeOf = slots.map d.graph.typeOf) :
    ∃ d', wireAll source slots targets d = .ok () d' ∧ d'.direct = d.direct := by
  cases merges : d.mergesOf targets with
  | nil => exact ⟨d, wireAll_of_mergesOf_nil merges, rfl⟩
  | cons b rest =>
      obtain rfl : rest = [] := by
        rw [merges, List.length_cons] at few
        exact List.eq_nil_of_length_eq_zero (by omega)
      have mem : b ∈ d.mergesOf targets := by simp [merges]
      cases wired : d.wire source b slots with
      | ok d' => exact ⟨d', (wireAll_eq_ok_iff merges).mpr wired, (frame_wire wired).2⟩
      | error fault =>
          obtain ⟨-, phis, shaped, differ, -⟩ :=
            (wire_eq_error_iff known fun phis shaped => (fits b mem phis shaped).1).mp wired
          exact absurd (fits b mem phis shaped).2 differ

/-- The draft in which the block under construction has its end, with no edge
wired yet. -/
def closed (d : Draft) (t : Terminator) : Draft :=
  { d with graph := d.graph.addEnd d.cursor t }

theorem values_addEnd (g : Graph) (b : BlockId) (t : Terminator) :
    (g.addEnd b t).values = g.values := by
  rw [Graph.addEnd, Graph.values_foldl_updateBlock]
  rfl

/-- A block is ended once, and then its edges are wired. -/
theorem terminate_eq_ok_iff {d d' : Draft} {t : Terminator} {slots : List ValueId} :
    terminate t slots d = .ok () d' ↔ d.graph.isTerminated d.cursor = false ∧
      wireAll d.cursor slots t.successors (d.closed t) = .ok () d' := by
  rw [terminate, Graph.setTerminator]
  cases d.graph.isTerminated d.cursor <;> simp [closed]

theorem terminate_eq_error_iff {d d' : Draft} {t : Terminator} {slots : List ValueId}
    {fault : Fault} (unended : d.graph.isTerminated d.cursor = false) :
    terminate t slots d = .error fault d' ↔
      wireAll d.cursor slots t.successors (d.closed t) = .error fault d' := by
  rw [terminate, Graph.setTerminator, unended]
  rfl

/-- What the end of the block under construction changes in a block: its end,
if it is that block, and its predecessors. -/
def endBlock (d : Draft) (t : Terminator) (c : BlockId) (block : Block) : Block :=
  { block with
    terminator := if c = d.cursor then some t else block.terminator
    preds := block.preds ++ List.replicate (t.successors.count c) d.cursor }

/-- What is left of a block when the edges are wired as well. -/
def ended (d : Draft) (t : Terminator) (slots : List ValueId) (c : BlockId) (block : Block) :
    Block :=
  if c ∈ d.mergesOf t.successors then
    (d.endBlock t c block).receive d.cursor (d.newPhis c slots) (d.carried c slots)
  else d.endBlock t c block

theorem ended_of_mem {d : Draft} {t : Terminator} {c : BlockId}
    (mem : c ∈ d.mergesOf t.successors) (slots : List ValueId) (block : Block) :
    d.ended t slots c block =
      (d.endBlock t c block).receive d.cursor (d.newPhis c slots) (d.carried c slots) :=
  if_pos mem

theorem ended_of_notMem {d : Draft} {t : Terminator} {c : BlockId}
    (notMem : c ∉ d.mergesOf t.successors) (slots : List ValueId) (block : Block) :
    d.ended t slots c block = d.endBlock t c block :=
  if_neg notMem

/-- What ending the block under construction changes, where at most one of the
edges leads to a merge. -/
structure Ended (d : Draft) (t : Terminator) (slots : List ValueId) (d' : Draft) : Prop where
  cursor : d'.cursor = d.cursor
  direct : d'.direct = d.direct
  loopIndices : d'.loopIndices = d.loopIndices
  values : d'.graph.values = d.graph.values ++ (d.mergesOf t.successors).flatMap fun b =>
    (d.newPhis b slots).map fun p => ⟨p.type, .phi b⟩
  shape : ∀ c, d'.shape? c = if c ∈ d.mergesOf t.successors then
    some ((d.shape? c).getD [] ++ (d.newPhis c slots).map (·.value)) else d.shape? c
  block : ∀ c, d'.graph.block? c = (d.graph.block? c).map (d.ended t slots c)
  types : ∀ c ∈ d.mergesOf t.successors,
    ((d.shape? c).getD [] ++ (d.newPhis c slots).map (·.value)).map d'.graph.typeOf =
      slots.map d.graph.typeOf

theorem block?_closed (d : Draft) (t : Terminator) (c : BlockId) :
    (d.closed t).graph.block? c = (d.graph.block? c).map (d.endBlock t c) :=
  Graph.block?_addEnd d.graph d.cursor c t

theorem Merge.closed {d : Draft} {b : BlockId} (merge : d.Merge b) (t : Terminator) :
    (d.closed t).Merge b where
  notDirect := merge.notDirect
  phis := by
    intro block live
    rw [block?_closed] at live
    obtain ⟨before, hbefore, rfl⟩ := Option.map_eq_some_iff.mp live
    have phis := merge.phis hbefore
    exact phis
  unindexed := merge.unindexed

theorem typeOf_closed (d : Draft) (t : Terminator) :
    (d.closed t).graph.typeOf = d.graph.typeOf := by
  funext v
  rw [Graph.typeOf, Graph.typeOf, closed, values_addEnd]

theorem newPhis_closed (d : Draft) (t : Terminator) (b : BlockId) (slots : List ValueId) :
    (d.closed t).newPhis b slots = d.newPhis b slots := by
  have values : (d.closed t).graph.values = d.graph.values := values_addEnd _ _ _
  rw [newPhis, newPhis, values, typeOf_closed]
  rfl

theorem exists_terminate {d : Draft} {t : Terminator} {slots : List ValueId}
    (unended : d.graph.isTerminated d.cursor = false)
    (few : (d.mergesOf t.successors).length ≤ 1)
    (known : ∀ v ∈ slots, v.index < d.graph.values.length)
    (fits : ∀ b ∈ d.mergesOf t.successors, ∀ phis, d.shape? b = some phis →
      (∀ v ∈ phis, v.index < d.graph.values.length) ∧
        phis.map d.graph.typeOf = slots.map d.graph.typeOf) :
    ∃ d', terminate t slots d = .ok () d' ∧ d'.direct = d.direct := by
  have values : (d.closed t).graph.values = d.graph.values := values_addEnd _ _ _
  obtain ⟨d', wires, direct⟩ : ∃ d', wireAll d.cursor slots t.successors (d.closed t) = .ok () d' ∧
      d'.direct = d.direct := by
    refine exists_wireAll (d := d.closed t) few (by rwa [values]) fun b mem phis shaped => ?_
    rw [values, typeOf_closed]
    exact fits b mem phis shaped
  exact ⟨d', terminate_eq_ok_iff.mpr ⟨unended, wires⟩, direct⟩

theorem ended_of_terminate {d d' : Draft} {t : Terminator} {slots : List ValueId}
    (few : (d.mergesOf t.successors).length ≤ 1)
    (merges : ∀ b ∈ d.mergesOf t.successors, d.Merge b)
    (distinct : ∀ {b : BlockId} {block : Block}, d.graph.block? b = some block →
      (block.phis.map (·.value)).Nodup)
    (known : ∀ v ∈ slots, v.index < d.graph.values.length)
    (h : terminate t slots d = .ok () d') : Ended d t slots d' := by
  have edges := (terminate_eq_ok_iff.mp h).2
  have values : (d.closed t).graph.values = d.graph.values := values_addEnd _ _ _
  cases targets : d.mergesOf t.successors with
  | nil =>
      cases edges.symm.trans (wireAll_of_mergesOf_nil targets)
      refine ⟨rfl, rfl, rfl, ?_, fun c => ?_, fun c => ?_, ?_⟩
      · rw [values, targets, List.flatMap_nil, List.append_nil]
      · rw [targets, if_neg List.not_mem_nil]
        rfl
      · rw [block?_closed]
        refine congrArg (Option.map · (d.graph.block? c)) (funext fun block => ?_)
        rw [ended_of_notMem (by simp [targets])]
      · rw [targets]
        exact fun c mem => absurd mem List.not_mem_nil
  | cons b rest =>
      obtain rfl : rest = [] := by
        rw [targets, List.length_cons] at few
        exact List.eq_nil_of_length_eq_zero (by omega)
      have merge := merges b (by simp [targets])
      have wired := wired_of_wire (merge.closed t)
        (fun live => by
          rw [block?_closed] at live
          obtain ⟨before, hbefore, rfl⟩ := Option.map_eq_some_iff.mp live
          have same := distinct hbefore
          exact same)
        (by rwa [values]) ((wireAll_eq_ok_iff (d := d.closed t) targets).mp edges)
      refine ⟨wired.cursor, wired.direct, wired.loopIndices, ?_, fun c => ?_, fun c => ?_, ?_⟩
      · rw [wired.values, values, newPhis_closed, targets, List.flatMap_singleton]
      · rw [wired.shape, newPhis_closed, targets]
        by_cases hc : c = b
        · subst hc
          rw [if_pos rfl, if_pos List.mem_cons_self]
          rfl
        · rw [if_neg hc, if_neg (by simpa using hc)]
          rfl
      · rw [wired.block, newPhis_closed, block?_closed]
        by_cases hc : c = b
        · subst hc
          rw [if_pos rfl, Option.map_map]
          refine congrArg (Option.map · (d.graph.block? c)) (funext fun block => ?_)
          rw [ended_of_mem (by simp [targets])]
          rfl
        · rw [if_neg hc]
          refine congrArg (Option.map · (d.graph.block? c)) (funext fun block => ?_)
          rw [ended_of_notMem (by simpa [targets] using hc)]
      · intro c mem
        obtain rfl : c = b := by simpa [targets] using mem
        have same := wired.types
        rw [newPhis_closed, typeOf_closed] at same
        exact same

end Draft

end StackLift
