import StackLift.Proofs.Draft.Ended

/-!
How the phis of a merge line up with the stacks that its edges carry. Whichever edge is wired
first gives the merge its slots, be it an edge from below or one arm of a branch of which the
other arm leads to the same block. From then on each edge adds an input to every phi, so the
inputs of a phi read, in the order of the edges, what the stacks hold in its slot.

This holds of every draft that is built by making blocks, emitting, moving on and ending blocks,
whatever the blocks, the operations and the stacks are. The main statement is `slots_aligned`.
-/

namespace StackLift

/-- A value that was in the table before keeps its type. -/
theorem Graph.typeOf_of_isPrefix {g g' : Graph} (le : g.values <+: g'.values) {v : ValueId}
    (known : v.index < g.values.length) : g'.typeOf v = g.typeOf v := by
  obtain ⟨more, values⟩ := le
  rw [typeOf, typeOf, ← values, List.getElem?_append_left known]

theorem Graph.map_typeOf_of_isPrefix {g g' : Graph} (le : g.values <+: g'.values)
    {vs : List ValueId} (known : ∀ v ∈ vs, v.index < g.values.length) :
    vs.map g'.typeOf = vs.map g.typeOf :=
  List.map_congr_left fun v mem => typeOf_of_isPrefix le (known v mem)

namespace Draft

/-- An edge with the stack that it carries. -/
structure WiredEdge where
  source : BlockId
  target : BlockId
  slots : List ValueId

/-- The edges to a block, in the order in which they were wired. -/
def WiredEdge.into (edges : List WiredEdge) (b : BlockId) : List WiredEdge :=
  edges.filter (·.target = b)

theorem WiredEdge.into_concat (edges : List WiredEdge) (e : WiredEdge) (b : BlockId) :
    into (edges ++ [e]) b = if e.target = b then into edges b ++ [e] else into edges b := by
  rw [into, into, List.filter_append]
  split <;> simp [*]

/-- The drafts that can be built, with the edges that were wired. An edge may lead to any block
that is there, and a stack may hold any values. -/
inductive Built (name : String) : List WiredEdge → Draft → Prop
  | new : Built name [] (.new name)
  | newMerge {edges : List WiredEdge} {d : Draft} (built : Built name edges d) :
      Built name edges d.newMerge.2
  | newDirect {edges : List WiredEdge} {d : Draft} (built : Built name edges d) :
      Built name edges d.newDirect.2
  | emit {edges : List WiredEdge} {d d' : Draft} (built : Built name edges d) (op : Op)
      {v : ValueId} (emits : d.emit op = .ok (v, d')) : Built name edges d'
  | moveTo {edges : List WiredEdge} {d : Draft} (built : Built name edges d) (b : BlockId)
      (isOpen : (d.moveTo b).Open) : Built name edges (d.moveTo b)
  | terminate {edges : List WiredEdge} {d d' : Draft} (built : Built name edges d) (isOpen : d.Open)
      (t : Terminator) (made : ∀ b ∈ t.successors, (d.graph.block? b).isSome)
      (slots : List ValueId) (known : ∀ v ∈ slots, v.index < d.graph.values.length)
      (ends : Draft.terminate t slots d = .ok () d') :
      Built name (edges ++ t.successors.map fun b => ⟨d.cursor, b, slots⟩) d'

/-- The phis of a block. -/
def phis? (d : Draft) (b : BlockId) : Option (List Phi) := (d.graph.block? b).map (·.phis)

theorem phis?_eq {d : Draft} {b : BlockId} {block : Block}
    (live : d.graph.block? b = some block) : d.phis? b = some block.phis := by
  rw [phis?, live, Option.map_some]

/-- What holds of a draft while edges are wired to its blocks. -/
structure Aligned (edges : List WiredEdge) (d : Draft) : Prop where
  unindexed : d.loopIndices = []
  /-- Nothing is known of a block that is not made yet. -/
  unmade : ∀ {b : BlockId}, d.phis? b = none → d.shape? b = none ∧ b ∉ d.direct
  made : ∀ e ∈ edges, (d.phis? e.target).isSome
  known : ∀ e ∈ edges, ∀ v ∈ e.slots, v.index < d.graph.values.length
  numbered : ∀ {b : BlockId} {phis : List ValueId}, d.shape? b = some phis →
    ∀ v ∈ phis, v.index < d.graph.values.length
  direct : ∀ {b : BlockId}, b ∈ d.direct → d.shape? b = none ∧ ∀ phis ∈ d.phis? b, phis = []
  /-- A merge has the phis of its shape and no others. -/
  phis : ∀ {b : BlockId} {phis : List Phi}, d.phis? b = some phis → b ∉ d.direct →
    phis.map (·.value) = (d.shape? b).getD []
  distinct : ∀ {b : BlockId} {phis : List Phi}, d.phis? b = some phis →
    (phis.map (·.value)).Nodup
  /-- Every edge to a merge found or gave it a shape of the types of its stack. -/
  fits : ∀ e ∈ edges, e.target ∉ d.direct → ∃ phis, d.shape? e.target = some phis ∧
    phis.map d.graph.typeOf = e.slots.map d.graph.typeOf
  /-- Only an edge gives a block its shape; the entry has one from the start. -/
  shaped : ∀ {b : BlockId} {phis : List ValueId}, d.shape? b = some phis →
    b ≠ d.graph.entry → WiredEdge.into edges b ≠ []
  /-- A phi has one input for each edge, the value in its slot of the stack. -/
  inputs : ∀ {b : BlockId} {phis : List Phi}, d.phis? b = some phis → b ∉ d.direct →
    ∀ {j : Nat} {p : Phi}, phis[j]? = some p →
      p.inputs.map some = (WiredEdge.into edges b).map fun e => (e.slots[j]?).map ((e.source, ·))

/-- New phis are in the table of values. -/
theorem Wired.numbered {d d' : Draft} {source b : BlockId} {slots : List ValueId}
    (wired : d.Wired source b slots d') {p : Phi} (mem : p ∈ d.newPhis b slots) :
    p.value.index < d'.graph.values.length := by
  have values := wired.values
  cases shaped : d.shape? b with
  | some phis =>
      rw [newPhis_eq_nil shaped] at mem
      exact absurd mem List.not_mem_nil
  | none =>
      rw [newPhis_eq_fresh shaped] at mem values
      have upper := (Phi.value_of_mem_fresh mem).2
      rw [values]
      simpa using upper

namespace Aligned

variable {edges : List WiredEdge} {d d' : Draft}

theorem new (name : String) : Aligned [] (.new name) := by
  have shape : ∀ {b : BlockId} {phis : List ValueId}, (Draft.new name).shape? b = some phis →
      b = ⟨0⟩ ∧ phis = [] := by
    intro b phis shaped
    rw [shape?, Draft.new, List.lookup_cons] at shaped
    split at shaped
    · rename_i same
      exact ⟨eq_of_beq same, (Option.some.inj shaped).symm⟩
    · cases shaped
  have none : ∀ {b : BlockId} {phis : List Phi}, (Draft.new name).phis? b = some phis →
      phis = [] := by
    rintro ⟨_ | n⟩ phis live
    · exact (Option.some.inj live).symm
    · cases live
  constructor
  case unindexed => rfl
  case unmade =>
    intro b unmade
    refine ⟨?_, List.not_mem_nil⟩
    cases shaped : (Draft.new name).shape? b with
    | none => rfl
    | some phis =>
        obtain ⟨rfl, -⟩ := shape shaped
        cases unmade
  case made => exact fun e mem => absurd mem List.not_mem_nil
  case known => exact fun e mem => absurd mem List.not_mem_nil
  case numbered =>
    intro b phis shaped v mem
    obtain ⟨-, rfl⟩ := shape shaped
    exact absurd mem List.not_mem_nil
  case direct => exact fun mem => absurd mem List.not_mem_nil
  case phis =>
    intro b phis live _
    obtain rfl := none live
    cases shaped : (Draft.new name).shape? b with
    | none => rfl
    | some phis =>
        obtain ⟨-, rfl⟩ := shape shaped
        rfl
  case distinct =>
    intro b phis live
    obtain rfl := none live
    exact List.nodup_nil
  case fits => exact fun e mem => absurd mem List.not_mem_nil
  case shaped => exact fun shaped notEntry => absurd (shape shaped).1 notEntry
  case inputs =>
    intro b phis live _ j p get
    obtain rfl := none live
    simp at get

/-- It is only about phis, shapes and types. -/
theorem of_phis (aligned : Aligned edges d) (phis : ∀ b, d'.phis? b = d.phis? b)
    (shapes : d'.shapes = d.shapes) (direct : d'.direct = d.direct)
    (loopIndices : d'.loopIndices = d.loopIndices)
    (values : d.graph.values <+: d'.graph.values) : Aligned edges d' := by
  have shape : ∀ b, d'.shape? b = d.shape? b := fun b => by rw [shape?, shape?, shapes]
  have le : d.graph.values.length ≤ d'.graph.values.length := values.length_le
  constructor
  case unindexed => rw [loopIndices, aligned.unindexed]
  case unmade =>
    intro b
    rw [phis, shape, direct]
    exact aligned.unmade
  case made =>
    intro e mem
    rw [phis]
    exact aligned.made e mem
  case known => exact fun e mem v slot => Nat.lt_of_lt_of_le (aligned.known e mem v slot) le
  case numbered =>
    intro b ids shaped v mem
    rw [shape] at shaped
    exact Nat.lt_of_lt_of_le (aligned.numbered shaped v mem) le
  case direct =>
    intro b
    rw [phis, shape, direct]
    exact aligned.direct
  case phis =>
    intro b
    rw [phis, shape, direct]
    exact aligned.phis
  case distinct =>
    intro b
    rw [phis]
    exact aligned.distinct
  case fits =>
    intro e mem notDirect
    rw [direct] at notDirect
    obtain ⟨ids, shaped, types⟩ := aligned.fits e mem notDirect
    refine ⟨ids, (shape _).trans shaped, ?_⟩
    rw [Graph.map_typeOf_of_isPrefix values (aligned.numbered shaped),
      Graph.map_typeOf_of_isPrefix values (aligned.known e mem), types]
  case shaped =>
    intro b ids
    rw [shape]
    exact aligned.shaped
  case inputs =>
    intro b
    rw [phis, direct]
    exact aligned.inputs

theorem emit (aligned : Aligned edges d) (op : Op) : Aligned edges (d.emitted op) := by
  refine aligned.of_phis (fun b => ?_) rfl rfl rfl (List.prefix_append _ _)
  rw [phis?, phis?, block?_emitted]
  split
  · rw [Option.map_map]
    rfl
  · rfl

theorem moveTo (aligned : Aligned edges d) (b : BlockId) : Aligned edges (d.moveTo b) :=
  aligned.of_phis (fun _ => rfl) rfl rfl rfl (List.prefix_refl _)

theorem closed (aligned : Aligned edges d) (t : Terminator) : Aligned edges (d.closed t) := by
  have values : (d.closed t).graph.values = d.graph.values := values_addEnd _ _ _
  refine aligned.of_phis (fun b => ?_) rfl rfl rfl ⟨[], by rw [values, List.append_nil]⟩
  rw [phis?, phis?, block?_closed, Option.map_map]
  rfl

/-! ### Making a block -/

theorem addBlock (aligned : Aligned edges d) {direct : List BlockId}
    (others : ∀ {b : BlockId}, b ≠ d.graph.nextBlock → (b ∈ direct ↔ b ∈ d.direct)) :
    Aligned edges (d.addBlock direct) := by
  have phis : ∀ b, (d.addBlock direct).phis? b =
      if b = d.graph.nextBlock then some [] else d.phis? b := by
    intro b
    rw [phis?, phis?, block?_addBlock]
    split <;> rfl
  have shape : ∀ b, (d.addBlock direct).shape? b = d.shape? b := fun _ => rfl
  have fresh : d.shape? d.graph.nextBlock = none :=
    (aligned.unmade (by rw [phis?, block?_nextBlock]; rfl)).1
  have old : ∀ {b : BlockId} {ids : List Phi}, (d.addBlock direct).phis? b = some ids →
      b = d.graph.nextBlock ∧ ids = [] ∨ b ≠ d.graph.nextBlock ∧ d.phis? b = some ids := by
    intro b ids live
    rw [phis] at live
    split at live
    · rename_i new
      exact Or.inl ⟨new, (Option.some.inj live).symm⟩
    · rename_i other
      exact Or.inr ⟨other, live⟩
  have notNew : ∀ e ∈ edges, e.target ≠ d.graph.nextBlock := by
    intro e mem new
    have made := aligned.made e mem
    rw [new, phis?, block?_nextBlock] at made
    cases made
  constructor
  case unindexed => exact aligned.unindexed
  case unmade =>
    intro b unmade
    rw [phis] at unmade
    split at unmade
    · cases unmade
    · rename_i other
      obtain ⟨unshaped, notDirect⟩ := aligned.unmade unmade
      exact ⟨unshaped, fun mem => notDirect ((others other).mp mem)⟩
  case made =>
    intro e mem
    rw [phis, if_neg (notNew e mem)]
    exact aligned.made e mem
  case known => exact aligned.known
  case numbered => exact aligned.numbered
  case direct =>
    intro b mem
    by_cases new : b = d.graph.nextBlock
    · subst new
      refine ⟨fresh, fun ids live => ?_⟩
      rw [phis, if_pos rfl] at live
      exact (Option.some.inj live).symm
    · rw [phis, if_neg new]
      exact aligned.direct ((others new).mp mem)
  case phis =>
    intro b ids live notDirect
    rcases old live with ⟨rfl, rfl⟩ | ⟨other, live⟩
    · rw [shape, fresh]
      rfl
    · exact aligned.phis live fun mem => notDirect ((others other).mpr mem)
  case distinct =>
    intro b ids live
    rcases old live with ⟨-, rfl⟩ | ⟨-, live⟩
    · exact List.nodup_nil
    · exact aligned.distinct live
  case fits =>
    intro e mem notDirect
    exact aligned.fits e mem fun direct => notDirect ((others (notNew e mem)).mpr direct)
  case shaped => exact aligned.shaped
  case inputs =>
    intro b ids live notDirect j p get
    rcases old live with ⟨-, rfl⟩ | ⟨other, live⟩
    · simp at get
    · exact aligned.inputs live (fun mem => notDirect ((others other).mpr mem)) get

/-! ### Wiring an edge -/

theorem merge (aligned : Aligned edges d) {b : BlockId} (notDirect : b ∉ d.direct) :
    d.Merge b where
  notDirect := notDirect
  phis := by
    intro block live
    rw [phisOf, aligned.unindexed]
    simpa using aligned.phis (phis?_eq live) notDirect
  unindexed := by
    intro _
    rw [aligned.unindexed]
    rfl

/-- An edge to a direct block leaves the draft as it is. -/
theorem direct_concat (aligned : Aligned edges d) {e : WiredEdge} (direct : e.target ∈ d.direct)
    (made : (d.phis? e.target).isSome) (known : ∀ v ∈ e.slots, v.index < d.graph.values.length) :
    Aligned (edges ++ [e]) d :=
  { aligned with
    made := List.forall_mem_append.mpr ⟨aligned.made, List.forall_mem_singleton.mpr made⟩
    known := List.forall_mem_append.mpr ⟨aligned.known, List.forall_mem_singleton.mpr known⟩
    fits := List.forall_mem_append.mpr
      ⟨aligned.fits, List.forall_mem_singleton.mpr fun not => absurd direct not⟩
    shaped := by
      intro b phis shaped notEntry
      rw [WiredEdge.into_concat]
      split
      · simp
      · exact aligned.shaped shaped notEntry
    inputs := by
      intro b phis live notDirect j p get
      have other : e.target ≠ b := fun same => notDirect (same ▸ direct)
      rw [WiredEdge.into_concat, if_neg other]
      exact aligned.inputs live notDirect get }

/-- The stack of an edge to a merge has the types of its shape. -/
theorem fits_into (aligned : Aligned edges d) {b : BlockId} (notDirect : b ∉ d.direct)
    {e : WiredEdge} (mem : e ∈ WiredEdge.into edges b) : ∃ phis, d.shape? b = some phis ∧
      phis.map d.graph.typeOf = e.slots.map d.graph.typeOf := by
  obtain ⟨wired, target⟩ := List.mem_filter.mp mem
  obtain rfl : e.target = b := of_decide_eq_true target
  exact aligned.fits e wired notDirect

/-- So all edges to a merge carry stacks of the same types. -/
theorem types_into (aligned : Aligned edges d) {b : BlockId} (notDirect : b ∉ d.direct)
    {e f : WiredEdge} (he : e ∈ WiredEdge.into edges b) (hf : f ∈ WiredEdge.into edges b) :
    e.slots.map d.graph.typeOf = f.slots.map d.graph.typeOf := by
  obtain ⟨phis, shaped, types⟩ := aligned.fits_into notDirect he
  obtain ⟨phis', shaped', types'⟩ := aligned.fits_into notDirect hf
  rw [shaped] at shaped'
  cases shaped'
  exact types.symm.trans types'

/-- A merge that has no shape yet was led to by no edge. -/
theorem into_eq_nil (aligned : Aligned edges d) {b : BlockId} (notDirect : b ∉ d.direct)
    (unshaped : d.shape? b = none) : WiredEdge.into edges b = [] := by
  refine List.eq_nil_iff_forall_not_mem.mpr fun e mem => ?_
  obtain ⟨phis, shaped, -⟩ := aligned.fits_into notDirect mem
  rw [unshaped] at shaped
  cases shaped

/-- A merge to which no edge leads has neither shape nor phis. -/
theorem unshaped (aligned : Aligned edges d) {b : BlockId} {phis : List Phi}
    (live : d.phis? b = some phis) (notDirect : b ∉ d.direct) (notEntry : b ≠ d.graph.entry)
    (none : WiredEdge.into edges b = []) : d.shape? b = .none ∧ phis = [] := by
  cases shaped : d.shape? b with
  | none => exact ⟨rfl, by simpa [shaped] using aligned.phis live notDirect⟩
  | some ids => exact absurd none (aligned.shaped shaped notEntry)

section

variable {e : WiredEdge} (aligned : Aligned edges d) (notDirect : e.target ∉ d.direct)
  (wired : d.Wired e.source e.target e.slots d')

include aligned wired

theorem phis?_wired (b : BlockId) : d'.phis? b = if b = e.target then
    (d.phis? b).map fun phis => ((phis ++ d.newPhis b e.slots).zip e.slots).map fun x =>
      x.1.receive e.source x.2
    else d.phis? b := by
  have carried : d.carried e.target e.slots = e.slots := by
    rw [Draft.carried, aligned.unindexed]
    exact List.append_nil _
  rw [phis?, phis?, wired.block, carried]
  split
  · rename_i same
    rw [same, Option.map_map, Option.map_map]
    rfl
  · rfl

include notDirect

/-- The edge has a value for every phi. -/
theorem length_wired {phis : List Phi} (live : d.phis? e.target = some phis) :
    (phis ++ d.newPhis e.target e.slots).length = e.slots.length := by
  have ids := congrArg List.length (aligned.phis live notDirect)
  have types := congrArg List.length wired.types
  simp only [List.length_map, List.length_append] at ids types ⊢
  omega

omit wired in
/-- A phi had an input for every edge before. -/
theorem inputs_before {phis : List Phi} (live : d.phis? e.target = some phis) {j : Nat} {p : Phi}
    (get : (phis ++ d.newPhis e.target e.slots)[j]? = some p) :
    p.inputs.map some = (WiredEdge.into edges e.target).map fun e =>
      (e.slots[j]?).map ((e.source, ·)) := by
  cases shaped : d.shape? e.target with
  | some ids =>
      rw [newPhis_eq_nil shaped, List.append_nil] at get
      exact aligned.inputs live notDirect get
  | none =>
      have none : phis = [] := by simpa [shaped] using aligned.phis live notDirect
      rw [none, List.nil_append, newPhis_eq_fresh shaped] at get
      rw [Phi.inputs_of_mem_fresh (List.mem_of_getElem? get), aligned.into_eq_nil notDirect shaped]
      rfl

omit wired in
theorem distinct_newPhis {phis : List Phi} (live : d.phis? e.target = some phis) :
    ((phis ++ d.newPhis e.target e.slots).map (·.value)).Nodup := by
  cases shaped : d.shape? e.target with
  | some ids =>
      rw [newPhis_eq_nil shaped, List.append_nil]
      exact aligned.distinct live
  | none =>
      have none : phis = [] := by simpa [shaped] using aligned.phis live notDirect
      rw [none, List.nil_append, newPhis_eq_fresh shaped]
      exact Phi.nodup_map_value_fresh _ _

theorem wired_concat (made : (d.phis? e.target).isSome)
    (known : ∀ v ∈ e.slots, v.index < d.graph.values.length) : Aligned (edges ++ [e]) d' := by
  have phis := aligned.phis?_wired wired
  have values : d.graph.values <+: d'.graph.values := by
    rw [wired.values]
    exact List.prefix_append _ _
  have le := values.length_le
  have received {before : List Phi} (hbefore : d.phis? e.target = some before) :=
    Phi.map_value_receive e.source (aligned.length_wired notDirect wired hbefore)
  constructor
  case unindexed => rw [wired.loopIndices, aligned.unindexed]
  case unmade =>
    intro b unmade
    rw [phis] at unmade
    split at unmade
    · rename_i same
      rw [← same, Option.map_eq_none_iff.mp unmade] at made
      cases made
    · rename_i other
      rw [wired.shape, if_neg other, wired.direct]
      exact aligned.unmade unmade
  case made =>
    intro f mem
    have before : (d.phis? f.target).isSome := by
      rcases List.mem_append.mp mem with mem | mem
      · exact aligned.made f mem
      · rwa [List.mem_singleton.mp mem]
    rw [phis]
    split
    · rwa [Option.isSome_map]
    · exact before
  case known =>
    intro f mem v slot
    rcases List.mem_append.mp mem with mem | mem
    · exact Nat.lt_of_lt_of_le (aligned.known f mem v slot) le
    · obtain rfl := List.mem_singleton.mp mem
      exact Nat.lt_of_lt_of_le (known v slot) le
  case numbered =>
    intro b ids shaped v mem
    rw [wired.shape] at shaped
    split at shaped
    · cases shaped
      rcases List.mem_append.mp mem with old | new
      · cases shape : d.shape? e.target with
        | none =>
            rw [shape] at old
            exact absurd old List.not_mem_nil
        | some ids =>
            rw [shape] at old
            exact Nat.lt_of_lt_of_le (aligned.numbered shape v old) le
      · obtain ⟨p, isNew, rfl⟩ := List.mem_map.mp new
        exact wired.numbered isNew
    · exact Nat.lt_of_lt_of_le (aligned.numbered shaped v mem) le
  case direct =>
    intro b mem
    rw [wired.direct] at mem
    have other : b ≠ e.target := fun same => notDirect (same ▸ mem)
    rw [wired.shape, if_neg other, phis, if_neg other]
    exact aligned.direct mem
  case phis =>
    intro b ids live direct
    rw [wired.direct] at direct
    rw [phis] at live
    rw [wired.shape]
    split at live
    · rename_i same
      subst same
      obtain ⟨before, hbefore, rfl⟩ := Option.map_eq_some_iff.mp live
      rw [if_pos rfl, Option.getD_some, ← aligned.phis hbefore direct, ← List.map_append]
      exact received hbefore
    · rename_i other
      rw [if_neg other]
      exact aligned.phis live direct
  case distinct =>
    intro b ids live
    rw [phis] at live
    split at live
    · rename_i same
      subst same
      obtain ⟨before, hbefore, rfl⟩ := Option.map_eq_some_iff.mp live
      have distinct := aligned.distinct_newPhis notDirect hbefore
      rw [← received hbefore] at distinct
      exact distinct
    · exact aligned.distinct live
  case fits =>
    intro f mem direct
    rw [wired.direct] at direct
    rcases List.mem_append.mp mem with mem | mem
    · -- an edge that was there before met a shape, which stays
      obtain ⟨ids, shaped, types⟩ := aligned.fits f mem direct
      refine ⟨ids, ?_, ?_⟩
      · rw [wired.shape]
        split
        · rename_i same
          rw [← same, newPhis_eq_nil shaped, shaped]
          simp
        · exact shaped
      · rw [Graph.map_typeOf_of_isPrefix values (aligned.numbered shaped),
          Graph.map_typeOf_of_isPrefix values (aligned.known f mem), types]
    · obtain rfl := List.mem_singleton.mp mem
      refine ⟨_, (wired.shape f.target).trans (if_pos rfl), ?_⟩
      rw [wired.types, Graph.map_typeOf_of_isPrefix values known]
  case shaped =>
    intro b ids shaped notEntry
    rw [wired.shape] at shaped
    rw [WiredEdge.into_concat]
    split
    · simp
    · rename_i other
      rw [if_neg (Ne.symm other)] at shaped
      exact aligned.shaped shaped notEntry
  case inputs =>
    intro b ids live direct j p get
    rw [wired.direct] at direct
    rw [phis] at live
    rw [WiredEdge.into_concat]
    by_cases same : b = e.target
    · subst same
      rw [if_pos rfl] at live ⊢
      obtain ⟨before, hbefore, rfl⟩ := Option.map_eq_some_iff.mp live
      rw [List.getElem?_map, Option.map_eq_some_iff] at get
      obtain ⟨⟨q, v⟩, slot, rfl⟩ := get
      obtain ⟨phi, value⟩ := List.getElem?_zip_eq_some.mp slot
      rw [Phi.receive, List.map_append, List.map_append,
        aligned.inputs_before notDirect hbefore phi]
      simp [value]
    · rw [if_neg same] at live
      rw [if_neg (Ne.symm same)]
      exact aligned.inputs live direct get

end

/-- Wiring an edge to a direct block does nothing; the edge to a merge is added to its phis. -/
theorem wire_cases (aligned : Aligned edges d) {e : WiredEdge}
    (known : ∀ v ∈ e.slots, v.index < d.graph.values.length)
    (h : d.wire e.source e.target e.slots = .ok d') :
    e.target ∈ d.direct ∧ d' = d ∨
      e.target ∉ d.direct ∧ d.Wired e.source e.target e.slots d' := by
  by_cases direct : e.target ∈ d.direct
  · rw [Draft.wire, if_pos (by simpa [isDirect] using direct)] at h
    cases h
    exact Or.inl ⟨direct, rfl⟩
  · exact Or.inr ⟨direct, wired_of_wire (aligned.merge direct)
      (fun live => aligned.distinct (phis?_eq live)) known h⟩

/-- One more edge. The blocks stay, and so do the values. -/
theorem wire (aligned : Aligned edges d) {e : WiredEdge} (made : (d.phis? e.target).isSome)
    (known : ∀ v ∈ e.slots, v.index < d.graph.values.length)
    (h : d.wire e.source e.target e.slots = .ok d') :
    Aligned (edges ++ [e]) d' ∧ (∀ b, (d'.phis? b).isSome = (d.phis? b).isSome) ∧
      d.graph.values.length ≤ d'.graph.values.length := by
  rcases aligned.wire_cases known h with ⟨direct, rfl⟩ | ⟨notDirect, wired⟩
  · exact ⟨aligned.direct_concat direct made known, fun _ => rfl, Nat.le_refl _⟩
  · refine ⟨aligned.wired_concat notDirect wired made known, fun b => ?_, ?_⟩
    · rw [aligned.phis?_wired wired]
      split
      · rw [Option.isSome_map]
      · rfl
    · rw [wired.values, List.length_append]
      exact Nat.le_add_right _ _

/-- Any number of edges from one block, also some of them to the same block. -/
theorem wireAll (aligned : Aligned edges d) {source : BlockId} {slots : List ValueId}
    {targets : List BlockId} (made : ∀ b ∈ targets, (d.phis? b).isSome)
    (known : ∀ v ∈ slots, v.index < d.graph.values.length)
    (h : Draft.wireAll source slots targets d = .ok () d') :
    Aligned (edges ++ targets.map fun b => ⟨source, b, slots⟩) d' ∧
      ∀ v ∈ slots, v.index < d'.graph.values.length := by
  induction targets generalizing edges d with
  | nil =>
      cases h
      rw [List.map_nil, List.append_nil]
      exact ⟨aligned, known⟩
  | cons b targets ih =>
      rw [Draft.wireAll] at h
      cases wired : d.wire source b slots with
      | error fault => simp [wired] at h
      | ok d₁ =>
          simp only [wired] at h
          obtain ⟨first, blocks, values⟩ := aligned.wire (e := ⟨source, b, slots⟩)
            (made b List.mem_cons_self) known wired
          have others : ∀ c ∈ targets, (d₁.phis? c).isSome := by
            intro c mem
            rw [blocks]
            exact made c (List.mem_cons_of_mem b mem)
          have rest := ih first others (fun v mem => Nat.lt_of_lt_of_le (known v mem) values) h
          rwa [List.append_assoc] at rest

/-- The edges that leave a block are wired in turn; this is how far it came. -/
theorem terminate (aligned : Aligned edges d) {t : Terminator} {slots : List ValueId}
    {before after : List BlockId} (successors : t.successors = before ++ after)
    (made : ∀ b ∈ t.successors, (d.graph.block? b).isSome)
    (known : ∀ v ∈ slots, v.index < d.graph.values.length)
    (h : Draft.wireAll d.cursor slots before (d.closed t) = .ok () d') :
    Aligned (edges ++ before.map fun b => ⟨d.cursor, b, slots⟩) d' ∧
      ∀ v ∈ slots, v.index < d'.graph.values.length := by
  refine (aligned.closed t).wireAll (fun b mem => ?_) ?_ h
  · rw [phis?, Option.isSome_map, block?_closed, Option.isSome_map]
    exact made b (by rw [successors]; exact List.mem_append_left after mem)
  · rwa [Draft.closed, values_addEnd]

end Aligned

theorem Built.aligned {name : String} {edges : List WiredEdge} {d : Draft}
    (built : Built name edges d) : Aligned edges d := by
  induction built with
  | new => exact .new name
  | newMerge _ ih => exact ih.addBlock fun _ => Iff.rfl
  | newDirect _ ih => exact ih.addBlock fun other => by simp [other]
  | emit _ op emits ih =>
      obtain ⟨-, -, rfl⟩ := emit_eq_ok_iff.mp emits
      exact ih.emit op
  | moveTo _ b _ ih => exact ih.moveTo b
  | terminate _ _ t made slots known ends ih =>
      exact (ih.terminate (List.append_nil _).symm made known (terminate_eq_ok_iff.mp ends).2).1

/-! ### Edges that do not fit -/

/-- The slots and the stack are not of one length, or have other types in some place. -/
def Differs (d : Draft) (phis slots : List ValueId) : Prop :=
  phis.length ≠ slots.length ∨ ∃ (j : Nat) (p v : ValueId), phis[j]? = some p ∧
    slots[j]? = some v ∧ d.graph.typeOf p ≠ d.graph.typeOf v

theorem differs_iff {d : Draft} {phis slots : List ValueId} :
    d.Differs phis slots ↔ phis.map d.graph.typeOf ≠ slots.map d.graph.typeOf := by
  constructor
  · rintro (length | ⟨j, p, v, phi, slot, differ⟩) same
    · exact length (by simpa using congrArg List.length same)
    · have types := congrArg (·[j]?) same
      simp only [List.getElem?_map, phi, slot, Option.map_some, Option.some.injEq] at types
      exact differ types
  · intro differ
    by_cases length : phis.length = slots.length
    · refine Or.inr (Classical.byContradiction fun none => differ ?_)
      refine List.ext_getElem (by simpa using length) fun j left right => ?_
      rw [List.getElem_map, List.getElem_map]
      rw [List.length_map] at left right
      exact Classical.byContradiction fun other => none
        ⟨j, phis[j], slots[j], List.getElem?_eq_getElem left, List.getElem?_eq_getElem right, other⟩
    · exact Or.inl length

/-- The block has a shape and the stack differs from it; the fault tells both. -/
def Mismatch (d : Draft) (b : BlockId) (slots : List ValueId) (fault : Fault) : Prop :=
  ∃ phis, d.shape? b = some phis ∧ d.Differs phis slots ∧
    fault = .phiMismatch b (phis.map d.graph.typeOf) (slots.map d.graph.typeOf)

theorem Aligned.wire_eq_error_iff {edges : List WiredEdge} {d : Draft} (aligned : Aligned edges d)
    {source b : BlockId} {slots : List ValueId} {fault : Fault}
    (known : ∀ v ∈ slots, v.index < d.graph.values.length) :
    d.wire source b slots = .error fault ↔ d.Mismatch b slots fault := by
  rw [Draft.wire_eq_error_iff known fun _ shaped => aligned.numbered shaped]
  constructor
  · rintro ⟨-, phis, shaped, differ, rfl⟩
    exact ⟨phis, shaped, differs_iff.mpr differ, rfl⟩
  · rintro ⟨phis, shaped, differ, rfl⟩
    refine ⟨fun direct => ?_, phis, shaped, differs_iff.mp differ, rfl⟩
    rw [(aligned.direct direct).1] at shaped
    cases shaped

/-- Edges are wired up to the first one that cannot be. -/
theorem wireAll_eq_error_iff {source : BlockId} {slots : List ValueId} {targets : List BlockId}
    {d mid : Draft} {fault : Fault} :
    wireAll source slots targets d = .error fault mid ↔
      ∃ before b after, targets = before ++ b :: after ∧
        wireAll source slots before d = .ok () mid ∧
        mid.wire source b slots = .error fault := by
  induction targets generalizing d with
  | nil => simp [wireAll]
  | cons target targets ih =>
      rw [wireAll]
      cases wired : d.wire source target slots with
      | error fault' =>
          simp only [EStateM.Result.error.injEq]
          constructor
          · rintro ⟨rfl, rfl⟩
            exact ⟨[], target, targets, rfl, rfl, wired⟩
          · rintro ⟨_ | ⟨c, before⟩, b, after, split, ok, fails⟩
            · cases split
              cases ok
              rw [wired] at fails
              cases fails
              exact ⟨rfl, rfl⟩
            · cases split
              simp [wireAll, wired] at ok
      | ok d₁ =>
          simp only [ih]
          constructor
          · rintro ⟨before, b, after, rfl, ok, fails⟩
            refine ⟨target :: before, b, after, rfl, ?_, fails⟩
            rw [wireAll, wired]
            exact ok
          · rintro ⟨_ | ⟨c, before⟩, b, after, split, ok, fails⟩
            · cases split
              cases ok
              rw [wired] at fails
              cases fails
            · cases split
              rw [wireAll, wired] at ok
              exact ⟨before, b, after, rfl, ok, fails⟩

/-- Ending a block fails at the first edge whose stack differs from the shape that it meets, which
an edge of the same block may just have fixed. -/
theorem Aligned.terminate_eq_error_iff {edges : List WiredEdge} {d mid : Draft}
    (aligned : Aligned edges d) {t : Terminator} {slots : List ValueId} {fault : Fault}
    (unended : d.graph.isTerminated d.cursor = false)
    (made : ∀ b ∈ t.successors, (d.graph.block? b).isSome)
    (known : ∀ v ∈ slots, v.index < d.graph.values.length) :
    Draft.terminate t slots d = .error fault mid ↔ ∃ before b after,
      t.successors = before ++ b :: after ∧
      Draft.wireAll d.cursor slots before (d.closed t) = .ok () mid ∧
      mid.Mismatch b slots fault := by
  rw [Draft.terminate_eq_error_iff unended, wireAll_eq_error_iff]
  constructor
  · rintro ⟨before, b, after, successors, ok, fails⟩
    obtain ⟨partway, known'⟩ := aligned.terminate successors made known ok
    exact ⟨before, b, after, successors, ok, (partway.wire_eq_error_iff known').mp fails⟩
  · rintro ⟨before, b, after, successors, ok, mismatch⟩
    obtain ⟨partway, known'⟩ := aligned.terminate successors made known ok
    exact ⟨before, b, after, successors, ok, (partway.wire_eq_error_iff known').mpr mismatch⟩

/-- In every draft that is built, the stacks of all edges to a merge have the types of the first
one, the merge has a phi for each slot of it, and the inputs of a phi are what the edges carry in
its slot, in their order. Before its first edge a merge has neither shape nor phis, and a direct
block never has phis. An edge whose stack holds values that are there cannot be wired just when the
block it leads to has a shape from which the stack differs; a block is then ended with the edges
before that one wired. -/
theorem slots_aligned {name : String} {edges : List WiredEdge} {d : Draft}
    (built : Built name edges d) :
    (∀ b block first rest, d.graph.block? b = some block → b ∉ d.direct →
      WiredEdge.into edges b = first :: rest →
      (∀ e ∈ rest, e.slots.length = first.slots.length ∧
        e.slots.map d.graph.typeOf = first.slots.map d.graph.typeOf) ∧
      ∃ phis, d.shape? b = some phis ∧ phis.length = first.slots.length ∧
        phis.map d.graph.typeOf = first.slots.map d.graph.typeOf ∧
        block.phis.map (·.value) = phis ∧
        ∀ (j : Nat) (p : Phi), block.phis[j]? = some p → p.inputs.map some =
          (first :: rest).map fun e => (e.slots[j]?).map ((e.source, ·))) ∧
    (∀ b block, d.graph.block? b = some block → b ∉ d.direct → b ≠ d.graph.entry →
      WiredEdge.into edges b = [] → d.shape? b = none ∧ block.phis = []) ∧
    (∀ b block, d.graph.block? b = some block → b ∈ d.direct → block.phis = []) ∧
    (∀ source b slots fault, (∀ v ∈ slots, v.index < d.graph.values.length) →
      (d.wire source b slots = .error fault ↔ d.Mismatch b slots fault)) ∧
    (∀ t slots fault mid, d.graph.isTerminated d.cursor = false →
      (∀ b ∈ t.successors, (d.graph.block? b).isSome) →
      (∀ v ∈ slots, v.index < d.graph.values.length) →
      (terminate t slots d = .error fault mid ↔ ∃ before b after,
        t.successors = before ++ b :: after ∧
        wireAll d.cursor slots before (d.closed t) = .ok () mid ∧
        mid.Mismatch b slots fault)) := by
  have aligned := built.aligned
  refine ⟨?_, ?_, ?_, ?_, ?_⟩
  · intro b block first rest live notDirect incoming
    have mem : ∀ {e : WiredEdge}, e ∈ first :: rest → e ∈ WiredEdge.into edges b :=
      fun mem => incoming ▸ mem
    obtain ⟨phis, shaped, types⟩ := aligned.fits_into notDirect (mem List.mem_cons_self)
    have length : phis.length = first.slots.length := by simpa using congrArg List.length types
    refine ⟨fun e later => ?_, phis, shaped, length, types, ?_, ?_⟩
    · have same := aligned.types_into notDirect (mem (List.mem_cons_of_mem first later))
        (mem List.mem_cons_self)
      exact ⟨by simpa using congrArg List.length same, same⟩
    · rw [aligned.phis (phis?_eq live) notDirect, shaped, Option.getD_some]
    · intro j p get
      rw [← incoming]
      exact aligned.inputs (phis?_eq live) notDirect get
  · intro b block live notDirect notEntry none
    exact aligned.unshaped (phis?_eq live) notDirect notEntry none
  · exact fun b block live direct => (aligned.direct direct).2 _ (phis?_eq live)
  · exact fun source b slots fault => aligned.wire_eq_error_iff
  · exact fun t slots fault mid unended made known =>
      aligned.terminate_eq_error_iff unended made known

/-- Both arms of a branch lead to one block, which then leads to itself with its own phi. -/
theorem slots_aligned_branch_loop : ∃ d block,
    Built "loop" [⟨⟨0⟩, ⟨1⟩, [⟨0⟩]⟩, ⟨⟨0⟩, ⟨1⟩, [⟨0⟩]⟩, ⟨⟨1⟩, ⟨1⟩, [⟨2⟩]⟩] d ∧
    d.graph.block? ⟨1⟩ = some block ∧ block.phis.map (·.value) = [⟨2⟩] ∧
    (∀ p : Phi, block.phis[0]? = some p →
      p.inputs.map some = [some (⟨0⟩, ⟨0⟩), some (⟨0⟩, ⟨0⟩), some (⟨1⟩, ⟨2⟩)]) ∧
    d.wire ⟨1⟩ ⟨1⟩ [] = .error (.phiMismatch ⟨1⟩ [.value] []) := by
  have entry : Built "loop" [] _ :=
    (Built.new.emit (.const .null) rfl).emit (.isTruth true ⟨0⟩) rfl
  have forked := entry.newMerge.terminate ⟨_, rfl, rfl⟩ (.branch ⟨1⟩ ⟨1⟩ ⟨1⟩) (by decide) [⟨0⟩]
    (by decide) rfl
  have built := (forked.moveTo ⟨1⟩ ⟨_, rfl, rfl⟩).terminate ⟨_, rfl, rfl⟩ (.goto ⟨1⟩) (by decide)
    [⟨2⟩] (by decide) rfl
  obtain ⟨merges, -, -, wires, -⟩ := slots_aligned built
  obtain ⟨-, phis, shaped, -, -, values, inputs⟩ := merges ⟨1⟩ _ _ _ rfl (by decide) rfl
  cases shaped
  exact ⟨_, _, built, rfl, values, inputs 0,
    (wires _ _ _ _ (by decide)).mpr ⟨_, rfl, Or.inl (by decide), rfl⟩⟩

end Draft

end StackLift
