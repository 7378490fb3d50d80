import StackLift.Bracket.Assign

/-!
The order in which the layers of a complex assignment are read and written. Descriptors of layers
are asked for in any order, and calls that come out of order are refused. What a call that was
accepted leaves behind bounds all later ones: no layer is read any more from the last one read on
inwards, none at all once one is written, and none is written up to the last one written. Main
statement: whatever is asked for, what is accepted are reads from inner to outer layers, and then
writes from outer to inner layers (`layers_in_order`).
-/

namespace StackLift

/-- A call that asks for the descriptor of a layer. -/
structure LayerCall where
  access : LayerAccess
  layer : Nat
deriving DecidableEq

namespace PendingAssign

/-- The answer to a call, and what is pending after it. -/
def answer (a : PendingAssign) (c : LayerCall) : Except Fault CallSite × PendingAssign :=
  match c.access with
  | .getter => a.getter c.layer
  | .setter => a.setter c.layer

/-- The answers to calls in turn. -/
def answers (a : PendingAssign) : List LayerCall → List (Except Fault CallSite)
  | [] => []
  | c :: rest => (a.answer c).1 :: (a.answer c).2.answers rest

/-- The calls that are accepted, with the descriptors that they get. -/
def accepted (a : PendingAssign) (calls : List LayerCall) : List (LayerCall × CallSite) :=
  (calls.zip (a.answers calls)).filterMap fun p => p.2.toOption.map fun site => (p.1, site)

/-- The descriptor for reading a layer: the call as it was written and as it is made. -/
def IsRead (a : PendingAssign) (layer : Nat) (site : CallSite) : Prop :=
  ∃ l, a.place.layers[layer]? = some l ∧ site = .place l.written l.called

/-- The descriptor for writing a layer: its replacement function, called on the same arguments and
on the value. For the outermost layer that is the right side of the assignment. -/
def IsWrite (a : PendingAssign) (layer : Nat) (site : CallSite) : Prop :=
  ∃ l fn, a.place.layers[layer]? = some l ∧ l.called.calledName? = some fn ∧
    site = .place l.written (.call (.symbol (fn ++ "<-"))
      (l.called.args ++ [.named "value" (if layer = 0 then a.rhs else .symbol "*vtmp*")]))

variable {a a' : PendingAssign} {layer : Nat} {site : CallSite} {c : LayerCall}

/-! ### One call -/

/-- A layer may be read while none is written, if it is not the outermost one and stands outside of
the last one read. -/
def MayRead (a : PendingAssign) (layer : Nat) : Prop :=
  layer ≠ 0 ∧ a.lastSetter = none ∧ ∀ last ∈ a.lastGetter, layer < last

/-- A layer may be written if it stands inside of the last one written. -/
def MayWrite (a : PendingAssign) (layer : Nat) : Prop := ∀ last ∈ a.lastSetter, last < layer

theorem IsRead.lt (read : a.IsRead layer site) : layer < a.place.layers.length := by
  obtain ⟨l, get, -⟩ := read
  exact (List.getElem?_eq_some_iff.mp get).1

theorem IsWrite.lt (write : a.IsWrite layer site) : layer < a.place.layers.length := by
  obtain ⟨l, fn, get, -⟩ := write
  exact (List.getElem?_eq_some_iff.mp get).1

theorem mayRead_iff : a.MayRead layer ↔
    layer ≠ 0 ∧ ¬(a.lastSetter.isSome || a.lastGetter.any (· ≤ layer)) = true := by
  rw [MayRead]
  cases a.lastSetter <;> cases a.lastGetter <;> simp

theorem mayWrite_iff : a.MayWrite layer ↔ ¬a.lastSetter.any (layer ≤ ·) = true := by
  rw [MayWrite]
  cases a.lastSetter <;> simp

theorem getter_of_mayRead {l : Layer} (get : a.place.layers[layer]? = some l)
    (may : a.MayRead layer) :
    a.getter layer = (.ok l.getterSite, { a with lastGetter := some layer }) := by
  obtain ⟨inner, inOrder⟩ := mayRead_iff.mp may
  simp only [getter, get, if_neg inner, if_neg inOrder]

theorem getter_cases (a : PendingAssign) (layer : Nat) :
    (∃ f, a.getter layer = (.error f, a)) ∨
      ∃ l, a.place.layers[layer]? = some l ∧ a.MayRead layer := by
  cases get : a.place.layers[layer]? with
  | none => exact .inl ⟨a.outside .getter layer, by simp only [getter, get]⟩
  | some l =>
      by_cases may : a.MayRead layer
      · exact .inr ⟨l, rfl, may⟩
      · refine .inl ?_
        simp only [getter, get]
        split
        · exact ⟨_, rfl⟩
        · rename_i inner
          split
          · exact ⟨_, rfl⟩
          · rename_i inOrder
            exact absurd (mayRead_iff.mpr ⟨inner, inOrder⟩) may

theorem setter_of_mayWrite {l : Layer} (get : a.place.layers[layer]? = some l)
    (may : a.MayWrite layer) :
    a.setter layer =
      (l.setterSite (a.writtenValue layer), { a with lastSetter := some layer }) := by
  simp only [setter, get, if_neg (mayWrite_iff.mp may)]

theorem setter_cases (a : PendingAssign) (layer : Nat) :
    (∃ f, a.setter layer = (.error f, a)) ∨
      ∃ l, a.place.layers[layer]? = some l ∧ a.MayWrite layer := by
  cases get : a.place.layers[layer]? with
  | none => exact .inl ⟨a.outside .setter layer, by simp only [setter, get]⟩
  | some l =>
      by_cases may : a.MayWrite layer
      · exact .inr ⟨l, rfl, may⟩
      · refine .inl ⟨a.outOfOrder .setter layer, ?_⟩
        simp only [setter, get, if_pos (Classical.not_not.mp (mt mayWrite_iff.mpr may))]

theorem isWrite_of_setterSite {l : Layer} (get : a.place.layers[layer]? = some l)
    (found : l.setterSite (a.writtenValue layer) = .ok site) : a.IsWrite layer site := by
  rw [Layer.setterSite] at found
  cases called : l.called.calledName? with
  | none => simp [called] at found
  | some fn =>
      rw [called] at found
      exact ⟨l, fn, get, called, (Except.ok.inj found).symm⟩

/-- All that a call can do: it is refused, a layer is read, or a layer counts as written. -/
theorem answer_cases (a : PendingAssign) (c : LayerCall) :
    (∃ f, a.answer c = (.error f, a)) ∨
    (∃ site, c.access = .getter ∧ a.MayRead c.layer ∧ a.IsRead c.layer site ∧
      a.answer c = (.ok site, { a with lastGetter := some c.layer })) ∨
    ∃ result, c.access = .setter ∧ a.MayWrite c.layer ∧
      (∀ site, result = .ok site → a.IsWrite c.layer site) ∧
      a.answer c = (result, { a with lastSetter := some c.layer }) := by
  obtain ⟨access, layer⟩ := c
  cases access with
  | getter =>
      rcases getter_cases a layer with refused | ⟨l, get, may⟩
      · exact .inl refused
      · exact .inr (.inl ⟨_, rfl, may, ⟨l, get, rfl⟩, getter_of_mayRead get may⟩)
  | setter =>
      rcases setter_cases a layer with refused | ⟨l, get, may⟩
      · exact .inl refused
      · exact .inr (.inr ⟨_, rfl, may, fun site => isWrite_of_setterSite get,
          setter_of_mayWrite get may⟩)

/-! ### Calls in turn -/

theorem accepted_cons_ok {rest : List LayerCall} (answers : a.answer c = (.ok site, a')) :
    a.accepted (c :: rest) = (c, site) :: a'.accepted rest := by
  simp [accepted, PendingAssign.answers, answers, Except.toOption]

theorem accepted_cons_error {f : Fault} {rest : List LayerCall}
    (answers : a.answer c = (.error f, a')) : a.accepted (c :: rest) = a'.accepted rest := by
  simp [accepted, PendingAssign.answers, answers, Except.toOption]

/-- Layers that are read and then written, in order after what was read and written before. -/
structure InOrder (a : PendingAssign) (reads writes : List (Nat × CallSite)) : Prop where
  descending : reads.Pairwise fun r r' => r'.1 < r.1
  ascending : writes.Pairwise fun w w' => w.1 < w'.1
  read : ∀ r ∈ reads, a.MayRead r.1 ∧ a.IsRead r.1 r.2
  write : ∀ w ∈ writes, a.MayWrite w.1 ∧ a.IsWrite w.1 w.2

/-- What is accepted: layers are read, and then layers are written. -/
def events (reads writes : List (Nat × CallSite)) : List (LayerCall × CallSite) :=
  reads.map (fun r => (⟨.getter, r.1⟩, r.2)) ++ writes.map (fun w => (⟨.setter, w.1⟩, w.2))

theorem InOrder.of_read {reads writes : List (Nat × CallSite)} (may : a.MayRead layer)
    (read : a.IsRead layer site)
    (inOrder : InOrder { a with lastGetter := some layer } reads writes) :
    a.InOrder ((layer, site) :: reads) writes where
  descending := by
    refine List.pairwise_cons.mpr ⟨fun r mem => ?_, inOrder.descending⟩
    exact (inOrder.read r mem).1.2.2 layer rfl
  ascending := inOrder.ascending
  read := by
    refine List.forall_mem_cons.mpr ⟨⟨may, read⟩, fun r mem => ?_⟩
    obtain ⟨⟨inner, unwritten, below⟩, isRead⟩ := inOrder.read r mem
    refine ⟨⟨inner, may.2.1, fun last is => ?_⟩, isRead⟩
    exact Nat.lt_trans (below layer rfl) (may.2.2 last is)
  write := inOrder.write

/-- Once a layer counts as written, none is read any more. -/
theorem InOrder.reads_eq_nil {reads writes : List (Nat × CallSite)}
    (inOrder : InOrder { a with lastSetter := some layer } reads writes) : reads = [] := by
  cases reads with
  | nil => rfl
  | cons r rest =>
      obtain ⟨⟨-, unwritten, -⟩, -⟩ := inOrder.read r List.mem_cons_self
      cases unwritten

theorem InOrder.of_counted {writes : List (Nat × CallSite)} (may : a.MayWrite layer)
    (inOrder : InOrder { a with lastSetter := some layer } [] writes) : a.InOrder [] writes where
  descending := .nil
  ascending := inOrder.ascending
  read r mem := absurd mem List.not_mem_nil
  write := by
    intro w mem
    obtain ⟨above, isWrite⟩ := inOrder.write w mem
    exact ⟨fun last is => Nat.lt_trans (may last is) (above layer rfl), isWrite⟩

theorem InOrder.of_write {writes : List (Nat × CallSite)} (may : a.MayWrite layer)
    (write : a.IsWrite layer site)
    (inOrder : InOrder { a with lastSetter := some layer } [] writes) :
    a.InOrder [] ((layer, site) :: writes) where
  descending := .nil
  ascending := by
    refine List.pairwise_cons.mpr ⟨fun w mem => ?_, inOrder.ascending⟩
    exact (inOrder.write w mem).1 layer rfl
  read r mem := absurd mem List.not_mem_nil
  write := List.forall_mem_cons.mpr ⟨⟨may, write⟩, (inOrder.of_counted may).write⟩

/-- What is accepted of any calls is in order. -/
theorem exists_inOrder (a : PendingAssign) (calls : List LayerCall) :
    ∃ reads writes, a.accepted calls = events reads writes ∧ a.InOrder reads writes := by
  induction calls generalizing a with
  | nil =>
      refine ⟨[], [], rfl, .nil, .nil, ?_, ?_⟩
      · exact fun r mem => absurd mem List.not_mem_nil
      · exact fun w mem => absurd mem List.not_mem_nil
  | cons c rest ih =>
      obtain ⟨access, layer⟩ := c
      rcases answer_cases a ⟨access, layer⟩ with ⟨f, refused⟩ | ⟨site, isGetter, may, read, answers⟩ |
        ⟨result, isSetter, may, write, answers⟩
      · rw [accepted_cons_error refused]
        exact ih a
      · obtain ⟨reads, writes, same, inOrder⟩ := ih { a with lastGetter := some layer }
        refine ⟨(layer, site) :: reads, writes, ?_, .of_read may read inOrder⟩
        cases isGetter
        rw [accepted_cons_ok answers, same]
        rfl
      · obtain ⟨reads, writes, same, inOrder⟩ := ih { a with lastSetter := some layer }
        obtain rfl := inOrder.reads_eq_nil
        cases isSetter
        cases result with
        | error f =>
            -- The function of the layer has no name. The call is refused, but the layer counts.
            refine ⟨[], writes, ?_, .of_counted may inOrder⟩
            rw [accepted_cons_error answers, same]
        | ok site =>
            refine ⟨[], (layer, site) :: writes, ?_, .of_write may (write site rfl) inOrder⟩
            rw [accepted_cons_ok answers, same]
            rfl

theorem InOrder.nodup {reads writes : List (Nat × CallSite)} (inOrder : a.InOrder reads writes) :
    ((events reads writes).map Prod.fst).Nodup := by
  rw [events, List.map_append, List.map_map, List.map_map]
  refine List.nodup_append.mpr ⟨?_, ?_, ?_⟩
  · refine List.pairwise_map.mpr (inOrder.descending.imp fun lt same => ?_)
    exact Nat.ne_of_gt lt (congrArg LayerCall.layer same)
  · refine List.pairwise_map.mpr (inOrder.ascending.imp fun lt same => ?_)
    exact Nat.ne_of_lt lt (congrArg LayerCall.layer same)
  · intro c mem c' mem' same
    obtain ⟨r, -, rfl⟩ := List.mem_map.mp mem
    obtain ⟨w, -, rfl⟩ := List.mem_map.mp mem'
    cases same

/-! ### Calls in order -/

/-- Layers that may be read are read, if each stands outside of the one before. -/
theorem accepted_getters {layers : List Nat} (descending : layers.Pairwise (· > ·))
    (may : ∀ k ∈ layers, a.MayRead k ∧ k < a.place.layers.length) (rest : List LayerCall) :
    ∃ a' : PendingAssign, a'.place = a.place ∧ a'.lastSetter = a.lastSetter ∧
      (a.accepted (layers.map (.mk .getter) ++ rest)).map Prod.fst =
        layers.map (.mk .getter) ++ (a'.accepted rest).map Prod.fst := by
  induction layers generalizing a with
  | nil => exact ⟨a, rfl, rfl, rfl⟩
  | cons k others ih =>
      obtain ⟨outside, descending⟩ := List.pairwise_cons.mp descending
      obtain ⟨⟨mayHere, lt⟩, mayOthers⟩ := List.forall_mem_cons.mp may
      have answers : a.answer ⟨.getter, k⟩ = (.ok _, { a with lastGetter := some k }) :=
        getter_of_mayRead (List.getElem?_eq_getElem lt) mayHere
      have may' : ∀ j ∈ others, MayRead { a with lastGetter := some k } j ∧
          j < a.place.layers.length := by
        intro j mem
        obtain ⟨⟨inner, unwritten, -⟩, lt⟩ := mayOthers j mem
        refine ⟨⟨inner, unwritten, fun last is => ?_⟩, lt⟩
        cases is
        exact outside j mem
      obtain ⟨a', place, lastSetter, same⟩ := ih descending may'
      refine ⟨a', place, lastSetter, ?_⟩
      rw [List.map_cons, List.cons_append, accepted_cons_ok answers, List.map_cons, same]
      rfl

/-- Layers that may be written are written, if their functions have names and each stands inside of
the one before. -/
theorem accepted_setters {layers : List Nat} (ascending : layers.Pairwise (· < ·))
    (may : ∀ k ∈ layers, a.MayWrite k ∧ ∃ l fn, a.place.layers[k]? = some l ∧
      l.called.calledName? = some fn) :
    (a.accepted (layers.map (.mk .setter))).map Prod.fst = layers.map (.mk .setter) := by
  induction layers generalizing a with
  | nil => rfl
  | cons k others ih =>
      obtain ⟨inside, ascending⟩ := List.pairwise_cons.mp ascending
      obtain ⟨⟨mayHere, l, fn, get, called⟩, mayOthers⟩ := List.forall_mem_cons.mp may
      obtain ⟨site, found⟩ : ∃ site, l.setterSite (a.writtenValue k) = .ok site :=
        ⟨_, by rw [Layer.setterSite, called]⟩
      have answers : a.answer ⟨.setter, k⟩ = (.ok site, { a with lastSetter := some k }) := by
        rw [← found]
        exact setter_of_mayWrite get mayHere
      have may' : ∀ j ∈ others, MayWrite { a with lastSetter := some k } j ∧
          ∃ l fn, a.place.layers[j]? = some l ∧ l.called.calledName? = some fn := by
        intro j mem
        refine ⟨fun last is => ?_, (mayOthers j mem).2⟩
        cases is
        exact inside j mem
      rw [List.map_cons, accepted_cons_ok answers, List.map_cons, ih ascending may']

end PendingAssign

open PendingAssign

/-- Layers are accessed in order. Whatever is asked for, what is accepted are first reads, each of a
layer outside of the one before and never of the outermost one, and then writes, each of a layer
inside of the one before; so each layer is read at most once and written at most once, and each call
gets the descriptor of its own layer. Nothing else is asked of a new assignment: calls that come in
this order, and write layers whose functions have names, are all accepted. -/
theorem layers_in_order (a : PendingAssign) :
    (∀ calls, ∃ reads writes : List (Nat × CallSite), a.accepted calls = events reads writes ∧
      (reads.Pairwise fun r r' => r'.1 < r.1) ∧ (writes.Pairwise fun w w' => w.1 < w'.1) ∧
      (∀ r ∈ reads, 1 ≤ r.1 ∧ r.1 < a.place.layers.length ∧ a.IsRead r.1 r.2) ∧
      (∀ w ∈ writes, w.1 < a.place.layers.length ∧ a.IsWrite w.1 w.2) ∧
      ((a.accepted calls).map Prod.fst).Nodup) ∧
    (a.lastGetter = none → a.lastSetter = none → ∀ gets sets : List Nat,
      gets.Pairwise (· > ·) → (∀ k ∈ gets, 1 ≤ k ∧ k < a.place.layers.length) →
      sets.Pairwise (· < ·) → (∀ k ∈ sets, ∃ l fn, a.place.layers[k]? = some l ∧
        l.called.calledName? = some fn) →
      (a.accepted (gets.map (.mk .getter) ++ sets.map (.mk .setter))).map Prod.fst =
        gets.map (.mk .getter) ++ sets.map (.mk .setter)) := by
  refine ⟨fun calls => ?_, fun unread unwritten gets sets descending inner ascending named => ?_⟩
  · obtain ⟨reads, writes, same, inOrder⟩ := exists_inOrder a calls
    refine ⟨reads, writes, same, inOrder.descending, inOrder.ascending, fun r mem => ?_,
      fun w mem => ?_, same ▸ inOrder.nodup⟩
    · obtain ⟨may, read⟩ := inOrder.read r mem
      exact ⟨Nat.pos_of_ne_zero may.1, read.lt, read⟩
    · obtain ⟨-, write⟩ := inOrder.write w mem
      exact ⟨write.lt, write⟩
  · have mayRead : ∀ k ∈ gets, a.MayRead k ∧ k < a.place.layers.length := by
      intro k mem
      refine ⟨⟨Nat.ne_of_gt (inner k mem).1, unwritten, fun last is => ?_⟩, (inner k mem).2⟩
      rw [unread] at is
      cases is
    obtain ⟨a', place, lastSetter, same⟩ :=
      accepted_getters descending mayRead (sets.map (.mk .setter))
    have mayWrite : ∀ k ∈ sets, a'.MayWrite k ∧ ∃ l fn, a'.place.layers[k]? = some l ∧
        l.called.calledName? = some fn := by
      intro k mem
      refine ⟨fun last is => ?_, place ▸ named k mem⟩
      rw [lastSetter, unwritten] at is
      cases is
    rw [same, accepted_setters ascending mayWrite]

/-- `names(x[i][[j]]) <- v`. -/
def threeLayers : Expr :=
  .ofCall "<-" [.ofCall "names" [.ofCall "[[" [.ofCall "[" [.symbol "x", .symbol "i"],
    .symbol "j"]], .symbol "v"]

/-- Inner layers may be left out when they are read, and then outer ones when they are written. -/
theorem layers_in_order_threeLayers : ∃ a, PendingAssign.start .current "x" threeLayers = .ok a ∧
    (a.accepted [⟨.getter, 1⟩, ⟨.setter, 1⟩, ⟨.setter, 2⟩]).map Prod.fst =
      [⟨.getter, 1⟩, ⟨.setter, 1⟩, ⟨.setter, 2⟩] ∧
    ((a.accepted [⟨.setter, 1⟩, ⟨.getter, 1⟩, ⟨.setter, 1⟩]).map Prod.fst).Nodup := by
  refine ⟨_, rfl, ?_, ?_⟩
  · refine (layers_in_order _).2 rfl rfl [1] [1, 2] (by simp) (by decide) (by simp) ?_
    exact List.forall_mem_cons.mpr ⟨⟨_, _, rfl, rfl⟩, List.forall_mem_cons.mpr
      ⟨⟨_, _, rfl, rfl⟩, fun k mem => absurd mem List.not_mem_nil⟩⟩
  · obtain ⟨_, _, -, -, -, -, -, once⟩ :=
      (layers_in_order _).1 [⟨.setter, 1⟩, ⟨.getter, 1⟩, ⟨.setter, 1⟩]
    exact once

end StackLift
