import StackLift.Proofs.LayerOrder

/-!
What refused accesses to the layers of a complex assignment leave behind. A call that asks for no
layer of the place, or for one that does not come in order, is refused before anything is noted. A
layer that is to be written is noted before its replacement function is looked for, and where the
function is computed there is none: the call is refused, and the layer counts as written all the
same. Main statement: this is the only refusal with an effect, and later calls show the effect
unless all of them are refused anyway up to the first one that writes a layer further inside
(`refused_without_effect_iff`).
-/

namespace StackLift

namespace PendingAssign

/-- What is pending after calls. -/
def after (a : PendingAssign) : List LayerCall → PendingAssign
  | [] => a
  | c :: rest => (a.answer c).2.after rest

/-- A call asks for a layer of the place, and the layer comes in order. -/
def Permits (a : PendingAssign) (c : LayerCall) : Prop :=
  c.layer < a.place.layers.length ∧
    match c.access with
    | .getter => a.MayRead c.layer
    | .setter => a.MayWrite c.layer

/-- The fault of a call that is not permitted. -/
def refusal (a : PendingAssign) (c : LayerCall) : Fault :=
  if c.layer < a.place.layers.length ∧ c ≠ ⟨.getter, 0⟩ then a.outOfOrder c.access c.layer
  else a.outside c.access c.layer

/-- A call asks to write, in order, a layer whose function is computed. -/
def WritesComputed (a : PendingAssign) (c : LayerCall) : Prop :=
  c.access = .setter ∧ a.MayWrite c.layer ∧
    ∃ l, a.place.layers[c.layer]? = some l ∧ l.called.calledName? = none

/-- A call asks to write a layer inside of a given one. -/
def WritesInside (a : PendingAssign) (layer : Nat) (c : LayerCall) : Prop :=
  c.access = .setter ∧ layer < c.layer ∧ c.layer < a.place.layers.length

/-- Calls that cannot tell whether a layer counts as written: none is permitted, up to the first one
that writes a layer inside of it. -/
def Unnoticed (a : PendingAssign) (layer : Nat) : List LayerCall → Prop
  | [] => True
  | c :: rest => a.WritesInside layer c ∨ ¬a.Permits c ∧ a.Unnoticed layer rest

variable {a : PendingAssign} {layer : Nat} {c : LayerCall} {f : Fault}

/-! ### One call -/

theorem answer_of_not_permits (refused : ¬a.Permits c) :
    a.answer c = (.error (a.refusal c), a) := by
  obtain ⟨access, layer⟩ := c
  cases get : a.place.layers[layer]? with
  | none =>
      have outside : ¬(layer < a.place.layers.length ∧
          (⟨access, layer⟩ : LayerCall) ≠ ⟨.getter, 0⟩) :=
        fun inside => Nat.not_lt.mpr (List.getElem?_eq_none_iff.mp get) inside.1
      cases access with
      | getter => simp only [answer, getter, get, refusal, if_neg outside]
      | setter => simp only [answer, setter, get, refusal, if_neg outside]
  | some l =>
      have lt : layer < a.place.layers.length := (List.getElem?_eq_some_iff.mp get).1
      cases access with
      | getter =>
          by_cases outermost : layer = 0
          · subst outermost
            simp [answer, getter, get, refusal]
          · have late : (a.lastSetter.isSome || a.lastGetter.any (· ≤ layer)) = true :=
              Classical.not_not.mp fun inOrder =>
                refused ⟨lt, mayRead_iff.mpr ⟨outermost, inOrder⟩⟩
            have inside : (⟨.getter, layer⟩ : LayerCall) ≠ ⟨.getter, 0⟩ :=
              fun same => outermost (congrArg LayerCall.layer same)
            simp only [answer, getter, get, refusal, if_neg outermost, if_pos late,
              if_pos (And.intro lt inside)]
      | setter =>
          have late : a.lastSetter.any (layer ≤ ·) = true :=
            Classical.not_not.mp fun inOrder => refused ⟨lt, mayWrite_iff.mpr inOrder⟩
          have inside : (⟨.setter, layer⟩ : LayerCall) ≠ ⟨.getter, 0⟩ := by
            intro same
            cases same
          simp only [answer, setter, get, refusal, if_pos late, if_pos (And.intro lt inside)]

/-- A permitted call finds its layer, and fails only where the function of a layer that it writes is
computed. -/
theorem answer_of_permits (permitted : a.Permits c) :
    (∃ site, (a.answer c).1 = .ok site ∧ ¬a.WritesComputed c) ∨
      ∃ e, a.answer c = (.error (.unsupported (.computedSetter e)),
        { a with lastSetter := some c.layer }) ∧ a.WritesComputed c := by
  obtain ⟨access, layer⟩ := c
  obtain ⟨lt, may⟩ := permitted
  have get := List.getElem?_eq_getElem lt
  cases access with
  | getter =>
      refine .inl ⟨_, congrArg Prod.fst (getter_of_mayRead get may), fun computed => ?_⟩
      cases computed.1
  | setter =>
      have answers : a.answer ⟨.setter, layer⟩ = _ := setter_of_mayWrite get may
      cases called : (a.place.layers[layer]).called.calledName? with
      | some fn =>
          rw [Layer.setterSite, called] at answers
          refine .inl ⟨_, congrArg Prod.fst answers, fun computed => ?_⟩
          obtain ⟨-, -, l, get', computed⟩ := computed
          cases get.symm.trans get'
          cases called.symm.trans computed
      | none =>
          rw [Layer.setterSite, called] at answers
          exact .inr ⟨_, answers, rfl, may, _, get, called⟩

theorem permits_of_writesComputed (computed : a.WritesComputed c) : a.Permits c := by
  obtain ⟨access, layer⟩ := c
  obtain ⟨rfl, may, l, get, -⟩ := computed
  exact ⟨(List.getElem?_eq_some_iff.mp get).1, may⟩

/-- The two kinds of refusals: nothing changes, or a layer of a computed function counts as
written. -/
theorem refused_cases (refused : (a.answer c).1 = .error f) :
    (¬a.WritesComputed c ∧ (a.answer c).2 = a ∧ f = a.refusal c) ∨
      a.WritesComputed c ∧ (a.answer c).2 = { a with lastSetter := some c.layer } ∧
        ∃ e, f = .unsupported (.computedSetter e) := by
  by_cases permitted : a.Permits c
  · rcases answer_of_permits permitted with ⟨site, found, -⟩ | ⟨e, answers, computed⟩
    · rw [found] at refused
      cases refused
    · rw [answers] at refused ⊢
      cases refused
      exact .inr ⟨computed, rfl, e, rfl⟩
  · have answers := answer_of_not_permits permitted
    rw [answers] at refused ⊢
    cases refused
    exact .inl ⟨fun computed => permitted (permits_of_writesComputed computed), rfl, rfl⟩

theorem refusal_ne_computedSetter (e : Expr) : a.refusal c ≠ .unsupported (.computedSetter e) := by
  intro same
  rw [refusal] at same
  split at same
  · cases same
  · cases same

/-! ### A layer that counts as written -/

theorem answer_counted_of_writesInside (may : a.MayWrite layer) (inside : a.WritesInside layer c) :
    ({ a with lastSetter := some layer } : PendingAssign).answer c = a.answer c := by
  obtain ⟨access, layer'⟩ := c
  obtain ⟨rfl, further, lt⟩ := inside
  have get := List.getElem?_eq_getElem lt
  have here : a.MayWrite layer' := fun last is => Nat.lt_trans (may last is) further
  have counted : MayWrite { a with lastSetter := some layer } layer' := by
    intro last is
    cases is
    exact further
  calc ({ a with lastSetter := some layer } : PendingAssign).setter layer' = _ :=
        setter_of_mayWrite get counted
    _ = a.setter layer' := (setter_of_mayWrite get here).symm

/-- Once a layer counts as written, the only calls permitted are those that write further inside. -/
theorem writesInside_of_permits_counted
    (permitted : ({ a with lastSetter := some layer } : PendingAssign).Permits c) :
    a.WritesInside layer c := by
  obtain ⟨access, layer'⟩ := c
  obtain ⟨lt, may⟩ := permitted
  cases access with
  | getter => cases may.2.1
  | setter => exact ⟨rfl, may layer rfl, lt⟩

/-- Later calls are answered as if the layer did not count exactly if they cannot tell. -/
theorem answers_counted_eq_iff (may : a.MayWrite layer) (later : List LayerCall) :
    ({ a with lastSetter := some layer } : PendingAssign).answers later = a.answers later ↔
      a.Unnoticed layer later := by
  induction later with
  | nil => simp [answers, Unnoticed]
  | cons c rest ih =>
      by_cases inside : a.WritesInside layer c
      · simp only [answers, Unnoticed, answer_counted_of_writesInside may inside, inside, true_or]
      · have counted := answer_of_not_permits (mt writesInside_of_permits_counted inside)
        have refusal_eq : ({ a with lastSetter := some layer } : PendingAssign).refusal c =
            a.refusal c := rfl
        simp only [answers, Unnoticed, counted, refusal_eq, inside, false_or, List.cons.injEq]
        by_cases permitted : a.Permits c
        · -- The call is refused if the layer counts; if not, it is not, or for another reason.
          refine iff_of_false (fun same => ?_) (fun unnoticed => unnoticed.1 permitted)
          rcases answer_of_permits permitted with ⟨site, found, -⟩ | ⟨e, answers, -⟩
          · rw [found] at same
            cases same.1
          · rw [answers] at same
            exact refusal_ne_computedSetter e (Except.error.inj same.1)
        · rw [answer_of_not_permits permitted, ih]
          simp [permitted]

theorem not_unnoticed_of_writesComputed (computed : a.WritesComputed c) :
    ¬a.Unnoticed c.layer [c] := by
  rintro (inside | ⟨refused, -⟩)
  · exact Nat.lt_irrefl _ inside.2.1
  · exact refused (permits_of_writesComputed computed)

/-! ### Calls in turn -/

theorem answers_append (a : PendingAssign) (before later : List LayerCall) :
    a.answers (before ++ later) = a.answers before ++ (a.after before).answers later := by
  induction before generalizing a with
  | nil => rfl
  | cons c rest ih => exact congrArg _ (ih (a.answer c).2)

theorem length_answers (a : PendingAssign) (calls : List LayerCall) :
    (a.answers calls).length = calls.length := by
  induction calls generalizing a with
  | nil => rfl
  | cons c rest ih => exact congrArg Nat.succ (ih (a.answer c).2)

/-- Leaving a call out changes later answers only through what the call left behind. -/
theorem eraseIdx_answers_eq_iff (a : PendingAssign) (before : List LayerCall) (c : LayerCall)
    (later : List LayerCall) :
    (a.answers (before ++ c :: later)).eraseIdx before.length = a.answers (before ++ later) ↔
      ((a.after before).answer c).2.answers later = (a.after before).answers later := by
  rw [answers_append, answers_append, answers, ← length_answers a before,
    List.eraseIdx_append_of_length_le (Nat.le_refl _), Nat.sub_self, List.eraseIdx_cons_zero,
    List.append_cancel_left_eq]

end PendingAssign

open PendingAssign

/-- A refused call may be left out, with one exception: a call that asks to write, in order, a layer
whose function is computed, which is refused with a fault of its own. That layer counts as written.
Later calls get the same answers without the refused call exactly if they cannot tell, and there are
always calls that can. -/
theorem refused_without_effect_iff (a : PendingAssign) (before : List LayerCall) (c : LayerCall)
    (f : Fault) (refused : ((a.after before).answer c).1 = .error f) :
    ((∃ e, f = .unsupported (.computedSetter e)) ↔ (a.after before).WritesComputed c) ∧
    (((a.after before).answer c).2 = a.after before ↔ ¬(a.after before).WritesComputed c) ∧
    ((∀ later, (a.answers (before ++ c :: later)).eraseIdx before.length =
        a.answers (before ++ later)) ↔ ¬(a.after before).WritesComputed c) ∧
    ∀ later, (a.answers (before ++ c :: later)).eraseIdx before.length =
        a.answers (before ++ later) ↔
      ((a.after before).WritesComputed c → (a.after before).Unnoticed c.layer later) := by
  simp only [eraseIdx_answers_eq_iff]
  rcases refused_cases refused with ⟨plain, same, rfl⟩ | ⟨computed, counted, e, rfl⟩
  · refine ⟨iff_of_false ?_ plain, iff_of_true same plain, ?_, fun later => ?_⟩
    · rintro ⟨e, is⟩
      exact refusal_ne_computedSetter e is
    · exact iff_of_true (fun later => by rw [same]) plain
    · exact iff_of_true (by rw [same]) fun computed => absurd computed plain
  · have may := computed.2.1
    rw [counted]
    refine ⟨iff_of_true ⟨e, rfl⟩ computed,
      iff_of_false (fun same => ?_) fun plain => plain computed,
      iff_of_false (fun same => ?_) fun plain => plain computed, fun later => ?_⟩
    · exact Nat.lt_irrefl _ (may c.layer (congrArg PendingAssign.lastSetter same).symm)
    · exact not_unnoticed_of_writesComputed computed ((answers_counted_eq_iff may _).mp (same [c]))
    · rw [answers_counted_eq_iff may]
      exact ⟨fun unnoticed _ => unnoticed, fun unnoticed => unnoticed computed⟩

/-- `h()(g(x)) <- v`. -/
def computedOuter : Expr :=
  .ofCall "<-" [.call (.ofCall "h" []) [.positional (.ofCall "g" [.symbol "x"])], .symbol "v"]

/-- The outermost layer cannot be written, and no layer can be read after that was tried. Layer 1
can still be written. -/
theorem refused_without_effect_iff_computedOuter :
    ∃ a f, PendingAssign.start .current "x" computedOuter = .ok a ∧
      (a.answer ⟨.setter, 0⟩).1 = .error f ∧
      (a.answers [⟨.setter, 0⟩, ⟨.getter, 1⟩]).eraseIdx 0 ≠ a.answers [⟨.getter, 1⟩] ∧
      (a.answers [⟨.setter, 0⟩, ⟨.setter, 1⟩]).eraseIdx 0 = a.answers [⟨.setter, 1⟩] := by
  refine ⟨_, _, rfl, rfl, ?_, ?_⟩
  · refine mt ((refused_without_effect_iff _ [] _ _ rfl).2.2.2 [⟨.getter, 1⟩]).mp ?_
    intro unnoticed
    rcases unnoticed ⟨rfl, mayWrite_iff.mpr (by decide), _, rfl, rfl⟩ with inside | ⟨refused, -⟩
    · cases inside.1
    · exact refused ⟨by decide, mayRead_iff.mpr (by decide)⟩
  · refine ((refused_without_effect_iff _ [] _ _ rfl).2.2.2 [⟨.setter, 1⟩]).mpr fun _ => ?_
    exact .inl ⟨rfl, by decide, by decide⟩

/-- A refused call does have an effect. -/
theorem computedOuter_refused_counts :
    ∃ a f, PendingAssign.start .current "x" computedOuter = .ok a ∧
      (a.answer ⟨.setter, 0⟩).1 = .error f ∧ (a.answer ⟨.setter, 0⟩).2 ≠ a ∧
      (a.answers [⟨.setter, 0⟩, ⟨.getter, 1⟩]).eraseIdx 0 ≠ a.answers [⟨.getter, 1⟩] := by
  refine ⟨_, _, rfl, rfl, by decide, fun same => ?_⟩
  cases same

end StackLift
