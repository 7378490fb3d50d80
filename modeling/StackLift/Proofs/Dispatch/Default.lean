import StackLift.Proofs.Dispatch.Open

/-!
The default operation of a dispatch. With one to three indices, none of them named or `...`, it is
an access in place; otherwise the builtin is called, by position where it sees all its arguments so,
and as a function value where they have names or are expanded (`IsDefault`).
-/

namespace StackLift

/-- The value of an argument in a block: its own, or that of a mark. -/
inductive ArgValue.Stands (g : Graph) (b : BlockId) : ArgValue → ValueId → Prop
  | value (v : ValueId) : Stands g b (.value v) v
  | missing {v : ValueId} (mark : g.Defines b v .missingArg) : Stands g b .missing v
  | dots {v : ValueId} (mark : g.Defines b v .expandDots) : Stands g b .dots v

/-- The values of arguments, in their order. -/
inductive CallArg.Stand (g : Graph) (b : BlockId) : List CallArg → List ValueId → Prop
  | nil : Stand g b [] []
  | cons {a : CallArg} {args : List CallArg} {v : ValueId} {vs : List ValueId}
      (first : a.value.Stands g b v) (rest : Stand g b args vs) : Stand g b (a :: args) (v :: vs)

/-- The argument is neither named nor `...`. -/
def CallArg.Positional (a : CallArg) : Prop := a.name = none ∧ a.value ≠ .dots

/-- An access in place; it writes if there is a value to store. -/
def Op.access (double : Bool) (target : ValueId) (indices : List ValueId) (rhs : Option ValueId)
    (site : CallSite) : Op :=
  match rhs with
  | some value => .subassign double target indices value site
  | none => .extract double target indices site

/-- The value is the result of the default operation of a dispatch on its target, the arguments
that were collected, and what a write stores. -/
inductive PendingDispatch.IsDefault (p : PendingDispatch) (target : ValueId) (args : List CallArg)
    (g : Graph) (b : BlockId) (v : ValueId) : Prop
  | inPlace {indices : List ValueId} (indexed : p.kind ≠ .combine)
      (few : 1 ≤ args.length ∧ args.length ≤ 3) (positional : ∀ a ∈ args, a.Positional)
      (stand : CallArg.Stand g b args indices)
      (op : g.Defines b v (.access p.kind.isDouble target indices p.rhs (.pool p.call)))
  | byPosition {vs : List ValueId}
      (many : p.kind = .combine ∨ p.kind.isNary = true ∧ ¬(1 ≤ args.length ∧ args.length ≤ 3))
      (positional : ∀ a ∈ args, a.Positional) (stand : CallArg.Stand g b args vs)
      (op : g.Defines b v
        (.callBuiltin p.kind.builtin (target :: vs ++ p.rhs.toList) (.pool p.call)))
  | byName {callee : ValueId} {vs : List ValueId} (added : p.kind.isNary = false)
      (other : ¬(∀ a ∈ args, a.Positional) ∨
        p.kind ≠ .combine ∧ ¬(1 ≤ args.length ∧ args.length ≤ 3))
      (function : g.Defines b callee (.ldBuiltin p.kind.builtin))
      (stand : CallArg.Stand g b args vs)
      (op : g.Defines b v (.namedCall callee (target :: vs ++ p.rhs.toList)
        (none :: args.map CallArg.name ++ p.rhs.toList.map fun _ => some "value") (.pool p.call)))

section

variable {d d' : Draft} {b : BlockId} (grows : d.Grows d')

include grows

theorem ArgValue.Stands.mono {a : ArgValue} {v : ValueId} (stands : a.Stands d.graph b v) :
    a.Stands d'.graph b v := by
  cases stands with
  | value => exact .value v
  | missing mark => exact .missing (grows.defines mark)
  | dots mark => exact .dots (grows.defines mark)

theorem CallArg.Stand.mono {args : List CallArg} {vs : List ValueId}
    (stand : CallArg.Stand d.graph b args vs) : CallArg.Stand d'.graph b args vs := by
  induction stand with
  | nil => exact .nil
  | cons first _ ih => exact .cons (first.mono grows) ih

theorem PendingDispatch.IsDefault.mono {p : PendingDispatch} {target : ValueId}
    {args : List CallArg} {v : ValueId} (default : p.IsDefault target args d.graph b v) :
    p.IsDefault target args d'.graph b v := by
  cases default with
  | inPlace indexed few positional stand op =>
      exact .inPlace indexed few positional (stand.mono grows) (grows.defines op)
  | byPosition many positional stand op =>
      exact .byPosition many positional (stand.mono grows) (grows.defines op)
  | byName added other function stand op =>
      exact .byName added other (grows.defines function) (stand.mono grows) (grows.defines op)

end

theorem CallArg.Stand.of_append {g : Graph} {b : BlockId} {args args' : List CallArg}
    {vs : List ValueId} (stand : CallArg.Stand g b (args ++ args') vs) :
    ∃ front back, vs = front ++ back ∧ CallArg.Stand g b args front ∧
      CallArg.Stand g b args' back := by
  induction args generalizing vs with
  | nil => exact ⟨[], vs, rfl, .nil, stand⟩
  | cons a args ih =>
      cases stand with
      | cons first rest =>
          obtain ⟨front, back, rfl, standFront, standBack⟩ := ih rest
          exact ⟨_ :: front, back, rfl, .cons first standFront, standBack⟩

/-- A value is its own. -/
theorem CallArg.Stand.of_values {g : Graph} {b : BlockId} {names : ValueId → Option String}
    {ws vs : List ValueId}
    (stand : CallArg.Stand g b (ws.map fun w => { value := .value w, name := names w }) vs) :
    vs = ws := by
  induction ws generalizing vs with
  | nil =>
      cases stand
      rfl
  | cons w ws ih =>
      cases stand with
      | cons first rest =>
          cases first
          rw [ih rest]

theorem CallArg.stand_values (g : Graph) (b : BlockId) (names : ValueId → Option String)
    (ws : List ValueId) :
    CallArg.Stand g b (ws.map fun w => { value := .value w, name := names w }) ws := by
  induction ws with
  | nil => exact .nil
  | cons w ws ih => exact .cons (.value w) ih

/-- The call in which a dispatch has collected its arguments. -/
def PendingDispatch.collected (p : PendingDispatch) (target : ValueId) (args : List CallArg) :
    PendingCall where
  callee := .builtin p.kind.builtin
  args := { value := .value target } :: args

/-- What a write stores, as an argument. -/
def PendingDispatch.stored (p : PendingDispatch) : List CallArg :=
  p.rhs.toList.map fun w => { value := .value w, name := some "value" }

theorem PendingDispatch.simple_collected (p : PendingDispatch) (target : ValueId)
    (args : List CallArg) :
    (!(p.collected target args).hasNames && !(p.collected target args).hasDots) = true ↔
      ∀ a ∈ args, a.Positional := by
  simp only [collected, PendingCall.hasNames, PendingCall.hasDots, CallArg.Positional]
  simp [forall_and]

namespace Lowering

/-- The step succeeds, adds statements to the block under construction and does nothing else, and
ends as stated. -/
def Appends {α : Type} (x : Lowering α) (s : State) (ends : α → Draft → Prop) : Prop :=
  ∃ a d, x s = .ok a { s with draft := d } ∧ d.Open ∧ s.draft.Grows d ∧ s.draft.Writes d ∧ ends a d

variable {s : State}

theorem Appends.imp {α : Type} {x : Lowering α} {ends ends' : α → Draft → Prop}
    (h : Appends x s ends) (weaker : ∀ a d, ends a d → ends' a d) : Appends x s ends' := by
  obtain ⟨a, d, h, isOpen, grows, writes, end_⟩ := h
  exact ⟨a, d, h, isOpen, grows, writes, weaker a d end_⟩

theorem appends_bind {α β : Type} {x : Lowering α} {f : α → Lowering β} {first : α → Draft → Prop}
    {ends : β → Draft → Prop} (h : Appends x s first)
    (rest : ∀ a d, d.Open → d.cursor = s.draft.cursor → first a d →
      Appends (f a) { s with draft := d } fun b d' => d.Grows d' → ends b d') :
    Appends (x >>= f) s ends := by
  obtain ⟨a, d, h, isOpen, grows, writes, end₁⟩ := h
  obtain ⟨b, d', h', isOpen', grows', writes', end₂⟩ := rest a d isOpen writes.cursor end₁
  exact ⟨b, d', bind_eq_ok_iff.mpr ⟨a, _, h, h'⟩, isOpen', grows.trans grows',
    writes.trans writes', end₂ grows'⟩

section

variable (isOpen : s.draft.Open)

include isOpen

theorem appends_pure {α : Type} {a : α} {ends : α → Draft → Prop} (end_ : ends a s.draft) :
    Appends (pure a) s ends :=
  ⟨a, s.draft, rfl, isOpen, .refl _, .refl _, end_⟩

theorem appends_emit (op : Op) :
    Appends (emit op) s fun v d => d.graph.Defines s.draft.cursor v op :=
  ⟨_, _, emit_of_open isOpen op, isOpen.emit op, Draft.grows_emitted isOpen, .emit _ op,
    Draft.defines_emitted isOpen op⟩

theorem appends_argValue (a : ArgValue) :
    Appends (argValue a) s fun v d => a.Stands d.graph s.draft.cursor v := by
  cases a with
  | value v => exact appends_pure isOpen (.value v)
  | missing => exact (appends_emit isOpen .missingArg).imp fun _ _ => .missing
  | dots => exact (appends_emit isOpen .expandDots).imp fun _ _ => .dots

theorem appends_argValues (args : List CallArg) :
    Appends (argValues args) s fun vs d => CallArg.Stand d.graph s.draft.cursor args vs := by
  induction args generalizing s with
  | nil => exact appends_pure isOpen .nil
  | cons a args ih =>
      refine appends_bind (appends_argValue isOpen a.value) fun v d isOpen₁ cursor first => ?_
      refine appends_bind (ih isOpen₁) fun vs d' isOpen₂ _ rest => ?_
      exact appends_pure isOpen₂ fun _ grows => .cons (first.mono grows) (cursor ▸ rest)

theorem appends_emitAccess (double : Bool) (target : ValueId) (indices : List ValueId)
    (rhs : Option ValueId) (site : CallSite) :
    Appends (emitAccess double target indices rhs site) s fun v d =>
      d.graph.Defines s.draft.cursor v (.access double target indices rhs site) := by
  cases rhs with
  | some value => exact appends_emit isOpen _
  | none => exact appends_emit isOpen _

/-- A call of a builtin as a function value. -/
theorem appends_callByName (builtin : String) (args : List CallArg) (site : CallSite) :
    Appends (do
      let callee ← emit (.ldBuiltin builtin)
      let vs ← argValues args
      emit (.namedCall callee vs (args.map CallArg.name) site)) s fun v d => ∃ callee vs,
        d.graph.Defines s.draft.cursor callee (.ldBuiltin builtin) ∧
        CallArg.Stand d.graph s.draft.cursor args vs ∧
        d.graph.Defines s.draft.cursor v (.namedCall callee vs (args.map CallArg.name) site) := by
  refine appends_bind (appends_emit isOpen _) fun callee d isOpen₁ cursor function => ?_
  refine appends_bind (appends_argValues isOpen₁ _) fun vs d' isOpen₂ cursor' stand => ?_
  refine (appends_emit isOpen₂ _).imp fun v d'' op grows' grows => ?_
  have stand : CallArg.Stand d'.graph s.draft.cursor args vs := cursor ▸ stand
  have op : d''.graph.Defines s.draft.cursor v _ := (cursor'.trans cursor) ▸ op
  exact ⟨callee, vs, grows.defines function, stand.mono grows', op⟩

theorem appends_emitNamedBuiltin (p : PendingDispatch) (target : ValueId) (args : List CallArg) :
    Appends (emitNamedBuiltin p.kind.builtin (p.collected target args) p.rhs (.pool p.call)) s
      fun v d => ∃ callee vs, d.graph.Defines s.draft.cursor callee (.ldBuiltin p.kind.builtin) ∧
        CallArg.Stand d.graph s.draft.cursor args vs ∧
        d.graph.Defines s.draft.cursor v (.namedCall callee (target :: vs ++ p.rhs.toList)
          (none :: args.map CallArg.name ++ p.rhs.toList.map fun _ => some "value")
          (.pool p.call)) := by
  -- what is stored is one argument more
  have all : Appends
      (emitNamedBuiltin p.kind.builtin (p.collected target args) p.rhs (.pool p.call)) s
      fun v d => ∃ callee ws, d.graph.Defines s.draft.cursor callee (.ldBuiltin p.kind.builtin) ∧
        CallArg.Stand d.graph s.draft.cursor ((p.collected target args).args ++ p.stored) ws ∧
        d.graph.Defines s.draft.cursor v (.namedCall callee ws
          (((p.collected target args).args ++ p.stored).map CallArg.name) (.pool p.call)) := by
    rw [PendingDispatch.stored]
    cases p.rhs with
    | some w => exact appends_callByName isOpen _ _ _
    | none =>
        rw [Option.toList_none, List.map_nil, List.append_nil]
        exact appends_callByName isOpen _ _ _
  refine all.imp fun v d => ?_
  rintro ⟨callee, ws, function, stand, op⟩
  obtain ⟨front, back, rfl, standFront, standBack⟩ := stand.of_append
  cases standBack.of_values
  cases standFront with
  | @cons _ _ _ vs first rest =>
      cases first
      refine ⟨callee, vs, function, rest, ?_⟩
      simpa [PendingDispatch.collected, PendingDispatch.stored, Function.comp_def] using op

/-- Arguments that were added to a call. -/
theorem appends_defaultFromCall (p : PendingDispatch) (target : ValueId) (args : List CallArg)
    (added : p.kind.isNary = false) (reads : p.kind = .combine → p.rhs = none) :
    Appends (defaultFromCall p.kind (p.collected target args) target p.rhs (.pool p.call)) s
      fun v d => p.IsDefault target args d.graph s.draft.cursor v := by
  have simple := p.simple_collected target args
  have few : fewIndices ((p.collected target args).args.length - 1) = true ↔
      1 ≤ args.length ∧ args.length ≤ 3 := by
    rw [fewIndices, Bool.and_eq_true, decide_eq_true_iff, decide_eq_true_iff]
    rfl
  simp only [defaultFromCall]
  split
  case isTrue combine =>
    rw [Bool.and_eq_true, decide_eq_true_eq, simple] at combine
    obtain ⟨positional, combine⟩ := combine
    refine appends_bind (appends_argValues isOpen _) fun ws d isOpen₁ cursor stand => ?_
    refine (appends_emit isOpen₁ _).imp fun v d' op grows => ?_
    cases stand with
    | @cons _ _ _ vs first rest =>
        cases first
        refine .byPosition (Or.inl combine) positional (rest.mono grows) ?_
        rw [reads combine, Option.toList_none, List.append_nil]
        exact cursor ▸ op
  case isFalse notCombine =>
    split
    case isTrue inPlace =>
      rw [Bool.and_eq_true, Bool.and_eq_true, decide_eq_true_eq, simple, few] at inPlace
      obtain ⟨⟨positional, indexed⟩, few⟩ := inPlace
      refine appends_bind (appends_argValues isOpen args) fun indices d isOpen₁ cursor stand => ?_
      refine (appends_emitAccess isOpen₁ _ _ _ _ _).imp fun v d' op grows => ?_
      exact .inPlace indexed few positional (stand.mono grows) (cursor ▸ op)
    case isFalse notInPlace =>
      refine (appends_emitNamedBuiltin isOpen p target args).imp fun v d => ?_
      rintro ⟨callee, vs, function, stand, op⟩
      refine .byName added ?_ function stand op
      rw [Bool.and_eq_true, decide_eq_true_eq, simple] at notCombine
      rw [Bool.and_eq_true, Bool.and_eq_true, decide_eq_true_eq, simple, few] at notInPlace
      by_cases positional : ∀ a ∈ args, a.Positional
      · have indexed : p.kind ≠ .combine := fun combine => notCombine ⟨positional, combine⟩
        exact Or.inr ⟨indexed, fun few => notInPlace ⟨⟨positional, indexed⟩, few⟩⟩
      · exact Or.inl positional

/-- Indices that were on the stack. -/
theorem appends_defaultFromStack (p : PendingDispatch) (access : Access) (target : ValueId)
    (indices : List ValueId) (nary : p.kind = .accessN access) :
    Appends (defaultFromStack (.accessN access) target indices p.rhs (.pool p.call)) s fun v d =>
      p.IsDefault target (indices.map fun w => { value := .value w }) d.graph s.draft.cursor v := by
  have stand (d : Draft) : CallArg.Stand d.graph s.draft.cursor
      (indices.map fun w => { value := .value w }) indices :=
    CallArg.stand_values _ _ (fun _ => none) indices
  have positional : ∀ a ∈ indices.map fun w => ({ value := .value w } : CallArg), a.Positional := by
    simp [CallArg.Positional]
  rw [defaultFromStack]
  split
  case isTrue few =>
    refine (appends_emitAccess isOpen _ _ _ _ _).imp fun v d op => ?_
    refine .inPlace (by simp [nary]) ?_ positional (stand d) ?_
    · simpa [fewIndices] using few
    · rw [nary]
      exact op
  case isFalse many =>
    refine (appends_emit isOpen _).imp fun v d op => ?_
    refine .byPosition (Or.inr ⟨by simp [nary, DispatchKind.isNary], ?_⟩) positional (stand d) ?_
    · simpa [fewIndices] using many
    · rw [nary]
      exact op

end

end Lowering

end StackLift
