import StackLift.Bracket.Place

/-!
Places taken apart and put together again. Following first arguments from an expression leads
through calls, its spine, to a symbol or to something else. Main statement: an expression is a
place exactly when it is a call whose spine ends in a symbol, and its layers are the calls of the
spine (`layers_of_spine`). A layer is called with `*tmp*` where its first argument stood, and the
name of that argument is gone. So a layer is given back by what is inside of it exactly when its
first argument has no name, and the whole place when no first argument on the spine has one.
-/

namespace StackLift

namespace Expr

/-- The first argument of a call. -/
def first? : Expr → Option Arg
  | .call _ (first :: _) => some first
  | _ => none

/-- Where following first arguments leads to, after a number of them. -/
def descend : Nat → Expr → Option Expr
  | 0, e => some e
  | n + 1, e => e.first?.bind fun first => descend n first.value

/-- The call with another value for its first argument. -/
def refill : Expr → Expr → Expr
  | .call fn (first :: rest), inner => .call fn (⟨first.name, inner⟩ :: rest)
  | e, _ => e

/-- No first argument on the spine has a name. -/
def SpineUnnamed (e : Expr) : Prop :=
  ∀ k inner first, e.descend k = some inner → inner.first? = some first → first.name = none

end Expr

namespace Place

/-- What a layer is applied to: the layer inside of it as it was written, or the variable. -/
def inside (p : Place) (k : Nat) : Expr :=
  ((p.layers[k + 1]?).map Layer.written).getD (.symbol p.name)

/-- The layers put into each other again, from the variable outwards. -/
def renest (p : Place) : Expr :=
  p.layers.foldr (fun l inner => l.called.refill inner) (.symbol p.name)

end Place

theorem Expr.first?_eq_some {e : Expr} {first : Arg} :
    e.first? = some first ↔ ∃ fn rest, e = .call fn (first :: rest) := by
  cases e with
  | symbol x => simp [first?]
  | const index => simp [first?]
  | call fn args => cases args <;> simp [first?]

/-- The spine of a call: its first argument, and the spine of that. -/
theorem Expr.spineUnnamed_call {fn : Expr} {first : Arg} {rest : List Arg} :
    (Expr.call fn (first :: rest)).SpineUnnamed ↔ first.name = none ∧ first.value.SpineUnnamed := by
  constructor
  · intro unnamed
    refine ⟨unnamed 0 _ first rfl rfl, fun k inner a leads => unnamed (k + 1) inner a leads⟩
  · rintro ⟨here, below⟩ k inner a leads is
    cases k with
    | zero =>
        cases leads
        cases is
        exact here
    | succ k => exact below k inner a leads is

/-- The first argument is given back, but not its name. -/
theorem Layer.refill_ofCall_eq_iff {fn : Expr} {first : Arg} {rest : List Arg} :
    (Layer.ofCall fn first rest).called.refill first.value = (Layer.ofCall fn first rest).written ↔
      first.name = none := by
  obtain ⟨name, value⟩ := first
  constructor
  · intro same
    cases same
    rfl
  · rintro rfl
    rfl

namespace Place

/-- The layers of the place are the calls on the spine of an expression, which ends in the
variable. -/
inductive Spine : Expr → Place → Prop
  | symbol (x : String) : Spine (.symbol x) ⟨x, []⟩
  | call {fn : Expr} {first : Arg} {rest : List Arg} {x : String} {layers : List Layer}
      (inner : Spine first.value ⟨x, layers⟩) :
      Spine (.call fn (first :: rest)) ⟨x, .ofCall fn first rest :: layers⟩

theorem layersOf_call_eq_ok {whole fn : Expr} {first : Arg} {rest : List Arg} {p : Place} :
    layersOf whole (.call fn (first :: rest)) = .ok p ↔
      ∃ inner, layersOf whole first.value = .ok inner ∧
        p = ⟨inner.name, .ofCall fn first rest :: inner.layers⟩ := by
  obtain ⟨name, value⟩ := first
  rw [layersOf, layersOfCall, layersOfArg]
  cases layersOf whole value with
  | ok inner => simp [eq_comm]
  | error fault => simp

theorem spine_of_layersOf {whole e : Expr} {x : String} {layers : List Layer}
    (taken : layersOf whole e = .ok ⟨x, layers⟩) : Spine e ⟨x, layers⟩ := by
  -- Each call on the way down is a layer, so the recursion is on the layers.
  cases e with
  | symbol y =>
      cases taken
      exact .symbol x
  | const index => cases taken
  | call fn args =>
      cases args with
      | nil => cases taken
      | cons first rest =>
          obtain ⟨⟨y, inner⟩, below, same⟩ := layersOf_call_eq_ok.mp taken
          cases same
          exact .call (spine_of_layersOf below)
termination_by layers.length

theorem layersOf_eq_ok {whole e : Expr} {p : Place} : layersOf whole e = .ok p ↔ Spine e p := by
  refine ⟨spine_of_layersOf, fun spine => ?_⟩
  induction spine with
  | symbol x => rfl
  | call inner ih => exact layersOf_call_eq_ok.mpr ⟨_, ih, rfl⟩

theorem ofExpr_eq_ok {e : Expr} {p : Place} :
    ofExpr e = .ok p ↔ e.isCall = true ∧ Spine e p := by
  cases e with
  | symbol x => simp [ofExpr, Expr.isCall]
  | const index => simp [ofExpr, layersOf, Expr.isCall]
  | call fn args => simp [ofExpr, Expr.isCall, layersOf_eq_ok]

theorem exists_spine {e : Expr} {n : Nat} {x : String} (leads : e.descend n = some (.symbol x)) :
    ∃ p, Spine e p := by
  induction n generalizing e with
  | zero =>
      cases leads
      exact ⟨_, .symbol x⟩
  | succ n ih =>
      obtain ⟨first, is, leads⟩ := Option.bind_eq_some_iff.mp leads
      obtain ⟨fn, rest, rfl⟩ := Expr.first?_eq_some.mp is
      obtain ⟨_, inner⟩ := ih leads
      exact ⟨_, .call inner⟩

namespace Spine

variable {e : Expr} {p : Place}

theorem descend (spine : Spine e p) : e.descend p.layers.length = some (.symbol p.name) := by
  induction spine with
  | symbol x => rfl
  | call inner ih => exact ih

/-- What is written inside of all layers but none is the whole expression. -/
theorem outermost (spine : Spine e p) :
    ((p.layers[0]?).map Layer.written).getD (.symbol p.name) = e := by
  cases spine with
  | symbol x => rfl
  | call inner => rfl

/-- Each layer is the call of the spine at its depth. -/
theorem layer (spine : Spine e p) {k : Nat} {l : Layer} (get : p.layers[k]? = some l) :
    ∃ fn first rest, e.descend k = some (.call fn (first :: rest)) ∧ l = .ofCall fn first rest ∧
      p.inside k = first.value := by
  induction spine generalizing k with
  | symbol x => cases get
  | @call fn first rest x layers inner ih =>
      cases k with
      | zero =>
          cases get
          exact ⟨fn, first, rest, rfl, rfl, inner.outermost⟩
      | succ k => exact ih get

theorem renest_eq_iff (spine : Spine e p) : p.renest = e ↔ e.SpineUnnamed := by
  induction spine with
  | symbol x =>
      refine ⟨fun _ k inner first leads is => ?_, fun _ => rfl⟩
      cases k with
      | zero =>
          cases leads
          cases is
      | succ k => cases leads
  | @call fn first rest x layers inner ih =>
      have outer : renest ⟨x, .ofCall fn first rest :: layers⟩ =
          .call fn (⟨none, renest ⟨x, layers⟩⟩ :: rest) := rfl
      obtain ⟨name, value⟩ := first
      rw [outer, Expr.spineUnnamed_call, ← ih]
      constructor
      · intro same
        cases same
        exact ⟨rfl, rfl⟩
      · rintro ⟨rfl, same⟩
        rw [same]

end Spine

end Place

/-- A place is a call whose spine ends in a symbol, and it is taken apart without loss but for the
names of first arguments. There is one layer for each call on the spine, the outermost first; it
keeps the call, and calls the same function with the same further arguments on `*tmp*`. The call is
given back by what it was applied to exactly when its first argument has no name, and the whole
place by putting all layers into each other exactly when none on the spine has one. -/
theorem layers_of_spine (e : Expr) :
    ((∃ p, Place.ofExpr e = .ok p) ↔
      e.isCall = true ∧ ∃ n x, e.descend n = some (.symbol x)) ∧
    ∀ p, Place.ofExpr e = .ok p →
      e.descend p.layers.length = some (.symbol p.name) ∧
      (∀ k l, p.layers[k]? = some l → ∃ fn first rest,
        e.descend k = some (.call fn (first :: rest)) ∧
        l.written = .call fn (first :: rest) ∧
        l.called = .call fn (⟨none, .symbol "*tmp*"⟩ :: rest) ∧
        (l.called.refill (p.inside k) = l.written ↔ first.name = none)) ∧
      (p.renest = e ↔ e.SpineUnnamed) := by
  refine ⟨⟨?_, ?_⟩, fun p taken => ?_⟩
  · rintro ⟨p, taken⟩
    obtain ⟨isCall, spine⟩ := Place.ofExpr_eq_ok.mp taken
    exact ⟨isCall, p.layers.length, p.name, spine.descend⟩
  · rintro ⟨isCall, n, x, leads⟩
    obtain ⟨p, spine⟩ := Place.exists_spine leads
    exact ⟨p, Place.ofExpr_eq_ok.mpr ⟨isCall, spine⟩⟩
  · obtain ⟨-, spine⟩ := Place.ofExpr_eq_ok.mp taken
    refine ⟨spine.descend, fun k l get => ?_, spine.renest_eq_iff⟩
    obtain ⟨fn, first, rest, leads, rfl, inside⟩ := spine.layer get
    refine ⟨fn, first, rest, leads, rfl, rfl, ?_⟩
    rw [inside]
    exact Layer.refill_ofCall_eq_iff

/-- `names(a[i])`, where `a` is given by name. -/
def namedTarget : Expr :=
  .call (.symbol "names")
    [.positional (.call (.symbol "[") [.named "x" (.symbol "a"), .positional (.symbol "i")])]

/-- It is a place, but its layers do not say how `a` was given. -/
theorem layers_of_spine_namedTarget : ∃ p, Place.ofExpr namedTarget = .ok p ∧
    namedTarget.descend p.layers.length = some (.symbol p.name) ∧ p.renest ≠ namedTarget := by
  obtain ⟨isPlace, parts⟩ := layers_of_spine namedTarget
  obtain ⟨p, taken⟩ := isPlace.mpr ⟨rfl, 2, "a", rfl⟩
  obtain ⟨leads, -, restores⟩ := parts p taken
  refine ⟨p, taken, leads, fun same => ?_⟩
  have unnamed := restores.mp same 1 _ _ rfl rfl
  cases unnamed

end StackLift
