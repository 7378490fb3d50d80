import StackLift.Bracket.Place

/-!
Complex assignments under construction. Layers are read from the innermost one
down to layer 1, then written from layer 0 upwards; each access must be of a
later layer in that order than the one before it.
-/

namespace StackLift

structure PendingAssign where
  scope : Scope
  place : Place
  rhs : Expr
  lastGetter : Option Nat := none
  lastSetter : Option Nat := none
deriving DecidableEq

namespace PendingAssign

def name (a : PendingAssign) : String := a.place.name

/-- Opens the assignment `place <- rhs` to the variable `symbol`. -/
def start (scope : Scope) (symbol : String) (call : Expr) : Except Fault PendingAssign :=
  match call.args with
  | [place, rhs] => do
    let p ← Place.ofExpr place.value
    if p.name = symbol then .ok { scope, place := p, rhs := rhs.value }
    else .error (.assignMismatch (.target place.value p.name symbol))
  | _ => .error (.invalid (.notAnAssignment call))

def outside (a : PendingAssign) (access : LayerAccess) (layer : Nat) : Fault :=
  .invalid (.layerOutside access layer a.name a.place.layers.length)

def outOfOrder (a : PendingAssign) (access : LayerAccess) (layer : Nat) : Fault :=
  .invalid (.layerOutOfOrder access layer a.name)

/-- The call site for reading a layer. -/
def getter (a : PendingAssign) (layer : Nat) : Except Fault CallSite × PendingAssign :=
  match a.place.layers[layer]? with
  | none => (.error (a.outside .getter layer), a)
  | some l =>
    if layer = 0 then (.error (a.outside .getter layer), a)
    else if a.lastSetter.isSome || a.lastGetter.any (· ≤ layer) then
      (.error (a.outOfOrder .getter layer), a)
    else (.ok l.getterSite, { a with lastGetter := some layer })

/-- The expression that stands for the value written to a layer. -/
def writtenValue (a : PendingAssign) (layer : Nat) : Expr :=
  if layer = 0 then a.rhs else .previousValue

/-- The call site for writing a layer. A layer that comes in order counts as
written even when its function cannot be called by name. -/
def setter (a : PendingAssign) (layer : Nat) : Except Fault CallSite × PendingAssign :=
  match a.place.layers[layer]? with
  | none => (.error (a.outside .setter layer), a)
  | some l =>
    if a.lastSetter.any (layer ≤ ·) then (.error (a.outOfOrder .setter layer), a)
    else (l.setterSite (a.writtenValue layer), { a with lastSetter := some layer })

end PendingAssign

end StackLift
