import StackLift.Fault

/-!
Places: what stands on the left of an assignment such as `names(x[i]) <- v`.

A place is a call whose first argument is again a place, or the variable that
is assigned. Its layers are these calls, the outermost first; each is called
with `*tmp*` in place of its first argument. Reading goes from the variable
outwards, and writing back from the outermost layer to the variable.
-/

namespace StackLift

/-- A call of a place, as it was written and with `*tmp*` as first argument. -/
structure Layer where
  written : Expr
  called : Expr
deriving DecidableEq

namespace Layer

def ofCall (fn : Expr) (first : Arg) (rest : List Arg) : Layer :=
  ⟨.call fn (first :: rest), .call fn (.positional .target :: rest)⟩

def getterSite (l : Layer) : CallSite := .place l.written l.called

/-- The call of the replacement function, with the new value as last argument. -/
def setterSite (l : Layer) (value : Expr) : Except Fault CallSite :=
  match l.called.calledName? with
  | some fn =>
    .ok (.place l.written (.call (.symbol (fn ++ "<-")) (l.called.args ++ [.named "value" value])))
  | none => .error (.unsupported (.computedSetter l.written))

end Layer

/-- The variable and the layers of a place. -/
structure Place where
  name : String
  layers : List Layer
deriving DecidableEq

namespace Place

mutual
/-- The layers from an expression inwards. `whole` is the place it is part of,
and the expression itself when nothing is around it. -/
def layersOf (whole : Expr) : Expr → Except Fault Place
  | .symbol name => .ok ⟨name, []⟩
  | .const _ => .error (.invalid (.notAPlace whole))
  | .call fn args => layersOfCall whole fn args

def layersOfCall (whole fn : Expr) : List Arg → Except Fault Place
  | [] => .error (.invalid (.placeWithoutArguments (.call fn [])))
  | first :: rest =>
    match layersOfArg whole first with
    | .ok inner => .ok ⟨inner.name, .ofCall fn first rest :: inner.layers⟩
    | .error fault => .error fault

def layersOfArg (whole : Expr) : Arg → Except Fault Place
  | ⟨_, value⟩ => layersOf whole value
end

/-- The variable and the layers of a place, which has at least one layer. -/
def ofExpr : Expr → Except Fault Place
  | .symbol name => .error (.invalid (.notAPlace (.symbol name)))
  | e => layersOf e e

end Place

end StackLift
