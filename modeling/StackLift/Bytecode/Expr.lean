import StackLift.Bytecode.Operand

/-!
Source expressions, as the constant pool keeps them. They are never evaluated:
they describe the call that an operation comes from, and they spell the places
that complex assignments write to.
-/

namespace StackLift

mutual
/-- A variable, a literal of the pool, or a call with its arguments in source order. -/
inductive Expr where
  | symbol (name : String)
  | const (index : PoolIndex)
  | call (fn : Expr) (args : List Arg)

/-- An argument, with its name when it is written `name = value`. -/
structure Arg where
  name : Option String
  value : Expr
end

mutual
def Expr.decEq : (a b : Expr) → Decidable (a = b)
  | .symbol s, .symbol t => decidable_of_iff (s = t) (by simp)
  | .const i, .const j => decidable_of_iff (i = j) (by simp)
  | .call f as, .call g bs =>
    match Expr.decEq f g, Arg.decEqList as bs with
    | .isTrue hf, .isTrue ha => .isTrue (by rw [hf, ha])
    | .isFalse hf, _ => .isFalse fun h => hf (Expr.call.inj h).1
    | _, .isFalse ha => .isFalse fun h => ha (Expr.call.inj h).2
  | .symbol _, .const _ | .symbol _, .call _ _ | .const _, .symbol _
  | .const _, .call _ _ | .call _ _, .symbol _ | .call _ _, .const _ => .isFalse nofun

def Arg.decEq : (a b : Arg) → Decidable (a = b)
  | ⟨m, v⟩, ⟨n, w⟩ =>
    match (inferInstance : Decidable (m = n)), Expr.decEq v w with
    | .isTrue hm, .isTrue hv => .isTrue (by rw [hm, hv])
    | .isFalse hm, _ => .isFalse fun h => hm (Arg.mk.inj h).1
    | _, .isFalse hv => .isFalse fun h => hv (Arg.mk.inj h).2

def Arg.decEqList : (as bs : List Arg) → Decidable (as = bs)
  | [], [] => .isTrue rfl
  | [], _ :: _ | _ :: _, [] => .isFalse nofun
  | a :: as, b :: bs =>
    match Arg.decEq a b, Arg.decEqList as bs with
    | .isTrue h, .isTrue hs => .isTrue (by rw [h, hs])
    | .isFalse h, _ => .isFalse fun e => h (List.cons.inj e).1
    | _, .isFalse hs => .isFalse fun e => hs (List.cons.inj e).2
end

instance : DecidableEq Expr := Expr.decEq

instance : DecidableEq Arg := Arg.decEq

def Arg.positional (value : Expr) : Arg := ⟨none, value⟩

def Arg.named (name : String) (value : Expr) : Arg := ⟨some name, value⟩

namespace Expr

/-- The symbol that stands for the sub-target of a layer of an assignment. -/
def target : Expr := .symbol "*tmp*"

/-- The symbol that stands for the value that the previous layer produced. -/
def previousValue : Expr := .symbol "*vtmp*"

/-- A call of a named function on positional arguments. -/
def ofCall (fn : String) (args : List Expr) : Expr :=
  .call (.symbol fn) (args.map Arg.positional)

def symbol? : Expr → Option String
  | .symbol name => some name
  | _ => none

/-- The name of the called function, when it is called by name. -/
def calledName? : Expr → Option String
  | .call fn _ => fn.symbol?
  | _ => none

/-- The arguments of a call; other expressions have none. -/
def args : Expr → List Arg
  | .call _ args => args
  | _ => []

def isCall : Expr → Bool
  | .call _ _ => true
  | _ => false

end Expr

mutual
def Expr.text : Expr → String
  | .symbol name => name
  | .const index => "#" ++ index.toNat.repr
  | .call fn args => fn.text ++ "(" ++ ", ".intercalate (Arg.texts args) ++ ")"

def Arg.text : Arg → String
  | ⟨none, value⟩ => value.text
  | ⟨some name, value⟩ => name ++ " = " ++ value.text

def Arg.texts : List Arg → List String
  | [] => []
  | a :: rest => a.text :: Arg.texts rest
end

end StackLift
