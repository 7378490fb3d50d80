import StackLift.Fault

/-!
Calls whose arguments are still being added.
-/

namespace StackLift

/-- A function value, or a builtin known by name. -/
inductive Callee where
  | value (v : ValueId)
  | builtin (name : String)
deriving DecidableEq

/-- A value, an argument left out, or the place where `...` is expanded. -/
inductive ArgValue where
  | value (v : ValueId)
  | missing
  | dots
deriving DecidableEq

structure CallArg where
  value : ArgValue
  name : Option String := none
deriving DecidableEq

structure PendingCall where
  callee : Callee
  args : List CallArg := []
deriving DecidableEq

namespace PendingCall

def addArg (c : PendingCall) (a : CallArg) : PendingCall := { c with args := c.args ++ [a] }

def addValue (c : PendingCall) (v : ValueId) : PendingCall := c.addArg { value := .value v }

def addNamed (c : PendingCall) (v : ValueId) (name : String) : PendingCall :=
  c.addArg { value := .value v, name := some name }

def addMissing (c : PendingCall) : PendingCall := c.addArg { value := .missing }

def addDots (c : PendingCall) : PendingCall := c.addArg { value := .dots }

/-- Puts a value before the arguments added so far. -/
def prepend (c : PendingCall) (v : ValueId) : PendingCall :=
  { c with args := { value := .value v } :: c.args }

/-- Names the argument added last; a later name replaces an earlier one. -/
def nameLast (c : PendingCall) (name : String) : Except Fault PendingCall :=
  match c.args.getLast? with
  | some last => .ok { c with args := c.args.dropLast ++ [{ last with name := some name }] }
  | none => .error (.invalid .tagWithoutArgument)

def hasNames (c : PendingCall) : Bool := c.args.any (·.name.isSome)

def hasDots (c : PendingCall) : Bool := c.args.any (·.value = .dots)

end PendingCall

end StackLift
