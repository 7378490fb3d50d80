import StackLift.Bytecode.Operand

/-!
The vocabulary that instructions and graph operations share: literals, scopes,
operators, type tests, the two short-circuit connectives, the two sorts of loop
and the forms of access that a class may override.
-/

namespace StackLift

/-- A literal is spelled by the instruction itself or stands in the pool. -/
inductive Literal where
  | null
  | logical (b : Bool)
  | pool (index : PoolIndex)
deriving DecidableEq

def Literal.text : Literal → String
  | .null => "NULL"
  | .logical true => "TRUE"
  | .logical false => "FALSE"
  | .pool index => "#" ++ index.toNat.repr

/-- `<-` writes in the current environment and `<<-` in an enclosing one. -/
inductive Scope where
  | current
  | enclosing
deriving DecidableEq

def Scope.name : Scope → String
  | .current => "Local"
  | .enclosing => "Super"

/-- Where a function is looked up by name. -/
inductive FunLookup where
  | lexical
  | global
  | base
deriving DecidableEq

def FunLookup.name : FunLookup → String
  | .lexical => "Local"
  | .global => "Global"
  | .base => "Symbol"

inductive BinaryOp where
  | add | sub | mul | div | expt
  | eq | ne | lt | le | ge | gt
  | and | or
  | colon | logBase
deriving DecidableEq

def BinaryOp.name : BinaryOp → String
  | .add => "Add"
  | .sub => "Sub"
  | .mul => "Mul"
  | .div => "Div"
  | .expt => "Expt"
  | .eq => "Eq"
  | .ne => "Ne"
  | .lt => "Lt"
  | .le => "Le"
  | .ge => "Ge"
  | .gt => "Gt"
  | .and => "And"
  | .or => "Or"
  | .colon => "Colon"
  | .logBase => "LogBase"

inductive UnaryOp where
  | minus | plus | not
  | sqrt | exp | log
  | seqAlong | seqLen
  /-- A function of one argument, by its place in the table of such functions. -/
  | math (fn : UInt32)
deriving DecidableEq

def UnaryOp.name : UnaryOp → String
  | .minus => "Minus"
  | .plus => "Plus"
  | .not => "Not"
  | .sqrt => "Sqrt"
  | .exp => "Exp"
  | .log => "Log"
  | .seqAlong => "SeqAlong"
  | .seqLen => "SeqLen"
  | .math fn => "Math1(" ++ fn.toNat.repr ++ ")"

inductive TypeTest where
  | null | logical | integer | double | complex | character | symbol | object | numeric
deriving DecidableEq

def TypeTest.name : TypeTest → String
  | .null => "Null"
  | .logical => "Logical"
  | .integer => "Integer"
  | .double => "Double"
  | .complex => "Complex"
  | .character => "Character"
  | .symbol => "Symbol"
  | .object => "Object"
  | .numeric => "Numeric"

/-- The short-circuit connectives `&&` and `||`. -/
inductive Connective where
  | and
  | or
deriving DecidableEq

/-- The truth value of the first operand that decides the result alone. -/
def Connective.deciding : Connective → Bool
  | .and => false
  | .or => true

inductive LoopKind where
  | whileOrRepeat
  | forEach
deriving DecidableEq

def LoopKind.name : LoopKind → String
  | .whileOrRepeat => "WhileOrRepeat"
  | .forEach => "For"

/-- How `break` and `next` leave the body of a loop. -/
inductive LoopExit where
  | leave
  | next
deriving DecidableEq

/-- The element accesses `x[i]`, `x[[i]]`, `x[i] <- v` and `x[[i]] <- v`. -/
inductive Access where
  | subset
  | subset2
  | subassign
  | subassign2
deriving DecidableEq

namespace Access

/-- The builtin that an access calls when it is not done in place. -/
def builtin : Access → String
  | .subset => "["
  | .subset2 => "[["
  | .subassign => "[<-"
  | .subassign2 => "[[<-"

def isWrite : Access → Bool
  | .subassign | .subassign2 => true
  | .subset | .subset2 => false

/-- Is it one of the `[[` forms. -/
def isDouble : Access → Bool
  | .subset2 | .subassign2 => true
  | .subset | .subassign => false

def name : Access → String
  | .subset => "Subset"
  | .subset2 => "Subset2"
  | .subassign => "Subassign"
  | .subassign2 => "Subassign2"

end Access

/-- The constructs that dispatch on the class of their target: an access whose
indices are call arguments, `c(...)`, and an access whose indices are on the
operand stack. -/
inductive DispatchKind where
  | access (a : Access)
  | combine
  | accessN (a : Access)
deriving DecidableEq

namespace DispatchKind

def builtin : DispatchKind → String
  | .access a | .accessN a => a.builtin
  | .combine => "c"

def isWrite : DispatchKind → Bool
  | .access a | .accessN a => a.isWrite
  | .combine => false

/-- Are the indices passed on the operand stack. -/
def isNary : DispatchKind → Bool
  | .accessN _ => true
  | .access _ | .combine => false

def isDouble : DispatchKind → Bool
  | .access a | .accessN a => a.isDouble
  | .combine => false

def name : DispatchKind → String
  | .access a => a.name
  | .combine => "C"
  | .accessN a => a.name ++ "N"

end DispatchKind

end StackLift
