import StackLift.Bytecode.Operand

/-!
What can be wrong with a reference of the bytecode: an index that finds no
constant or one of another kind, and a label placed never or twice.
-/

namespace StackLift

inductive ConstantKind where
  | null | logical | integer | double | string | symbol | expr | code | strings | labelTable
deriving DecidableEq

def ConstantKind.name : ConstantKind → String
  | .null => "null"
  | .logical => "logical"
  | .integer => "integer"
  | .double => "double"
  | .string => "string"
  | .symbol => "symbol"
  | .expr => "ast"
  | .code => "code"
  | .strings => "strings"
  | .labelTable => "label table"

inductive BytecodeError where
  | outOfRange (index : PoolIndex) (size : Nat)
  | wrongKind (index : PoolIndex) (expected found : ConstantKind)
  | unplacedLabel (label : Label)
  | duplicateLabel (label : Label)
deriving DecidableEq

def BytecodeError.message : BytecodeError → String
  | .outOfRange index size =>
    "constant index " ++ index.toNat.repr ++ " out of range (pool has " ++ size.repr ++ " entries)"
  | .wrongKind index expected found =>
    "constant " ++ index.toNat.repr ++ " is " ++ found.name ++ ", expected " ++ expected.name
  | .unplacedLabel label => "label " ++ label.text ++ " was never placed"
  | .duplicateLabel label => "label " ++ label.text ++ " placed twice"

end StackLift
