import StackLift.Bytecode.Double
import StackLift.Bytecode.Error
import StackLift.Bytecode.Expr
import StackLift.Bytecode.Unit

/-!
Constants of the pool. Besides the scalars of the language they hold what
instructions refer to: symbols, source expressions, nested code, the names and
the jump tables of switches.
-/

namespace StackLift

inductive Constant where
  | null
  /-- An absent truth value is the missing one. -/
  | logical (value : Option Bool)
  | int (value : Option Int32)
  | real (value : Double)
  | str (value : String)
  | symbol (name : String)
  | expr (e : Expr)
  | code (unit : CodeUnit)
  | strings (values : List String)
  | labelTable (labels : List Label)
deriving DecidableEq

namespace Constant

def kind : Constant → ConstantKind
  | .null => .null
  | .logical _ => .logical
  | .int _ => .integer
  | .real _ => .double
  | .str _ => .string
  | .symbol _ => .symbol
  | .expr _ => .expr
  | .code _ => .code
  | .strings _ => .strings
  | .labelTable _ => .labelTable

def symbol? : Constant → Option String
  | .symbol name => some name
  | _ => none

def isCode : Constant → Bool
  | .code _ => true
  | _ => false

/-- Equality of constants, where reals compare as numbers. -/
def equal : Constant → Constant → Bool
  | .real x, .real y => x.numEq y
  | a, b => a == b

theorem kind_eq_of_equal {a b : Constant} (h : a.equal b = true) : a.kind = b.kind := by
  unfold equal at h
  split at h
  · rfl
  · rw [eq_of_beq h]

end Constant

end StackLift
