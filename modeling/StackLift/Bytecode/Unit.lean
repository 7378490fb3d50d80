import StackLift.Bytecode.Instruction

/-!
Code units: the body of a function, of a promise or of a file, with the table
that binds its labels to offsets. A label without an entry, or with an empty
one, is unbound.
-/

namespace StackLift

structure CodeUnit where
  name : Option String
  instructions : List Instruction
  labels : List (Option UInt32)
deriving DecidableEq

namespace CodeUnit

def displayName (u : CodeUnit) : String := u.name.getD "<anonymous>"

def size (u : CodeUnit) : Nat := u.instructions.length

/-- The offset that a label is bound to. -/
def offset? (u : CodeUnit) (l : Label) : Option Nat :=
  (u.labels[l.toNat]?).join.map UInt32.toNat

end CodeUnit

end StackLift
