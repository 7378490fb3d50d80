import StackLift.Bytecode.Error
import StackLift.Bytecode.Unit

/-!
Assembling a unit. Labels are handed out first and placed later: placing one
binds it to the offset of the next instruction emitted. Nothing is patched
afterwards; `finish` checks that every label an instruction names was placed.
-/

namespace StackLift

structure Assembly where
  name : Option String := none
  instructions : List Instruction := []
  labels : List (Option UInt32) := []
deriving DecidableEq

namespace Assembly

def setName (a : Assembly) (name : String) : Assembly := { a with name := some name }

/-- The offset that the next instruction gets. -/
def offset (a : Assembly) : Nat := a.instructions.length

def newLabel (a : Assembly) : Label × Assembly :=
  (.ofNat a.labels.length, { a with labels := a.labels ++ [none] })

def placeLabel (a : Assembly) (l : Label) : Except BytecodeError Assembly :=
  match a.labels[l.toNat]? with
  | none => .error (.unplacedLabel l)
  | some (some _) => .error (.duplicateLabel l)
  | some none => .ok { a with labels := a.labels.set l.toNat (some (.ofNat a.offset)) }

def emit (a : Assembly) (i : Instruction) : Assembly :=
  { a with instructions := a.instructions ++ [i] }

def isPlaced (a : Assembly) (l : Label) : Bool := (a.labels[l.toNat]?).join.isSome

/-- The unit, unless an instruction names a label that was not placed. -/
def finish (a : Assembly) : Except BytecodeError CodeUnit :=
  match (a.instructions.filterMap Instruction.label?).find? (!a.isPlaced ·) with
  | some l => .error (.unplacedLabel l)
  | none => .ok ⟨a.name, a.instructions, a.labels⟩

@[simp] theorem offset_emit (a : Assembly) (i : Instruction) :
    (a.emit i).offset = a.offset + 1 := by
  simp [offset, emit]

end Assembly

end StackLift
