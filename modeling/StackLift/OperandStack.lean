import StackLift.Fault

/-!
The operand stack as it is known while a unit is lowered: for each slot, the
value that is in it. `items` has the top first; `slots` reads from the bottom.
-/

namespace StackLift

structure OperandStack where
  items : List ValueId := []
deriving DecidableEq

namespace OperandStack

/-- The values from the bottom to the top. -/
def slots (s : OperandStack) : List ValueId := s.items.reverse

def ofSlots (slots : List ValueId) : OperandStack := ⟨slots.reverse⟩

def depth (s : OperandStack) : Nat := s.items.length

def push (s : OperandStack) (v : ValueId) : OperandStack := ⟨v :: s.items⟩

def pop : OperandStack → Except Fault (ValueId × OperandStack)
  | ⟨v :: rest⟩ => .ok (v, ⟨rest⟩)
  | ⟨[]⟩ => .error .stackUnderflow

/-- The value `n` slots below the top. -/
def peekNth (s : OperandStack) (n : Nat) : Except Fault ValueId :=
  match s.items[n]? with
  | some v => .ok v
  | none => .error .stackUnderflow

def peek (s : OperandStack) : Except Fault ValueId := s.peekNth 0

/-- Takes the `n` top values, the lowest first. -/
def popN (s : OperandStack) (n : Nat) : Except Fault (List ValueId × OperandStack) :=
  if n ≤ s.items.length then .ok ((s.items.take n).reverse, ⟨s.items.drop n⟩)
  else .error .stackUnderflow

/-- Puts a value in place of the top one, which is handed back. -/
def replaceTop (s : OperandStack) (v : ValueId) : Except Fault (ValueId × OperandStack) :=
  match s.items with
  | top :: rest => .ok (top, ⟨v :: rest⟩)
  | [] => .error .stackUnderflow

def swap : OperandStack → Except Fault OperandStack
  | ⟨v :: w :: rest⟩ => .ok ⟨w :: v :: rest⟩
  | _ => .error .stackUnderflow

def text (s : OperandStack) : String := "[" ++ ValueId.listText s.slots ++ "]"

@[simp] theorem slots_ofSlots (slots : List ValueId) : (ofSlots slots).slots = slots := by
  simp [OperandStack.slots, ofSlots]

@[simp] theorem ofSlots_slots (s : OperandStack) : ofSlots s.slots = s := by
  simp [slots, ofSlots]

@[simp] theorem slots_push (s : OperandStack) (v : ValueId) :
    (s.push v).slots = s.slots ++ [v] := by
  simp [slots, push]

@[simp] theorem pop_push (s : OperandStack) (v : ValueId) : (s.push v).pop = .ok (v, s) := rfl

@[simp] theorem peek_push (s : OperandStack) (v : ValueId) : (s.push v).peek = .ok v := rfl

end OperandStack

end StackLift
