import StackLift.Bytecode.Pool
import StackLift.Draft

/-!
The blocks that labels lead to. Before a unit is lowered, every offset that one
of its instructions names, itself or through the jump tables of a switch, gets
one merge block, in the order in which the offsets are first named.
-/

namespace StackLift

structure LabelMap where
  /-- The offset of each label that is named. -/
  offsets : List (Label × Nat) := []
  /-- The block of each offset that is named. -/
  blocks : List (Nat × BlockId) := []
deriving DecidableEq

/-- The labels of a jump table that may be left out. -/
def Pool.optionalTable (pool : Pool) : Option PoolIndex → Except BytecodeError (List Label)
  | some table => pool.labelTable table
  | none => .ok []

/-- The labels that an instruction may jump to. -/
def Instruction.targets (pool : Pool) : Instruction → Except BytecodeError (List Label)
  | .switch _ _ chrLabels numLabels => do
    let chr ← pool.optionalTable chrLabels
    let num ← pool.labelTable numLabels
    return chr ++ num
  | i => .ok i.label?.toList

theorem Instruction.targets_switch_eq_ok {pool : Pool} {call numLabels : PoolIndex}
    {names chrLabels : Option PoolIndex} {labels : List Label} :
    (Instruction.switch call names chrLabels numLabels).targets pool = .ok labels ↔
      ∃ chr num, pool.optionalTable chrLabels = .ok chr ∧ pool.labelTable numLabels = .ok num ∧
        labels = chr ++ num := by
  rw [targets]
  cases pool.optionalTable chrLabels with
  | error e => simp [bind, Except.bind]
  | ok chr =>
      cases pool.labelTable numLabels with
      | error e => simp [bind, Except.bind]
      | ok num => simp [bind, Except.bind, pure, Except.pure, eq_comm]

namespace LabelMap

def size (m : LabelMap) : Nat := m.blocks.length

def blockAt? (m : LabelMap) (offset : Nat) : Option BlockId := m.blocks.lookup offset

/-- The block of a label that is named. -/
def block (m : LabelMap) (l : Label) : Except Fault BlockId :=
  match (m.offsets.lookup l).bind m.blockAt? with
  | some b => .ok b
  | none => .error (.badLabel l none)

/-- Labels resolved so far, and the graph that holds their blocks. -/
structure Resolution where
  labels : LabelMap := {}
  draft : Draft
deriving DecidableEq

namespace Resolution

/-- Notes the offset of a label, with a new block if the offset has none. -/
def record (r : Resolution) (l : Label) (offset : Nat) : Resolution :=
  let offsets := (l, offset) :: r.labels.offsets
  match r.labels.blockAt? offset with
  | some _ => { r with labels := { r.labels with offsets } }
  | none =>
    let (b, draft) := r.draft.newMerge
    { draft, labels := { offsets, blocks := (offset, b) :: r.labels.blocks } }

/-- A label has to be bound to the offset of an instruction. -/
def bind (unit : CodeUnit) (r : Resolution) (l : Label) : Except Fault Resolution :=
  match unit.offset? l with
  | some offset =>
    if offset < unit.size then .ok (r.record l offset) else .error (.badLabel l (some offset))
  | none => .error (.badLabel l none)

/-- Binds labels in turn; those before an unbound one stay resolved. -/
def bindAll (unit : CodeUnit) : List Label → EStateM Fault Resolution Unit
  | [], r => .ok () r
  | l :: rest, r =>
    match r.bind unit l with
    | .ok r => bindAll unit rest r
    | .error fault => .error fault r

/-- Binds the labels of one instruction. -/
def bindTargets (unit : CodeUnit) (pool : Pool) (i : Instruction) :
    EStateM Fault Resolution Unit := fun r =>
  match i.targets pool with
  | .ok targets => bindAll unit targets r
  | .error cause => .error (.constant cause) r

/-- Binds the labels of instructions from an offset on. A failure comes with
the offset of the instruction that names the label. -/
def resolveFrom (unit : CodeUnit) (pool : Pool) :
    Nat → List Instruction → EStateM (Nat × Fault) Resolution Unit
  | _, [], r => .ok () r
  | offset, i :: rest, r =>
    match bindTargets unit pool i r with
    | .ok () r => resolveFrom unit pool (offset + 1) rest r
    | .error fault r => .error (offset, fault) r

end Resolution

/-- Gives the labels of a unit their blocks. -/
def resolve (unit : CodeUnit) (pool : Pool) : EStateM (Nat × Fault) Draft LabelMap := fun draft =>
  match Resolution.resolveFrom unit pool 0 unit.instructions { draft } with
  | .ok () r => .ok r.labels r.draft
  | .error e r => .error e r.draft

end LabelMap

end StackLift
