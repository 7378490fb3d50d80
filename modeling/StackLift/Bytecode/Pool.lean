import StackLift.Bytecode.Constant

/-!
The constant pool that a unit and its nested units share.

`add` stores a constant once: a constant that equals an entry is found, not
stored again. Nested code is always stored, so that every unit keeps an index
of its own. Each typed look-up succeeds on constants of its kind only.
-/

namespace StackLift

structure Pool where
  entries : List Constant := []
deriving DecidableEq

namespace Pool

def size (p : Pool) : Nat := p.entries.length

/-- The place of the first entry equal to a constant that may be shared. -/
def find? (p : Pool) (c : Constant) : Option Nat :=
  if c.isCode then none else p.entries.findIdx? (·.equal c)

def add (p : Pool) (c : Constant) : PoolIndex × Pool :=
  match p.find? c with
  | some i => (.ofNat i, p)
  | none => (.ofNat p.size, ⟨p.entries ++ [c]⟩)

def addSymbol (p : Pool) (name : String) : PoolIndex × Pool := p.add (.symbol name)

def addExpr (p : Pool) (e : Expr) : PoolIndex × Pool := p.add (.expr e)

def addCode (p : Pool) (unit : CodeUnit) : PoolIndex × Pool := p.add (.code unit)

def get (p : Pool) (i : PoolIndex) : Except BytecodeError Constant :=
  match p.entries[i.toNat]? with
  | some c => .ok c
  | none => .error (.outOfRange i p.size)

def symbol (p : Pool) (i : PoolIndex) : Except BytecodeError String := do
  match ← p.get i with
  | .symbol name => .ok name
  | other => .error (.wrongKind i .symbol other.kind)

def expr (p : Pool) (i : PoolIndex) : Except BytecodeError Expr := do
  match ← p.get i with
  | .expr e => .ok e
  | other => .error (.wrongKind i .expr other.kind)

def code (p : Pool) (i : PoolIndex) : Except BytecodeError CodeUnit := do
  match ← p.get i with
  | .code unit => .ok unit
  | other => .error (.wrongKind i .code other.kind)

def strings (p : Pool) (i : PoolIndex) : Except BytecodeError (List String) := do
  match ← p.get i with
  | .strings values => .ok values
  | other => .error (.wrongKind i .strings other.kind)

def labelTable (p : Pool) (i : PoolIndex) : Except BytecodeError (List Label) := do
  match ← p.get i with
  | .labelTable labels => .ok labels
  | other => .error (.wrongKind i .labelTable other.kind)

theorem get_eq_ok_iff {p : Pool} {i : PoolIndex} {c : Constant} :
    p.get i = .ok c ↔ p.entries[i.toNat]? = some c := by
  rw [get]
  cases p.entries[i.toNat]? with
  | none => simp
  | some d => simp

theorem labelTable_eq_ok_iff {p : Pool} {i : PoolIndex} {labels : List Label} :
    p.labelTable i = .ok labels ↔ p.get i = .ok (.labelTable labels) := by
  rw [labelTable]
  cases p.get i with
  | error e => simp [bind, Except.bind]
  | ok c => cases c <;> simp [bind, Except.bind]

theorem add_of_find?_eq_some {p : Pool} {c : Constant} {i : Nat} (h : p.find? c = some i) :
    p.add c = (.ofNat i, p) := by
  simp [add, h]

theorem add_of_find?_eq_none {p : Pool} {c : Constant} (h : p.find? c = none) :
    p.add c = (.ofNat p.size, ⟨p.entries ++ [c]⟩) := by
  simp [add, h]

end Pool

end StackLift
