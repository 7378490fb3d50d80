import StackLift.Bytecode.Pool
import StackLift.Proofs.Draft.Act
import StackLift.Proofs.Graph.Exec

/-!
Instructions that open and close no brackets, as routines of elementary steps on
a stack: a value is dropped or copied, the two top values change places, or an
operation takes values from the stack and puts its result there. At its end a
routine goes on, jumps, branches on a test, or returns.

What a stack holds is left open. The machine, which this module defines, runs
routines on values; the pass runs the same routines on the names that values
have in the graph.
-/

namespace StackLift

/-- An operation on values of the language, with its operands numbered from the
lowest of them on the stack. -/
structure Primitive where
  op : Op
  numbered : op.operands = (List.range op.operands.length).map ValueId.mk := by rfl
  reads : op.inputs = op.operands.map (·, .value) := by rfl

namespace Primitive

def arity (p : Primitive) : Nat := p.op.operands.length

/-- The operation on operands. -/
def on (p : Primitive) (vs : List ValueId) : Op := p.op.mapOperands fun v => vs.getD v.index v

@[simp] theorem form_on (p : Primitive) (vs : List ValueId) : (p.on vs).form = p.op.form :=
  Op.form_mapOperands _ _

@[simp] theorem resultType_on (p : Primitive) (vs : List ValueId) :
    (p.on vs).resultType = p.op.resultType :=
  Op.resultType_mapOperands _ _

theorem operands_on (p : Primitive) {vs : List ValueId} (length : vs.length = p.arity) :
    (p.on vs).operands = vs := by
  rw [on, Op.operands_mapOperands, p.numbered, List.map_map]
  refine List.ext_getElem (by simpa [arity] using length.symm) fun i _ bound => ?_
  simp [List.getD_eq_getElem?_getD, List.getElem?_eq_getElem bound]

theorem inputs_on (p : Primitive) (vs : List ValueId) :
    (p.on vs).inputs = (p.on vs).operands.map (·, .value) := by
  rw [on, Op.inputs_mapOperands, p.reads, Op.operands_mapOperands, List.map_map, List.map_map]
  rfl

end Primitive

inductive StackOp where
  | drop
  /-- Pushes the value that is `n` below the top. -/
  | copy (n : Nat)
  | swap
  | apply (p : Primitive) (value : p.op.resultType = .value := by rfl)

inductive Control where
  | next
  | goto (label : Label)
  /-- Jumps if a test comes out like `sense`. -/
  | branch (p : Primitive) (sense : Bool) (label : Label)
      (test : p.op.resultType = .test := by rfl)
  | ret (exit : Exit)

structure Routine where
  ops : List StackOp := []
  control : Control := .next

namespace Control

/-- Does control never go on to the next instruction. -/
def diverts : Control → Bool
  | .goto _ | .ret _ => true
  | .next | .branch _ _ _ _ => false

def label? : Control → Option Label
  | .goto label | .branch _ _ label _ => some label
  | .next | .ret _ => none

end Control

/-! ### The routines of instructions -/

/-- Is the literal one that the pool has. -/
def Literal.isIn (pool : Pool) : Literal → Bool
  | .pool index => (pool.get index).toOption.isSome
  | .null | .logical _ => true

namespace Instruction

/-- Instructions that neither open nor close a bracket, with at most one target. -/
def isCore : Instruction → Bool
  | .load _ | .getVar _ _ | .getDots _ _ | .setVar _ _ | .pop | .dup | .dup2nd | .swap
  | .setLoopVal | .setVisible _ | .goto _ | .branchIfNot _ _ | .logicFirst _ _ _
  | .logicSecond _ _ | .ret | .returnJump | .callSpecial _ | .makeClosure _ | .binary _ _
  | .unary _ _ | .isType _ | .hint _ => true
  | _ => false

/-- What an instruction does, if its constants are in the pool and of the right
kind. -/
def routine? (pool : Pool) : Instruction → Option Routine
  | .load literal =>
    if literal.isIn pool then some { ops := [.apply ⟨.const literal, rfl, rfl⟩] } else none
  | .getVar symbol missingOk => (pool.symbol symbol).toOption.map fun name =>
    { ops := [.apply ⟨.ldVar name .current missingOk, rfl, rfl⟩] }
  | .getDots symbol missingOk => (pool.symbol symbol).toOption.map fun name =>
    { ops := [.apply ⟨.ldDots name missingOk, rfl, rfl⟩] }
  | .setVar scope symbol => (pool.symbol symbol).toOption.map fun name =>
    { ops := [.copy 0, .apply ⟨.stVar name scope ⟨0⟩, rfl, rfl⟩, .drop] }
  | .pop => some { ops := [.drop] }
  | .dup => some { ops := [.copy 0] }
  | .dup2nd => some { ops := [.copy 1] }
  | .swap => some { ops := [.swap] }
  | .setLoopVal => some { ops := [.drop, .drop, .apply ⟨.const .null, rfl, rfl⟩] }
  | .setVisible visible => some { ops := [.apply ⟨.setVisible visible, rfl, rfl⟩, .drop] }
  | .goto label => some { control := .goto label }
  | .branchIfNot call label => (pool.expr call).toOption.map fun _ =>
    { control := .branch ⟨.asTest ⟨0⟩ (.pool call), rfl, rfl⟩ false label }
  | .logicFirst connective call label => (pool.expr call).toOption.map fun _ =>
    { ops := [.apply ⟨.asLogical ⟨0⟩ (.pool call), rfl, rfl⟩, .copy 0]
      control := .branch ⟨.isTruth connective.deciding ⟨0⟩, rfl, rfl⟩ true label }
  | .logicSecond connective call => (pool.expr call).toOption.map fun _ =>
    { ops := [.apply ⟨.asLogical ⟨0⟩ (.pool call), rfl, rfl⟩,
        .apply ⟨.logic connective ⟨0⟩ ⟨1⟩, rfl, rfl⟩] }
  | .ret => some { control := .ret .ret }
  | .returnJump => some { control := .ret .nonLocalRet }
  | .callSpecial call => (pool.expr call).toOption.map fun _ =>
    { ops := [.apply ⟨.callSpecial (.pool call), rfl, rfl⟩] }
  | .makeClosure code => (pool.code code).toOption.map fun _ =>
    { ops := [.apply ⟨.mkClosure code, rfl, rfl⟩] }
  | .binary op call => (pool.expr call).toOption.map fun _ =>
    { ops := [.apply ⟨.binary op ⟨0⟩ ⟨1⟩ (.pool call), rfl, rfl⟩] }
  | .unary op call => (pool.expr call).toOption.map fun _ =>
    { ops := [.apply ⟨.unary op ⟨0⟩ (.pool call), rfl, rfl⟩] }
  | .isType test => some { ops := [.apply ⟨.isType test ⟨0⟩, rfl, rfl⟩] }
  | .hint _ => some {}
  | _ => none

/-- Where control goes can be read off an instruction. -/
theorem control_of_routine? {pool : Pool} {i : Instruction} {p : Routine}
    (h : i.routine? pool = some p) :
    i.diverts = p.control.diverts ∧ i.label? = p.control.label? := by
  cases i
  case load =>
    rw [routine?] at h
    split at h <;> cases h
    exact ⟨rfl, rfl⟩
  case getVar | getDots | setVar | branchIfNot | logicFirst | logicSecond | callSpecial
      | makeClosure | binary | unary =>
    obtain ⟨_, -, rfl⟩ := Option.map_eq_some_iff.mp h
    exact ⟨rfl, rfl⟩
  case pop | dup | dup2nd | swap | setLoopVal | setVisible | goto | ret | returnJump | isType
      | hint =>
    cases h
    exact ⟨rfl, rfl⟩
  all_goals cases h

end Instruction

/-! ### Running routines -/

section

variable {α σ : Type} (perform : Primitive → List α → σ → α × σ)

/-- Takes the operands from a stack and performs the operation; the result is not
yet on the stack. -/
def Primitive.run (p : Primitive) : List α × σ → Option (α × List α × σ)
  | (vs, x) =>
    if p.arity ≤ vs.length then
      let (v, x) := perform p (vs.take p.arity).reverse x
      some (v, vs.drop p.arity, x)
    else none

def StackOp.run : StackOp → List α × σ → Option (List α × σ)
  | .drop, (_ :: vs, x) => some (vs, x)
  | .copy n, (vs, x) => vs[n]?.map fun v => (v :: vs, x)
  | .swap, (v :: w :: vs, x) => some (w :: v :: vs, x)
  | .apply p _, vsx => (p.run perform vsx).map fun (v, vs, x) => (v :: vs, x)
  | _, _ => none

def StackOp.runAll : List StackOp → List α × σ → Option (List α × σ)
  | [], vsx => some vsx
  | op :: ops, vsx => (op.run perform vsx).bind (StackOp.runAll ops)

variable {perform}

/-- What it means that operands were taken. -/
theorem Primitive.run_eq_some {p : Primitive} {vs vs' : List α} {v : α} {x x' : σ} :
    p.run perform (vs, x) = some (v, vs', x') ↔
      ∃ args, args.length = p.arity ∧ vs = args.reverse ++ vs' ∧ perform p args x = (v, x') := by
  rw [Primitive.run]
  constructor
  · intro h
    split at h
    · rename_i enough
      cases h
      exact ⟨(vs.take p.arity).reverse, by simp [Nat.min_eq_left enough], by simp, rfl⟩
    · cases h
  · rintro ⟨args, length, rfl, h⟩
    have taken : (args.reverse ++ vs').take p.arity = args.reverse := by
      rw [← length, ← List.length_reverse, List.take_left']
      rfl
    have left : (args.reverse ++ vs').drop p.arity = vs' := by
      rw [← length, ← List.length_reverse, List.drop_left']
      rfl
    rw [if_pos (by simp [length]), taken, left, List.reverse_reverse, h]

end

/-- The depth of the stack after taking operands. -/
def Primitive.depth? (p : Primitive) (n : Nat) : Option Nat :=
  if p.arity ≤ n then some (n - p.arity) else none

/-- The depth of the stack after a step, if there is enough on it. -/
def StackOp.depth? : StackOp → Nat → Option Nat
  | .drop, n => if 1 ≤ n then some (n - 1) else none
  | .copy k, n => if k < n then some (n + 1) else none
  | .swap, n => if 2 ≤ n then some n else none
  | .apply p _, n => (p.depth? n).map (· + 1)

def StackOp.depthAll? : List StackOp → Nat → Option Nat
  | [], n => some n
  | op :: ops, n => (op.depth? n).bind (StackOp.depthAll? ops)

def Control.depth? : Control → Nat → Option Nat
  | .next, n | .goto _, n => some n
  | .branch p _ _ _, n => p.depth? n
  | .ret _, n => if 1 ≤ n then some (n - 1) else none

/-- The depth of the stack after a routine. -/
def Routine.depth? (p : Routine) (n : Nat) : Option Nat :=
  (StackOp.depthAll? p.ops n).bind p.control.depth?

section

variable {α σ : Type} (perform : Primitive → List α → σ → α × σ)

/-- Whether a step can be done depends on the depth of the stack only. -/
theorem Primitive.map_length_run (p : Primitive) (vs : List α) (x : σ) :
    (p.run perform (vs, x)).map (·.2.1.length) = p.depth? vs.length := by
  rw [Primitive.run, Primitive.depth?]
  split
  · simp
  · rfl

theorem StackOp.map_length_run (op : StackOp) (vs : List α) (x : σ) :
    (op.run perform (vs, x)).map (·.1.length) = op.depth? vs.length := by
  cases op with
  | drop =>
      cases vs with
      | nil => rfl
      | cons v vs => simp [run, depth?]
  | copy n =>
      rw [run, depth?]
      by_cases h : n < vs.length
      · rw [List.getElem?_eq_getElem h, if_pos h]
        rfl
      · rw [List.getElem?_eq_none (Nat.le_of_not_lt h), if_neg h]
        rfl
  | swap =>
      match vs with
      | [] => rfl
      | [_] => rfl
      | v :: w :: vs => simp [run, depth?]
  | apply p value =>
      rw [run, depth?, ← p.map_length_run perform vs x]
      cases p.run perform (vs, x) <;> rfl

theorem StackOp.map_length_runAll (ops : List StackOp) (vs : List α) (x : σ) :
    (runAll perform ops (vs, x)).map (·.1.length) = depthAll? ops vs.length := by
  induction ops generalizing vs x with
  | nil => rfl
  | cons op ops ih =>
      rw [runAll, depthAll?, ← op.map_length_run perform vs x]
      cases op.run perform (vs, x) with
      | none => rfl
      | some vsx => exact ih vsx.1 vsx.2

end

/-! ### The machine -/

variable {V : Type}

/-- Performs an operation on values and notes it. -/
def Interp.perform (I : Interp V) (p : Primitive) (args : List V) (history : List (Event V)) :
    V × List (Event V) :=
  let result := I.result history p.op.form args
  (result, .op p.op.form args result :: history)

structure Machine (V : Type) where
  /-- The next instruction. -/
  offset : Nat
  /-- The top comes first. -/
  stack : List V
  history : List (Event V)

namespace Machine

def jump (unit : CodeUnit) (label : Label) (stack : List V) (history : List (Event V)) :
    Progress (Machine V) (Exit × V) :=
  match unit.offset? label with
  | some offset => .running ⟨offset, stack, history⟩
  | none => .stuck

/-- What the machine does at the end of a routine. -/
def leave (unit : CodeUnit) (I : Interp V) (offset : Nat) :
    Control → List V × List (Event V) → Progress (Machine V) (Exit × V)
  | .next, (stack, history) => .running ⟨offset + 1, stack, history⟩
  | .goto label, (stack, history) => jump unit label stack history
  | .branch p sense label _, frame =>
    match p.run I.perform frame with
    | some (v, stack, history) =>
      let history := .branch (I.holds v) :: history
      if I.holds v = sense then jump unit label stack history
      else .running ⟨offset + 1, stack, history⟩
    | none => .stuck
  | .ret exit, (v :: _, _) => .finished (exit, v)
  | .ret _, ([], _) => .stuck

/-- Runs the routine of the next instruction. -/
def step (unit : CodeUnit) (pool : Pool) (I : Interp V) (m : Machine V) :
    Progress (Machine V) (Exit × V) :=
  match unit.instructions[m.offset]?.bind (·.routine? pool) with
  | some p =>
    match StackOp.runAll I.perform p.ops (m.stack, m.history) with
    | some frame => leave unit I m.offset p.control frame
    | none => .stuck
  | none => .stuck

end Machine

/-- The run of a unit from its start, with nothing on the stack. -/
def CodeUnit.process (unit : CodeUnit) (pool : Pool) (I : Interp V) :
    Process (Event V) (Exit × V) where
  State := Machine V
  start := ⟨0, [], []⟩
  step := Machine.step unit pool I
  history := Machine.history

end StackLift
