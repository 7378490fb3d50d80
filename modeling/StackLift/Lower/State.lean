import StackLift.Bracket.Assign
import StackLift.Bracket.Call
import StackLift.Bracket.Dispatch
import StackLift.Bracket.Stack
import StackLift.LabelMap
import StackLift.OperandStack
import StackLift.Options

/-!
The state of the pass that lowers a unit, and its primitive steps. A step that
fails keeps what it did before the fault, because the place where a unit
stopped is read off the state.
-/

namespace StackLift

/-- What stays fixed while a unit is lowered. -/
structure Context where
  pool : Pool
  labels : LabelMap
  kind : UnitKind

structure State where
  draft : Draft
  stack : OperandStack := {}
  /-- Open brackets of each kind, the innermost first. -/
  loops : List LoopContext := []
  calls : List PendingCall := []
  assigns : List PendingAssign := []
  dispatches : List PendingDispatch := []
  /-- The fewest brackets open along any edge into a block; the newest entry of
  a block counts. -/
  edgeDepths : List (BlockId × OpenDepths) := []
  /-- Is the block under construction reachable and not yet ended. -/
  live : Bool := true
deriving DecidableEq

/-- A step of the pass: it changes the state and gives a result, or a fault
together with the state in which it arose. -/
abbrev Lowering := EStateM Fault State

namespace Lowering

def current : Lowering State := fun s => .ok s s

def update (f : State → State) : Lowering Unit := fun s => .ok () (f s)

def fail {α : Type} (fault : Fault) : Lowering α := fun s => .error fault s

def ofExcept {α : Type} : Except Fault α → Lowering α
  | .ok a, s => .ok a s
  | .error fault, s => .error fault s

/-- A look-up in the pool. -/
def constant {α : Type} : Except BytecodeError α → Lowering α
  | .ok a, s => .ok a s
  | .error cause, s => .error (.constant cause) s

theorem bind_eq_ok_iff {α β : Type} {x : Lowering α} {f : α → Lowering β} {s t : State} {b : β} :
    (x >>= f) s = .ok b t ↔ ∃ a u, x s = .ok a u ∧ f a u = .ok b t := by
  change EStateM.bind x f s = .ok b t ↔ _
  cases h : x s with
  | ok a u => simp [EStateM.bind, h, and_assoc]
  | error fault u => simp [EStateM.bind, h]

theorem bind_eq_error_iff {α β : Type} {x : Lowering α} {f : α → Lowering β} {s t : State}
    {fault : Fault} :
    (x >>= f) s = .error fault t ↔
      x s = .error fault t ∨ ∃ a u, x s = .ok a u ∧ f a u = .error fault t := by
  change EStateM.bind x f s = .error fault t ↔ _
  cases h : x s with
  | ok a u => simp [EStateM.bind, h, and_assoc]
  | error fault' u => simp [EStateM.bind, h]

/-! ### The operand stack -/

def push (v : ValueId) : Lowering Unit := fun s =>
  .ok () { s with stack := s.stack.push v }

def pop : Lowering ValueId := fun s =>
  match s.stack.pop with
  | .ok (v, stack) => .ok v { s with stack }
  | .error fault => .error fault s

def peekNth (n : Nat) : Lowering ValueId := fun s => ofExcept (s.stack.peekNth n) s

def peek : Lowering ValueId := peekNth 0

def popN (n : Nat) : Lowering (List ValueId) := fun s =>
  match s.stack.popN n with
  | .ok (vs, stack) => .ok vs { s with stack }
  | .error fault => .error fault s

def replaceTop (v : ValueId) : Lowering ValueId := fun s =>
  match s.stack.replaceTop v with
  | .ok (top, stack) => .ok top { s with stack }
  | .error fault => .error fault s

def swap : Lowering Unit := fun s =>
  match s.stack.swap with
  | .ok stack => .ok () { s with stack }
  | .error fault => .error fault s

/-! ### The graph -/

def emit (op : Op) : Lowering ValueId := fun s =>
  match s.draft.emit op with
  | .ok (v, draft) => .ok v { s with draft }
  | .error breach => .error (.broken breach) s

/-- Emits an operation and pushes its value. -/
def pushOp (op : Op) : Lowering ValueId := do
  let v ← emit op
  push v
  return v

def newMerge : Lowering BlockId := fun s =>
  let (b, draft) := s.draft.newMerge
  .ok b { s with draft }

def newDirect : Lowering BlockId := fun s =>
  let (b, draft) := s.draft.newDirect
  .ok b { s with draft }

def addIndexPhi (b pred : BlockId) (initial : ValueId) : Lowering ValueId := fun s =>
  let (phi, draft) := s.draft.addIndexPhi b pred initial
  .ok phi { s with draft }

def registerLoopIndex (b : BlockId) (phi next : ValueId) : Lowering Unit := fun s =>
  .ok () { s with draft := s.draft.registerLoopIndex b phi next }

/-- Ends the block under construction; the edges that leave it carry the
current stack. -/
def terminate (t : Terminator) : Lowering Unit := fun s =>
  match Draft.terminate t s.stack.slots s.draft with
  | .ok () draft => .ok () { s with draft }
  | .error fault draft => .error fault { s with draft }

/-! ### Brackets -/

def pushLoop (l : LoopContext) : Lowering Unit := fun s =>
  .ok () { s with loops := l :: s.loops }

def pushCall (c : PendingCall) : Lowering Unit := fun s =>
  .ok () { s with calls := c :: s.calls }

def popCall : Lowering PendingCall := fun s =>
  match Bracket.pop .call s.calls with
  | .ok (c, calls) => .ok c { s with calls }
  | .error fault => .error fault s

/-- Some call has to be open. -/
def requireCall : Lowering Unit := fun s =>
  match Bracket.top .call s.calls with
  | .ok _ => .ok () s
  | .error fault => .error fault s

/-- Changes the innermost call. -/
def updateCall (f : PendingCall → Except Fault PendingCall) : Lowering Unit := fun s =>
  match Bracket.updateTop .call f s.calls with
  | .ok calls => .ok () { s with calls }
  | .error fault => .error fault s

/-- Changes the innermost call in a way that cannot fail. -/
def modifyCall (f : PendingCall → PendingCall) : Lowering Unit := updateCall fun c => .ok (f c)

def pushAssign (a : PendingAssign) : Lowering Unit := fun s =>
  .ok () { s with assigns := a :: s.assigns }

def popAssign : Lowering PendingAssign := fun s =>
  match Bracket.pop .assign s.assigns with
  | .ok (a, assigns) => .ok a { s with assigns }
  | .error fault => .error fault s

/-- Accesses a layer of the innermost assignment. -/
def accessLayer (access : PendingAssign → Except Fault CallSite × PendingAssign) :
    Lowering CallSite := fun s =>
  match s.assigns with
  | a :: rest =>
    let (site, a) := access a
    ofExcept site { s with assigns := a :: rest }
  | [] => .error (.bracketUnderflow .assign) s

def pushDispatch (d : PendingDispatch) : Lowering Unit := fun s =>
  .ok () { s with dispatches := d :: s.dispatches }

end Lowering

namespace State

def openDepths (s : State) : OpenDepths :=
  ⟨s.calls.length, s.assigns.length, s.dispatches.length⟩

/-- Drops the calls, assignments and dispatches opened since. -/
def truncateBrackets (s : State) (depths : OpenDepths) : State :=
  { s with
    calls := Bracket.truncate depths.calls s.calls
    assigns := Bracket.truncate depths.assigns s.assigns
    dispatches := Bracket.truncate depths.dispatches s.dispatches }

def locate (s : State) (offset : Nat) : Location :=
  ⟨offset, s.draft.cursor, s.draft.stmtIndex⟩

end State

namespace Context

def symbol (ctx : Context) (i : PoolIndex) : Lowering String := .constant (ctx.pool.symbol i)

/-- The call site of an expression of the pool. -/
def site (ctx : Context) (call : PoolIndex) : Lowering CallSite := do
  let _ ← Lowering.constant (ctx.pool.expr call)
  return .pool call

/-- The block that a label leads to. -/
def target (ctx : Context) (l : Label) : Lowering BlockId := .ofExcept (ctx.labels.block l)

end Context

end StackLift
