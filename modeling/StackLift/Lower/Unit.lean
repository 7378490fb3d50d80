import StackLift.Lower.Step

/-!
Lowering a whole unit in one pass over its instructions. Main definition:
`CodeUnit.compile`, which gives the graph of a unit or the fault that stopped
it and the place where it did.
-/

namespace StackLift

namespace Lowering

/-- Lowers instructions from an offset on. -/
def run (ctx : Context) : Nat → List Instruction → State → Except CompileError State
  | _, [], s => .ok s
  | offset, i :: rest, s =>
    match step ctx offset i s with
    | .ok () s => run ctx (offset + 1) rest s
    | .error fault s => .error ⟨s.locate offset, fault⟩

end Lowering

namespace State

/-- The kind and the number of brackets left open, outer kinds first. -/
def stillOpen? (s : State) : Option (Bracket × Nat) :=
  [(Bracket.loop, s.loops.length), (Bracket.call, s.calls.length),
    (Bracket.assign, s.assigns.length), (Bracket.dispatch, s.dispatches.length)].find? (0 < ·.2)

/-- A block that an edge leads to and whose code was skipped. -/
def neverReached? (s : State) : Option BlockId :=
  (s.draft.graph.liveBlocks.find? fun (_, b) => !b.preds.isEmpty && b.terminator.isNone).map (·.1)

/-- What is wrong at the end of the code. -/
def endFault? (s : State) : Option Fault :=
  match s.stillOpen? with
  | some (bracket, count) => some (.unbalanced (.stillOpen bracket count))
  | none =>
    if s.live then some (.invalid .fallsOffEnd)
    else s.neverReached?.map fun b => .invalid (.neverReached b)

end State

namespace CodeUnit

/-- The graph as the pass leaves it. -/
def lower (unit : CodeUnit) (pool : Pool) (kind : UnitKind) : Except CompileError Graph :=
  match LabelMap.resolve unit pool (.new unit.displayName) with
  | .error (offset, fault) draft => .error ⟨⟨offset, draft.cursor, 0⟩, fault⟩
  | .ok labels draft =>
    match Lowering.run { pool, labels, kind } 0 unit.instructions { draft } with
    | .error e => .error e
    | .ok s =>
      match s.endFault? with
      | some fault => .error ⟨s.locate unit.size, fault⟩
      | none => .ok s.draft.graph

def compile (unit : CodeUnit) (pool : Pool) (options : Options) : Except CompileError Graph :=
  (unit.lower pool options.unitKind).map options.cleanup

end CodeUnit

end StackLift
