import StackLift.Fault

/-!
A graph under construction: the block that statements are appended to, and what
is known about the blocks that edges lead to.

A direct block is reached by one edge and continues with the stack of its
source. Any other block is a merge: the first edge that is wired to it fixes
its shape, one phi for each slot of the stack, typed like the value in that
slot; every later edge has to bring a stack of the same types. The head of a
counting loop has one phi more, which takes the loop's next index along every
edge wired after the index was registered.
-/

namespace StackLift

structure Draft where
  graph : Graph
  cursor : BlockId
  /-- The slot phis of a merge block, from the bottom of the stack; the newest
  entry of a block counts. -/
  shapes : List (BlockId × List ValueId)
  direct : List BlockId := []
  /-- The index phi of a loop head, and the index of the next round. -/
  loopIndices : List (BlockId × (ValueId × ValueId)) := []
deriving DecidableEq

namespace Draft

/-- The entry block is reached with an empty stack. -/
def new (name : String) : Draft :=
  { graph := .new name, cursor := ⟨0⟩, shapes := [(⟨0⟩, [])] }

/-- The number of statements in the block under construction. -/
def stmtIndex (d : Draft) : Nat :=
  match d.graph.block? d.cursor with
  | some b => b.stmts.length
  | none => 0

/-- Is the block the one under construction, with nothing in it yet. -/
def atStartOf (d : Draft) (b : BlockId) : Bool :=
  d.cursor = b && (d.graph.block? b).any fun block => block.stmts.isEmpty && block.terminator.isNone

def shape? (d : Draft) (b : BlockId) : Option (List ValueId) := d.shapes.lookup b

def isDirect (d : Draft) (b : BlockId) : Bool := d.direct.contains b

def newMerge (d : Draft) : BlockId × Draft :=
  (d.graph.nextBlock, { d with graph := d.graph.addBlock.2 })

def newDirect (d : Draft) : BlockId × Draft :=
  (d.graph.nextBlock,
    { d with graph := d.graph.addBlock.2, direct := d.graph.nextBlock :: d.direct })

def emit (d : Draft) (op : Op) : Except Breach (ValueId × Draft) := do
  let (v, graph) ← d.graph.append d.cursor op
  return (v, { d with graph })

def moveTo (d : Draft) (b : BlockId) : Draft := { d with cursor := b }

def addPhiInput (d : Draft) (b : BlockId) (phi : ValueId) (pred : BlockId) (value : ValueId) :
    Draft :=
  { d with graph := d.graph.addPhiInput b phi pred value }

/-- Adds a phi for each of the values, of the type of that value. -/
def addPhis (g : Graph) (b : BlockId) :
    List ValueId → Except Breach (List ValueId × Graph)
  | [] => return ([], g)
  | v :: rest => do
    let type ← g.valueType v
    let (phis, g') ← addPhis (g.addPhi b type).2 b rest
    return (g.nextValue :: phis, g')

/-- Fixes the shape of a block to the types of a stack. -/
def fixShape (d : Draft) (b : BlockId) (slots : List ValueId) :
    Except Breach (List ValueId × Draft) := do
  let (phis, graph) ← addPhis d.graph b slots
  return (phis, { d with graph, shapes := (b, phis) :: d.shapes })

/-- Gives the phis of a block their inputs along an edge. -/
def addInputs (d : Draft) (source target : BlockId) (phis slots : List ValueId) : Draft :=
  let d := (phis.zip slots).foldl (fun d (phi, v) => d.addPhiInput target phi source v) d
  match d.loopIndices.lookup target with
  | some (phi, next) => d.addPhiInput target phi source next
  | none => d

/-- Makes the phis of `target` take their inputs along an edge from `source`
that carries the given stack. -/
def wire (d : Draft) (source target : BlockId) (slots : List ValueId) : Except Fault Draft :=
  if d.isDirect target then .ok d
  else
    match d.shape? target with
    | some phis => do
      let expected ← (d.graph.valueTypes phis).mapError .broken
      let actual ← (d.graph.valueTypes slots).mapError .broken
      if expected = actual then return d.addInputs source target phis slots
      else throw (.phiMismatch target expected actual)
    | none => do
      let (phis, d) ← (d.fixShape target slots).mapError .broken
      return d.addInputs source target phis slots

/-- Wires edges from one block in turn; those before a mismatch stay wired. -/
def wireAll (source : BlockId) (slots : List ValueId) : List BlockId → EStateM Fault Draft Unit
  | [], d => .ok () d
  | target :: rest, d =>
    match d.wire source target slots with
    | .ok d => wireAll source slots rest d
    | .error fault => .error fault d

/-- Ends the block under construction and wires the edges that leave it. -/
def terminate (t : Terminator) (slots : List ValueId) : EStateM Fault Draft Unit := fun d =>
  match d.graph.setTerminator d.cursor t with
  | .ok graph => wireAll d.cursor slots t.successors { d with graph }
  | .error breach => .error (.broken breach) d

/-- Adds the phi of a loop index, with its input from before the loop. -/
def addIndexPhi (d : Draft) (b pred : BlockId) (initial : ValueId) : ValueId × Draft :=
  let (phi, graph) := d.graph.addPhi b .index
  (phi, { d with graph := graph.addPhiInput b phi pred initial })

def registerLoopIndex (d : Draft) (b : BlockId) (phi next : ValueId) : Draft :=
  { d with loopIndices := (b, (phi, next)) :: d.loopIndices }

end Draft

end StackLift
