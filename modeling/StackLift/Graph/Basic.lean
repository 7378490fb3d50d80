import StackLift.Graph.Op

/-!
Control-flow graphs in static single assignment form.

Blocks and values are numbered in the order in which they are made, and a
removed block leaves its place empty, so numbers stay valid. Block 0 is the
entry. An edge is a block named by a terminator; the block that it leads to
lists the edge's source among its predecessors, once for each edge.
-/

namespace StackLift

structure Stmt where
  value : ValueId
  op : Op
deriving DecidableEq

/-- A phi selects, by the edge taken, one of its inputs. -/
structure Phi where
  value : ValueId
  type : ValueType
  inputs : List (BlockId × ValueId) := []
deriving DecidableEq

inductive Terminator where
  | goto (target : BlockId)
  | branch (cond : ValueId) (yes no : BlockId)
  | ret (value : ValueId)
  /-- Returns from the function around a promise. -/
  | nonLocalRet (value : ValueId)
deriving DecidableEq

namespace Terminator

def successors : Terminator → List BlockId
  | .goto target => [target]
  | .branch _ yes no => [yes, no]
  | .ret _ | .nonLocalRet _ => []

def operands : Terminator → List ValueId
  | .goto _ => []
  | .branch cond _ _ => [cond]
  | .ret value | .nonLocalRet value => [value]

def mapOperands (f : ValueId → ValueId) : Terminator → Terminator
  | .goto target => .goto target
  | .branch cond yes no => .branch (f cond) yes no
  | .ret value => .ret (f value)
  | .nonLocalRet value => .nonLocalRet (f value)

@[simp] theorem operands_mapOperands (f : ValueId → ValueId) (t : Terminator) :
    (t.mapOperands f).operands = t.operands.map f := by
  cases t <;> rfl

@[simp] theorem successors_mapOperands (f : ValueId → ValueId) (t : Terminator) :
    (t.mapOperands f).successors = t.successors := by
  cases t <;> rfl

end Terminator

structure Block where
  phis : List Phi := []
  stmts : List Stmt := []
  terminator : Option Terminator := none
  /-- In the order in which the edges were made. -/
  preds : List BlockId := []
deriving DecidableEq

namespace Block

def successors (b : Block) : List BlockId :=
  match b.terminator with
  | some t => t.successors
  | none => []

def append (b : Block) (s : Stmt) : Block := { b with stmts := b.stmts ++ [s] }

def addPhi (b : Block) (p : Phi) : Block := { b with phis := b.phis ++ [p] }

def addPred (b : Block) (pred : BlockId) : Block := { b with preds := b.preds ++ [pred] }

/-- Gives an input to the first of the phis that defines a value. -/
def addInput (b : Block) (phi : ValueId) (pred : BlockId) (value : ValueId) : Block :=
  { b with phis := go b.phis }
where
  go : List Phi → List Phi
    | [] => []
    | p :: rest =>
      if p.value = phi then { p with inputs := p.inputs ++ [(pred, value)] } :: rest
      else p :: go rest

/-- Forgets a predecessor and the phi inputs that came from it. -/
def dropPred (b : Block) (pred : BlockId) : Block :=
  { b with
    preds := b.preds.filter (· ≠ pred)
    phis := b.phis.map fun p => { p with inputs := p.inputs.filter (·.1 ≠ pred) } }

def dropPhi (b : Block) (phi : ValueId) : Block :=
  { b with phis := b.phis.filter (·.value ≠ phi) }

/-- Replaces every value that the block uses; what it defines stays. -/
def mapUses (f : ValueId → ValueId) (b : Block) : Block :=
  { b with
    phis := b.phis.map fun p => { p with inputs := p.inputs.map fun (e, v) => (e, f v) }
    stmts := b.stmts.map fun s => { s with op := s.op.mapOperands f }
    terminator := b.terminator.map (·.mapOperands f) }

end Block

/-- What defines a value. -/
inductive Definition where
  | phi (block : BlockId)
  | stmt (block : BlockId)
deriving DecidableEq

structure ValueInfo where
  type : ValueType
  definition : Definition
deriving DecidableEq

/-- What the caller of an operation has to see to, and did not. -/
inductive Breach where
  | appendToTerminated (block : BlockId)
  | terminatedTwice (block : BlockId)
  | noSuchValue (value : ValueId)
  /-- A jump table has no entry after those of the arms. -/
  | noSuchTarget
deriving DecidableEq

structure Graph where
  name : String
  blocks : List (Option Block)
  values : List ValueInfo
deriving DecidableEq

namespace Graph

/-- A graph with an empty entry block and nothing else. -/
def new (name : String) : Graph := { name, blocks := [some {}], values := [] }

def entry (_ : Graph) : BlockId := ⟨0⟩

def block? (g : Graph) (b : BlockId) : Option Block := (g.blocks[b.index]?).join

/-- The blocks of places that are not empty, numbered from `n` on. -/
def liveFrom (n : Nat) : List (Option Block) → List (BlockId × Block)
  | [] => []
  | none :: rest => liveFrom (n + 1) rest
  | some block :: rest => (⟨n⟩, block) :: liveFrom (n + 1) rest

/-- The blocks that were not removed, by number. -/
def liveBlocks (g : Graph) : List (BlockId × Block) := liveFrom 0 g.blocks

def liveCount (g : Graph) : Nat := g.liveBlocks.length

/-- Every statement with its block, in block order. -/
def stmts (g : Graph) : List (BlockId × Stmt) :=
  g.liveBlocks.flatMap fun (b, block) => block.stmts.map fun s => (b, s)

/-- The type of a value, which has to be there. -/
def valueType (g : Graph) (v : ValueId) : Except Breach ValueType :=
  match g.values[v.index]? with
  | some info => .ok info.type
  | none => .error (.noSuchValue v)

def valueTypes (g : Graph) : List ValueId → Except Breach (List ValueType)
  | [] => return []
  | v :: rest => do
    let type ← g.valueType v
    let types ← g.valueTypes rest
    return type :: types

/-- The operation of the statement that defines a value. -/
def definingOp? (g : Graph) (v : ValueId) : Option Op :=
  match (g.values[v.index]?).map ValueInfo.definition with
  | some (.stmt b) => do
    let block ← g.block? b
    let stmt ← block.stmts.find? (·.value = v)
    return stmt.op
  | _ => none

/-- Changes a block, if it is there. -/
def updateBlock (g : Graph) (b : BlockId) (f : Block → Block) : Graph :=
  { g with blocks := g.blocks.modify b.index (Option.map f) }

/-- The number that the next block gets. -/
def nextBlock (g : Graph) : BlockId := ⟨g.blocks.length⟩

/-- The number that the next value gets. -/
def nextValue (g : Graph) : ValueId := ⟨g.values.length⟩

def addBlock (g : Graph) : BlockId × Graph :=
  (g.nextBlock, { g with blocks := g.blocks ++ [some {}] })

def addValue (g : Graph) (type : ValueType) (definition : Definition) : Graph :=
  { g with values := g.values ++ [⟨type, definition⟩] }

/-- Does a block have its end. -/
def isTerminated (g : Graph) (b : BlockId) : Bool := (g.block? b).any (·.terminator.isSome)

/-- Adds a statement to a block. -/
def addStmt (g : Graph) (b : BlockId) (op : Op) : ValueId × Graph :=
  (g.nextValue,
    (g.addValue op.resultType (.stmt b)).updateBlock b (·.append ⟨g.nextValue, op⟩))

/-- Appends a statement to a block that has no end yet. -/
def append (g : Graph) (b : BlockId) (op : Op) : Except Breach (ValueId × Graph) :=
  if g.isTerminated b then .error (.appendToTerminated b) else .ok (g.addStmt b op)

/-- Adds a phi that has no inputs yet. -/
def addPhi (g : Graph) (b : BlockId) (type : ValueType) : ValueId × Graph :=
  (g.nextValue,
    (g.addValue type (.phi b)).updateBlock b (·.addPhi { value := g.nextValue, type }))

/-- Gives a phi of a block its input along the edge from `pred`. -/
def addPhiInput (g : Graph) (b : BlockId) (phi : ValueId) (pred : BlockId) (value : ValueId) :
    Graph :=
  g.updateBlock b (·.addInput phi pred value)

/-- Gives a block its end; it becomes a predecessor of every block it leads to. -/
def addEnd (g : Graph) (b : BlockId) (t : Terminator) : Graph :=
  t.successors.foldl (fun g succ => g.updateBlock succ (·.addPred b))
    (g.updateBlock b fun block => { block with terminator := some t })

/-- Ends a block that has no end yet. -/
def setTerminator (g : Graph) (b : BlockId) (t : Terminator) : Except Breach Graph :=
  if g.isTerminated b then .error (.terminatedTwice b) else .ok (g.addEnd b t)

/-- Removes a block, and with it the edges that leave it. -/
def removeBlock (g : Graph) (b : BlockId) : Graph :=
  match g.block? b with
  | none => g
  | some block =>
    block.successors.foldl (fun g succ => g.updateBlock succ (·.dropPred b))
      { g with blocks := g.blocks.set b.index none }

/-- Replaces every value that a block uses. -/
def mapUses (g : Graph) (f : ValueId → ValueId) : Graph :=
  { g with blocks := g.blocks.map (Option.map (Block.mapUses f)) }

/-- Replaces every use of one value by another. -/
def replaceUses (g : Graph) (old new : ValueId) : Graph :=
  g.mapUses fun v => if v = old then new else v

end Graph

end StackLift
