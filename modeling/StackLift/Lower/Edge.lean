import StackLift.Lower.State

/-!
Edges between blocks. Along every edge the pass notes which brackets are open:
when it goes on in a block after code that was skipped, the brackets that are
not open along every edge into that block were closed in the skipped code.
-/

namespace StackLift.Lowering

/-- Notes the brackets open along an edge into `target`. -/
def noteEdge (target : BlockId) : Lowering Unit := fun s =>
  let depths := match s.edgeDepths.lookup target with
    | some seen => seen.min s.openDepths
    | none => s.openDepths
  .ok () { s with edgeDepths := (target, depths) :: s.edgeDepths }

def jump (target : BlockId) : Lowering Unit := do
  noteEdge target
  terminate (.goto target)

def branch (cond : ValueId) (yes no : BlockId) : Lowering Unit := do
  noteEdge yes
  noteEdge no
  terminate (.branch cond yes no)

/-- Goes on in a block. A merge block starts with its phis on the stack. -/
def enter (b : BlockId) : Lowering Unit := fun s =>
  let s' := { s with draft := s.draft.moveTo b, live := true }
  if s.draft.isDirect b then .ok () s'
  else
    match s.draft.shape? b with
    | some shape => .ok () { s' with stack := .ofSlots shape }
    | none => .error (.invalid (.enteredBeforeEdge b)) s

/-- Branches to `target` when a condition holds, and goes on in a new block when
it does not. -/
def branchIf (cond : ValueId) (target : BlockId) : Lowering Unit := do
  let next ← newDirect
  branch cond target next
  enter next

/-- Branches to `target` when a condition does not hold, and goes on in a new
block when it does. -/
def branchUnless (cond : ValueId) (target : BlockId) : Lowering Unit := do
  let next ← newDirect
  branch cond next target
  enter next

/-- Goes on in the block of a label, if an edge leads to it. -/
def arriveAt (b : BlockId) (fallsThrough : Bool) : Lowering Unit := fun s =>
  match s.draft.shape? b with
  | none => .ok () { s with live := false }
  | some shape =>
    let s := { s with stack := .ofSlots shape, draft := s.draft.moveTo b, live := true }
    if fallsThrough then .ok () s
    else
      match s.edgeDepths.lookup b with
      | some depths => .ok () (s.truncateBrackets depths)
      | none => .ok () s

/-- Handles a label at an offset: a live block falls through into the block of
the label. -/
def arrive (ctx : Context) (offset : Nat) : Lowering Unit := do
  match ctx.labels.blockAt? offset with
  | none => return
  | some b =>
    let s ← current
    if s.draft.cursor = b then return
    else if s.live then
      jump b
      arriveAt b true
    else arriveAt b false

end StackLift.Lowering
