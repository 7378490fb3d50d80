import StackLift.Lower.Edge

/-!
Loops. A `for` loop gets a step block that counts: its index phi is 0 on the
edge from before the loop and the incremented index on every other edge, and
the body is entered while the incremented index does not exceed the length of
the sequence.
-/

namespace StackLift.Lowering

/-- The block of the code after an instruction, new if no label leads to it. -/
def blockAfter (ctx : Context) (offset : Nat) : Lowering BlockId :=
  match ctx.labels.blockAt? (offset + 1) with
  | some b => return b
  | none => newMerge

/-- The code after the instruction is the head of the loop. -/
def startLoop (ctx : Context) (offset : Nat) (endLabel : Label) : Lowering Unit := do
  let loopEnd ← ctx.target endLabel
  noteEdge loopEnd
  let head ← blockAfter ctx offset
  jump head
  enter head
  pushLoop { kind := .whileOrRepeat, next := head, loopEnd, opened := (← current).openDepths }

def startFor (ctx : Context) (call symbol : PoolIndex) (endLabel : Label) : Lowering Unit := do
  let seq ← pop
  let _ ← constant (ctx.pool.expr call)
  let name ← ctx.symbol symbol
  let loopEnd ← ctx.target endLabel
  let length ← emit (.length seq)
  let zero ← emit (.indexConst 0)
  let before := (← current).draft.cursor
  let step ← newMerge
  jump step
  let index ← addIndexPhi step before zero
  enter step
  let one ← emit (.indexConst 1)
  let next ← emit (.indexAdd index one)
  let more ← emit (.indexLe next length)
  let body ← newDirect
  branch more body loopEnd
  registerLoopIndex step index next
  enter body
  let element ← emit (.forElement seq next)
  let _ ← emit (.stVar name .current element)
  pushLoop { kind := .forEach, next := step, loopEnd, opened := (← current).openDepths }

/-- The innermost loop. -/
def innermostLoop : Lowering LoopContext := fun s => ofExcept (Bracket.top .loop s.loops) s

/-- The body of a `for` loop ends. -/
def stepFor : Lowering Unit := do
  let loop ← innermostLoop
  if loop.kind = .forEach then jump loop.next else fail (.unbalanced .stepOutsideFor)

/-- In a promise, `break` and `next` outside of a loop belong to a loop of the
function that the promise was passed from. -/
def leaveLoop (ctx : Context) (exit : LoopExit) : Lowering Unit := do
  match (← current).loops with
  | loop :: _ =>
    match exit with
    | .leave => jump loop.loopEnd
    | .next => jump loop.next
  | [] =>
    if ctx.kind = .promise then fail (.unsupported .leavesCallersLoop)
    else fail (.bracketUnderflow .loop)

/-- Closes the innermost loop, which has to be of the given kind. -/
def popLoop (kind : LoopKind) : Lowering LoopContext := fun s =>
  match s.loops with
  | [] => .error (.unbalanced .noOpenLoop) s
  | loop :: rest =>
    let s := { s with loops := rest }
    if loop.kind = kind then .ok loop s else .error (.unbalanced (.loopClosedAs loop.kind kind)) s

/-- A loop ends at the start of its end block. -/
def endLoop (kind : LoopKind) : Lowering Unit := do
  let loop ← popLoop kind
  let d := (← current).draft
  if d.atStartOf loop.loopEnd then return
  else fail (.unbalanced (.notAtLoopEnd loop.loopEnd d.cursor))

/-- In skipped code, the end of the innermost loop still closes it, together
with the brackets left open in its body. -/
def endDeadLoop (ctx : Context) (offset : Nat) (kind : LoopKind) : Lowering Unit := do
  match (← current).loops with
  | [] => return
  | loop :: _ =>
    if ctx.labels.blockAt? offset = some loop.loopEnd then
      let loop ← popLoop kind
      update (·.truncateBrackets loop.opened)
    else return

end StackLift.Lowering
