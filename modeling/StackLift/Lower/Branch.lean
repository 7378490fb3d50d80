import StackLift.Lower.Edge

/-!
Conditional branches, short-circuit logic and switches. A switch becomes a
chain of tests, one for each arm, which ends in a jump to the default.
-/

namespace StackLift.Lowering

def branchIfNot (ctx : Context) (call : PoolIndex) (label : Label) : Lowering Unit := do
  let cond ← pop
  let site ← ctx.site call
  let test ← emit (.asTest cond site)
  let target ← ctx.target label
  branchUnless test target

/-- Skips the second operand when the first one decides the result, which then
is the first operand as a logical scalar. -/
def logicFirst (ctx : Context) (connective : Connective) (call : PoolIndex) (label : Label) :
    Lowering Unit := do
  let value ← pop
  let site ← ctx.site call
  let logical ← pushOp (.asLogical value site)
  let decided ← emit (.isTruth connective.deciding logical)
  let target ← ctx.target label
  branchIf decided target

def logicSecond (ctx : Context) (connective : Connective) (call : PoolIndex) : Lowering Unit := do
  let rhs ← pop
  let lhs ← pop
  let site ← ctx.site call
  let rhs ← emit (.asLogical rhs site)
  let _ ← pushOp (.logic connective lhs rhs)

def targetsOf (ctx : Context) : List Label → Lowering (List BlockId)
  | [] => return []
  | l :: rest => do
    let b ← ctx.target l
    let bs ← targetsOf ctx rest
    return b :: bs

/-- The targets of a jump table: those of the arms, and the default last. -/
def jumpTable (ctx : Context) (table : PoolIndex) : Lowering (List BlockId) := do
  let labels ← constant (ctx.pool.labelTable table)
  let targets ← targetsOf ctx labels
  if targets.isEmpty then fail (.invalid .switchWithoutDefault) else return targets

/-- Tests a character subject for each name in turn. The target after those of the names is the
default. -/
def stringChain (subject : ValueId) : List String → List BlockId → Lowering Unit
  | name :: names, target :: targets => do
    let test ← emit (.strEq subject name)
    branchIf test target
    stringChain subject names targets
  | [], default :: _ => jump default
  | _, [] => fail (.broken .noSuchTarget)

/-- Tests an arm number for each arm in turn, from the given number on. -/
def numberChain (index : ValueId) (default : BlockId) :
    Nat → List BlockId → Lowering Unit
  | _, [] => jump default
  | n, target :: rest => do
    let arm ← emit (.indexConst n)
    let test ← emit (.indexEq index arm)
    branchIf test target
    numberChain index default (n + 1) rest

/-- The last of the targets is the default. -/
def numericSwitch (subject : ValueId) (site : CallSite) (targets : List BlockId) :
    Lowering Unit :=
  match targets.getLast? with
  | some default => do
    let index ← emit (.switchIndex subject site)
    numberChain index default 1 targets.dropLast
  | none => fail (.invalid .chainWithoutDefault)

/-- Tests whether the subject is a character, and builds the chain of each case. -/
def namedSwitch (subject : ValueId) (site : CallSite) (names : List String)
    (chrTargets numTargets : List BlockId) : Lowering Unit := do
  let isChr ← emit (.isType .character subject)
  let test ← emit (.asTest isChr site)
  let chrBlock ← newDirect
  let numBlock ← newDirect
  branch test chrBlock numBlock
  enter chrBlock
  stringChain subject names chrTargets
  enter numBlock
  numericSwitch subject site numTargets

/-- A character subject selects an arm by name, any other by number. -/
def switch (ctx : Context) (call : PoolIndex) (names chrLabels : Option PoolIndex)
    (numLabels : PoolIndex) : Lowering Unit := do
  let subject ← pop
  let site ← ctx.site call
  let numTargets ← jumpTable ctx numLabels
  match names, chrLabels with
  | none, none => numericSwitch subject site numTargets
  | some names, some chrLabels =>
    let names ← constant (ctx.pool.strings names)
    let chrTargets ← jumpTable ctx chrLabels
    if chrTargets.length = names.length + 1 then
      namedSwitch subject site names chrTargets numTargets
    else fail (.invalid (.switchTargets names.length chrTargets.length))
  | _, _ => fail (.invalid .switchTablesApart)

end StackLift.Lowering
