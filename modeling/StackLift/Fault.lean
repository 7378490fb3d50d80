import StackLift.Bytecode.Error
import StackLift.Bytecode.Instruction
import StackLift.Graph.Text

/-!
What stops the lowering of a unit. A fault is the cause; `message` is its
wording, and the only place where a wording stands.
-/

namespace StackLift

/-- The constructs that an instruction opens and a later one closes. -/
inductive Bracket where
  | loop
  | call
  | assign
  | dispatch
deriving DecidableEq

def Bracket.name : Bracket → String
  | .loop => "loop-context"
  | .call => "call"
  | .assign => "complex-assign"
  | .dispatch => "dispatch"

inductive Imbalance where
  | stepOutsideFor
  | noOpenLoop
  | loopClosedAs (opened closed : LoopKind)
  | notAtLoopEnd (loopEnd current : BlockId)
  | noOpenDispatch (closing : DispatchKind)
  | dispatchClosedAs (opened closed : DispatchKind)
  | stillOpen (bracket : Bracket) (count : Nat)
deriving DecidableEq

inductive AssignMismatch where
  | target (place : Expr) (assigned named : String)
  | closing (scope : Scope) (name : String) (openScope : Scope) (openName : String)
deriving DecidableEq

/-- The two accesses to a layer of a place. -/
inductive LayerAccess where
  | getter
  | setter
deriving DecidableEq

inductive Malformation where
  | fallsOffEnd
  | neverReached (block : BlockId)
  | enteredBeforeEdge (block : BlockId)
  | tagWithoutArgument
  | placeWithoutArguments (place : Expr)
  | notAPlace (e : Expr)
  | notAnAssignment (call : Expr)
  | layerOutside (access : LayerAccess) (layer : Nat) (name : String) (layers : Nat)
  | layerOutOfOrder (access : LayerAccess) (layer : Nat) (name : String)
  | beginsNoCall (mnemonic : String)
  | opensNoDispatch (mnemonic : String)
  | closesNoDispatch (mnemonic : String)
  | switchWithoutDefault
  /-- A chain of tests for arms, of which not even the default is there. -/
  | chainWithoutDefault
  | switchTargets (names targets : Nat)
  | switchTablesApart
deriving DecidableEq

inductive Unsupported where
  | instruction (mnemonic : String)
  | leavesCallersLoop
  | computedSetter (place : Expr)
deriving DecidableEq

inductive Fault where
  | stackUnderflow
  | bracketUnderflow (bracket : Bracket)
  | phiMismatch (block : BlockId) (expected actual : List ValueType)
  | unbalanced (cause : Imbalance)
  | assignMismatch (cause : AssignMismatch)
  | notBeforeAfter (after : BlockId)
  | badLabel (label : Label) (offset : Option Nat)
  | constant (cause : BytecodeError)
  | invalid (cause : Malformation)
  | unsupported (cause : Unsupported)
  /-- The pass broke a condition of its own. -/
  | broken (cause : Breach)
deriving DecidableEq

/-- The bracket at fault, and what is wrong with it. -/
def Imbalance.message : Imbalance → String × String
  | .stepOutsideFor => ("loop", "STEPFOR inside a while/repeat loop")
  | .noOpenLoop => ("loop", "loop end with no open loop")
  | .loopClosedAs opened closed => ("loop", opened.name ++ " loop closed as " ++ closed.name)
  | .notAtLoopEnd loopEnd current =>
    ("loop", "loop end " ++ loopEnd.text ++ " is not the start of the current block "
      ++ current.text)
  | .noOpenDispatch closing => ("dispatch", closing.closer ++ " with no open dispatch")
  | .dispatchClosedAs opened closed => ("dispatch", closed.closer ++ " closes " ++ opened.name)
  | .stillOpen bracket count => (bracket.name, count.repr ++ " still open at end of code")

def AssignMismatch.message : AssignMismatch → String
  | .target place assigned named =>
    "place " ++ inBackquotes place.text ++ " assigns " ++ inBackquotes assigned
      ++ ", instruction names " ++ inBackquotes named
  | .closing scope name openScope openName =>
    "closing " ++ scope.name ++ " assignment to " ++ inBackquotes name ++ " while "
      ++ openScope.name ++ " assignment to " ++ inBackquotes openName ++ " is open"

def LayerAccess.name : LayerAccess → String
  | .getter => "getter"
  | .setter => "setter"

def Malformation.message : Malformation → String
  | .fallsOffEnd => "control falls off the end of code"
  | .neverReached block =>
    block.text ++ " is jumped to but its code is unreachable in bytecode order"
  | .enteredBeforeEdge block => block.text ++ " entered before any edge"
  | .tagWithoutArgument => "argument tag with no argument to name"
  | .placeWithoutArguments place =>
    "assignment place " ++ inBackquotes place.text ++ " has no arguments"
  | .notAPlace e => "invalid complex assignment target " ++ inBackquotes e.text
  | .notAnAssignment call =>
    "complex assignment " ++ inBackquotes call.text ++ " does not have a place and a value"
  | .layerOutside access layer name layers =>
    access.name ++ " layer " ++ layer.repr ++ " outside place of " ++ inBackquotes name ++ " ("
      ++ layers.repr ++ " layers)"
  | .layerOutOfOrder access layer name =>
    access.name ++ " for layer " ++ layer.repr ++ " of " ++ inBackquotes name ++ " out of order"
  | .beginsNoCall mnemonic => mnemonic ++ " does not begin a call"
  | .opensNoDispatch mnemonic => mnemonic ++ " does not open a dispatch"
  | .closesNoDispatch mnemonic => mnemonic ++ " does not close a dispatch"
  | .switchWithoutDefault | .chainWithoutDefault => "switch jump table has no default target"
  | .switchTargets names targets =>
    "switch has " ++ names.repr ++ " names but " ++ targets.repr ++ " character targets"
  | .switchTablesApart => "switch names and character targets must be given together"

def Unsupported.message : Unsupported → String
  | .instruction mnemonic => mnemonic ++ " is not supported"
  | .leavesCallersLoop => "break/next in a promise leaves the loop of the calling function"
  | .computedSetter place =>
    "assignment through non-symbol function in " ++ inBackquotes place.text

def Breach.message : Breach → String
  | .appendToTerminated block => "append to terminated " ++ block.text
  | .terminatedTwice block => block.text ++ " terminated twice"
  | .noSuchValue value => "no value " ++ value.text
  | .noSuchTarget => "no target after those of the arms"

namespace Fault

def message : Fault → String
  | .stackUnderflow => "stack underflow"
  | .bracketUnderflow bracket => bracket.name ++ " stack underflow"
  | .phiMismatch block expected actual =>
    "stack/phi mismatch entering " ++ block.text ++ ": expected ["
      ++ commaSeparated (expected.map ValueType.text) ++ "], got ["
      ++ commaSeparated (actual.map ValueType.text) ++ "]"
  | .unbalanced cause =>
    "unbalanced " ++ cause.message.1 ++ " bracket: " ++ cause.message.2
  | .assignMismatch cause => "complex-assign stack mismatch: " ++ cause.message
  | .notBeforeAfter after =>
    "expected to be immediately before the after block " ++ after.text
  | .badLabel label offset =>
    "label " ++ label.text ++ " targets a non-existent block (offset "
      ++ (match offset with
        | some n => "Some(" ++ n.repr ++ ")"
        | none => "None") ++ ")"
  | .constant cause => "bad constant operand: " ++ cause.message
  | .invalid cause => cause.message
  | .unsupported cause => "unsupported construct: " ++ cause.message
  | .broken cause => cause.message

/-- Is the code well formed, but outside of what can be lowered. -/
def isUnsupported : Fault → Bool
  | .unsupported _ => true
  | _ => false

end Fault

/-- Where a unit was when it stopped: the instruction, the block under
construction, and the number of its statements. -/
structure Location where
  offset : Nat
  block : BlockId
  stmt : Nat
deriving DecidableEq

def Location.text (l : Location) : String :=
  "at bytecode instruction " ++ l.offset.repr ++ ", while building block " ++ l.block.text
    ++ " statement " ++ l.stmt.repr

structure CompileError where
  location : Location
  fault : Fault
deriving DecidableEq

def CompileError.message (e : CompileError) : String :=
  e.location.text ++ ": " ++ e.fault.message

end StackLift
