import StackLift.Operator

/-!
Instructions of the stack machine. Operands that index the pool are named for
what they must find there: `symbol`, `call` (a source expression), `code`.
`label?` is the jump target that an instruction names itself; the jump tables
of a `switch` stand in the pool.
-/

namespace StackLift

/-- Hints for counting references, which have no effect on the values computed. -/
inductive RefHint where
  | incLink
  | decLink
  | decLinks (count : UInt32)
  | incLinkStack
  | decLinkStack
deriving DecidableEq

inductive Instruction where
  | load (literal : Literal)
  | getVar (symbol : PoolIndex) (missingOk : Bool)
  /-- The value of `..1`, `..2` and so on. -/
  | getDots (symbol : PoolIndex) (missingOk : Bool)
  /-- Stores the top value, which stays on the stack. -/
  | setVar (scope : Scope) (symbol : PoolIndex)
  | pop
  | dup
  /-- Pushes a copy of the second value. -/
  | dup2nd
  | swap
  /-- Replaces the two top values by null. -/
  | setLoopVal
  | setVisible (visible : Bool)
  | goto (label : Label)
  /-- Pops a condition and jumps when it does not hold. -/
  | branchIfNot (call : PoolIndex) (label : Label)
  | ret
  /-- Returns from the function around a promise. -/
  | returnJump
  /-- Names and character targets come together, one target for each name and a
  default; numeric targets are one for each arm and a default. -/
  | switch (call : PoolIndex) (names chrLabels : Option PoolIndex) (numLabels : PoolIndex)
  | logicFirst (connective : Connective) (call : PoolIndex) (label : Label)
  | logicSecond (connective : Connective) (call : PoolIndex)
  | startLoop (endLabel : Label)
  /-- Pops the sequence that the loop runs over. -/
  | startFor (call symbol : PoolIndex) (endLabel : Label)
  | stepFor
  | endLoop (kind : LoopKind)
  | leaveLoop (exit : LoopExit)
  | getFun (lookup : FunLookup) (symbol : PoolIndex)
  | getBuiltin (internal : Bool) (symbol : PoolIndex)
  /-- Pops the function to call. -/
  | checkFun
  | makePromise (code : PoolIndex)
  | doMissing
  | doDots
  | setTag (symbol : PoolIndex)
  | pushArg
  | pushLiteral (literal : Literal)
  | finishCall (builtin : Bool) (call : PoolIndex)
  | callSpecial (call : PoolIndex)
  | makeClosure (code : PoolIndex)
  | binary (op : BinaryOp) (call : PoolIndex)
  | unary (op : UnaryOp) (call : PoolIndex)
  | isType (test : TypeTest)
  /-- Opens a complex assignment; `call` is the whole assignment expression. -/
  | startAssign (scope : Scope) (symbol call : PoolIndex)
  | endAssign (scope : Scope) (symbol : PoolIndex)
  /-- Layer 0 is the outermost call of the place. -/
  | getterCall (layer : UInt32)
  | setterCall (layer : UInt32)
  | startDispatch (kind : DispatchKind) (call : PoolIndex) (after : Label)
  | endAccess (access : Access)
  | endCombine
  | endAccessN (access : Access) (count : UInt32)
  | dollar (call symbol : PoolIndex)
  | dollarAssign (call symbol : PoolIndex)
  | baseGuard (call : PoolIndex) (label : Label)
  | hint (h : RefHint)
deriving DecidableEq

def RefHint.mnemonic : RefHint → String
  | .incLink => "INCLNK"
  | .decLink => "DECLNK"
  | .decLinks _ => "DECLNK_N"
  | .incLinkStack => "INCLNKSTK"
  | .decLinkStack => "DECLNKSTK"

def BinaryOp.mnemonic : BinaryOp → String
  | .add => "ADD"
  | .sub => "SUB"
  | .mul => "MUL"
  | .div => "DIV"
  | .expt => "EXPT"
  | .eq => "EQ"
  | .ne => "NE"
  | .lt => "LT"
  | .le => "LE"
  | .ge => "GE"
  | .gt => "GT"
  | .and => "AND"
  | .or => "OR"
  | .colon => "COLON"
  | .logBase => "LOGBASE"

def UnaryOp.mnemonic : UnaryOp → String
  | .minus => "UMINUS"
  | .plus => "UPLUS"
  | .not => "NOT"
  | .sqrt => "SQRT"
  | .exp => "EXP"
  | .log => "LOG"
  | .seqAlong => "SEQALONG"
  | .seqLen => "SEQLEN"
  | .math _ => "MATH1"

def TypeTest.mnemonic : TypeTest → String
  | .null => "ISNULL"
  | .logical => "ISLOGICAL"
  | .integer => "ISINTEGER"
  | .double => "ISDOUBLE"
  | .complex => "ISCOMPLEX"
  | .character => "ISCHARACTER"
  | .symbol => "ISSYMBOL"
  | .object => "ISOBJECT"
  | .numeric => "ISNUMERIC"

def Access.mnemonic : Access → String
  | .subset => "SUBSET"
  | .subset2 => "SUBSET2"
  | .subassign => "SUBASSIGN"
  | .subassign2 => "SUBASSIGN2"

/-- The mnemonic of the instruction that opens a dispatch. -/
def DispatchKind.opener : DispatchKind → String
  | .access a => "START" ++ a.mnemonic
  | .combine => "STARTC"
  | .accessN a => "START" ++ a.mnemonic ++ "_N"

/-- The mnemonic of the instruction that closes a dispatch. -/
def DispatchKind.closer : DispatchKind → String
  | .access a => "DFLT" ++ a.mnemonic
  | .combine => "DFLTC"
  | .accessN a => a.mnemonic ++ "_N"

namespace Instruction

def mnemonic : Instruction → String
  | .load .null => "LDNULL"
  | .load (.logical true) => "LDTRUE"
  | .load (.logical false) => "LDFALSE"
  | .load (.pool _) => "LDCONST"
  | .getVar _ false => "GETVAR"
  | .getVar _ true => "GETVAR_MISSOK"
  | .getDots _ false => "DDVAL"
  | .getDots _ true => "DDVAL_MISSOK"
  | .setVar .current _ => "SETVAR"
  | .setVar .enclosing _ => "SETVAR2"
  | .pop => "POP"
  | .dup => "DUP"
  | .dup2nd => "DUP2ND"
  | .swap => "SWAP"
  | .setLoopVal => "SETLOOPVAL"
  | .setVisible true => "VISIBLE"
  | .setVisible false => "INVISIBLE"
  | .goto _ => "GOTO"
  | .branchIfNot _ _ => "BRIFNOT"
  | .ret => "RETURN"
  | .returnJump => "RETURNJMP"
  | .switch _ _ _ _ => "SWITCH"
  | .logicFirst .and _ _ => "AND1ST"
  | .logicFirst .or _ _ => "OR1ST"
  | .logicSecond .and _ => "AND2ND"
  | .logicSecond .or _ => "OR2ND"
  | .startLoop _ => "STARTLOOPCNTXT"
  | .startFor _ _ _ => "STARTFOR"
  | .stepFor => "STEPFOR"
  | .endLoop .whileOrRepeat => "ENDLOOPCNTXT"
  | .endLoop .forEach => "ENDFOR"
  | .leaveLoop .next => "DOLOOPNEXT"
  | .leaveLoop .leave => "DOLOOPBREAK"
  | .getFun .lexical _ => "GETFUN"
  | .getFun .global _ => "GETGLOBFUN"
  | .getFun .base _ => "GETSYMFUN"
  | .getBuiltin false _ => "GETBUILTIN"
  | .getBuiltin true _ => "GETINTLBUILTIN"
  | .checkFun => "CHECKFUN"
  | .makePromise _ => "MAKEPROM"
  | .doMissing => "DOMISSING"
  | .doDots => "DODOTS"
  | .setTag _ => "SETTAG"
  | .pushArg => "PUSHARG"
  | .pushLiteral .null => "PUSHNULLARG"
  | .pushLiteral (.logical true) => "PUSHTRUEARG"
  | .pushLiteral (.logical false) => "PUSHFALSEARG"
  | .pushLiteral (.pool _) => "PUSHCONSTARG"
  | .finishCall false _ => "CALL"
  | .finishCall true _ => "CALLBUILTIN"
  | .callSpecial _ => "CALLSPECIAL"
  | .makeClosure _ => "MAKECLOSURE"
  | .binary op _ => op.mnemonic
  | .unary op _ => op.mnemonic
  | .isType test => test.mnemonic
  | .startAssign .current _ _ => "STARTASSIGN"
  | .startAssign .enclosing _ _ => "STARTASSIGN2"
  | .endAssign .current _ => "ENDASSIGN"
  | .endAssign .enclosing _ => "ENDASSIGN2"
  | .getterCall _ => "GETTER_CALL"
  | .setterCall _ => "SETTER_CALL"
  | .startDispatch kind _ _ => kind.opener
  | .endAccess a => (DispatchKind.access a).closer
  | .endCombine => DispatchKind.combine.closer
  | .endAccessN a _ => (DispatchKind.accessN a).closer
  | .dollar _ _ => "DOLLAR"
  | .dollarAssign _ _ => "DOLLARGETS"
  | .baseGuard _ _ => "BASEGUARD"
  | .hint h => h.mnemonic

/-- The label that an instruction names itself. -/
def label? : Instruction → Option Label
  | .goto label | .branchIfNot _ label | .logicFirst _ _ label | .baseGuard _ label => some label
  | .startLoop endLabel | .startFor _ _ endLabel => some endLabel
  | .startDispatch _ _ after => some after
  | _ => none

/-- Does control never go on to the next instruction. -/
def diverts : Instruction → Bool
  | .goto _ | .ret | .returnJump | .switch _ _ _ _ | .leaveLoop _ | .stepFor => true
  | _ => false

end Instruction

end StackLift
