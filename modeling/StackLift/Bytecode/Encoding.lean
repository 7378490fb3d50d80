import StackLift.Bytecode.Pool
import StackLift.Json
import StackLift.Text.Hex

/-!
The JSON form of bytecode. A variant without payload is its name, any other is
an object whose only member is named for the variant. Members may come in any
order and unknown ones are passed over; a member that may be `null` may also be
missing. A real is the 16 hexadecimal digits of its bits.

Two other spellings are read but never written. An argument or a unit may be the
array of all its fields in order, which the operands of a variant may not. A
variant without payload may be an object whose only member is `null`.
-/

namespace StackLift

namespace PoolIndex

def toJson (i : PoolIndex) : Json := .ofUInt32 i.val

def ofJson? (j : Json) : Option PoolIndex := j.uint32?.map PoolIndex.mk

end PoolIndex

namespace Label

def toJson (l : Label) : Json := .ofUInt32 l.val

def ofJson? (j : Json) : Option Label := j.uint32?.map Label.mk

end Label

/-! ### Source expressions -/

mutual
def Expr.toJson : Expr → Json
  | .symbol name => .tagged "Symbol" (.str name)
  | .const index => .tagged "Const" index.toJson
  | .call fn args => .tagged "Call" (.obj [("fun", fn.toJson), ("args", .arr (Arg.listToJson args))])

def Arg.toJson : Arg → Json
  | ⟨name, value⟩ => .obj [("name", .ofOption .str name), ("value", value.toJson)]

def Arg.listToJson : List Arg → List Json
  | [] => []
  | a :: rest => a.toJson :: Arg.listToJson rest
end

mutual
def Expr.ofJson? : Json → Option Expr
  | .obj [(tag, payload)] =>
    if tag = "Symbol" then payload.str?.map .symbol
    else if tag = "Const" then (PoolIndex.ofJson? payload).map .const
    else if tag = "Call" then Expr.callOfJson? payload
    else none
  | _ => none

def Expr.callOfJson? : Json → Option Expr
  | .obj members => do
    return .call (← Expr.memberOfJson? "fun" members) (← Arg.membersOfJson? "args" members)
  | _ => none

/-- The expression in the first member of that name. -/
def Expr.memberOfJson? (key : String) : List (String × Json) → Option Expr
  | [] => none
  | (k, j) :: rest => if k = key then Expr.ofJson? j else Expr.memberOfJson? key rest

/-- The arguments in the first member of that name. -/
def Arg.membersOfJson? (key : String) : List (String × Json) → Option (List Arg)
  | [] => none
  | (k, j) :: rest => if k = key then Arg.arrayOfJson? j else Arg.membersOfJson? key rest

def Arg.arrayOfJson? : Json → Option (List Arg)
  | .arr items => Arg.listOfJson? items
  | _ => none

def Arg.listOfJson? : List Json → Option (List Arg)
  | [] => some []
  | j :: rest => do return (← Arg.ofJson? j) :: (← Arg.listOfJson? rest)

def Arg.ofJson? : Json → Option Arg
  | .arr [name, value] => do
    return ⟨← Json.nullable? Json.str? name, ← Expr.ofJson? value⟩
  | .obj members => do
    return ⟨← Json.optionalField? "name" Json.str? (.obj members), ← Expr.memberOfJson? "value" members⟩
  | _ => none
end

/-! ### Instructions -/

namespace RefHint

def tag : RefHint → String
  | .incLink => "IncLnk"
  | .decLink => "DecLnk"
  | .decLinks _ => "DecLnkN"
  | .incLinkStack => "IncLnkStk"
  | .decLinkStack => "DecLnkStk"

end RefHint

/-- Negation and identity are named apart from subtraction and addition. -/
def UnaryOp.tag : UnaryOp → String
  | .minus => "UMinus"
  | .plus => "UPlus"
  | .math _ => "Math1"
  | op => op.name

namespace Instruction

/-- The name of the variant. -/
def tag : Instruction → String
  | .load .null => "LdNull"
  | .load (.logical true) => "LdTrue"
  | .load (.logical false) => "LdFalse"
  | .load (.pool _) => "LdConst"
  | .getVar _ false => "GetVar"
  | .getVar _ true => "GetVarMissOk"
  | .getDots _ false => "DdVal"
  | .getDots _ true => "DdValMissOk"
  | .setVar .current _ => "SetVar"
  | .setVar .enclosing _ => "SetVar2"
  | .pop => "Pop"
  | .dup => "Dup"
  | .dup2nd => "Dup2nd"
  | .swap => "Swap"
  | .setLoopVal => "SetLoopVal"
  | .setVisible true => "Visible"
  | .setVisible false => "Invisible"
  | .goto _ => "Goto"
  | .branchIfNot _ _ => "BrIfNot"
  | .ret => "Return"
  | .returnJump => "ReturnJmp"
  | .switch _ _ _ _ => "Switch"
  | .logicFirst .and _ _ => "And1st"
  | .logicFirst .or _ _ => "Or1st"
  | .logicSecond .and _ => "And2nd"
  | .logicSecond .or _ => "Or2nd"
  | .startLoop _ => "StartLoopCntxt"
  | .startFor _ _ _ => "StartFor"
  | .stepFor => "StepFor"
  | .endLoop .whileOrRepeat => "EndLoopCntxt"
  | .endLoop .forEach => "EndFor"
  | .leaveLoop .next => "DoLoopNext"
  | .leaveLoop .leave => "DoLoopBreak"
  | .getFun .lexical _ => "GetFun"
  | .getFun .global _ => "GetGlobFun"
  | .getFun .base _ => "GetSymFun"
  | .getBuiltin false _ => "GetBuiltin"
  | .getBuiltin true _ => "GetIntlBuiltin"
  | .checkFun => "CheckFun"
  | .makePromise _ => "MakeProm"
  | .doMissing => "DoMissing"
  | .doDots => "DoDots"
  | .setTag _ => "SetTag"
  | .pushArg => "PushArg"
  | .pushLiteral .null => "PushNullArg"
  | .pushLiteral (.logical true) => "PushTrueArg"
  | .pushLiteral (.logical false) => "PushFalseArg"
  | .pushLiteral (.pool _) => "PushConstArg"
  | .finishCall false _ => "Call"
  | .finishCall true _ => "CallBuiltin"
  | .callSpecial _ => "CallSpecial"
  | .makeClosure _ => "MakeClosure"
  | .binary op _ => op.name
  | .unary op _ => op.tag
  | .isType test => "Is" ++ test.name
  | .startAssign .current _ _ => "StartAssign"
  | .startAssign .enclosing _ _ => "StartAssign2"
  | .endAssign .current _ => "EndAssign"
  | .endAssign .enclosing _ => "EndAssign2"
  | .getterCall _ => "GetterCall"
  | .setterCall _ => "SetterCall"
  | .startDispatch kind _ _ => "Start" ++ kind.name
  | .endAccess a => "Dflt" ++ (DispatchKind.access a).name
  | .endCombine => "Dflt" ++ DispatchKind.combine.name
  | .endAccessN a _ => "Dflt" ++ (DispatchKind.accessN a).name
  | .dollar _ _ => "Dollar"
  | .dollarAssign _ _ => "DollarGets"
  | .baseGuard _ _ => "BaseGuard"
  | .hint h => h.tag

/-- The operands that the variant does not fix itself, by name. -/
def operands : Instruction → List (String × Json)
  | .load (.pool index) | .pushLiteral (.pool index) => [("constant", index.toJson)]
  | .getVar symbol _ | .getDots symbol _ | .setVar _ symbol | .getFun _ symbol
  | .getBuiltin _ symbol | .setTag symbol | .endAssign _ symbol => [("symbol", symbol.toJson)]
  | .goto label => [("label", label.toJson)]
  | .branchIfNot call label | .logicFirst _ call label | .baseGuard call label =>
    [("call", call.toJson), ("label", label.toJson)]
  | .switch call names chrLabels numLabels =>
    [("call", call.toJson), ("names", .ofOption PoolIndex.toJson names),
      ("chr_labels", .ofOption PoolIndex.toJson chrLabels), ("num_labels", numLabels.toJson)]
  | .logicSecond _ call | .finishCall _ call | .callSpecial call | .binary _ call =>
    [("call", call.toJson)]
  | .startLoop endLabel => [("end", endLabel.toJson)]
  | .startFor call symbol endLabel =>
    [("call", call.toJson), ("symbol", symbol.toJson), ("end", endLabel.toJson)]
  | .makePromise code => [("code", code.toJson)]
  | .makeClosure code => [("closure", code.toJson)]
  | .unary (.math fn) call => [("call", call.toJson), ("op", .ofUInt32 fn)]
  | .unary _ call => [("call", call.toJson)]
  | .startAssign _ symbol call => [("symbol", symbol.toJson), ("call", call.toJson)]
  | .getterCall layer | .setterCall layer => [("layer", .ofUInt32 layer)]
  | .startDispatch _ call after => [("call", call.toJson), ("after", after.toJson)]
  | .endAccessN _ count => [("n", .ofUInt32 count)]
  | .dollar call symbol | .dollarAssign call symbol =>
    [("call", call.toJson), ("symbol", symbol.toJson)]
  | .hint (.decLinks count) => [("n", .ofUInt32 count)]
  | _ => []

def toJson (i : Instruction) : Json :=
  match i.operands with
  | [] => .str i.tag
  | operands => .tagged i.tag (.obj operands)

/-- The variants without operands, by name. -/
def plainForms : List (String × Instruction) :=
  [ .load .null, .load (.logical true), .load (.logical false),
    .pop, .dup, .dup2nd, .swap, .setLoopVal, .setVisible true, .setVisible false,
    .ret, .returnJump, .stepFor, .endLoop .whileOrRepeat, .endLoop .forEach,
    .leaveLoop .next, .leaveLoop .leave,
    .checkFun, .doMissing, .doDots, .pushArg,
    .pushLiteral .null, .pushLiteral (.logical true), .pushLiteral (.logical false),
    .isType .null, .isType .logical, .isType .integer, .isType .double, .isType .complex,
    .isType .character, .isType .symbol, .isType .object, .isType .numeric,
    .endAccess .subset, .endAccess .subset2, .endAccess .subassign, .endAccess .subassign2,
    .endCombine,
    .hint .incLink, .hint .decLink, .hint .incLinkStack, .hint .decLinkStack ].map
    fun i => (i.tag, i)

/-! The readers of a variant's operands, named for the operands they read. -/

def withIndex (key : String) (make : PoolIndex → Instruction) (j : Json) : Option Instruction := do
  return make (← j.field? key PoolIndex.ofJson?)

def withWord (key : String) (make : UInt32 → Instruction) (j : Json) : Option Instruction := do
  return make (← j.field? key Json.uint32?)

def withLabel (key : String) (make : Label → Instruction) (j : Json) : Option Instruction := do
  return make (← j.field? key Label.ofJson?)

def withCallLabel (key : String) (make : PoolIndex → Label → Instruction) (j : Json) :
    Option Instruction := do
  return make (← j.field? "call" PoolIndex.ofJson?) (← j.field? key Label.ofJson?)

def withSymbolCall (make : (symbol call : PoolIndex) → Instruction) (j : Json) :
    Option Instruction := do
  return make (← j.field? "symbol" PoolIndex.ofJson?) (← j.field? "call" PoolIndex.ofJson?)

def switchOfJson? (j : Json) : Option Instruction := do
  return .switch (← j.field? "call" PoolIndex.ofJson?)
    (← j.optionalField? "names" PoolIndex.ofJson?)
    (← j.optionalField? "chr_labels" PoolIndex.ofJson?)
    (← j.field? "num_labels" PoolIndex.ofJson?)

def startForOfJson? (j : Json) : Option Instruction := do
  return .startFor (← j.field? "call" PoolIndex.ofJson?) (← j.field? "symbol" PoolIndex.ofJson?)
    (← j.field? "end" Label.ofJson?)

def mathOfJson? (j : Json) : Option Instruction := do
  return .unary (.math (← j.field? "op" Json.uint32?)) (← j.field? "call" PoolIndex.ofJson?)

/-- The variants with operands, by name, each with the reader of its operands. -/
def operandForms : List (String × (Json → Option Instruction)) :=
  [ ("LdConst", withIndex "constant" fun i => .load (.pool i)),
    ("PushConstArg", withIndex "constant" fun i => .pushLiteral (.pool i)),
    ("GetVar", withIndex "symbol" (.getVar · false)),
    ("GetVarMissOk", withIndex "symbol" (.getVar · true)),
    ("DdVal", withIndex "symbol" (.getDots · false)),
    ("DdValMissOk", withIndex "symbol" (.getDots · true)),
    ("SetVar", withIndex "symbol" (.setVar .current)),
    ("SetVar2", withIndex "symbol" (.setVar .enclosing)),
    ("Goto", withLabel "label" .goto),
    ("BrIfNot", withCallLabel "label" .branchIfNot),
    ("And1st", withCallLabel "label" (.logicFirst .and)),
    ("Or1st", withCallLabel "label" (.logicFirst .or)),
    ("BaseGuard", withCallLabel "label" .baseGuard),
    ("And2nd", withIndex "call" (.logicSecond .and)),
    ("Or2nd", withIndex "call" (.logicSecond .or)),
    ("Switch", switchOfJson?),
    ("StartLoopCntxt", withLabel "end" .startLoop),
    ("StartFor", startForOfJson?),
    ("GetFun", withIndex "symbol" (.getFun .lexical)),
    ("GetGlobFun", withIndex "symbol" (.getFun .global)),
    ("GetSymFun", withIndex "symbol" (.getFun .base)),
    ("GetBuiltin", withIndex "symbol" (.getBuiltin false)),
    ("GetIntlBuiltin", withIndex "symbol" (.getBuiltin true)),
    ("MakeProm", withIndex "code" .makePromise),
    ("SetTag", withIndex "symbol" .setTag),
    ("Call", withIndex "call" (.finishCall false)),
    ("CallBuiltin", withIndex "call" (.finishCall true)),
    ("CallSpecial", withIndex "call" .callSpecial),
    ("MakeClosure", withIndex "closure" .makeClosure),
    ("Add", withIndex "call" (.binary .add)),
    ("Sub", withIndex "call" (.binary .sub)),
    ("Mul", withIndex "call" (.binary .mul)),
    ("Div", withIndex "call" (.binary .div)),
    ("Expt", withIndex "call" (.binary .expt)),
    ("Eq", withIndex "call" (.binary .eq)),
    ("Ne", withIndex "call" (.binary .ne)),
    ("Lt", withIndex "call" (.binary .lt)),
    ("Le", withIndex "call" (.binary .le)),
    ("Ge", withIndex "call" (.binary .ge)),
    ("Gt", withIndex "call" (.binary .gt)),
    ("And", withIndex "call" (.binary .and)),
    ("Or", withIndex "call" (.binary .or)),
    ("Colon", withIndex "call" (.binary .colon)),
    ("LogBase", withIndex "call" (.binary .logBase)),
    ("UMinus", withIndex "call" (.unary .minus)),
    ("UPlus", withIndex "call" (.unary .plus)),
    ("Not", withIndex "call" (.unary .not)),
    ("Sqrt", withIndex "call" (.unary .sqrt)),
    ("Exp", withIndex "call" (.unary .exp)),
    ("Log", withIndex "call" (.unary .log)),
    ("SeqAlong", withIndex "call" (.unary .seqAlong)),
    ("SeqLen", withIndex "call" (.unary .seqLen)),
    ("Math1", mathOfJson?),
    ("StartAssign", withSymbolCall (.startAssign .current)),
    ("StartAssign2", withSymbolCall (.startAssign .enclosing)),
    ("EndAssign", withIndex "symbol" (.endAssign .current)),
    ("EndAssign2", withIndex "symbol" (.endAssign .enclosing)),
    ("GetterCall", withWord "layer" .getterCall),
    ("SetterCall", withWord "layer" .setterCall),
    ("StartSubset", withCallLabel "after" (.startDispatch (.access .subset))),
    ("StartSubset2", withCallLabel "after" (.startDispatch (.access .subset2))),
    ("StartSubassign", withCallLabel "after" (.startDispatch (.access .subassign))),
    ("StartSubassign2", withCallLabel "after" (.startDispatch (.access .subassign2))),
    ("StartC", withCallLabel "after" (.startDispatch .combine)),
    ("StartSubsetN", withCallLabel "after" (.startDispatch (.accessN .subset))),
    ("StartSubset2N", withCallLabel "after" (.startDispatch (.accessN .subset2))),
    ("StartSubassignN", withCallLabel "after" (.startDispatch (.accessN .subassign))),
    ("StartSubassign2N", withCallLabel "after" (.startDispatch (.accessN .subassign2))),
    ("DfltSubsetN", withWord "n" (.endAccessN .subset)),
    ("DfltSubset2N", withWord "n" (.endAccessN .subset2)),
    ("DfltSubassignN", withWord "n" (.endAccessN .subassign)),
    ("DfltSubassign2N", withWord "n" (.endAccessN .subassign2)),
    ("Dollar", withSymbolCall fun symbol call => .dollar call symbol),
    ("DollarGets", withSymbolCall fun symbol call => .dollarAssign call symbol),
    ("DecLnkN", withWord "n" fun n => .hint (.decLinks n)) ]

def ofJson? : Json → Option Instruction
  | .str tag => plainForms.lookup tag
  | .obj [(tag, .null)] => plainForms.lookup tag
  | .obj [(tag, payload)] => (operandForms.lookup tag).bind (· payload)
  | _ => none

end Instruction

/-! ### Units and constants -/

namespace CodeUnit

def toJson (u : CodeUnit) : Json :=
  .obj [("name", .ofOption .str u.name), ("instructions", .ofList Instruction.toJson u.instructions),
    ("labels", .ofList (.ofOption .ofUInt32) u.labels)]

/-- A unit from the JSON of each of its fields. -/
def ofFields? (name instructions labels : Json) : Option CodeUnit := do
  return {
    name := ← name.nullable? Json.str?
    instructions := ← instructions.list? Instruction.ofJson?
    labels := ← labels.list? (Json.nullable? Json.uint32?) }

def ofJson? : Json → Option CodeUnit
  | .arr [name, instructions, labels] => ofFields? name instructions labels
  | .obj members => do
    ofFields? ((members.lookup "name").getD .null) (← members.lookup "instructions")
      (← members.lookup "labels")
  | _ => none

end CodeUnit

namespace Double

def toJson (x : Double) : Json := .str (String.ofList (Hex.digits 16 x.bits.toNat))

def ofJson? : Json → Option Double
  | .str s =>
    if s.length = 16 then (Hex.value? 0 s.toList).map fun n => ⟨UInt64.ofNat n⟩ else none
  | _ => none

end Double

namespace Constant

def toJson : Constant → Json
  | .null => .str "Null"
  | .logical value => .tagged "Logical" (.ofOption .bool value)
  | .int value => .tagged "Int" (.ofOption .ofInt32 value)
  | .real value => .tagged "Real" value.toJson
  | .str value => .tagged "Str" (.str value)
  | .symbol name => .tagged "Symbol" (.str name)
  | .expr e => .tagged "Ast" e.toJson
  | .code unit => .tagged "Code" unit.toJson
  | .strings values => .tagged "Strings" (.ofList .str values)
  | .labelTable labels => .tagged "LabelTable" (.ofList Label.toJson labels)

/-- The variants by name, each with the reader of its payload. -/
def forms : List (String × (Json → Option Constant)) :=
  [ ("Null", fun j => j.null?.map fun () => .null),
    ("Logical", fun j => (j.nullable? Json.bool?).map .logical),
    ("Int", fun j => (j.nullable? Json.int32?).map .int),
    ("Real", fun j => (Double.ofJson? j).map .real),
    ("Str", fun j => j.str?.map .str),
    ("Symbol", fun j => j.str?.map .symbol),
    ("Ast", fun j => (Expr.ofJson? j).map .expr),
    ("Code", fun j => (CodeUnit.ofJson? j).map .code),
    ("Strings", fun j => (j.list? Json.str?).map .strings),
    ("LabelTable", fun j => (j.list? Label.ofJson?).map .labelTable) ]

def ofJson? : Json → Option Constant
  | .str tag => if tag = "Null" then some .null else none
  | .obj [(tag, payload)] => (forms.lookup tag).bind (· payload)
  | _ => none

end Constant

end StackLift
