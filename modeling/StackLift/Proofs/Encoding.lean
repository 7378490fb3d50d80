import StackLift.Bytecode.Encoding

/-!
Bytecode survives its JSON form: whatever is written reads back as it was. Expressions and
their arguments go by induction over the syntax. For an instruction, what counts is that its
name finds the reader of its own operands in the table of forms, among more than a hundred
others; units and constants are put together from these.
-/

namespace StackLift

namespace Json

/-- What is written reads back; so different values are written differently, and a value that
was read from any spelling keeps its meaning when it is written anew. -/
structure Lossless {α : Type} (write : α → Json) (read : Json → Option α) : Prop where
  back : ∀ a, read (write a) = some a
  distinct : ∀ a b, write a = write b → a = b
  stable : ∀ j a, read j = some a → ∃ j', write a = j' ∧ read j' = some a

/-- A variant is written as its name, or as an object whose only member is named for it. -/
def IsVariant (j : Json) : Prop := (∃ tag, j = .str tag) ∨ ∃ tag payload, j = .tagged tag payload

theorem lossless_of_back {α : Type} {write : α → Json} {read : Json → Option α}
    (back : ∀ a, read (write a) = some a) : Lossless write read where
  back := back
  distinct := by
    intro a b same
    have h : some a = some b := by rw [← back a, same, back b]
    exact Option.some.inj h
  stable := by
    intro j a _
    exact ⟨write a, rfl, back a⟩

theorem isVariant_str (tag : String) : (Json.str tag).IsVariant := .inl ⟨tag, rfl⟩

theorem isVariant_tagged (tag : String) (payload : Json) : (tagged tag payload).IsVariant :=
  .inr ⟨tag, payload, rfl⟩

section

variable {α : Type} {key other : String} (j : Json) (rest : List (String × Json))
  (read : Json → Option α)

theorem field?_self (key : String) : (Json.obj ((key, j) :: rest)).field? key read = read j := by
  rw [field?, member?, List.lookup_cons_self, Option.bind_some]

theorem field?_later (later : (key == other) = false) :
    (Json.obj ((other, j) :: rest)).field? key read = (Json.obj rest).field? key read := by
  rw [field?, field?, member?, member?, List.lookup_cons, later]

theorem optionalField?_self (key : String) :
    (Json.obj ((key, j) :: rest)).optionalField? key read = nullable? read j := by
  rw [optionalField?, List.lookup_cons_self, Option.getD_some]

theorem optionalField?_later (later : (key == other) = false) :
    (Json.obj ((other, j) :: rest)).optionalField? key read =
      (Json.obj rest).optionalField? key read := by
  rw [optionalField?, optionalField?, List.lookup_cons, later]

end

end Json

@[simp] theorem PoolIndex.ofJson?_toJson (i : PoolIndex) : PoolIndex.ofJson? i.toJson = some i := by
  simp [PoolIndex.ofJson?, PoolIndex.toJson]

@[simp] theorem Label.ofJson?_toJson (l : Label) : Label.ofJson? l.toJson = some l := by
  simp [Label.ofJson?, Label.toJson]

/-! ### Source expressions -/

theorem Expr.ofJson?_tagged (tag : String) (payload : Json) :
    Expr.ofJson? (.tagged tag payload) =
      if tag = "Symbol" then payload.str?.map .symbol
      else if tag = "Const" then (PoolIndex.ofJson? payload).map .const
      else if tag = "Call" then Expr.callOfJson? payload
      else none := by
  rw [Json.tagged, Expr.ofJson?]

mutual
theorem Expr.ofJson?_toJson (e : Expr) : Expr.ofJson? e.toJson = some e := by
  cases e with
  | symbol name => simp [Expr.toJson, Expr.ofJson?_tagged]
  | const index => simp [Expr.toJson, Expr.ofJson?_tagged]
  | call fn args =>
      have head := Expr.ofJson?_toJson fn
      have rest := Arg.listOfJson?_listToJson args
      simp [Expr.toJson, Expr.ofJson?_tagged, Expr.callOfJson?, Expr.memberOfJson?,
        Arg.membersOfJson?, Arg.arrayOfJson?, head, rest]

theorem Arg.ofJson?_toJson (a : Arg) : Arg.ofJson? a.toJson = some a := by
  obtain ⟨name, value⟩ := a
  have inner := Expr.ofJson?_toJson value
  have named : Json.nullable? Json.str? (.ofOption .str name) = some name :=
    Json.nullable?_ofOption Json.str?_str (by simp) name
  simp [Arg.toJson, Arg.ofJson?, Json.optionalField?, Expr.memberOfJson?, named, inner]

theorem Arg.listOfJson?_listToJson (args : List Arg) :
    Arg.listOfJson? (Arg.listToJson args) = some args := by
  cases args with
  | nil => rfl
  | cons a rest =>
      have first := Arg.ofJson?_toJson a
      have others := Arg.listOfJson?_listToJson rest
      simp [Arg.listToJson, Arg.listOfJson?, first, others]
end

theorem Expr.isVariant_toJson (e : Expr) : e.toJson.IsVariant := by
  cases e with
  | symbol name => exact Json.isVariant_tagged _ _
  | const index => exact Json.isVariant_tagged _ _
  | call fn args => exact Json.isVariant_tagged _ _

/-! ### Instructions -/

namespace Instruction

variable {i : Instruction}

theorem toJson_of_plain (plain : i.operands = []) : i.toJson = .str i.tag := by
  rw [toJson, plain]

theorem toJson_of_operands {operand : String × Json} {more : List (String × Json)}
    (operands : i.operands = operand :: more) :
    i.toJson = .tagged i.tag (.obj (operand :: more)) := by
  rw [toJson, operands]

/-- An instruction without operands reads back once its name finds it. -/
theorem back_of_plain (plain : i.operands = []) (form : plainForms.lookup i.tag = some i) :
    ofJson? i.toJson = some i := by
  rw [toJson_of_plain plain, ofJson?, form]

/-- An instruction with operands reads back once its name finds a reader of these operands. -/
theorem back_of_reader {operand : String × Json} {more : List (String × Json)}
    {read : Json → Option Instruction} (operands : i.operands = operand :: more)
    (form : operandForms.lookup i.tag = some read)
    (reads : read (.obj (operand :: more)) = some i) :
    ofJson? i.toJson = some i := by
  rw [toJson_of_operands operands, Json.tagged, ofJson?, form, Option.bind_some, reads]
  simp

/-! Each reader of operands takes them from where `operands` puts them. -/

theorem withIndex_obj (key : String) (make : PoolIndex → Instruction) (index : PoolIndex) :
    withIndex key make (.obj [(key, index.toJson)]) = some (make index) := by
  rw [withIndex, Json.field?_self, PoolIndex.ofJson?_toJson]
  rfl

theorem withWord_obj (key : String) (make : UInt32 → Instruction) (n : UInt32) :
    withWord key make (.obj [(key, .ofUInt32 n)]) = some (make n) := by
  rw [withWord, Json.field?_self, Json.uint32?_ofUInt32]
  rfl

theorem withLabel_obj (key : String) (make : Label → Instruction) (l : Label) :
    withLabel key make (.obj [(key, l.toJson)]) = some (make l) := by
  rw [withLabel, Json.field?_self, Label.ofJson?_toJson]
  rfl

theorem withCallLabel_obj {key : String} (later : (key == "call") = false)
    (make : PoolIndex → Label → Instruction) (call : PoolIndex) (l : Label) :
    withCallLabel key make (.obj [("call", call.toJson), (key, l.toJson)]) =
      some (make call l) := by
  rw [withCallLabel, Json.field?_self, Json.field?_later _ _ _ later, Json.field?_self,
    PoolIndex.ofJson?_toJson, Label.ofJson?_toJson]
  rfl

theorem withSymbolCall_obj (make : PoolIndex → PoolIndex → Instruction) (symbol call : PoolIndex) :
    withSymbolCall make (.obj [("symbol", symbol.toJson), ("call", call.toJson)]) =
      some (make symbol call) := by
  rw [withSymbolCall, Json.field?_self, Json.field?_later _ _ _ rfl, Json.field?_self,
    PoolIndex.ofJson?_toJson, PoolIndex.ofJson?_toJson]
  rfl

/-- The order of the two operands does not matter. -/
theorem withSymbolCall_obj_swap (make : PoolIndex → PoolIndex → Instruction)
    (symbol call : PoolIndex) :
    withSymbolCall make (.obj [("call", call.toJson), ("symbol", symbol.toJson)]) =
      some (make symbol call) := by
  rw [withSymbolCall, Json.field?_self, Json.field?_later _ _ _ rfl, Json.field?_self,
    PoolIndex.ofJson?_toJson, PoolIndex.ofJson?_toJson]
  rfl

theorem nullable?_index (o : Option PoolIndex) :
    Json.nullable? PoolIndex.ofJson? (.ofOption PoolIndex.toJson o) = some o :=
  Json.nullable?_ofOption PoolIndex.ofJson?_toJson (by simp [PoolIndex.toJson, Json.ofUInt32]) o

theorem switchOfJson?_obj (call numLabels : PoolIndex) (names chrLabels : Option PoolIndex) :
    switchOfJson? (.obj (switch call names chrLabels numLabels).operands) =
      some (.switch call names chrLabels numLabels) := by
  rw [switchOfJson?, operands, Json.field?_self, Json.optionalField?_later _ _ _ rfl,
    Json.optionalField?_self, Json.optionalField?_later _ _ _ rfl,
    Json.optionalField?_later _ _ _ rfl, Json.optionalField?_self, Json.field?_later _ _ _ rfl,
    Json.field?_later _ _ _ rfl, Json.field?_later _ _ _ rfl, Json.field?_self, nullable?_index,
    nullable?_index, PoolIndex.ofJson?_toJson, PoolIndex.ofJson?_toJson]
  rfl

theorem startForOfJson?_obj (call symbol : PoolIndex) (endLabel : Label) :
    startForOfJson? (.obj (startFor call symbol endLabel).operands) =
      some (.startFor call symbol endLabel) := by
  rw [startForOfJson?, operands, Json.field?_self, Json.field?_later _ _ _ rfl, Json.field?_self,
    Json.field?_later _ _ _ rfl, Json.field?_later _ _ _ rfl, Json.field?_self,
    PoolIndex.ofJson?_toJson, PoolIndex.ofJson?_toJson, Label.ofJson?_toJson]
  rfl

theorem mathOfJson?_obj (fn : UInt32) (call : PoolIndex) :
    mathOfJson? (.obj (unary (.math fn) call).operands) = some (.unary (.math fn) call) := by
  rw [mathOfJson?, operands, Json.field?_later _ _ _ rfl, Json.field?_self, Json.field?_self,
    PoolIndex.ofJson?_toJson, Json.uint32?_ofUInt32]
  rfl

theorem ofJson?_toJson (i : Instruction) : ofJson? i.toJson = some i := by
  cases i with
  | load literal =>
      rcases literal with _ | (_ | _) | index
      · exact back_of_plain rfl rfl
      · exact back_of_plain rfl rfl
      · exact back_of_plain rfl rfl
      · exact back_of_reader rfl rfl (withIndex_obj ..)
  | pushLiteral literal =>
      rcases literal with _ | (_ | _) | index
      · exact back_of_plain rfl rfl
      · exact back_of_plain rfl rfl
      · exact back_of_plain rfl rfl
      · exact back_of_reader rfl rfl (withIndex_obj ..)
  -- The variant fixes a flag, a scope, a kind or an operator; each choice has its own name.
  | getVar symbol missingOk => cases missingOk <;> exact back_of_reader rfl rfl (withIndex_obj ..)
  | getDots symbol missingOk => cases missingOk <;> exact back_of_reader rfl rfl (withIndex_obj ..)
  | setVar scope symbol => cases scope <;> exact back_of_reader rfl rfl (withIndex_obj ..)
  | getFun lookup symbol => cases lookup <;> exact back_of_reader rfl rfl (withIndex_obj ..)
  | getBuiltin internal symbol => cases internal <;> exact back_of_reader rfl rfl (withIndex_obj ..)
  | finishCall builtin call => cases builtin <;> exact back_of_reader rfl rfl (withIndex_obj ..)
  | endAssign scope symbol => cases scope <;> exact back_of_reader rfl rfl (withIndex_obj ..)
  | logicSecond connective call =>
      cases connective <;> exact back_of_reader rfl rfl (withIndex_obj ..)
  | binary op call => cases op <;> exact back_of_reader rfl rfl (withIndex_obj ..)
  | unary op call =>
      cases op with
      | math fn => exact back_of_reader rfl rfl (mathOfJson?_obj fn call)
      | _ => exact back_of_reader rfl rfl (withIndex_obj ..)
  | setVisible visible => cases visible <;> exact back_of_plain rfl rfl
  | endLoop kind => cases kind <;> exact back_of_plain rfl rfl
  | leaveLoop exit => cases exit <;> exact back_of_plain rfl rfl
  | isType test => cases test <;> exact back_of_plain rfl rfl
  | endAccess access => cases access <;> exact back_of_plain rfl rfl
  | logicFirst connective call label =>
      cases connective <;> exact back_of_reader rfl rfl (withCallLabel_obj rfl ..)
  | startDispatch kind call after =>
      rcases kind with (_ | _ | _ | _) | _ | (_ | _ | _ | _) <;>
        exact back_of_reader rfl rfl (withCallLabel_obj rfl ..)
  | endAccessN access count => cases access <;> exact back_of_reader rfl rfl (withWord_obj ..)
  | startAssign scope symbol call =>
      cases scope <;> exact back_of_reader rfl rfl (withSymbolCall_obj ..)
  | hint h =>
      cases h with
      | decLinks count => exact back_of_reader rfl rfl (withWord_obj ..)
      | _ => exact back_of_plain rfl rfl
  -- The variant is the whole instruction, or all but its operands.
  | branchIfNot call label => exact back_of_reader rfl rfl (withCallLabel_obj rfl ..)
  | baseGuard call label => exact back_of_reader rfl rfl (withCallLabel_obj rfl ..)
  | goto label => exact back_of_reader rfl rfl (withLabel_obj ..)
  | startLoop endLabel => exact back_of_reader rfl rfl (withLabel_obj ..)
  | switch call names chrLabels numLabels => exact back_of_reader rfl rfl (switchOfJson?_obj ..)
  | startFor call symbol endLabel => exact back_of_reader rfl rfl (startForOfJson?_obj ..)
  | makePromise code => exact back_of_reader rfl rfl (withIndex_obj ..)
  | makeClosure code => exact back_of_reader rfl rfl (withIndex_obj ..)
  | callSpecial call => exact back_of_reader rfl rfl (withIndex_obj ..)
  | setTag symbol => exact back_of_reader rfl rfl (withIndex_obj ..)
  | getterCall layer => exact back_of_reader rfl rfl (withWord_obj ..)
  | setterCall layer => exact back_of_reader rfl rfl (withWord_obj ..)
  | dollar call symbol => exact back_of_reader rfl rfl (withSymbolCall_obj_swap ..)
  | dollarAssign call symbol => exact back_of_reader rfl rfl (withSymbolCall_obj_swap ..)
  | pop => exact back_of_plain rfl rfl
  | dup => exact back_of_plain rfl rfl
  | dup2nd => exact back_of_plain rfl rfl
  | swap => exact back_of_plain rfl rfl
  | setLoopVal => exact back_of_plain rfl rfl
  | ret => exact back_of_plain rfl rfl
  | returnJump => exact back_of_plain rfl rfl
  | stepFor => exact back_of_plain rfl rfl
  | checkFun => exact back_of_plain rfl rfl
  | doMissing => exact back_of_plain rfl rfl
  | doDots => exact back_of_plain rfl rfl
  | pushArg => exact back_of_plain rfl rfl
  | endCombine => exact back_of_plain rfl rfl

theorem isVariant_toJson (i : Instruction) : i.toJson.IsVariant := by
  cases operands : i.operands with
  | nil =>
      rw [toJson_of_plain operands]
      exact Json.isVariant_str _
  | cons operand more =>
      rw [toJson_of_operands operands]
      exact Json.isVariant_tagged _ _

end Instruction

/-! ### Units and constants -/

theorem CodeUnit.ofJson?_toJson (unit : CodeUnit) : CodeUnit.ofJson? unit.toJson = some unit := by
  have name : Json.nullable? Json.str? (.ofOption .str unit.name) = some unit.name :=
    Json.nullable?_ofOption Json.str?_str (by simp) unit.name
  have instructions := Json.list?_ofList Instruction.ofJson?_toJson unit.instructions
  have offset : ∀ o : Option UInt32,
      Json.nullable? Json.uint32? (.ofOption .ofUInt32 o) = some o :=
    Json.nullable?_ofOption Json.uint32?_ofUInt32 (by simp [Json.ofUInt32])
  have labels := Json.list?_ofList offset unit.labels
  simp [CodeUnit.toJson, CodeUnit.ofJson?, CodeUnit.ofFields?, List.lookup_cons, name, instructions,
    labels]

theorem Double.ofJson?_toJson (x : Double) : Double.ofJson? x.toJson = some x := by
  have bits : x.bits.toNat < Nat.pow 16 16 := x.bits.toNat_lt
  simp [Double.toJson, Double.ofJson?, Hex.value?_digits bits]

namespace Constant

/-- A constant with a payload reads back once its name finds a reader of this payload. -/
theorem back_of_form {c : Constant} {tag : String} {payload : Json} {read : Json → Option Constant}
    (written : c.toJson = .tagged tag payload) (form : forms.lookup tag = some read)
    (reads : read payload = some c) : ofJson? c.toJson = some c := by
  rw [written, Json.tagged, ofJson?, form, Option.bind_some, reads]

theorem ofJson?_toJson (c : Constant) : ofJson? c.toJson = some c := by
  cases c with
  | null => rfl
  | logical value =>
      refine back_of_form rfl rfl ?_
      rw [Json.nullable?_ofOption Json.bool?_bool (by simp), Option.map_some]
  | int value =>
      refine back_of_form rfl rfl ?_
      rw [Json.nullable?_ofOption Json.int32?_ofInt32 (by simp [Json.ofInt32]), Option.map_some]
  | real value =>
      refine back_of_form rfl rfl ?_
      rw [Double.ofJson?_toJson, Option.map_some]
  | str value => exact back_of_form rfl rfl rfl
  | symbol name => exact back_of_form rfl rfl rfl
  | expr e =>
      refine back_of_form rfl rfl ?_
      rw [Expr.ofJson?_toJson, Option.map_some]
  | code unit =>
      refine back_of_form rfl rfl ?_
      rw [CodeUnit.ofJson?_toJson, Option.map_some]
  | strings values =>
      refine back_of_form rfl rfl ?_
      rw [Json.list?_ofList Json.str?_str, Option.map_some]
  | labelTable labels =>
      refine back_of_form rfl rfl ?_
      rw [Json.list?_ofList Label.ofJson?_toJson, Option.map_some]

theorem isVariant_toJson (c : Constant) : c.toJson.IsVariant := by
  cases c with
  | null => exact Json.isVariant_str _
  | _ => exact Json.isVariant_tagged _ _

end Constant

/-- The JSON form of bytecode loses nothing, for expressions, instructions, units and constants
alike; the variants of the first, second and last are tagged from outside. -/
theorem bytecode_json_lossless :
    (Json.Lossless Expr.toJson Expr.ofJson? ∧ ∀ e : Expr, e.toJson.IsVariant) ∧
    (Json.Lossless Instruction.toJson Instruction.ofJson? ∧
      ∀ i : Instruction, i.toJson.IsVariant) ∧
    Json.Lossless CodeUnit.toJson CodeUnit.ofJson? ∧
    Json.Lossless Constant.toJson Constant.ofJson? ∧ ∀ c : Constant, c.toJson.IsVariant :=
  ⟨⟨Json.lossless_of_back Expr.ofJson?_toJson, Expr.isVariant_toJson⟩,
    ⟨Json.lossless_of_back Instruction.ofJson?_toJson, Instruction.isVariant_toJson⟩,
    Json.lossless_of_back CodeUnit.ofJson?_toJson,
    Json.lossless_of_back Constant.ofJson?_toJson, Constant.isVariant_toJson⟩

end StackLift
