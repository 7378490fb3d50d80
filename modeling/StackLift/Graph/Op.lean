import StackLift.Bytecode.Expr
import StackLift.Operator

/-!
Operations of the graph. Every operation defines one value; `operands` lists
the values it uses, in order, and `mapOperands` replaces them.
-/

namespace StackLift

structure BlockId where
  index : Nat
deriving DecidableEq

def BlockId.text (b : BlockId) : String := "BB" ++ b.index.repr

structure ValueId where
  index : Nat
deriving DecidableEq

def ValueId.text (v : ValueId) : String := "%" ++ v.index.repr

/-- A value of the language, a truth value that only branches use, or a machine
integer that counts. -/
inductive ValueType where
  | value
  | test
  | index
deriving DecidableEq

def ValueType.text : ValueType → String
  | .value => "val"
  | .test => "test"
  | .index => "idx"

/-- The call that an operation comes from: an expression of the pool, or a
layer of an assignment, as it was written and as it is called. -/
inductive CallSite where
  | pool (index : PoolIndex)
  | place (written called : Expr)
deriving DecidableEq

inductive Op where
  | const (literal : Literal)
  | ldVar (name : String) (scope : Scope) (missingOk : Bool)
  | ldDots (name : String) (missingOk : Bool)
  | stVar (name : String) (scope : Scope) (value : ValueId)
  | ldFun (name : String) (lookup : FunLookup)
  | ldBuiltin (name : String)
  | mkPromise (code : PoolIndex)
  | mkClosure (code : PoolIndex)
  | binary (op : BinaryOp) (lhs rhs : ValueId) (site : CallSite)
  | unary (op : UnaryOp) (arg : ValueId) (site : CallSite)
  | isType (test : TypeTest) (arg : ValueId)
  /-- The condition of a branch. -/
  | asTest (arg : ValueId) (site : CallSite)
  /-- An operand of a short-circuit connective, as a logical scalar. -/
  | asLogical (arg : ValueId) (site : CallSite)
  | logic (connective : Connective) (lhs rhs : ValueId)
  /-- Is a logical scalar the given truth value. -/
  | isTruth (truth : Bool) (arg : ValueId)
  /-- Does no class override the operation on this value. -/
  | isPlain (arg : ValueId)
  | length (seq : ValueId)
  | indexConst (n : Nat)
  | indexAdd (lhs rhs : ValueId)
  | indexLe (lhs rhs : ValueId)
  | indexEq (lhs rhs : ValueId)
  /-- The element of a sequence at an index that counts from one. -/
  | forElement (seq index : ValueId)
  /-- The arm that a numeric switch selects. -/
  | switchIndex (arg : ValueId) (site : CallSite)
  | strEq (arg : ValueId) (name : String)
  | call (callee : ValueId) (args : List ValueId) (site : CallSite)
  /-- The names are parallel to the arguments. -/
  | namedCall (callee : ValueId) (args : List ValueId) (names : List (Option String))
      (site : CallSite)
  | callBuiltin (builtin : String) (args : List ValueId) (site : CallSite)
  | callSpecial (site : CallSite)
  | missingArg
  | expandDots
  | extract (double : Bool) (target : ValueId) (indices : List ValueId) (site : CallSite)
  | subassign (double : Bool) (target : ValueId) (indices : List ValueId) (value : ValueId)
      (site : CallSite)
  | setVisible (visible : Bool)
deriving DecidableEq

namespace Op

def resultType : Op → ValueType
  | .asTest _ _ | .isTruth _ _ | .isPlain _ | .indexLe _ _ | .indexEq _ _ | .strEq _ _ => .test
  | .length _ | .indexConst _ | .indexAdd _ _ | .switchIndex _ _ => .index
  | _ => .value

def operands : Op → List ValueId
  | .stVar _ _ value => [value]
  | .binary _ lhs rhs _ | .logic _ lhs rhs | .indexAdd lhs rhs | .indexLe lhs rhs
  | .indexEq lhs rhs => [lhs, rhs]
  | .unary _ arg _ | .isType _ arg | .asTest arg _ | .asLogical arg _ | .isTruth _ arg
  | .isPlain arg | .switchIndex arg _ | .strEq arg _ => [arg]
  | .length seq => [seq]
  | .forElement seq index => [seq, index]
  | .call callee args _ | .namedCall callee args _ _ => callee :: args
  | .callBuiltin _ args _ => args
  | .extract _ target indices _ => target :: indices
  | .subassign _ target indices value _ => target :: (indices ++ [value])
  | .const _ | .ldVar _ _ _ | .ldDots _ _ | .ldFun _ _ | .ldBuiltin _ | .mkPromise _
  | .mkClosure _ | .indexConst _ | .callSpecial _ | .missingArg | .expandDots
  | .setVisible _ => []

def mapOperands (f : ValueId → ValueId) : Op → Op
  | .stVar name scope value => .stVar name scope (f value)
  | .binary op lhs rhs site => .binary op (f lhs) (f rhs) site
  | .unary op arg site => .unary op (f arg) site
  | .isType test arg => .isType test (f arg)
  | .asTest arg site => .asTest (f arg) site
  | .asLogical arg site => .asLogical (f arg) site
  | .logic connective lhs rhs => .logic connective (f lhs) (f rhs)
  | .isTruth truth arg => .isTruth truth (f arg)
  | .isPlain arg => .isPlain (f arg)
  | .length seq => .length (f seq)
  | .indexAdd lhs rhs => .indexAdd (f lhs) (f rhs)
  | .indexLe lhs rhs => .indexLe (f lhs) (f rhs)
  | .indexEq lhs rhs => .indexEq (f lhs) (f rhs)
  | .forElement seq index => .forElement (f seq) (f index)
  | .switchIndex arg site => .switchIndex (f arg) site
  | .strEq arg name => .strEq (f arg) name
  | .call callee args site => .call (f callee) (args.map f) site
  | .namedCall callee args names site => .namedCall (f callee) (args.map f) names site
  | .callBuiltin builtin args site => .callBuiltin builtin (args.map f) site
  | .extract double target indices site => .extract double (f target) (indices.map f) site
  | .subassign double target indices value site =>
    .subassign double (f target) (indices.map f) (f value) site
  | .const literal => .const literal
  | .ldVar name scope missingOk => .ldVar name scope missingOk
  | .ldDots name missingOk => .ldDots name missingOk
  | .ldFun name lookup => .ldFun name lookup
  | .ldBuiltin name => .ldBuiltin name
  | .mkPromise code => .mkPromise code
  | .mkClosure code => .mkClosure code
  | .indexConst n => .indexConst n
  | .callSpecial site => .callSpecial site
  | .missingArg => .missingArg
  | .expandDots => .expandDots
  | .setVisible visible => .setVisible visible

@[simp] theorem operands_mapOperands (f : ValueId → ValueId) (op : Op) :
    (op.mapOperands f).operands = op.operands.map f := by
  cases op <;> simp [mapOperands, operands]

@[simp] theorem resultType_mapOperands (f : ValueId → ValueId) (op : Op) :
    (op.mapOperands f).resultType = op.resultType := by
  cases op <;> rfl

theorem mapOperands_comp (f g : ValueId → ValueId) (op : Op) :
    (op.mapOperands f).mapOperands g = op.mapOperands (g ∘ f) := by
  cases op <;> simp [mapOperands]

end Op

end StackLift
