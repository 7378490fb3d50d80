import StackLift.Graph.Basic
import StackLift.Text.Quoted

/-!
Graphs as text: one line for each phi, statement and terminator, under a line
that names the block and its predecessors.
-/

namespace StackLift

def commaSeparated (parts : List String) : String := ", ".intercalate parts

def ValueId.listText (vs : List ValueId) : String := commaSeparated (vs.map ValueId.text)

def inBackquotes (s : String) : String := "`" ++ s ++ "`"

def CallSite.text : CallSite → String
  | .pool index => "@" ++ index.toNat.repr
  | .place _ called => inBackquotes called.text

/-- The indices of an access, in the brackets of its form. -/
def indicesText (double : Bool) (indices : List ValueId) : String :=
  if double then "[[" ++ ValueId.listText indices ++ "]]" else "[" ++ ValueId.listText indices ++ "]"

def argText : ValueId × Option String → String
  | (v, none) => v.text
  | (v, some name) => name ++ " = " ++ v.text

def Op.text : Op → String
  | .const literal => "const " ++ literal.text
  | .ldVar name scope missingOk =>
    (match scope with
      | .current => "ldvar "
      | .enclosing => "ldvar_super ") ++ name ++ (if missingOk then " missok" else "")
  | .ldDots name _ => "ldddval " ++ name
  | .stVar name .current value => "stvar " ++ name ++ " " ++ value.text
  | .stVar name .enclosing value => "stvar_super " ++ name ++ " " ++ value.text
  | .ldFun name lookup => "ldfun " ++ name ++ " " ++ lookup.name
  | .ldBuiltin name => "ldbuiltin " ++ inBackquotes name
  | .mkPromise code => "mkpromise #" ++ code.toNat.repr
  | .mkClosure code => "mkclosure #" ++ code.toNat.repr
  | .binary op lhs rhs site =>
    op.name ++ " " ++ lhs.text ++ ", " ++ rhs.text ++ " " ++ site.text
  | .unary op arg site => op.name ++ " " ++ arg.text ++ " " ++ site.text
  | .isType test arg => "is " ++ test.name ++ " " ++ arg.text
  | .asTest arg _ => "astest " ++ arg.text
  | .asLogical arg _ => "aslogical " ++ arg.text
  | .logic .and lhs rhs => "land " ++ lhs.text ++ ", " ++ rhs.text
  | .logic .or lhs rhs => "lor " ++ lhs.text ++ ", " ++ rhs.text
  | .isTruth true arg => "istrue " ++ arg.text
  | .isTruth false arg => "isfalse " ++ arg.text
  | .isPlain arg => "isplain " ++ arg.text
  | .length seq => "length " ++ seq.text
  | .indexConst n => "idx " ++ n.repr
  | .indexAdd lhs rhs => "idx_add " ++ lhs.text ++ ", " ++ rhs.text
  | .indexLe lhs rhs => "idx_le " ++ lhs.text ++ ", " ++ rhs.text
  | .indexEq lhs rhs => "idx_eq " ++ lhs.text ++ ", " ++ rhs.text
  | .forElement seq index => "for_elt " ++ seq.text ++ "[" ++ index.text ++ "]"
  | .switchIndex arg _ => "switch_idx " ++ arg.text
  | .strEq arg name => "streq " ++ arg.text ++ ", " ++ Quoted.encode name
  | .call callee args site =>
    "call " ++ callee.text ++ "(" ++ ValueId.listText args ++ ") " ++ site.text
  | .namedCall callee args names site =>
    "named_call " ++ callee.text ++ "(" ++ commaSeparated ((args.zip names).map argText) ++ ") "
      ++ site.text
  | .callBuiltin builtin args site =>
    "call_builtin " ++ inBackquotes builtin ++ "(" ++ ValueId.listText args ++ ") " ++ site.text
  | .callSpecial site => "call_special " ++ site.text
  | .missingArg => "missing"
  | .expandDots => "dots"
  | .extract double target indices _ => "extract " ++ target.text ++ indicesText double indices
  | .subassign double target indices value _ =>
    "subassign " ++ target.text ++ indicesText double indices ++ " <- " ++ value.text
  | .setVisible true => "visible true"
  | .setVisible false => "visible false"

def Terminator.text : Terminator → String
  | .goto target => "goto " ++ target.text
  | .branch cond yes no => "branch " ++ cond.text ++ " ? " ++ yes.text ++ " : " ++ no.text
  | .ret value => "return " ++ value.text
  | .nonLocalRet value => "nonlocal_return " ++ value.text

def Phi.text (p : Phi) : String :=
  p.value.text ++ ": " ++ p.type.text ++ " = phi ["
    ++ commaSeparated (p.inputs.map fun (b, v) => b.text ++ ": " ++ v.text) ++ "]"

def Stmt.text (s : Stmt) : String := s.value.text ++ " = " ++ s.op.text

def Block.lines (id : BlockId) (b : Block) : List String :=
  let preds := match b.preds with
    | [] => ""
    | preds => " <- " ++ commaSeparated (preds.map BlockId.text)
  let terminator := match b.terminator with
    | some t => t.text
    | none => "<unterminated>"
  (id.text ++ ":" ++ preds) :: (b.phis.map Phi.text ++ b.stmts.map Stmt.text ++ [terminator]).map ("  " ++ ·)

/-- Every line ends in a line break, the last one too. -/
def Graph.text (g : Graph) : String :=
  let head := "cfg " ++ g.name ++ " (entry " ++ g.entry.text ++ ")"
  String.join ((head :: g.liveBlocks.flatMap fun (id, b) => b.lines id).map (· ++ "\n"))

end StackLift
