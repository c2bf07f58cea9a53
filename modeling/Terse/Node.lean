import Terse.Number.Basic
import Terse.Operator
import Terse.Symbol
import Terse.Text.CodePoint

/-! Programs after name resolution. Statements, expressions, symbols and lists are nodes alike: the
passes take any node anywhere and report one that stands where it does not belong. -/
namespace Terse

inductive Node where
  | program (statements : List Node)
  -- statements
  | declare (var initializer : Node)
  | assign (target source : Node)
  | print (expr : Node)
  /-- The alternative is a list, or again a choice for a chain of choices. -/
  | ifElse (test : Node) (consequent : List Node) (alternate : Node)
  | ifOnly (test : Node) (consequent : List Node)
  | whileLoop (test : Node) (body : List Node)
  | repeatLoop (count : Node) (body : List Node)
  /-- Counts from `low` up to but not including `high`. -/
  | rangeLoop (var low high step : Node) (body : List Node)
  | eachLoop (iterator collection : Node) (body : List Node)
  | breakLoop
  | continueLoop
  | returnValue (expr : Node)
  | returnNone
  | throwValue (expr : Node)
  | tryCatch (body params handler : List Node)
  | function (symbol : Node) (params body : List Node)
  | callAlone (call : Node)
  -- expressions
  | conditional (test consequent alternate : Node)
  | binary (op : BinOp) (left right : Node)
  | unary (op : UnOp) (operand : Node)
  | array (elements : List Node)
  | dict (items : List Node)
  | dictItem (key : String) (value : Node)
  | member (object : Node) (access name : String)
  | subscript (collection index : Node)
  | call (callee : Node) (args : List Node)
  | number (value : Number)
  | string (value : Text)
  | boolean (value : Bool)
  | symbol (s : Symbol)
  -- neither
  | list (items : List Node)
  /-- Something of a class that no pass knows. -/
  | foreign (className : String)

instance : Inhabited Node := ⟨.list []⟩

namespace Node

/-- The class under which dumps and messages show a node. -/
def className : Node → String
  | program .. => "Program"
  | declare .. => "VariableDeclaration"
  | assign .. => "Assignment"
  | print .. => "PrintStmt"
  | ifElse .. => "IfStmt"
  | ifOnly .. => "ShortIfStmt"
  | whileLoop .. => "WhileStmt"
  | repeatLoop .. => "RepeatStmt"
  | rangeLoop .. => "ForRangeStmt"
  | eachLoop .. => "ForStmt"
  | breakLoop => "BreakStmt"
  | continueLoop => "ContinueStmt"
  | returnValue .. => "ReturnStmt"
  | returnNone => "ShortReturnStmt"
  | throwValue .. => "ThrowStmt"
  | tryCatch .. => "TryStmt"
  | function .. => "FunctionDeclaration"
  | callAlone .. => "CallStmt"
  | conditional .. => "ConditionalExpression"
  | binary .. => "BinaryExpression"
  | unary .. => "UnaryExpression"
  | array .. => "ArrayExpression"
  | dict .. => "DictExpression"
  | dictItem .. => "DictItem"
  | member .. => "MemberExpression"
  | subscript .. => "Subscript"
  | call .. => "FuncCall"
  | number .. => "Number"
  | string .. => "String"
  | boolean .. => "Boolean"
  | symbol s => s.className
  | list .. => "list"
  | foreign name => name

/-- Statements proper. An increment is an expression that may also stand as a statement. -/
def isStatement : Node → Bool
  | declare .. | assign .. | print .. | ifElse .. | ifOnly .. | whileLoop .. | repeatLoop ..
  | rangeLoop .. | eachLoop .. | breakLoop | continueLoop | returnValue .. | returnNone
  | throwValue .. | tryCatch .. | function .. | callAlone .. => true
  | _ => false

def isLiteral : Node → Bool
  | number _ | string _ | boolean _ => true
  | _ => false

/-- A link in a chain of choices. -/
def isChoice : Node → Bool
  | ifElse .. | ifOnly .. => true
  | _ => false

/-- The items of a list; any other node is a list of itself alone. -/
def items : Node → List Node
  | list ns => ns
  | n => [n]

end Node

end Terse
