import Terse.Node
import Terse.Text.Quoted

/-! The bare shape of a node: what it is called, and its parts by name. Dumps and graphs are drawn
from outlines. -/
namespace Terse

mutual

inductive Outline where
  /-- A node with the heading of its line in a dump, its label in a graph, and its parts. -/
  | entry (heading label : String) (parts : List Part)
  | list (items : List Outline)
  | foreign (className : String)

inductive Part where
  | mk (field : String) (value : Outline)

end

namespace Outline

/-- A node whose text attributes stand on its line in a dump. -/
def titled (title label : String) (attributes : List (String × String)) (parts : List Part) :
    Outline :=
  entry (attributes.foldl (fun s a => s ++ " " ++ a.1 ++ "=" ++ quotedString a.2) title) label parts

/-- A node without text attributes. -/
def plain (title : String) (parts : List Part) : Outline := entry title title parts

/-- A literal shows its value on its line and in its label. -/
def literal (title value graphValue : String) : Outline :=
  entry (title ++ " " ++ value) (title ++ "\n" ++ graphValue) []

end Outline

def Symbol.outline (s : Symbol) : Outline :=
  match s.kind with
  | .var _ => .entry s!"Variable {s.name} #{s.uid}" s!"Variable\n{s.name}#{s.uid}" []
  | .fn arity _ => .entry s!"Function {s.name}/{arity} #{s.uid}" s!"Function\n{s.name}/{arity}" []

namespace Node

mutual

def outline : Node → Outline
  | program ss => .plain "Program" [⟨"statements", .list (outlines ss)⟩]
  | declare v e => .plain "VariableDeclaration" [⟨"variable", outline v⟩,
      ⟨"initializer", outline e⟩]
  | assign t e => .plain "Assignment" [⟨"target", outline t⟩, ⟨"source", outline e⟩]
  | print e => .plain "PrintStmt" [⟨"expr", outline e⟩]
  | ifElse t yes no => .plain "IfStmt" [⟨"test", outline t⟩, ⟨"consequent", .list (outlines yes)⟩,
      ⟨"alternate", outline no⟩]
  | ifOnly t yes => .plain "ShortIfStmt" [⟨"test", outline t⟩, ⟨"consequent", .list (outlines yes)⟩]
  | whileLoop t body => .plain "WhileStmt" [⟨"test", outline t⟩, ⟨"body", .list (outlines body)⟩]
  | repeatLoop n body => .plain "RepeatStmt" [⟨"count", outline n⟩, ⟨"body", .list (outlines body)⟩]
  | rangeLoop v low high step body => .plain "ForRangeStmt" [⟨"variable", outline v⟩,
      ⟨"low", outline low⟩, ⟨"high", outline high⟩, ⟨"step", outline step⟩,
      ⟨"body", .list (outlines body)⟩]
  | eachLoop v c body => .plain "ForStmt" [⟨"iterator", outline v⟩, ⟨"collection", outline c⟩,
      ⟨"body", .list (outlines body)⟩]
  | breakLoop => .plain "BreakStmt" []
  | continueLoop => .plain "ContinueStmt" []
  | returnValue e => .plain "ReturnStmt" [⟨"expr", outline e⟩]
  | returnNone => .plain "ShortReturnStmt" []
  | throwValue e => .plain "ThrowStmt" [⟨"expr", outline e⟩]
  | tryCatch body params handler => .plain "TryStmt" [⟨"body", .list (outlines body)⟩,
      ⟨"exception_params", .list (outlines params)⟩, ⟨"except_body", .list (outlines handler)⟩]
  | function f params body => .plain "FunctionDeclaration" [⟨"function", outline f⟩,
      ⟨"params", .list (outlines params)⟩, ⟨"body", .list (outlines body)⟩]
  | callAlone c => .plain "CallStmt" [⟨"call", outline c⟩]
  | conditional t yes no => .plain "ConditionalExpression" [⟨"test", outline t⟩,
      ⟨"consequent", outline yes⟩, ⟨"alternate", outline no⟩]
  | binary op l r => .titled "BinaryExpression" ("BinaryExpression\n" ++ op.word) [("op", op.word)]
      [⟨"left", outline l⟩, ⟨"right", outline r⟩]
  | unary op e => .titled "UnaryExpression" ("UnaryExpression\n" ++ op.word) [("op", op.word)]
      [⟨"operand", outline e⟩]
  | array es => .plain "ArrayExpression" [⟨"elements", .list (outlines es)⟩]
  | dict is => .plain "DictExpression" [⟨"items", .list (outlines is)⟩]
  | dictItem key v => .titled "DictItem" ("DictItem\n" ++ key) [("key", key)] [⟨"value", outline v⟩]
  | member o access name => .titled "MemberExpression" ("MemberExpression\n" ++ access ++ name)
      [("access", access), ("name", name)] [⟨"object", outline o⟩]
  | subscript c i => .plain "Subscript" [⟨"collection", outline c⟩, ⟨"index", outline i⟩]
  | call f args => .plain "FuncCall" [⟨"callee", outline f⟩, ⟨"args", .list (outlines args)⟩]
  | number a => .literal "Number" a.text a.text
  | string t => .literal "String" t.quoted t.quoted
  | boolean b => .literal "Boolean" (if b then "true" else "false") (if b then "True" else "False")
  | symbol s => s.outline
  | list ns => .list (outlines ns)
  | foreign c => .foreign c
termination_by structural n => n

def outlines : List Node → List Outline
  | [] => []
  | n :: ns => outline n :: outlines ns
termination_by structural ns => ns

end

end Node

end Terse
