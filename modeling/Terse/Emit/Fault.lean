import Terse.Emit.Name
import Terse.Node
import Terse.Text.Quoted

/-! What cannot be emitted. -/
namespace Terse

inductive EmitFault where
  | unknownStatement (className : String)
  | unknownExpression (className : String)
  /-- Only an increment may stand as a statement. -/
  | notStatement (op : String)
  /-- A symbol claims to be of the library and is not. -/
  | noIntrinsic (name : String)
  /-- A unary operator has no spelling in the target language. -/
  | noSpelling (op : String)
  /-- Something other than a symbol is called or declared as a function: it lacks an attribute that
  symbols have. -/
  | notSymbol (className lacking : String)
  /-- The alternative of a choice is neither a list nor a choice. -/
  | notList (className : String)
  | notProgram (className : String)
deriving DecidableEq, Repr

def EmitFault.message : EmitFault → String
  | unknownStatement c => "generator: unknown statement " ++ c
  | unknownExpression c => "generator: unknown expression " ++ c
  | notStatement op => "generator: unary '" ++ op ++ "' is not a statement"
  | noIntrinsic name => quotedString name
  | noSpelling op => quotedString op
  | notSymbol c a => s!"'{c}' object has no attribute '{a}'"
  | notList c => s!"object of type '{c}' has no len()"
  | notProgram c => s!"'{c}' object has no attribute 'statements'"

/-- Faults of the compiler itself, as against names and nodes that are not what they claim to be. -/
def EmitFault.isInternal : EmitFault → Bool
  | unknownStatement _ | unknownExpression _ | notStatement _ => true
  | _ => false

/-- Operators that the target language spells differently. -/
def respellings : List (String × String) := [
  ("^", "**"), ("~", "!"), ("~=", "!="), ("|", "||"), ("&", "&&"), ("_", "-")]

namespace Node

def symbolFault? : Node → Option EmitFault
  | symbol s => if s.target?.isSome then none else some (.noIntrinsic s.name)
  | member o access name => some (.notSymbol (member o access name).className "uid")
  | n => some (.notSymbol n.className "name")

/-- Whether a unary operator can be spelled. -/
def spellingFault? (op : UnOp) : Option EmitFault :=
  match op with
  | .length | .incr | .decr | .fact => none
  | op => if (respellings.lookup op.word).isSome then none else some (.noSpelling op.word)

mutual

/-- The first thing in an expression that cannot be emitted. -/
def exprFault? : Node → Option EmitFault
  | conditional test yes no => exprFault? test <|> exprFault? yes <|> exprFault? no
  | binary _ left right => exprFault? left <|> exprFault? right
  | unary op operand => exprFault? operand <|> spellingFault? op
  | array elements | dict elements => exprsFault? elements
  | dictItem _ value => exprFault? value
  | member object _ _ => exprFault? object
  | subscript collection index => exprFault? collection <|> exprFault? index
  | call callee args => exprsFault? args <|> symbolFault? callee
  | number _ | string _ | boolean _ => none
  | symbol s => symbolFault? (symbol s)
  | n => some (.unknownExpression n.className)
termination_by structural n => n

def exprsFault? : List Node → Option EmitFault
  | [] => none
  | e :: es => exprFault? e <|> exprsFault? es
termination_by structural es => es

end

mutual

/-- The first thing in a statement that cannot be emitted. -/
def stmtFault? : Node → Option EmitFault
  | declare v e => exprFault? v <|> exprFault? e
  | assign target source => exprFault? target <|> exprFault? source
  | print e | returnValue e | throwValue e | callAlone e => exprFault? e
  | ifElse test yes no =>
    exprFault? test <|> stmtsFault? yes <|>
      match no with
      | list ss => stmtsFault? ss
      | n => if n.isChoice then stmtFault? n else some (.notList n.className)
  | ifOnly test yes => exprFault? test <|> stmtsFault? yes
  | whileLoop test body => exprFault? test <|> stmtsFault? body
  | repeatLoop count body => exprFault? count <|> stmtsFault? body
  | rangeLoop v low high step body =>
    exprFault? v <|> exprFault? low <|> exprFault? high <|> exprFault? step <|> stmtsFault? body
  | eachLoop v collection body => exprFault? v <|> exprFault? collection <|> stmtsFault? body
  | breakLoop | continueLoop | returnNone => none
  | tryCatch body params handler => stmtsFault? body <|> exprsFault? params <|> stmtsFault? handler
  | function f params body => exprsFault? params <|> symbolFault? f <|> stmtsFault? body
  | unary op operand =>
    if op = .incr ∨ op = .decr then exprFault? operand else some (.notStatement op.word)
  | n => some (.unknownStatement n.className)
termination_by structural n => n

def stmtsFault? : List Node → Option EmitFault
  | [] => none
  | s :: ss => stmtFault? s <|> stmtsFault? ss
termination_by structural ss => ss

end

end Node

end Terse
