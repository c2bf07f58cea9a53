import Terse.Source.Token

/-! What can be wrong with a source program, and how it is told. -/
namespace Terse

inductive Cause where
  /-- No terminal matches at a character. -/
  | noTerminal (c : Char) (place : Loc)
  /-- No reading of the text so far goes on with this token. -/
  | unexpected (token : Token)
  /-- The text ends inside a program. -/
  | endOfInput
  | duplicate (name : String)
  | undeclared (name : String)
  | breakOutsideLoop
  | continueOutsideLoop
  | returnOutsideFunction
  | notCallable (name : String)
  | notVariable (name : String)
  | arity (expected passed : Nat)
deriving DecidableEq, Repr

namespace Cause

/-- The part of a syntax error that follows its heading; other causes have no heading. -/
def detail : Cause → String
  | noTerminal c place =>
    s!"No terminal matches '{c}' in the current parser context, " ++
      s!"at line {place.line} col {place.col}"
  | unexpected token =>
    let place := token.loc.getD .start
    s!"Unexpected token {token.shown} at line {place.line}, column {place.col}."
  | endOfInput => "Unexpected end-of-input. Expected one of: "
  | duplicate name => s!"Identifier {name} already declared"
  | undeclared name => s!"Identifier {name} not declared"
  | breakOutsideLoop => "Break can only appear in a loop"
  | continueOutsideLoop => "Continue can only appear in a loop"
  | returnOutsideFunction => "Return can only appear in a function"
  | notCallable name => s!"{name} is not a function"
  | notVariable name => s!"{name} is not a variable"
  | arity expected passed => s!"{expected} argument(s) required but {passed} passed"

def isSyntax : Cause → Bool
  | noTerminal .. | unexpected .. | endOfInput => true
  | _ => false

def message (c : Cause) : String :=
  if c.isSyntax then "Syntax error: " ++ c.detail else c.detail

end Cause

/-- A cause and its place. An error in a tree made by hand may have none. -/
structure CompileError where
  cause : Cause
  loc : Option Loc
deriving DecidableEq, Repr

namespace CompileError

def message (e : CompileError) : String := e.cause.message

def text (e : CompileError) : String :=
  match e.loc with
  | some l => l.text ++ " " ++ e.message
  | none => e.message

end CompileError

end Terse
