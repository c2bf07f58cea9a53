import Terse.Source.Loc
import Terse.Text.Quoted

/-! Tokens of the source language. -/
namespace Terse

/-- The terminals of the grammar. A tree made by hand may name any other. -/
inductive TokenKind where
  | string | number | name | relop | mathAssign | incDec | times | arrow | optionalDot | arith
  | unary | ampersand | bang | caret | colon | comma | dot | equal | lbrace | lpar | lsqb | qmark
  | rbrace | rpar | rsqb | semicolon | bar
  | breakWord | continueWord | returnWord | factorial | functionWord | whileWord | inWord
  | throwWord | tryWord | exceptWord | trueWord | falseWord
  /-- Stands once, after all other tokens of a text. -/
  | endOfText
  | other (label : String)
deriving DecidableEq, Repr

namespace TokenKind

/-- The name under which messages and trees show a terminal. -/
def label : TokenKind → String
  | string => "STRING" | number => "NUMBER" | name => "NAME" | relop => "RELOP"
  | mathAssign => "MATH_ASSIGN" | incDec => "INCDEC" | times => "REPEAT" | arrow => "__ANON_0"
  | optionalDot => "__ANON_1" | arith => "ARITH" | unary => "UNARY" | ampersand => "AMPERSAND"
  | bang => "BANG" | caret => "CIRCUMFLEX" | colon => "COLON" | comma => "COMMA" | dot => "DOT"
  | equal => "EQUAL" | lbrace => "LBRACE" | lpar => "LPAR" | lsqb => "LSQB" | qmark => "QMARK"
  | rbrace => "RBRACE" | rpar => "RPAR" | rsqb => "RSQB" | semicolon => "SEMICOLON" | bar => "VBAR"
  | breakWord => "BREAK" | continueWord => "CONTINUE" | returnWord => "RETURN"
  | factorial => "FACTORIAL" | functionWord => "F" | whileWord => "W" | inWord => "IN"
  | throwWord => "TH" | tryWord => "T" | exceptWord => "E" | trueWord => "TRUE"
  | falseWord => "FALSE" | endOfText => "$END"
  | other l => l

def known : List TokenKind := [
  string, number, name, relop, mathAssign, incDec, times, arrow, optionalDot, arith, unary,
  ampersand, bang, caret, colon, comma, dot, equal, lbrace, lpar, lsqb, qmark, rbrace, rpar, rsqb,
  semicolon, bar, breakWord, continueWord, returnWord, factorial, functionWord, whileWord, inWord,
  throwWord, tryWord, exceptWord, trueWord, falseWord, endOfText]

def ofLabel (l : String) : TokenKind := (known.find? (·.label = l)).getD (other l)

/-- Words that are no names. -/
def keywords : List (String × TokenKind) := [
  ("br", breakWord), ("ct", continueWord), ("r", returnWord), ("F", factorial),
  ("f", functionWord), ("w", whileWord), ("in", inWord), ("th", throwWord), ("t", tryWord),
  ("e", exceptWord), ("true", trueWord), ("false", falseWord)]

/-- The kind of a word: a keyword everywhere, and a name otherwise. -/
def ofWord (w : String) : TokenKind := (keywords.lookup w).getD name

end TokenKind

/-- A token keeps its text; one that was read from a source also has a place. -/
structure Token where
  kind : TokenKind
  text : String
  loc : Option Loc
deriving DecidableEq, Repr

/-- How messages show a token. -/
def Token.shown (t : Token) : String :=
  s!"Token({quotedString t.kind.label}, {quotedString t.text})"

end Terse
