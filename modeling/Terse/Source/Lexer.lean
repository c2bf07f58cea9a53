import Terse.Source.Token
import Terse.Text.Digit

/-! Cutting a source text into lexemes. At each place the terminals are tried in a fixed order and
the first that matches wins, even where a later one would match more. -/
namespace Terse.Lexer

/-- What a lexeme is good for: blanks and comments are cut like tokens and then left out. -/
inductive Use where
  | token (kind : TokenKind)
  | skipped
deriving DecidableEq, Repr

/-- A terminal tells how many characters it matches at the start of a text. -/
structure Terminal where
  use : Use
  width : List Char → Nat

/-- A non-empty piece of the text. -/
structure Lexeme where
  use : Use
  chars : List Char
deriving DecidableEq, Repr

def isLetter (c : Char) : Bool := ('a' ≤ c && c ≤ 'z') || ('A' ≤ c && c ≤ 'Z')

def isWordChar (c : Char) : Bool := isLetter c || c.isDigit || c = '_'

/-- A hexadecimal digit as escapes have it: ASCII only. -/
def isHex (c : Char) : Bool := c.toNat < 0x80 && (hexValue? c).isSome

/-- Where the reading of a string literal stands, after its opening quote. -/
inductive InString where
  | plain
  /-- A backslash was read. -/
  | escape
  /-- That many more hexadecimal digits belong to the escape. -/
  | digits (left : Nat)
  | unicode
  /-- Inside braces, with the number spelled so far, if any digit was read. -/
  | braced (value : Option Nat)

/-- The state after one more character; nothing where no literal goes on like that. -/
def InString.step (s : InString) (c : Char) : Option InString :=
  match s with
  | plain => if c = '\n' then none else if c = '\\' then some escape else some plain
  | escape =>
    if c = '\n' then none else if c = 'x' then some (digits 2) else if c = 'u' then some unicode
    else some plain
  | digits left => if isHex c then some (if left ≤ 1 then plain else digits (left - 1)) else none
  | unicode =>
    if c = '\x7b' then some (braced none) else if isHex c then some (digits 3) else none
  | braced value =>
    if c = '\x7d' then
      match value with
      | some n => if n < 0x110000 then some plain else none
      | none => none
    else if isHex c then some (braced (some (16 * value.getD 0 + (hexValue? c).getD 0)))
    else none

def InString.isPlain : InString → Bool
  | plain => true
  | _ => false

/-- The width of what follows the opening quote, closing quote included; zero if none closes. -/
def stringRest (quote : Char) : InString → List Char → Nat
  | _, [] => 0
  | s, c :: cs =>
    if s.isPlain && c == quote then 1
    else match s.step c with
      | none => 0
      | some s =>
        match stringRest quote s cs with
        | 0 => 0
        | n + 1 => n + 2

def stringWidth : List Char → Nat
  | c :: cs =>
    if c = '\'' ∨ c = '"' then
      match stringRest c .plain cs with
      | 0 => 0
      | n + 1 => n + 2
    else 0
  | [] => 0

def digitsWidth (cs : List Char) : Nat := (cs.takeWhile isDecimal).length

/-- A point with digits after it. -/
def placesWidth : List Char → Nat
  | '.' :: cs => match digitsWidth cs with
    | 0 => 0
    | n + 1 => n + 2
  | _ => 0

/-- An exponent letter, an optional sign, and digits. -/
def exponentWidth : List Char → Nat
  | c :: cs =>
    if c = 'e' ∨ c = 'E' then
      let sign := match cs with
        | '+' :: _ => 1
        | '-' :: _ => 1
        | _ => 0
      match digitsWidth (cs.drop sign) with
      | 0 => 0
      | n + 1 => n + 2 + sign
    else 0
  | [] => 0

def numberWidth (cs : List Char) : Nat :=
  match digitsWidth cs with
  | 0 => 0
  | n =>
    let n := n + placesWidth (cs.drop n)
    n + exponentWidth (cs.drop n)

def nameWidth : List Char → Nat
  | c :: cs => if isLetter c then (cs.takeWhile isWordChar).length + 1 else 0
  | [] => 0

def isSpace (c : Char) : Bool := c = ' ' || c = '\t' || c = '\x0c' || c = '\r' || c = '\n'

def spaceWidth (cs : List Char) : Nat := (cs.takeWhile isSpace).length

def commentWidth : List Char → Nat
  | '/' :: '/' :: cs => (cs.takeWhile (· ≠ '\n')).length + 2
  | _ => 0

/-- The first of some spellings that the text starts with. -/
def spellingWidth (spellings : List String) (cs : List Char) : Nat :=
  match spellings.find? fun s => s.toList.isPrefixOf cs with
  | some s => s.length
  | none => 0

def spelled (kind : TokenKind) (spellings : List String) : Terminal :=
  ⟨.token kind, spellingWidth spellings⟩

/-- The terminals in the order in which they are tried. -/
def terminals : List Terminal := [
  ⟨.token .string, stringWidth⟩,
  ⟨.token .number, numberWidth⟩,
  ⟨.token .name, nameWidth⟩,
  ⟨.skipped, spaceWidth⟩,
  ⟨.skipped, commentWidth⟩,
  spelled .relop ["<=", ">=", "==", "~=", "<", ">"],
  spelled .mathAssign ["+=", "-=", "*=", "/="],
  spelled .incDec ["++", "--"],
  spelled .times ["*."],
  spelled .arrow ["=>"],
  spelled .optionalDot ["?."],
  spelled .arith ["+", "-", "*", "/", "%"],
  spelled .unary ["_", "~", "#"],
  spelled .ampersand ["&"], spelled .bang ["!"], spelled .caret ["^"], spelled .colon [":"],
  spelled .comma [","], spelled .dot ["."], spelled .equal ["="], spelled .lbrace ["\x7b"],
  spelled .lpar ["("], spelled .lsqb ["["], spelled .qmark ["?"], spelled .rbrace ["\x7d"],
  spelled .rpar [")"], spelled .rsqb ["]"], spelled .semicolon [";"], spelled .bar ["|"]]

/-- The first terminal that matches, and how much it matches. -/
def match? (cs : List Char) : Option (Use × Nat) :=
  terminals.findSome? fun t => match t.width cs with
    | 0 => none
    | n + 1 => some (t.use, n + 1)

/-- Cuts a text into lexemes, up to the first place where no terminal matches. -/
def cut (cs : List Char) : List Lexeme × List Char :=
  match cs with
  | [] => ([], [])
  | c :: rest =>
    match match? (c :: rest) with
    | some (use, n + 1) =>
      let (lexemes, stuck) := cut (rest.drop n)
      (⟨use, (c :: rest).take (n + 1)⟩ :: lexemes, stuck)
    | _ => ([], c :: rest)
termination_by cs.length
decreasing_by simp only [List.length_cons, List.length_drop]; omega

/-- The tokens among lexemes that start at a place. A word has its kind by its whole text. -/
def tokensFrom (place : Loc) : List Lexeme → List Token
  | [] => []
  | l :: ls =>
    let rest := tokensFrom (place.advance l.chars) ls
    match l.use with
    | .skipped => rest
    | .token kind =>
      let text := String.ofList l.chars
      ⟨if kind = .name then .ofWord text else kind, text, some place⟩ :: rest

end Terse.Lexer

namespace Terse

/-- A text cut into tokens. Where no terminal matches, the character there and its place; a text
that is cut to its end has a last token that says so. -/
structure Lexed where
  tokens : List Token
  stuck : Option (Char × Loc)

def lex (source : List Char) : Lexed :=
  let (lexemes, rest) := Lexer.cut source
  let tokens := Lexer.tokensFrom .start lexemes
  let stop := Loc.start.advance (lexemes.flatMap (·.chars))
  match rest with
  | [] => ⟨tokens ++ [⟨.endOfText, "", some stop⟩], none⟩
  | c :: _ => ⟨tokens, some (c, stop)⟩

end Terse
