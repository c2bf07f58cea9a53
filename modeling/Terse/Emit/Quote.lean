import Terse.Text.CodePoint

/-! String literals of the emitted program. -/
namespace Terse

namespace CodePoint

/-- The escape of a UTF-16 unit. -/
def unitEscape (u : Nat) : List Char := '\\' :: 'u' :: hexDigits 4 u

/-- The escapes that every literal uses: quotes, backslashes and controls. -/
def shortEscape? (p : CodePoint) : Option (List Char) :=
  match p.toChar? with
  | some '"' => some ['\\', '"']
  | some '\\' => some ['\\', '\\']
  | some '\n' => some ['\\', 'n']
  | some '\r' => some ['\\', 'r']
  | some '\t' => some ['\\', 't']
  | some '\x0c' => some ['\\', 'f']
  | some '\x08' => some ['\\', 'b']
  | _ => if p.val < 0x20 then some (unitEscape p.val) else none

/-- A code point inside a literal. A surrogate that stands alone cannot be written as it is. -/
def inLiteral (p : CodePoint) : List Char :=
  match p.shortEscape?, p.toChar? with
  | some cs, _ => cs
  | none, some c => [c]
  | none, none => unitEscape p.val

/-- A code point inside a key, which is ASCII throughout. -/
def inKey (p : CodePoint) : List Char :=
  match p.shortEscape?, p.toChar? with
  | some cs, _ => cs
  | none, some c => if p.val < 0x7f then [c] else p.units.flatMap unitEscape
  | none, none => unitEscape p.val

end CodePoint

namespace Text

def literalChars (t : Text) : List Char := '"' :: t.flatMap CodePoint.inLiteral ++ ['"']

def literal (t : Text) : String := String.ofList t.literalChars

def keyChars (t : Text) : List Char := '"' :: t.flatMap CodePoint.inKey ++ ['"']

end Text

/-- A name as a quoted key. -/
def keyLiteral (key : String) : String := String.ofList (Text.ofString key).keyChars

end Terse
