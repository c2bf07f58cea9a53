import Terse.Text.CodePoint
import Terse.Text.Printable

/-! The quoted form in which dumps and messages show a text. -/
namespace Terse.Text

/-- Single quotes, unless the text has a single quote and no double one. -/
def quoteMark (t : Text) : Char :=
  if CodePoint.ofChar '\'' ∈ t ∧ CodePoint.ofChar '"' ∉ t then '"' else '\''

/-- How one code point stands inside quotes. What cannot be printed is written by its number, in
the narrowest of three widths. -/
def quotedChar (mark : Char) (p : CodePoint) : List Char :=
  match p.toChar? with
  | some '\\' => ['\\', '\\']
  | some '\n' => ['\\', 'n']
  | some '\r' => ['\\', 'r']
  | some '\t' => ['\\', 't']
  | some c =>
    if c = mark then ['\\', c]
    else if p.isPrintable then [c]
    else numbered
  | none => numbered
where
  numbered : List Char :=
    if p.val < 0x100 then '\\' :: 'x' :: hexDigits 2 p.val
    else if p.val < 0x10000 then '\\' :: 'u' :: hexDigits 4 p.val
    else '\\' :: 'U' :: hexDigits 8 p.val

def quotedChars (t : Text) : List Char :=
  let mark := t.quoteMark
  mark :: t.flatMap (quotedChar mark) ++ [mark]

def quoted (t : Text) : String := String.ofList t.quotedChars

end Terse.Text

namespace Terse

/-- The quoted form of an ordinary string. -/
def quotedString (s : String) : String := (Text.ofString s).quoted

end Terse
