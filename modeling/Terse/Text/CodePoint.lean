/-! Text as code points. A string literal may spell half of a surrogate pair on its own, so the
value of a literal is a list of code points and not a `String`. -/
namespace Terse

/-- A Unicode code point, surrogates included. -/
structure CodePoint where
  val : Nat
  lt : val < 0x110000
deriving DecidableEq, Repr

namespace CodePoint

def ofNat? (n : Nat) : Option CodePoint := if h : n < 0x110000 then some ⟨n, h⟩ else none

def ofChar (c : Char) : CodePoint where
  val := c.toNat
  lt := by
    have h : c.toNat.isValidChar := c.valid
    unfold Nat.isValidChar at h
    omega

def IsHigh (p : CodePoint) : Prop := 0xd800 ≤ p.val ∧ p.val < 0xdc00

def IsLow (p : CodePoint) : Prop := 0xdc00 ≤ p.val ∧ p.val < 0xe000

def IsSurrogate (p : CodePoint) : Prop := 0xd800 ≤ p.val ∧ p.val < 0xe000

instance (p : CodePoint) : Decidable p.IsHigh := inferInstanceAs (Decidable (_ ∧ _))

instance (p : CodePoint) : Decidable p.IsLow := inferInstanceAs (Decidable (_ ∧ _))

instance (p : CodePoint) : Decidable p.IsSurrogate := inferInstanceAs (Decidable (_ ∧ _))

/-- The character at a code point; surrogates have none. -/
def toChar? (p : CodePoint) : Option Char :=
  if h : p.val.isValidChar then some (Char.ofNatAux p.val h) else none

/-- The code point that a high and a low surrogate spell together. -/
def joined (h l : CodePoint) (hh : h.IsHigh) (hl : l.IsLow) : CodePoint :=
  ⟨0x10000 + (h.val - 0xd800) * 0x400 + (l.val - 0xdc00), by
    simp only [IsHigh, IsLow] at hh hl
    omega⟩

/-- The UTF-16 units of a code point. A surrogate is its own unit. -/
def units (p : CodePoint) : List Nat :=
  if p.val < 0x10000 then [p.val]
  else [0xd800 + (p.val - 0x10000) / 0x400, 0xdc00 + (p.val - 0x10000) % 0x400]

end CodePoint

abbrev Text := List CodePoint

namespace Text

def ofChars (cs : List Char) : Text := cs.map CodePoint.ofChar

def ofString (s : String) : Text := ofChars s.toList

/-- The UTF-16 units of a text. -/
def units (t : Text) : List Nat := t.flatMap CodePoint.units

/-- Joins every high surrogate with a low one that follows it at once. -/
def joinPairs : Text → Text
  | [] => []
  | [p] => [p]
  | p :: q :: rest =>
    if h : p.IsHigh ∧ q.IsLow then .joined p q h.1 h.2 :: joinPairs rest
    else p :: joinPairs (q :: rest)

end Text

/-- The lower-case hexadecimal digit of a number below sixteen. -/
def hexDigit (n : Nat) : Char :=
  if n < 10 then Char.ofNat ('0'.toNat + n) else Char.ofNat ('a'.toNat + (n - 10))

/-- The last `width` hexadecimal digits of `n`. -/
def hexDigits : (width n : Nat) → List Char
  | 0, _ => []
  | width + 1, n => hexDigit (n / Nat.pow 16 width % 16) :: hexDigits width n

end Terse
