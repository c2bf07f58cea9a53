import Terse.Number.Shortest

/-! Numbers of a program: unbounded integers beside doubles. The two are told apart even where
their values agree, since they are written differently. -/
namespace Terse

inductive Number where
  | int (n : Int)
  | float (x : Float)
deriving Inhabited

namespace Decimal

/-- Positional from `10 ^ -4` up to `10 ^ 16`, and with an exponent of at least two digits and a
sign elsewhere. A whole number keeps one zero after the point. -/
def chars (d : Decimal) : List Char :=
  let ds := Nat.toDigits 10 d.digits
  let point := (ds.length : Int) + d.exp
  if -4 < point ∧ point ≤ 16 then
    if point ≤ 0 then '0' :: '.' :: List.replicate (-point).toNat '0' ++ ds
    else if (ds.length : Int) ≤ point then ds ++ List.replicate d.exp.toNat '0' ++ ['.', '0']
    else ds.take point.toNat ++ '.' :: ds.drop point.toNat
  else
    let e := Nat.toDigits 10 (point - 1).natAbs
    let lead := match ds with
      | [] => []
      | [c] => [c]
      | c :: cs => c :: '.' :: cs
    lead ++ 'e' :: (if point ≤ 0 then '-' else '+') :: List.replicate (2 - e.length) '0' ++ e

end Decimal

/-- The text of a double, by its shortest digits. -/
def floatChars (x : Float) : List Char :=
  match Binary.ofFloat? x with
  | some b =>
    let size := if b.mant = 0 then ['0', '.', '0'] else b.shortest.chars
    if b.neg then '-' :: size else size
  | none => if x.isNaN then "nan".toList else if x < 0 then "-inf".toList else "inf".toList

/-- The order of a double and an integer by value; NaN has no place in it. -/
def compareFloatInt? (x : Float) (n : Int) : Option Ordering :=
  match Binary.ofFloat? x with
  | some b => some (b.compareInt n)
  | none => if x.isNaN then none else some (if x < 0 then .lt else .gt)

namespace Number

def chars : Number → List Char
  | int n => (toString n).toList
  | float x => floatChars x

def text (a : Number) : String := String.ofList a.chars

/-- The nearest double. -/
def toFloat : Number → Float
  | int n => floatOfInt n
  | float x => x

/-- The order of two numbers by exact value. -/
def compare? : Number → Number → Option Ordering
  | int m, int n => some (compare m n)
  | int m, float y => (compareFloatInt? y m).map Ordering.swap
  | float x, int n => compareFloatInt? x n
  | float x, float y =>
    if x < y then some .lt else if y < x then some .gt else if x == y then some .eq else none

def isValue (a : Number) (n : Int) : Bool := a.compare? (int n) == some .eq

def neg : Number → Number
  | int n => int (-n)
  | float x => float (-x)

end Number

end Terse
