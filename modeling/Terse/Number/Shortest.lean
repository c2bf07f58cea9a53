import Terse.Number.Binary

/-! The fewest decimal digits that read back as a given double. -/
namespace Terse

/-- `digits * 10 ^ exp`. -/
structure Decimal where
  digits : Nat
  exp : Int
deriving DecidableEq, Repr

namespace Decimal

/-- Compares `d` with `n * 2 ^ q`, exactly. -/
def compareBinary (d : Decimal) (n : Nat) (q : Int) : Ordering :=
  compare (d.digits * Nat.pow 10 d.exp.toNat * Nat.pow 2 (-q).toNat)
    (n * Nat.pow 2 q.toNat * Nat.pow 10 (-d.exp).toNat)

/-- Moves trailing zeros into the exponent, at most `fuel` of them. -/
def strip : (fuel : Nat) → Decimal → Decimal
  | 0, d => d
  | fuel + 1, d =>
    if d.digits ≠ 0 ∧ d.digits % 10 = 0 then strip fuel ⟨d.digits / 10, d.exp + 1⟩ else d

end Decimal

namespace Binary

/-- The double below is half as far away as the double above. -/
def narrowBelow (b : Binary) : Bool := b.mant == Nat.pow 2 52 && -1074 < b.exp

/-- Whether a decimal lies among the reals that round to the size of `b`. The ends belong to it
exactly when the mantissa is even. -/
def readsBack (b : Binary) (d : Decimal) : Bool :=
  let low := d.compareBinary (if b.narrowBelow then 4 * b.mant - 1 else 4 * b.mant - 2) (b.exp - 2)
  let high := d.compareBinary (4 * b.mant + 2) (b.exp - 2)
  let even := b.mant % 2 == 0
  (low == .gt || (even && low == .eq)) && (high == .lt || (even && high == .eq))

/-- The size as a fraction of naturals. -/
def fraction (b : Binary) : Nat × Nat := (b.mant * Nat.pow 2 b.exp.toNat, Nat.pow 2 (-b.exp).toNat)

def digitCount (n : Nat) : Nat := (Nat.toDigits 10 n).length

/-- The least `k` with `num / den < 10 ^ k`, for a positive fraction. -/
def scale (num den : Nat) : Int :=
  if den ≤ num then digitCount (num / den)
  else 1 - (digitCount ((den - 1) / num) : Int)

/-- The better of the two neighbours of the size on the grid `10 ^ e`, if one reads back. Of two
the nearer wins, and of two equally near the even one. -/
def onGrid? (b : Binary) (e : Int) : Option Decimal :=
  let (num, den) := b.fraction
  let n := num * Nat.pow 10 (-e).toNat
  let d := den * Nat.pow 10 e.toNat
  let below : Decimal := ⟨n / d, e⟩
  let above : Decimal := ⟨n / d + 1, e⟩
  match b.readsBack below, b.readsBack above with
  | true, false => some below
  | false, true => some above
  | true, true =>
    match compare (2 * n) ((2 * (n / d) + 1) * d) with
    | .lt => some below
    | .gt => some above
    | .eq => some (if n / d % 2 = 0 then below else above)
  | false, false => none

/-- The shortest decimal that reads back as the size of `b`, which is not zero: grids are tried
from the coarsest on. Seventeen digits are always enough. -/
def shortest (b : Binary) : Decimal :=
  let (num, den) := b.fraction
  let k := scale num den
  let found := (List.range 17).findSome? fun (i : Nat) => b.onGrid? (k - 1 - i)
  (found.getD ⟨num * Nat.pow 5 (-b.exp).toNat, min b.exp 0⟩).strip 20

end Binary

end Terse
