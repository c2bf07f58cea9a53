/-! Finite doubles as exact binary fractions. -/
namespace Terse

/-- A sign and a size `mant * 2 ^ exp`. Negative zero has a sign. -/
structure Binary where
  neg : Bool
  mant : Nat
  exp : Int
deriving DecidableEq, Repr

namespace Binary

/-- The exact value of a double; infinities and NaN have none. -/
def ofFloat? (x : Float) : Option Binary :=
  let bits := x.toBits
  let e := ((bits >>> 52) &&& 0x7ff).toNat
  let f := (bits &&& 0xfffffffffffff).toNat
  let neg := bits >>> 63 == 1
  if e = 0x7ff then none
  else if e = 0 then some ⟨neg, f, -1074⟩
  else some ⟨neg, Nat.pow 2 52 + f, (e : Int) - 1075⟩

/-- The double with this value. The size must be one that doubles have. -/
def toFloat (b : Binary) : Float :=
  let sign : Nat := if b.neg then Nat.pow 2 63 else 0
  if b.mant = 0 then Float.ofBits sign.toUInt64
  else
    let top := b.mant.log2
    let e := b.exp + top
    if e < -1022 then Float.ofBits (sign + b.mant * Nat.pow 2 (b.exp + 1074).toNat).toUInt64
    else
      let f := b.mant * Nat.pow 2 (52 - top) - Nat.pow 2 52
      Float.ofBits (sign + (e + 1023).toNat * Nat.pow 2 52 + f).toUInt64

def signed (b : Binary) (n : Nat) : Int := if b.neg then -n else n

/-- The integer of this value, if it is one. -/
def toInt? (b : Binary) : Option Int :=
  if 0 ≤ b.exp then some (b.signed (b.mant * Nat.pow 2 b.exp.toNat))
  else
    let unit := Nat.pow 2 (-b.exp).toNat
    if b.mant % unit = 0 then some (b.signed (b.mant / unit)) else none

/-- Exact comparison with an integer. -/
def compareInt (b : Binary) (n : Int) : Ordering :=
  compare (b.signed (b.mant * Nat.pow 2 b.exp.toNat)) (n * Nat.pow 2 (-b.exp).toNat)

/-- The remainder of the division that rounds toward zero; its sign is the sign of `a`. Nothing
for a zero divisor. The remainder of two doubles is a double. -/
def rem? (a b : Binary) : Option Binary :=
  if b.mant = 0 then none
  else
    let exp := min a.exp b.exp
    let m := a.mant * Nat.pow 2 (a.exp - exp).toNat
    let n := b.mant * Nat.pow 2 (b.exp - exp).toNat
    some ⟨a.neg, m % n, exp⟩

end Binary

/-- The double nearest to an integer, infinite past the range of doubles. -/
def floatOfInt (n : Int) : Float :=
  if n < 0 then -Float.ofScientific n.natAbs false 0 else Float.ofScientific n.natAbs false 0

/-- The double nearest to `± m * 10 ^ e`. The digits of `m` tell sizes that are certainly infinite
or zero, so that a huge exponent costs nothing. -/
def floatOfDecimal (neg : Bool) (m : Nat) (e : Int) : Float :=
  let size :=
    if m = 0 then 0.0
    else
      let top := ((Nat.toDigits 10 m).length : Int) + e
      if 310 < top then 1.0 / 0.0
      else if top < -325 then 0.0
      else Float.ofScientific m (e < 0) e.natAbs
  if neg then -size else size

end Terse
