import Terse.Number.Basic
import Terse.Operator

/-! Constant arithmetic as a machine with doubles only would do it: integers are exact as long as
every double-sized step is. -/
namespace Terse

/-- The value of a constant expression. -/
inductive Constant where
  | number (a : Number)
  | boolean (b : Bool)

namespace Number

/-- Up to this size every integer is a double. -/
def safeLimit : Int := Nat.pow 2 53

/-- An integer past the safe limit becomes the nearest double, if it has one. -/
def settle? : Number → Option Number
  | int n =>
    if n.natAbs ≤ safeLimit.natAbs then some (int n)
    else
      let x := floatOfInt n
      if x.isFinite then some (float x) else none
  | float x => some (float x)

/-- A whole double below the safe limit becomes an integer. Infinities and NaN are refused. -/
def normalize? (x : Float) : Option Number :=
  match Binary.ofFloat? x with
  | none => none
  | some b =>
    match b.toInt? with
    | some n => some (if n.natAbs < safeLimit.natAbs then int n else float x)
    | none => some (float x)

/-- The remainder whose sign is that of the dividend. An infinite divisor leaves the dividend. -/
def floatRem? (x y : Float) : Option Float :=
  match Binary.ofFloat? x with
  | none => none
  | some a =>
    match Binary.ofFloat? y with
    | some b => (a.rem? b).map Binary.toFloat
    | none => if y.isNaN then none else some x

/-- Arithmetic on doubles; nothing where the result is no finite double. -/
def floatArith? (op : BinOp) (x y : Float) : Option Number :=
  match op with
  | .add => normalize? (x + y)
  | .sub => normalize? (x - y)
  | .mul => normalize? (x * y)
  | .div => normalize? (x / y)
  | .rem => (floatRem? x y).bind normalize?
  | .pow => normalize? (x.pow y)
  | _ => none

/-- Sum, difference, product and remainder of integers are exact. -/
def intArith? (op : BinOp) (m n : Int) : Option Int :=
  match op with
  | .add => some (m + n)
  | .sub => some (m - n)
  | .mul => some (m * n)
  | .rem => if n = 0 then none else some (m.tmod n)
  | _ => none

def arith? (op : BinOp) (a b : Number) : Option Number :=
  match a, b with
  | int m, int n =>
    match intArith? op m n with
    | some v =>
      if v.natAbs ≤ safeLimit.natAbs then some (int v) else floatArith? op a.toFloat b.toFloat
    | none => floatArith? op a.toFloat b.toFloat
  | _, _ => floatArith? op a.toFloat b.toFloat

end Number

/-- Whether a comparison holds of two numbers in this order. NaN has no order to any number, so
that it only differs from all. -/
def BinOp.holds? (op : BinOp) (order : Option Ordering) : Option Bool :=
  match op with
  | .lt => some (order == some .lt)
  | .le => some (order == some .lt || order == some .eq)
  | .eq => some (order == some .eq)
  | .ne => some (order != some .eq)
  | .ge => some (order == some .gt || order == some .eq)
  | .gt => some (order == some .gt)
  | _ => none

/-- The value of `a op b`, if it is one that can stand in its place. -/
def fold? (op : BinOp) (a b : Number) : Option Constant :=
  match a.settle?, b.settle? with
  | some a, some b =>
    match op.holds? (a.compare? b) with
    | some v => some (.boolean v)
    | none => (Number.arith? op a b).map .number
  | _, _ => none

end Terse
