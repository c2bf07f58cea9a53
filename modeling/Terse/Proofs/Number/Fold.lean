import Terse.Proofs.Number.Rounding

/-! When two number literals can be folded. Where one of them is neutral or absorbing, they always
can, as long as both are in the range of doubles and zero is not divided by zero. -/
namespace Terse

namespace BinOp

/-- All that makes a number of two numbers. -/
def arithmetic : List BinOp := [.add, .sub, .mul, .div, .rem, .pow]

/-- The numbers that make an operation needless where they stand on its left. -/
def idleLeft : BinOp → List Int
  | .add | .sub | .div | .rem => [0]
  | .mul => [0, 1]
  | .pow => [1]
  | _ => []

/-- The same for the right. -/
def idleRight : BinOp → List Int
  | .add | .sub | .pow => [0]
  | .mul => [0, 1]
  | .div | .rem => [1]
  | _ => []

theorem holds?_arithmetic {op : BinOp} (h : op ∈ arithmetic) (order : Option Ordering) :
    op.holds? order = none := by
  simp only [arithmetic, List.mem_cons, List.not_mem_nil, or_false] at h
  rcases h with rfl | rfl | rfl | rfl | rfl | rfl <;> rfl

end BinOp

namespace Number

open Double

variable {a b : Number} {op : BinOp} {x : Float} {n : Int}

/-- One of two numbers makes an operation on them needless. -/
def Idle (op : BinOp) (a b : Number) : Prop :=
  (∃ v ∈ op.idleLeft, a.isValue v) ∨ ∃ v ∈ op.idleRight, b.isValue v

instance (op : BinOp) (a b : Number) : Decidable (Idle op a b) :=
  inferInstanceAs (Decidable (_ ∨ _))

theorem idle_singletons {u v : Int} (hl : op.idleLeft = [u]) (hr : op.idleRight = [v]) :
    Idle op a b ↔ a.isValue u ∨ b.isValue v := by
  simp only [Idle, hl, hr, List.mem_singleton, exists_eq_left]

/-- Zero over zero, for a quotient or a remainder. -/
def IsZeroByZero (op : BinOp) (a b : Number) : Prop :=
  (op = .div ∨ op = .rem) ∧ a.isValue 0 ∧ b.isValue 0

instance (op : BinOp) (a b : Number) : Decidable (IsZeroByZero op a b) :=
  inferInstanceAs (Decidable (_ ∧ _))

theorem IsZeroByZero.idle (h : IsZeroByZero op a b) : Idle op a b := by
  obtain ⟨rfl | rfl, ha, -⟩ := h
  · exact .inl ⟨0, List.mem_singleton_self 0, ha⟩
  · exact .inl ⟨0, List.mem_singleton_self 0, ha⟩

theorem isValue_int {m : Int} : (int m).isValue n ↔ m = n := by
  simp [isValue, compare?]

theorem isFinite_of_isValue (h : (float x).isValue n) : x.isFinite := by
  have heq : compareFloatInt? x n = some .eq := eq_of_beq h
  unfold compareFloatInt? at heq
  split at heq
  · rename_i d hd
    exact isFinite_of_ofFloat? hd
  · split at heq
    · contradiction
    · split at heq <;> contradiction

/-- The exact value of a double decides which integer it is. -/
theorem isValue_float_iff {d : Binary} (hd : Binary.ofFloat? x = some d) : (float x).isValue n ↔
    d.signed (d.mant * Nat.pow 2 d.exp.toNat) = n * Nat.pow 2 (-d.exp).toNat := by
  have hcompare : (float x).compare? (int n) = some (d.compareInt n) := by
    simp only [compare?, compareFloatInt?, hd]
  rw [isValue, hcompare, beq_iff_eq, Option.some.injEq]
  exact Int.compare_eq_eq

theorem natAbs_signed (d : Binary) (n : Nat) : (d.signed n).natAbs = n := by
  unfold Binary.signed
  split <;> omega

/-- A number is zero exactly if its nearest double is. -/
theorem isZero_toFloat_iff : IsZero a.toFloat.toModel.unpack ↔ a.isValue 0 := by
  cases a with
  | int n =>
    rw [isValue_int]
    constructor
    · exact fun h => Decidable.byContradiction fun hn => floatOfInt_ne_zero hn h
    · rintro rfl
      exact ⟨.positive, rfl⟩
  | float x =>
    by_cases hfinite : x.isFinite
    · obtain ⟨d, hd, hholds⟩ := ofFloat?_of_isFinite hfinite
      have hpos : Nat.pow 2 d.exp.toNat ≠ 0 := Nat.ne_of_gt (Nat.two_pow_pos _)
      rw [isValue_float_iff hd, Int.zero_mul, ← Int.natAbs_eq_zero, natAbs_signed, Nat.mul_eq_zero,
        or_iff_left hpos]
      exact hholds.isZero_iff
    · refine iff_of_false ?_ fun h => hfinite (isFinite_of_isValue h)
      rintro ⟨s, hs⟩
      exact hfinite (congrArg Float.Model.UnpackedFloat.isFinite hs)

/-- The nearest double of one is one. -/
theorem isOne_toFloat (h : a.isValue 1) : IsOne a.toFloat.toModel.unpack := by
  cases a with
  | int n =>
    obtain rfl := isValue_int.1 h
    exact ⟨.positive, by decide, rfl⟩
  | float x =>
    obtain ⟨⟨neg, m, e⟩, hd, hholds⟩ := ofFloat?_of_isFinite (isFinite_of_isValue h)
    have hsize := congrArg Int.natAbs ((isValue_float_iff hd).1 h)
    rw [natAbs_signed, Int.one_mul, Int.natAbs_natCast] at hsize
    exact hholds.isOne hsize

theorem isSome_normalize? {f : Float.Model.UnpackedFloat} (h : Double.IsFinite f) :
    (normalize? (.ofModel (.pack f))).isSome :=
  normalize?_of_isFinite (isFinite_pack h)

/-- Idle arithmetic on finite numbers has a result, the division of zero by zero apart. -/
theorem isSome_floatArith? (hpow : op ≠ .pow) (ha : a.toFloat.isFinite) (hb : b.toFloat.isFinite)
    (hidle : Idle op a b) (hdiv : ¬ IsZeroByZero op a b) :
    (floatArith? op a.toFloat b.toFloat).isSome := by
  have hx := isFinite_of_float ha
  have hy := isFinite_of_float hb
  have hzero {c : Number} : c.isValue 0 → IsZero c.toFloat.toModel.unpack := isZero_toFloat_iff.2
  have hone {c : Number} : c.isValue 1 → IsOne c.toFloat.toModel.unpack := isOne_toFloat
  cases op with
  | add =>
    rw [idle_singletons rfl rfl] at hidle
    apply isSome_normalize?
    exact isFinite_add hx hy (hidle.imp hzero hzero)
  | sub =>
    rw [idle_singletons rfl rfl] at hidle
    apply isSome_normalize?
    exact isFinite_sub hx hy (hidle.imp hzero hzero)
  | mul =>
    simp only [Idle, BinOp.idleLeft, BinOp.idleRight, List.mem_cons, List.not_mem_nil, or_false,
      or_and_right, exists_or, exists_eq_left] at hidle
    apply isSome_normalize?
    rcases hidle with (ha | ha) | (hb | hb)
    · exact isFinite_mul_zero hx hy (.inl (hzero ha))
    · rw [mul_swap]
      obtain ⟨m, e, hy⟩ := hy
      exact ⟨m, e, holds_mul_one hy (hone ha)⟩
    · exact isFinite_mul_zero hx hy (.inr (hzero hb))
    · obtain ⟨m, e, hx⟩ := hx
      exact ⟨m, e, holds_mul_one hx (hone hb)⟩
  | div =>
    rw [idle_singletons rfl rfl] at hidle
    apply isSome_normalize?
    rcases hidle with ha | hb
    · refine isFinite_zero_div (hzero ha) hy fun hy => ?_
      exact hdiv ⟨.inl rfl, ha, isZero_toFloat_iff.1 hy⟩
    · exact isFinite_div_one hx (hone hb)
  | rem =>
    rw [idle_singletons rfl rfl] at hidle
    have hne : ¬ IsZero b.toFloat.toModel.unpack := by
      intro hy
      rcases hidle with ha | hb
      · exact hdiv ⟨.inr rfl, ha, isZero_toFloat_iff.1 hy⟩
      · exact (hone hb).not_isZero hy
    obtain ⟨z, hz, hfinite⟩ := floatRem?_of_isFinite ha hb hne
    rw [floatArith?, hz]
    exact normalize?_of_isFinite hfinite
  | pow => contradiction
  | _ => simp [Idle, BinOp.idleLeft, BinOp.idleRight] at hidle

/-- A number in the range of doubles has a form in which it can be computed with. -/
theorem settle?_of_isFinite (h : a.toFloat.isFinite) :
    ∃ a', a.settle? = some a' ∧ a'.toFloat = a.toFloat := by
  cases a with
  | int n =>
    have hfinite : (floatOfInt n).isFinite := h
    simp only [settle?, hfinite, if_true]
    split <;> exact ⟨_, rfl, rfl⟩
  | float x => exact ⟨_, rfl, rfl⟩

theorem isSome_arith? (h : (floatArith? op a.toFloat b.toFloat).isSome) :
    (arith? op a b).isSome := by
  unfold arith?
  split
  · split
    · split
      · rfl
      · exact h
    · exact h
  · exact h

end Number

variable {op : BinOp} {a b : Number}

/-- Arithmetic folds to numbers. -/
theorem fold?_arithmetic {c : Constant} (hop : op ∈ BinOp.arithmetic) (h : fold? op a b = some c) :
    ∃ v, c = .number v := by
  unfold fold? at h
  split at h
  · rw [BinOp.holds?_arithmetic hop] at h
    obtain ⟨v, -, rfl⟩ := Option.map_eq_some_iff.1 h
    exact ⟨v, rfl⟩
  · contradiction

/-- A neutral or absorbing literal never keeps doubles from being folded, unless zero is divided by
zero. -/
theorem isSome_fold? (hop : op ∈ BinOp.arithmetic) (hpow : op ≠ .pow) (ha : a.toFloat.isFinite)
    (hb : b.toFloat.isFinite) (hidle : Number.Idle op a b) (hdiv : ¬ Number.IsZeroByZero op a b) :
    (fold? op a b).isSome := by
  obtain ⟨a', hsa, ha'⟩ := Number.settle?_of_isFinite ha
  obtain ⟨b', hsb, hb'⟩ := Number.settle?_of_isFinite hb
  have hsome := Number.isSome_floatArith? hpow ha hb hidle hdiv
  rw [← ha', ← hb'] at hsome
  simp only [fold?, hsa, hsb, BinOp.holds?_arithmetic hop, Option.isSome_map]
  exact Number.isSome_arith? hsome

end Terse
