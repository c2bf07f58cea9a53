import Terse.Proofs.Number.Double

/-! Arithmetic on doubles that stays finite: rounding, and operations of which one side is zero or
one. -/
namespace Terse.Double

open Float.Model Float.Model.UnpackedFloat

variable {x y : Float} {s : Sign} {m k : Nat} {e : Int} {f g : UnpackedFloat}

theorem mantissa_shiftRight (em : ExtendedMantissa) (k : Nat) :
    (em >>> k).mantissa = em.mantissa / Nat.pow 2 k := by
  induction k with
  | zero => exact (Nat.div_one _).symm
  | succ k ih =>
    change (em >>> k).mantissa / 2 = _
    rw [ih, Nat.div_div_eq_div_mul]
    rfl

theorem mantissa_ofMantissaAndAccuracy (m : Nat) (a : Accuracy) :
    (ExtendedMantissa.ofMantissaAndAccuracy m a).mantissa = m := by
  cases a with
  | exact => rfl
  | inexact o => cases o <;> rfl

theorem le_roundedMantissa (em : ExtendedMantissa) : em.mantissa ≤ em.roundedMantissa := by
  rcases em with ⟨m, _ | _, _ | _⟩
  · exact Nat.le_refl m
  · exact Nat.le_refl m
  · exact Nat.le_add_right m _
  · exact Nat.le_add_right m 1

/-- The exponent to which a number is shifted: it leaves room for the bits of a double, if it
can. -/
theorem targetExponent_eq (m : Nat) (e : Int) :
    Format.binary64.targetExponent (totalExponent m e) = max (m.log2 + e - 52) (-1074) := by
  have hbits : (Format.binary64.mantissaBits : Int) = 53 := rfl
  have hmin : Format.binary64.minExponent = -1074 := rfl
  rw [Format.targetExponent, totalExponent, hbits, hmin]
  omega

/-- The first bits of a number, if it has more than a double has room for. -/
theorem div_pow_log2 (hm : 0 < m) (hk : m.log2 = 52 + k) :
    0x10000000000000 ≤ m / Nat.pow 2 k ∧ m / Nat.pow 2 k < 0x20000000000000 := by
  have hpos : 0 < Nat.pow 2 k := Nat.two_pow_pos k
  have hlow := Nat.log2_self_le (Nat.ne_of_gt hm)
  have hhigh := Nat.lt_log2_self (n := m)
  rw [hk, Nat.pow_add] at hlow
  rw [hk, Nat.add_right_comm, Nat.pow_add] at hhigh
  exact ⟨(Nat.le_div_iff_mul_le hpos).2 hlow, (Nat.div_lt_iff_lt_mul hpos).2 hhigh⟩

/-- A number other than zero is not shifted out. -/
theorem shiftToTargetExponent_pos (hm : 0 < m) (he : -1074 ≤ e) (a : Accuracy) :
    0 < (shiftToTargetExponent .binary64 m e a).1.mantissa ∧
    (shiftToTargetExponent .binary64 m e a).1.mantissa < 0x20000000000000 ∧
    -1074 ≤ (shiftToTargetExponent .binary64 m e a).2 := by
  simp only [shiftToTargetExponent, shiftToExponent, mantissa_shiftRight,
    mantissa_ofMantissaAndAccuracy, targetExponent_eq]
  generalize hk : (max (m.log2 + e - 52) (-1074) - e).toNat = k
  rcases Nat.eq_zero_or_pos k with hzero | hpos
  · have hroom : m.log2 < 53 := by omega
    have hlt : m < 0x20000000000000 := (Nat.log2_lt (Nat.ne_of_gt hm)).1 hroom
    rw [hzero]
    exact ⟨(Nat.div_one m).symm ▸ hm, (Nat.div_one m).symm ▸ hlt, by omega⟩
  · obtain ⟨hlow, hhigh⟩ := div_pow_log2 (k := k) hm (by omega)
    exact ⟨by omega, hhigh, by omega⟩

/-- Rounding gives a double other than zero, though it may be too large to be stored. -/
theorem roundWithAccuracy_pos (hm : 0 < m) (he : -1074 ≤ e) (s : Sign) (a : Accuracy) :
    ∃ n i hn, roundWithAccuracy .binary64 s m e a = .finite s n i hn ∧
      n < 0x20000000000000 ∧ -1074 ≤ i := by
  obtain ⟨hfirst, -, hexp⟩ := shiftToTargetExponent_pos hm he a
  have hrounded := Nat.lt_of_lt_of_le hfirst (le_roundedMantissa _)
  obtain ⟨hpos, hlt, hle⟩ := shiftToTargetExponent_pos hrounded hexp .exact
  refine ⟨_, _, hpos, ?_, hlt, hle⟩
  unfold roundWithAccuracy
  exact dif_neg (Nat.ne_of_gt hpos)

theorem log2_mul_pow (hm : 0 < m) (k : Nat) : (m * Nat.pow 2 k).log2 = m.log2 + k := by
  have hpos : 0 < Nat.pow 2 k := Nat.two_pow_pos k
  refine (Nat.log2_eq_iff (Nat.ne_of_gt (Nat.mul_pos hm hpos))).2 ?_
  rw [Nat.pow_add, Nat.add_right_comm, Nat.pow_add]
  exact ⟨Nat.mul_le_mul_right _ (Nat.log2_self_le (Nat.ne_of_gt hm)),
    Nat.mul_lt_mul_of_pos_right Nat.lt_log2_self hpos⟩

theorem Canonical.log2_cases (h : Canonical m e) : m.log2 ≤ 52 ∧ (m.log2 = 52 ∨ e = -1074) := by
  have hlt : m.log2 < 53 := (Nat.log2_lt (Nat.ne_of_gt h.pos)).2 h.lt
  refine ⟨by omega, h.normal.imp_left fun hn => ?_⟩
  have hle : 52 ≤ m.log2 := (Nat.le_log2 (Nat.ne_of_gt h.pos)).2 hn
  omega

theorem shiftRight_exact (m k : Nat) :
    (⟨m * Nat.pow 2 k, false, false⟩ : ExtendedMantissa) >>> k = ⟨m, false, false⟩ := by
  induction k generalizing m with
  | zero => rw [show Nat.pow 2 0 = 1 from rfl, Nat.mul_one]; rfl
  | succ k ih =>
    have hpow : m * Nat.pow 2 (k + 1) = m * 2 * Nat.pow 2 k := by
      change m * (Nat.pow 2 k * 2) = _
      rw [Nat.mul_comm (Nat.pow 2 k), Nat.mul_assoc]
    rw [hpow]
    change ((⟨m * 2 * Nat.pow 2 k, false, false⟩ : ExtendedMantissa) >>> k).shiftRightOne = _
    rw [ih]
    simp [ExtendedMantissa.shiftRightOne]

/-- A number that a double can hold is not changed, whatever zeros are appended to it. -/
theorem roundWithAccuracy_exact (h : Canonical m e) (s : Sign) (k : Nat) :
    roundWithAccuracy .binary64 s (m * Nat.pow 2 k) (e - k) .exact = .finite s m e h.pos := by
  have hshift (k : Nat) : shiftToTargetExponent .binary64 (m * Nat.pow 2 k) (e - k) .exact =
      (⟨m, false, false⟩, e) := by
    obtain ⟨hle, hlog⟩ := h.log2_cases
    have hexp := h.le_exp
    have htarget : max (((m * Nat.pow 2 k).log2 : Int) + (e - k) - 52) (-1074) = e := by
      rw [log2_mul_pow h.pos]
      omega
    have hk : (e - (e - (k : Int))).toNat = k := by omega
    simp only [shiftToTargetExponent, shiftToExponent, targetExponent_eq, htarget, hk]
    refine Prod.ext (shiftRight_exact m k) ?_
    omega
  have hagain := hshift 0
  rw [show Nat.pow 2 0 = 1 from rfl, Nat.mul_one, Int.natCast_zero, Int.sub_zero] at hagain
  unfold roundWithAccuracy
  rw [hshift k]
  dsimp only
  have hr : (ExtendedMantissa.mk m false false).roundedMantissa = m := rfl
  rw [hr, hagain]
  exact dif_neg (Nat.ne_of_gt h.pos)

/-- A sum with zero is finite. -/
theorem isFinite_add (hf : IsFinite f) (hg : IsFinite g) (h : IsZero f ∨ IsZero g) :
    IsFinite (UnpackedFloat.add .binary64 f g) := by
  obtain ⟨m, e, hf⟩ := hf
  obtain ⟨n, i, hg⟩ := hg
  cases hf with
  | zero s =>
    cases hg with
    | zero t =>
      unfold UnpackedFloat.add
      dsimp only
      split <;> exact isFinite_zero _
    | finite t hc => exact ⟨_, _, .finite t hc⟩
  | finite s hc =>
    cases hg with
    | zero t => exact ⟨_, _, .finite s hc⟩
    | finite t => rcases h with ⟨_, h⟩ | ⟨_, h⟩ <;> contradiction

theorem apply_neg (s : Sign) (n : Int) : (-s).apply n = -s.apply n := by
  cases s with
  | positive => rfl
  | negative => exact (Int.neg_neg n).symm

/-- A difference is a sum with a negated side. -/
theorem sub_eq_add (f g : UnpackedFloat) :
    UnpackedFloat.sub .binary64 f g = UnpackedFloat.add .binary64 f g.neg := by
  cases f with
  | finite =>
    cases g with
    | finite t =>
      change normalize .binary64 (_ - t.apply _) _ _ = normalize .binary64 (_ + (-t).apply _) _ _
      rw [apply_neg, ← Int.sub_eq_add_neg]
    | _ => rfl
  | _ => cases g <;> rfl

theorem isFinite_sub (hf : IsFinite f) (hg : IsFinite g) (h : IsZero f ∨ IsZero g) :
    IsFinite (UnpackedFloat.sub .binary64 f g) := by
  rw [sub_eq_add]
  exact isFinite_add hf hg.neg (h.imp_right IsZero.neg)

theorem isFinite_mul_zero (hf : IsFinite f) (hg : IsFinite g) (h : IsZero f ∨ IsZero g) :
    IsFinite (UnpackedFloat.mul .binary64 f g) := by
  obtain ⟨m, e, hf⟩ := hf
  obtain ⟨n, i, hg⟩ := hg
  cases hf with
  | zero s => cases hg <;> exact isFinite_zero _
  | finite s hc =>
    cases hg with
    | zero t => exact isFinite_zero _
    | finite t => rcases h with ⟨_, h⟩ | ⟨_, h⟩ <;> contradiction

/-- A product with one is the other factor, up to its sign. -/
theorem holds_mul_one (hf : Holds m e f) (hg : IsOne g) :
    Holds m e (UnpackedFloat.mul .binary64 f g) := by
  obtain ⟨t, hm, rfl⟩ := hg
  cases hf with
  | zero s => exact .zero _
  | finite s h =>
    change Holds m e (roundWithAccuracy .binary64 (s * t) (m * Nat.pow 2 52)
      (e - (52 : Nat)) .exact)
    rw [roundWithAccuracy_exact h]
    exact .finite _ h

theorem mul_swap (f g : UnpackedFloat) :
    UnpackedFloat.mul .binary64 f g = UnpackedFloat.mul .binary64 g f := by
  have hsign (s t : Sign) : s * t = t * s := by cases s <;> cases t <;> rfl
  cases f with
  | finite s =>
    cases g with
    | finite t =>
      change roundWithAccuracy _ (s * t) _ _ _ = roundWithAccuracy _ (t * s) _ _ _
      rw [hsign, Nat.mul_comm, Int.add_comm]
    | infinity t => exact congrArg infinity (hsign s t)
    | zero t => exact congrArg zero (hsign s t)
    | notANumber => rfl
  | infinity s => cases g <;> first | rfl | exact congrArg infinity (hsign s _)
  | zero s => cases g <;> first | rfl | exact congrArg zero (hsign s _)
  | notANumber => cases g <;> rfl

/-- Division by one appends zeros at most. -/
theorem divCore_one (h : Canonical m e) : ∃ k : Nat,
    divCore .binary64 m e 0x10000000000000 (-52) = (m * Nat.pow 2 k, e - k, .exact) := by
  obtain ⟨hle, -⟩ := h.log2_cases
  have hexp := h.le_exp
  have htarget : Format.binary64.targetExponent
      (totalExponent m e - totalExponent 0x10000000000000 (-52)) =
        max (m.log2 + e - 53) (-1074) := by
    have hbits : (Format.binary64.mantissaBits : Int) = 53 := rfl
    have hmin : Format.binary64.minExponent = -1074 := rfl
    have hone : totalExponent 0x10000000000000 (-52) = 1 := rfl
    rw [Format.targetExponent, hone, totalExponent, hbits, hmin]
    omega
  generalize hk : (e - max (m.log2 + e - 53) (-1074)).toNat = k
  have hmin : min (e - (-52)) (max (m.log2 + e - 53) (-1074)) = e - k := by omega
  have hshift : (e - (-52) - (e - (k : Int))).toNat = k + 52 := by omega
  have hmant : m <<< (k + 52) = m * Nat.pow 2 k * 0x10000000000000 := by
    rw [Nat.shiftLeft_eq, Nat.pow_add, ← Nat.mul_assoc]
    rfl
  refine ⟨k, ?_⟩
  simp only [divCore, htarget, hmin, hshift, hmant]
  rw [Nat.mul_div_cancel _ (by decide), Nat.mul_mod_left]
  rfl

/-- A quotient by one is finite. -/
theorem isFinite_div_one (hf : IsFinite f) (hg : IsOne g) :
    IsFinite (UnpackedFloat.div .binary64 f g) := by
  obtain ⟨m, e, hf⟩ := hf
  obtain ⟨t, hm, rfl⟩ := hg
  cases hf with
  | zero s => exact isFinite_zero _
  | finite s h =>
    obtain ⟨k, hk⟩ := divCore_one h
    have hdiv : UnpackedFloat.div .binary64 (.finite s m e h.pos)
        (.finite t 0x10000000000000 (-52) hm) = .finite (s / t) m e h.pos := by
      unfold UnpackedFloat.div
      dsimp only
      rw [hk]
      exact roundWithAccuracy_exact h (s / t) k
    exact hdiv ▸ ⟨_, _, .finite _ h⟩

/-- Zero divided by anything but zero is finite. -/
theorem isFinite_zero_div (hf : IsZero f) (hg : IsFinite g) (hne : ¬ IsZero g) :
    IsFinite (UnpackedFloat.div .binary64 f g) := by
  obtain ⟨s, rfl⟩ := hf
  obtain ⟨n, i, hg⟩ := hg
  cases hg with
  | zero t => exact absurd ⟨t, rfl⟩ hne
  | finite t hc => exact isFinite_zero _

theorem isFinite_ofBits {w : UInt64} (h : exponentField w.toBitVec ≠ 0x7ff) :
    (Float.ofBits w).isFinite :=
  isFinite_pack (isFinite_unpack h)

theorem exponentField_ofNat {n : Nat} (h : n < 0x10000000000000000) :
    exponentField n.toUInt64.toBitVec = n / 0x10000000000000 % 0x800 := by
  rw [← toNat_exponent, UInt64.toNat_and, UInt64.toNat_shiftRight]
  refine (Nat.and_two_pow_sub_one_eq_mod _ 11).trans ?_
  rw [Nat.shiftRight_eq_div_pow]
  have hn : n.toUInt64.toNat = n := Nat.mod_eq_of_lt h
  rw [hn]
  rfl

theorem mul_pow_lt {i : Nat} (hm : m ≠ 0) (h : m.log2 + k < i) : m * Nat.pow 2 k < Nat.pow 2 i := by
  have hpos := Nat.pos_of_ne_zero hm
  have hne : m * Nat.pow 2 k ≠ 0 := Nat.ne_of_gt (Nat.mul_pos hpos (Nat.two_pow_pos k))
  exact (Nat.log2_lt hne).1 (log2_mul_pow hpos k ▸ h)

/-- The binary fractions that have a place among the doubles. -/
theorem isFinite_toFloat {d : Binary} (hm : d.mant < 0x20000000000000) (hlow : -1074 ≤ d.exp)
    (hhigh : d.exp ≤ 971) : d.toFloat.isFinite := by
  obtain ⟨neg, m, e⟩ := d
  dsimp only at hm hlow hhigh
  unfold Binary.toFloat
  dsimp only
  have hsign : ∃ n : Nat, n ≤ 1 ∧
      (if neg = true then Nat.pow 2 63 else 0) = n * 0x8000000000000000 := by
    cases neg
    · exact ⟨0, by decide, rfl⟩
    · exact ⟨1, by decide, rfl⟩
  obtain ⟨n, hn, hsign⟩ := hsign
  rw [hsign]
  split
  · refine isFinite_ofBits ?_
    rw [exponentField_ofNat (by omega)]
    omega
  · rename_i hne
    have hlog : m.log2 < 53 := (Nat.log2_lt hne).2 hm
    split
    · rename_i hsub
      have hlt : m * Nat.pow 2 (e + 1074).toNat < 0x10000000000000 :=
        mul_pow_lt (i := 52) hne (by omega)
      refine isFinite_ofBits ?_
      rw [exponentField_ofNat (by omega)]
      omega
    · rename_i hnormal
      have hlt : m * Nat.pow 2 (52 - m.log2) < 0x20000000000000 :=
        mul_pow_lt (i := 53) hne (by omega)
      rw [show Nat.pow 2 52 = 0x10000000000000 from rfl]
      refine isFinite_ofBits ?_
      rw [exponentField_ofNat (by omega)]
      omega

/-- The remainder of two finite doubles is one, unless the divisor is zero. -/
theorem floatRem?_of_isFinite (hx : x.isFinite) (hy : y.isFinite)
    (hne : ¬ IsZero y.toModel.unpack) : ∃ z, Number.floatRem? x y = some z ∧ z.isFinite := by
  obtain ⟨a, ha, hholds⟩ := ofFloat?_of_isFinite hx
  obtain ⟨d, hd, hdiv⟩ := ofFloat?_of_isFinite hy
  obtain ⟨hma, hlow, hhigh⟩ := hholds.bounds
  obtain ⟨hmd, hlow', hhigh'⟩ := hdiv.bounds
  have hpos : d.mant ≠ 0 := fun h => hne (hdiv.isZero_iff.2 h)
  simp only [Number.floatRem?, ha, hd, Binary.rem?, if_neg hpos, Option.map_some]
  refine ⟨_, rfl, isFinite_toFloat ?_ ?_ ?_⟩
  · dsimp only
    -- one of the two sides is not scaled, and bounds the remainder
    rcases Int.le_total a.exp d.exp with hle | hle
    · rw [Int.min_eq_left hle, Int.sub_self]
      refine Nat.lt_of_le_of_lt (Nat.mod_le _ _) ?_
      exact (Nat.mul_one a.mant).symm ▸ hma
    · rw [Int.min_eq_right hle, Int.sub_self]
      have hscale : d.mant * Nat.pow 2 (0 : Int).toNat = d.mant := Nat.mul_one d.mant
      rw [hscale]
      exact Nat.lt_trans (Nat.mod_lt _ (Nat.pos_of_ne_zero hpos)) hmd
  · dsimp only
    omega
  · dsimp only
    omega

theorem normalize?_of_isFinite (h : x.isFinite) : (Number.normalize? x).isSome := by
  obtain ⟨d, hd, -⟩ := ofFloat?_of_isFinite h
  rw [Number.normalize?, hd]
  dsimp only
  split <;> rfl

theorem nonzero_roundWithAccuracy (hm : 0 < m) (he : -1074 ≤ e) (s : Sign) (a : Accuracy) :
    Nonzero (roundWithAccuracy .binary64 s m e a) := by
  obtain ⟨n, i, hn, hround, hlt, hle⟩ := roundWithAccuracy_pos hm he s a
  exact hround ▸ .finite s hn hlt hle

/-- A product with one does not become zero. -/
theorem Nonzero.mul_one {v : Float.Model} (h : Nonzero v.unpack) (hg : IsOne g) :
    Nonzero (UnpackedFloat.mul .binary64 v.unpack g) := by
  by_cases hmax : exponentField v.toBits.toBitVec = 0x7ff
  · have hfalse : v.unpack.isFinite = false := not_isFinite_unpack hmax
    obtain ⟨t, hm, rfl⟩ := hg
    generalize v.unpack = f at h hfalse
    cases h with
    | notANumber => exact .notANumber
    | infinity s => exact .infinity (s * t)
    | finite => contradiction
  · obtain ⟨n, i, hholds⟩ := isFinite_unpack hmax
    refine (holds_mul_one hholds hg).nonzero fun hn => ?_
    obtain ⟨s, hs⟩ := hholds.isZero_iff.2 hn
    change v.unpack = .zero s at hs
    rw [hs] at h
    cases h

theorem nonzero_ofNat (hk : 0 < k) : Nonzero (UnpackedFloat.ofNat .binary64 k) := by
  have hcompare : compare (k : Int) 0 = .gt := Int.compare_eq_gt.2 (by omega)
  simp only [UnpackedFloat.ofNat, UnpackedFloat.ofInt, UnpackedFloat.normalize, hcompare,
    UnpackedFloat.round, decreaseExponent, Int.toNat_natCast]
  refine nonzero_roundWithAccuracy ?_ ?_ _ _
  · rw [Nat.shiftLeft_eq]
    exact Nat.mul_pos hk (Nat.two_pow_pos _)
  · rw [targetExponent_eq]
    omega

theorem isOne_one : IsOne (Float.ofBits 0x3ff0000000000000).toModel.unpack :=
  ⟨.positive, by decide, rfl⟩

/-- A decimal without a fraction is a product. -/
theorem ofScientific_ofNat (hm : 0 < m) (hk : k ≤ 2048) :
    UnpackedFloat.ofScientific .binary64 m k =
      UnpackedFloat.mul .binary64 (.finite .positive (m * Nat.pow 2 53) (-53)
        (Nat.mul_pos hm (Nat.two_pow_pos 53)))
        (.finite .positive (Nat.pow 10 k) 0 (Nat.pow_pos (by decide))) := by
  have hlarge : ¬ (k : Int) > 2048 := by omega
  have hsmall : ¬ (k : Int) < -(2048 + (m.log2 : Int)) := by omega
  have hshift : m <<< 53 = m * Nat.pow 2 53 := Nat.shiftLeft_eq m 53
  unfold UnpackedFloat.ofScientific
  rw [dif_neg (Nat.ne_of_gt hm)]
  refine (if_neg hlarge).trans ((if_neg hsmall).trans ((if_pos (Int.natCast_nonneg k)).trans ?_))
  change roundWithAccuracy _ _ (m <<< 53 * Nat.pow 10 k) _ _ = _
  rw [hshift]
  rfl

theorem nonzero_ofScientific (hk : 0 < k) : Nonzero (UnpackedFloat.ofScientific .binary64 k 0) := by
  have hmul := ofScientific_ofNat (k := 0) hk (by decide)
  rw [Int.natCast_zero] at hmul
  rw [hmul]
  exact nonzero_roundWithAccuracy (Nat.mul_pos (Nat.mul_pos hk (Nat.two_pow_pos 53)) (by decide))
    (by decide) _ _

/-- A positive integer has no zero for its nearest double. -/
theorem ofScientific_ne_zero (hk : 0 < k) :
    ¬ IsZero (Float.ofScientific k false 0).toModel.unpack := by
  unfold Float.ofScientific
  split
  · rename_i h
    have hnat : k.toUInt64.toNat = k := Nat.mod_eq_of_lt (Nat.lt_trans h.1 (by decide))
    have hfloat : ¬ IsZero k.toUInt64.toFloat.toModel.unpack := by
      apply Nonzero.unpack_pack
      rw [UnpackedFloat.ofUInt64, hnat]
      exact nonzero_ofNat hk
    dsimp only
    rw [if_neg Bool.false_ne_true]
    apply Nonzero.unpack_pack
    refine (nonzero_unpack hfloat).mul_one ?_
    exact isOne_one
  · dsimp only
    rw [if_neg Bool.false_ne_true]
    exact (nonzero_ofScientific hk).unpack_pack

/-- The one double whose size is one. -/
theorem Holds.isOne (h : Holds m e f) (hsize : m * Nat.pow 2 e.toNat = Nat.pow 2 (-e).toNat) :
    IsOne f := by
  have hpos : 0 < Nat.pow 2 (-e).toNat := Nat.two_pow_pos _
  cases h with
  | zero s =>
    rw [← hsize, Nat.zero_mul] at hpos
    contradiction
  | finite s h =>
    obtain ⟨hle, hlog⟩ := h.log2_cases
    have hbits : m.log2 + e.toNat = (-e).toNat := by
      rw [← log2_mul_pow h.pos, hsize]
      exact Nat.log2_two_pow
    obtain rfl : e = -52 := by omega
    obtain rfl : m = 0x10000000000000 := (Nat.mul_one m).symm.trans hsize
    exact ⟨s, _, rfl⟩

/-- Only zero is read as zero. -/
theorem floatOfInt_ne_zero {n : Int} (hn : n ≠ 0) : ¬ IsZero (floatOfInt n).toModel.unpack := by
  have hsize : ¬ IsZero (Float.ofScientific n.natAbs false 0).toModel.unpack :=
    ofScientific_ne_zero (by omega)
  unfold floatOfInt
  split
  · exact (nonzero_unpack hsize).neg.unpack_pack
  · exact hsize

end Terse.Double
