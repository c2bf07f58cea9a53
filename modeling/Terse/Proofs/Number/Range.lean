import Terse.Proofs.Number.Rounding

/-! The range of doubles: which numbers are rounded to a finite double, and which are too large. The
border lies half a step above the largest double, at `2 ^ 1024 - 2 ^ 970`. -/
namespace Terse.Double

open Float.Model Float.Model.UnpackedFloat

variable {s t : Sign} {m n k : Nat} {e i : Int} {a : Accuracy}

/-! ### Rounding -/

theorem snd_shiftToTargetExponent (m : Nat) (e : Int) (a : Accuracy) :
    (shiftToTargetExponent .binary64 m e a).2 = max e (max (m.log2 + e - 52) (-1074)) := by
  simp only [shiftToTargetExponent, shiftToExponent, targetExponent_eq]
  omega

theorem mantissa_shiftToTargetExponent_lt (m : Nat) (e : Int) (a : Accuracy) :
    (shiftToTargetExponent .binary64 m e a).1.mantissa < 0x20000000000000 := by
  simp only [shiftToTargetExponent, shiftToExponent, mantissa_shiftRight,
    mantissa_ofMantissaAndAccuracy, targetExponent_eq]
  generalize hk : (max (m.log2 + e - 52) (-1074) - e).toNat = k
  have hpos : 0 < Nat.pow 2 k := Nat.two_pow_pos k
  refine (Nat.div_lt_iff_lt_mul hpos).2 ?_
  have hlog : m < Nat.pow 2 (m.log2 + 1) := Nat.lt_log2_self
  have hpow : Nat.pow 2 (m.log2 + 1) ≤ Nat.pow 2 (53 + k) :=
    Nat.pow_le_pow_right (by decide) (by omega)
  have hsplit : Nat.pow 2 (53 + k) = 0x20000000000000 * Nat.pow 2 k := Nat.pow_add 2 53 k
  omega

theorem roundedMantissa_le (em : ExtendedMantissa) : em.roundedMantissa ≤ em.mantissa + 1 := by
  rcases em with ⟨m, _ | _, _ | _⟩
  · exact Nat.le_succ m
  · exact Nat.le_succ m
  · change m + m % 2 ≤ m + 1
    omega
  · exact Nat.le_refl _

/-- A number that has the bits of a double before it is shifted. -/
theorem shiftToTargetExponent_high (hlog : 52 ≤ m.log2) (he : -1022 ≤ m.log2 + e) (a : Accuracy) :
    shiftToTargetExponent .binary64 m e a =
      (ExtendedMantissa.ofMantissaAndAccuracy m a >>> (m.log2 - 52), m.log2 + e - 52) := by
  have hshift : (max (m.log2 + e - 52) (-1074) - e).toNat = m.log2 - 52 := by omega
  simp only [shiftToTargetExponent, shiftToExponent, targetExponent_eq, hshift]
  refine Prod.ext rfl ?_
  dsimp only
  omega

/-- The last bit that is rounded away tells most about the rounding. -/
theorem roundedMantissa_shift_lt (hp : m / Nat.pow 2 k < 0x40000000000000) :
    (ExtendedMantissa.ofMantissaAndAccuracy m a >>> (k + 1)).roundedMantissa < 0x20000000000000 ↔
      m / Nat.pow 2 k < 0x3fffffffffffff := by
  have hshift : ExtendedMantissa.ofMantissaAndAccuracy m a >>> (k + 1) =
      (ExtendedMantissa.ofMantissaAndAccuracy m a >>> k).shiftRightOne := rfl
  have hmant := mantissa_shiftRight (.ofMantissaAndAccuracy m a) k
  rw [mantissa_ofMantissaAndAccuracy] at hmant
  rw [hshift, ← hmant]
  rw [← hmant] at hp
  generalize ExtendedMantissa.ofMantissaAndAccuracy m a >>> k = em at hp
  obtain ⟨p, r, b⟩ := em
  change p < _ at hp
  change ExtendedMantissa.roundedMantissa ⟨p / 2, p % 2 != 0, r || b⟩ < _ ↔ p < _
  by_cases hodd : p % 2 = 0
  · have hround : ExtendedMantissa.roundedMantissa ⟨p / 2, p % 2 != 0, r || b⟩ = p / 2 := by
      rw [hodd]
      cases r || b <;> rfl
    rw [hround]
    omega
  · have hround : ExtendedMantissa.roundedMantissa ⟨p / 2, p % 2 != 0, r || b⟩ =
        p / 2 + if r || b then 1 else p / 2 % 2 := by
      have hbit : (p % 2 != 0) = true := by simpa using hodd
      rw [hbit]
      cases r || b <;> rfl
    rw [hround]
    split <;> omega

/-- Rounding such a number gives it the exponent of its bits. -/
theorem roundWithAccuracy_high (hlog : 52 ≤ m.log2) (he : -1022 ≤ m.log2 + e) (s : Sign)
    (a : Accuracy) : ∃ n hn, roundWithAccuracy .binary64 s m e a = .finite s n
      ((ExtendedMantissa.ofMantissaAndAccuracy m a >>> (m.log2 - 52)).roundedMantissa.log2 +
        (m.log2 + e - 52) - 52) hn ∧
      52 ≤ (ExtendedMantissa.ofMantissaAndAccuracy m a >>> (m.log2 - 52)).roundedMantissa.log2 := by
  have hm : 0 < m := by
    rcases Nat.eq_zero_or_pos m with rfl | hm
    · contradiction
    · exact hm
  have hmant := mantissa_shiftRight (.ofMantissaAndAccuracy m a) (m.log2 - 52)
  rw [mantissa_ofMantissaAndAccuracy] at hmant
  have hround := le_roundedMantissa (ExtendedMantissa.ofMantissaAndAccuracy m a >>> (m.log2 - 52))
  have hlow := (div_pow_log2 (k := m.log2 - 52) hm (by omega)).1
  have hfirst := shiftToTargetExponent_high hlog he a
  generalize hr : (ExtendedMantissa.ofMantissaAndAccuracy m a >>> (m.log2 - 52)).roundedMantissa = r
    at hround
  have hrlog : 52 ≤ r.log2 := (Nat.le_log2 (by omega)).2 (by omega)
  have hsecond := shiftToTargetExponent_high (e := m.log2 + e - 52) hrlog (by omega) .exact
  have hfinal : 0 < (ExtendedMantissa.ofMantissaAndAccuracy r .exact >>>
      (r.log2 - 52)).mantissa := by
    have hpos := (div_pow_log2 (m := r) (k := r.log2 - 52) (by omega) (by omega)).1
    rw [mantissa_shiftRight, mantissa_ofMantissaAndAccuracy]
    omega
  refine ⟨_, hfinal, ?_, hrlog⟩
  unfold roundWithAccuracy
  rw [hfirst]
  dsimp only
  rw [hr, hsecond]
  dsimp only
  rw [dif_neg (Nat.ne_of_gt hfinal), ← Int.add_sub_assoc]

/-- In any case a number with few bits keeps a small exponent. -/
theorem isFinite_round_low (he : e ≤ 970) (hlog : m.log2 + e ≤ 1022) :
    (Float.Model.pack (roundWithAccuracy .binary64 s m e a)).isFinite := by
  have hlt := mantissa_shiftToTargetExponent_lt m e a
  have hsnd := snd_shiftToTargetExponent m e a
  unfold roundWithAccuracy
  generalize shiftToTargetExponent .binary64 m e a = first at hlt hsnd
  obtain ⟨em, i⟩ := first
  dsimp only at hlt hsnd ⊢
  have hround := roundedMantissa_le em
  have hsnd' := snd_shiftToTargetExponent em.roundedMantissa i .exact
  have hbits : em.roundedMantissa.log2 ≤ 53 := by
    by_cases hr : em.roundedMantissa = 0
    · rw [hr]
      decide
    · have hsucc : em.roundedMantissa.log2 < 54 := (Nat.log2_lt hr).2 (by omega)
      omega
  by_cases hzero :
    (shiftToTargetExponent .binary64 em.roundedMantissa i .exact).1.mantissa = 0
  · rw [dif_pos hzero]
    cases s <;> rfl
  · rw [dif_neg hzero, isFinite_pack_iff, hsnd']
    omega

/-- The border, in steps of `2 ^ e`. -/
def cap (e : Int) : Nat := 0x3fffffffffffff * Nat.pow 2 (970 - e).toNat

theorem cap_sub (he : e ≤ 970) (k : Nat) : cap (e - k) = cap e * Nat.pow 2 k := by
  have hexp : (970 - (e - k)).toNat = (970 - e).toNat + k := by omega
  rw [cap, hexp, cap, Nat.mul_assoc]
  exact congrArg _ (Nat.pow_add 2 _ _)

/-- Which numbers are rounded to a finite double. What is known of the bits that are missing makes
no difference, since the border lies on a bit that is not. -/
theorem isFinite_round_iff (he : e ≤ 970) :
    (Float.Model.pack (roundWithAccuracy .binary64 s m e a)).isFinite ↔ m < cap e := by
  unfold cap
  have hhigh : m < Nat.pow 2 (m.log2 + 1) := Nat.lt_log2_self
  have hpos : 0 < Nat.pow 2 (970 - e).toNat := Nat.two_pow_pos _
  rcases Int.lt_trichotomy (m.log2 + e) 1023 with hlog | hlog | hlog
  · have hpow : Nat.pow 2 (m.log2 + 1) ≤ Nat.pow 2 (53 + (970 - e).toNat) :=
      Nat.pow_le_pow_right (by decide) (by omega)
    have hsplit : Nat.pow 2 (53 + (970 - e).toNat) = 0x20000000000000 * Nat.pow 2 (970 - e).toNat :=
      Nat.pow_add 2 53 _
    exact iff_of_true (isFinite_round_low he (by omega)) (by omega)
  · obtain ⟨n, hn, hround, hbits⟩ :=
      roundWithAccuracy_high (m := m) (e := e) (by omega) (by omega) s a
    have hk : m.log2 - 52 = (970 - e).toNat + 1 := by omega
    have hquot : m / Nat.pow 2 (970 - e).toNat < 0x40000000000000 := by
      have hsplit : Nat.pow 2 (m.log2 + 1) = 0x40000000000000 * Nat.pow 2 (970 - e).toNat := by
        rw [show m.log2 + 1 = 54 + (970 - e).toNat by omega]
        exact Nat.pow_add 2 54 _
      exact (Nat.div_lt_iff_lt_mul hpos).2 (hsplit ▸ hhigh)
    rw [hk] at hround hbits
    rw [hround, isFinite_pack_iff, ← Nat.div_lt_iff_lt_mul hpos,
      ← roundedMantissa_shift_lt (a := a) hquot]
    generalize (ExtendedMantissa.ofMantissaAndAccuracy m a >>>
      ((970 - e).toNat + 1)).roundedMantissa = r at hbits
    have hr : r ≠ 0 := by
      rintro rfl
      contradiction
    have hlt : r.log2 < 53 ↔ r < 0x20000000000000 := Nat.log2_lt hr
    omega
  · obtain ⟨n, hn, hround, hbits⟩ :=
      roundWithAccuracy_high (m := m) (e := e) (by omega) (by omega) s a
    rw [hround, isFinite_pack_iff]
    have hm : m ≠ 0 := by
      rintro rfl
      change (0 : Int) + e > 1023 at hlog
      omega
    have hlow : Nat.pow 2 m.log2 ≤ m := Nat.log2_self_le hm
    have hpow : Nat.pow 2 (54 + (970 - e).toNat) ≤ Nat.pow 2 m.log2 :=
      Nat.pow_le_pow_right (by decide) (by omega)
    have hsplit : Nat.pow 2 (54 + (970 - e).toNat) = 0x40000000000000 * Nat.pow 2 (970 - e).toNat :=
      Nat.pow_add 2 54 _
    exact iff_of_false (by omega) (by omega)

/-! ### Products and quotients -/

/-- A product is finite exactly if it is below the border. -/
theorem isFinite_mul_iff (hm : 0 < m) (hn : 0 < n) (he : e + i ≤ 970) :
    (Float.Model.pack
      (UnpackedFloat.mul .binary64 (.finite s m e hm) (.finite t n i hn))).isFinite ↔
      m * n < cap (e + i) := isFinite_round_iff he

/-- The bits that are shifted in before a division count on both sides. -/
theorem isFinite_div_iff (hm : 0 < m) (hn : 0 < n) (he : e - i ≤ 970) :
    (Float.Model.pack
      (UnpackedFloat.div .binary64 (.finite s m e hm) (.finite t n i hn))).isFinite ↔
      m < cap (e - i) * n := by
  generalize htarget : min (e - i) (Format.binary64.targetExponent
    (totalExponent m e - totalExponent n i)) = target
  generalize hk : (e - i - target).toNat = k
  have hdiv : UnpackedFloat.div .binary64 (.finite s m e hm) (.finite t n i hn) =
      roundWithAccuracy .binary64 (s / t) ((m <<< k) / n) target
        (accuracyOfFraction ((m <<< k) % n) n) := by
    subst hk htarget
    rfl
  have hpos : 0 < Nat.pow 2 k := Nat.two_pow_pos k
  have hexp : target = e - i - k := by omega
  have hshift : m <<< k = m * Nat.pow 2 k := Nat.shiftLeft_eq m k
  rw [hdiv, isFinite_round_iff (by omega), Nat.div_lt_iff_lt_mul hn, hexp, cap_sub he, hshift,
    Nat.mul_right_comm]
  exact Nat.mul_lt_mul_right hpos

/-! ### Decimals -/

/-- Half a step above the largest double. -/
def border : Nat := Nat.pow 2 1024 - Nat.pow 2 970

theorem border_eq : border = cap 0 := by decide +kernel

theorem border_pos : 0 < border := by decide +kernel

theorem border_le (hk : 309 ≤ k) : border ≤ Nat.pow 10 k := by
  -- this power is too large to be computed on the way
  have hleast (j : Nat) (hj : j = 309) : border ≤ Nat.pow 10 j := by
    subst hj
    decide +kernel
  obtain ⟨j, hj⟩ : ∃ j, j = 309 := ⟨_, rfl⟩
  exact Nat.le_trans (hleast j hj) (Nat.pow_le_pow_right (by decide) (by omega))

/-- The decimal `m * 10 ^ e` is below the border. -/
def InRange (m : Nat) (e : Int) : Prop :=
  m * Nat.pow 10 e.toNat < border * Nat.pow 10 (-e).toNat

instance (m : Nat) (e : Int) : Decidable (InRange m e) := inferInstanceAs (Decidable (_ < _))

/-- A decimal with no places is in range exactly if it is below the border. -/
theorem inRange_ofNat : InRange m k ↔ m * Nat.pow 10 k < border := by
  have hzero : (-(k : Int)).toNat = 0 := by omega
  have hone : Nat.pow 10 0 = 1 := rfl
  rw [InRange, hzero, Int.toNat_natCast, hone, Nat.mul_one]

theorem inRange_neg : InRange m (-k) ↔ m < border * Nat.pow 10 k := by
  have hzero : (-(k : Int)).toNat = 0 := by omega
  have hone : Nat.pow 10 0 = 1 := rfl
  rw [InRange, hzero, Int.neg_neg, Int.toNat_natCast, hone, Nat.mul_one]

theorem not_inRange_of_le (hm : 0 < m) (hk : 309 ≤ k) : ¬ InRange m k := by
  rw [inRange_ofNat, Nat.not_lt]
  exact Nat.le_trans (border_le hk) (Nat.le_mul_of_pos_left _ hm)

theorem inRange_of_lt_pow (h : m < Nat.pow 10 k) : InRange m (-k) :=
  inRange_neg.2 (Nat.lt_of_lt_of_le h (Nat.le_mul_of_pos_left _ border_pos))

/-- A decimal with a fraction is a quotient. -/
theorem ofScientific_neg (hm : 0 < m) (hk : 0 < k) (hle : k ≤ 2048 + m.log2) :
    UnpackedFloat.ofScientific .binary64 m (-k) =
      UnpackedFloat.div .binary64 (.finite .positive m 0 hm)
        (.finite .positive (Nat.pow 10 k) 0 (Nat.pow_pos (by decide))) := by
  have hlarge : ¬ -(k : Int) > 2048 := by omega
  have hsmall : ¬ -(k : Int) < -(2048 + (m.log2 : Int)) := by omega
  have hneg : ¬ 0 ≤ -(k : Int) := by omega
  have hdiv (j : Nat) (hj : j = k) : UnpackedFloat.div .binary64 (.finite .positive m 0 hm)
      (.finite .positive (Nat.pow 10 j) 0 (Nat.pow_pos (by decide))) =
      UnpackedFloat.div .binary64 (.finite .positive m 0 hm)
        (.finite .positive (Nat.pow 10 k) 0 (Nat.pow_pos (by decide))) := by
    subst hj
    rfl
  unfold UnpackedFloat.ofScientific
  rw [dif_neg (Nat.ne_of_gt hm)]
  refine (if_neg hlarge).trans ((if_neg hsmall).trans ((if_neg hneg).trans ?_))
  exact hdiv (- -(k : Int)).toNat (by omega)

/-- Far outside the range nothing is computed. -/
theorem ofScientific_large (hm : 0 < m) (hk : 2048 < k) :
    UnpackedFloat.ofScientific .binary64 m k = .infinity .positive := by
  have hlarge : (k : Int) > 2048 := by omega
  unfold UnpackedFloat.ofScientific
  rw [dif_neg (Nat.ne_of_gt hm)]
  exact if_pos hlarge

/-- A decimal far below the smallest double is read as zero. -/
theorem ofScientific_small (hm : 0 < m) (hk : 2048 + m.log2 < k) :
    UnpackedFloat.ofScientific .binary64 m (-k) = .zero .positive := by
  have hlarge : ¬ -(k : Int) > 2048 := by omega
  have hsmall : -(k : Int) < -(2048 + (m.log2 : Int)) := by omega
  unfold UnpackedFloat.ofScientific
  rw [dif_neg (Nat.ne_of_gt hm)]
  exact (if_neg hlarge).trans (if_pos hsmall)

/-- A decimal with no places is read as a finite double exactly if it is in range. -/
theorem isFinite_ofScientific_ofNat (hm : 0 < m) (k : Nat) :
    (Float.Model.pack (UnpackedFloat.ofScientific .binary64 m k)).isFinite ↔ InRange m k := by
  by_cases hk : k ≤ 2048
  · have hpos : 0 < Nat.pow 2 53 := Nat.two_pow_pos 53
    have hexp : (-53 + 0 : Int) = 0 - (53 : Nat) := rfl
    rw [ofScientific_ofNat hm hk, isFinite_mul_iff _ _ (by decide), inRange_ofNat, border_eq, hexp,
      cap_sub (by decide), Nat.mul_right_comm m]
    generalize cap 0 = c
    exact Nat.mul_lt_mul_right hpos
  · rw [ofScientific_large hm (by omega)]
    exact iff_of_false (by decide) (not_inRange_of_le hm (by omega))

/-- A decimal with places is read as a finite double exactly if it is in range. -/
theorem isFinite_ofScientific_neg (hm : 0 < m) (hk : 0 < k) :
    (Float.Model.pack (UnpackedFloat.ofScientific .binary64 m (-k))).isFinite ↔ InRange m (-k) := by
  by_cases hle : k ≤ 2048 + m.log2
  · rw [ofScientific_neg hm hk hle, isFinite_div_iff _ _ (by decide), inRange_neg, border_eq,
      Int.sub_zero]
  · rw [ofScientific_small hm (by omega)]
    refine iff_of_true (by decide) (inRange_of_lt_pow ?_)
    calc
      m < Nat.pow 2 (m.log2 + 1) := Nat.lt_log2_self
      _ ≤ Nat.pow 10 (m.log2 + 1) := Nat.pow_le_pow_left (by decide) _
      _ ≤ Nat.pow 10 k := Nat.pow_le_pow_right (by decide) (by omega)

end Terse.Double
