import Terse.Proofs.Number.Range

/-! Decimals that are read as doubles: the double has no minus sign, and it is finite if and only if
the decimal is in range. -/
namespace Terse.Double

open Float.Model Float.Model.UnpackedFloat

variable {x : Float} {m k : Nat} {e : Int} {a : Accuracy} {f g : UnpackedFloat}

/-! ### Signs -/

/-- A double without a minus sign, be it finite or not. -/
inductive Positive : UnpackedFloat → Prop
  | infinity : Positive (.infinity .positive)
  | zero : Positive (.zero .positive)
  | finite {m : Nat} {e : Int} (hm : 0 < m) : Positive (.finite .positive m e hm)

theorem unpackSign_packComponents {spec : Format} (s : Sign) (ev : BitVec spec.exponentBits)
    (mv : BitVec spec.mantissaBitsWithoutImplicit) :
    unpackSign (packComponents spec s ev mv) = s.toBitVec := by
  have hsign (b : BitVec spec.numBits) : unpackSign b =
      (b.extractLsb (spec.mantissaBitsWithoutImplicit + spec.exponentBits)
        (spec.mantissaBitsWithoutImplicit + spec.exponentBits)).cast (by omega) := rfl
  ext i hi
  obtain rfl : i = 0 := by omega
  simp [hsign, packComponents, BitVec.getLsbD_append, BitVec.getElem_append]

theorem toNat_sign (w : UInt64) : (w >>> 63).toNat = (@unpackSign .binary64 w.toBitVec).toNat := by
  have hlt := w.toNat_lt
  have hbit : (@unpackSign .binary64 w.toBitVec).toNat = (w.toNat >>> 63) % 2 :=
    BitVec.extractLsb_toNat 63 63 w.toBitVec
  have hshift : (w >>> 63).toNat = w.toNat >>> 63 := UInt64.toNat_shiftRight w 63
  omega

/-- What has been stored is NaN, or it has the sign that is stored with it. -/
theorem unpack_cases (b : BitVec 64) :
    (exponentField b = 0x7ff ∧ fractionField b ≠ 0 ∧
      UnpackedFloat.unpack .binary64 b = .notANumber) ∨
    UnpackedFloat.unpack .binary64 b = .infinity (.ofBitVec (@unpackSign .binary64 b)) ∨
    UnpackedFloat.unpack .binary64 b = .zero (.ofBitVec (@unpackSign .binary64 b)) ∨
    ∃ m e hm, UnpackedFloat.unpack .binary64 b =
      .finite (.ofBitVec (@unpackSign .binary64 b)) m e hm := by
  by_cases hmax : @unpackExponent .binary64 b = -1#11
  · by_cases hf : @unpackMantissa .binary64 b = 0#52
    · exact .inr (.inl ((if_pos hmax).trans (if_pos hf)))
    · refine .inl ⟨congrArg BitVec.toNat hmax, ?_, (if_pos hmax).trans (if_neg hf)⟩
      exact fun hzero => hf (BitVec.eq_of_toNat_eq hzero)
  · by_cases hzero : @unpackExponent .binary64 b = 0#11
    · by_cases hf : @unpackMantissa .binary64 b = 0#52
      · exact .inr (.inr (.inl ((if_neg hmax).trans ((if_pos hzero).trans (dif_pos hf)))))
      · exact .inr (.inr (.inr ⟨_, _, _, (if_neg hmax).trans ((if_pos hzero).trans (dif_neg hf))⟩))
    · exact .inr (.inr (.inr ⟨_, _, _, (if_neg hmax).trans (if_neg hzero)⟩))

theorem positive_unpack {b : BitVec 64} (hsign : @unpackSign .binary64 b = 0#1)
    (hnan : exponentField b = 0x7ff → fractionField b = 0) :
    Positive (UnpackedFloat.unpack .binary64 b) := by
  have hpositive : Sign.ofBitVec (@unpackSign .binary64 b) = .positive := hsign ▸ rfl
  obtain ⟨hmax, hf, -⟩ | h | h | ⟨m, e, hm, h⟩ := unpack_cases b
  · exact absurd (hnan hmax) hf
  · rw [h, hpositive]
    exact .infinity
  · rw [h, hpositive]
    exact .zero
  · rw [h, hpositive]
    exact .finite hm

/-- The sign is stored with the double. -/
theorem Positive.unpack_pack (h : Positive f) : Positive (Float.Model.pack f).unpack := by
  have hparts (ev : BitVec 11) (mv : BitVec 52) (hnan : ev.toNat = 0x7ff → mv.toNat = 0) :
      Positive (UnpackedFloat.unpack .binary64 (packComponents .binary64 .positive ev mv)) := by
    refine positive_unpack (unpackSign_packComponents _ _ _) ?_
    rwa [exponentField_packComponents, fractionField_packComponents]
  cases h with
  | infinity => exact hparts _ _ fun _ => rfl
  | zero => exact hparts _ _ fun _ => rfl
  | @finite m e hm =>
    change Positive (UnpackedFloat.unpack .binary64 (UnpackedFloat.pack .binary64 _))
    rw [pack_finite]
    split
    · exact hparts _ _ fun _ => rfl
    · split
      · refine hparts _ _ fun hmax => ?_
        rw [BitVec.toNat_ofNat] at hmax
        omega
      · exact hparts _ _ fun hmax => absurd hmax (by decide)

theorem unpackSign_of_positive {b : BitVec 64} (h : Positive (UnpackedFloat.unpack .binary64 b)) :
    @unpackSign .binary64 b = 0#1 := by
  rcases BitVec.eq_zero_or_eq_one (@unpackSign .binary64 b) with hsign | hsign
  · exact hsign
  · have hnegative : Sign.ofBitVec (@unpackSign .binary64 b) = .negative := hsign ▸ rfl
    obtain ⟨-, -, hb⟩ | hb | hb | ⟨m, e, hm, hb⟩ := unpack_cases b
    · rw [hb] at h
      cases h
    all_goals
      rw [hb, hnegative] at h
      cases h

/-- The exact value has the sign of the double. -/
theorem Positive.neg_eq {d : Binary} (h : Positive x.toModel.unpack)
    (hd : Binary.ofFloat? x = some d) : d.neg = false := by
  have hsign : (x.toBits >>> 63 == 1) = false := by
    rw [beq_eq_false_iff_ne]
    intro hone
    have hzero : @unpackSign .binary64 x.toBits.toBitVec = 0#1 := unpackSign_of_positive h
    have hbit := toNat_sign x.toBits
    rw [hone, hzero] at hbit
    contradiction
  unfold Binary.ofFloat? at hd
  dsimp only at hd
  rw [hsign] at hd
  split at hd
  · contradiction
  · split at hd <;> cases hd <;> rfl

theorem Positive.eq_infinity (h : Positive f) (hf : f.isFinite = false) :
    f = .infinity .positive := by
  cases h with
  | infinity => rfl
  | zero => contradiction
  | finite => contradiction

/-- Infinity is no NaN and not below zero. -/
theorem Positive.not_lt (h : Positive x.toModel.unpack) (hx : x.isFinite = false) :
    x.isNaN = false ∧ ¬ x < 0 := by
  have hinf : x.toModel.unpack = .infinity .positive := h.eq_infinity hx
  constructor
  · change x.toModel.unpack.isNaN = false
    rw [hinf]
    rfl
  · intro hneg
    have hlt : UnpackedFloat.lt x.toModel.unpack (0 : Float).toModel.unpack :=
      of_decide_eq_true hneg
    rw [hinf] at hlt
    contradiction

theorem positive_round : Positive (roundWithAccuracy .binary64 .positive m e a) := by
  have hparts {c : Prop} [Decidable c] {n : Nat} {i : Int} (hn : ¬ c → 0 < n) :
      Positive (if h : c then .zero .positive else .finite .positive n i (hn h)) := by
    by_cases hc : c
    · rw [dif_pos hc]
      exact .zero
    · rw [dif_neg hc]
      exact .finite _
  exact hparts _

/-- A decimal is read as a positive double. -/
theorem positive_ofScientific (hm : 0 < m) (e : Int) :
    Positive (UnpackedFloat.ofScientific .binary64 m e) := by
  rcases Int.lt_or_le e 0 with he | he
  · obtain ⟨k, hk, rfl⟩ : ∃ k : Nat, 0 < k ∧ e = -k := ⟨e.natAbs, by omega, by omega⟩
    by_cases hle : k ≤ 2048 + m.log2
    · rw [ofScientific_neg hm hk hle]
      exact positive_round
    · rw [ofScientific_small hm (by omega)]
      exact .zero
  · obtain ⟨k, rfl⟩ := Int.eq_ofNat_of_zero_le he
    by_cases hle : k ≤ 2048
    · rw [ofScientific_ofNat hm hle]
      exact positive_round
    · rw [ofScientific_large hm (by omega)]
      exact .infinity

/-! ### Exact operands -/

/-- A positive double of a middling size: two such have a finite product and a finite quotient. -/
def Modest (f : UnpackedFloat) : Prop :=
  ∃ m e hm, f = .finite .positive m e hm ∧ m < 0x20000000000000 ∧ -52 ≤ e ∧ e ≤ 21

theorem le_cap (h : e + k ≤ 970) : 0x3fffffffffffff * Nat.pow 2 k ≤ cap e :=
  Nat.mul_le_mul_left _ (Nat.pow_le_pow_right (by decide) (by omega))

theorem Modest.isFinite_mul (hf : Modest f) (hg : Modest g) :
    (Float.Model.pack (UnpackedFloat.mul .binary64 f g)).isFinite := by
  obtain ⟨m, e, hm, rfl, hlt, -, he⟩ := hf
  obtain ⟨n, i, hn, rfl, hlt', -, hi⟩ := hg
  refine (isFinite_mul_iff hm hn (by omega)).2 (Nat.lt_of_lt_of_le ?_ (le_cap (k := 53) (by omega)))
  exact Nat.mul_lt_mul'' (by omega) hlt'

theorem Modest.isFinite_div (hf : Modest f) (hg : Modest g) :
    (Float.Model.pack (UnpackedFloat.div .binary64 f g)).isFinite := by
  obtain ⟨m, e, hm, rfl, hlt, -, he⟩ := hf
  obtain ⟨n, i, hn, rfl, -, hi, -⟩ := hg
  have hcap : 0x3fffffffffffff * 1 ≤ cap (e - i) := le_cap (k := 0) (by omega)
  refine (isFinite_div_iff hm hn (by omega)).2
    (Nat.lt_of_lt_of_le ?_ (Nat.le_mul_of_pos_right _ hn))
  exact Nat.lt_of_lt_of_le (by omega) hcap

theorem Holds.eq_finite (h : Holds m e f) (hp : Positive f) (hm : 0 < m) :
    f = .finite .positive m e hm := by
  cases h with
  | zero => contradiction
  | finite s h =>
    cases hp
    rfl

/-- A number that fills the mantissa keeps its exponent when it is stored. -/
theorem unpack_pack_normal (hbits : m.log2 = 52) (hm : 0 < m) (hlow : -1074 ≤ e) (hhigh : e ≤ 971) :
    ∃ n hn, (Float.Model.pack (.finite .positive m e hm)).unpack = .finite .positive n e hn ∧
      n < 0x20000000000000 := by
  have hfield : exponentField (UnpackedFloat.pack .binary64 (.finite .positive m e hm)) =
      (e + 1075).toNat := by
    rw [pack_finite, if_neg (by omega), if_pos (by omega), exponentField_packComponents,
      BitVec.toNat_ofNat]
    omega
  have hholds := holds_unpack_normal (b := UnpackedFloat.pack .binary64 (.finite .positive m e hm))
    (by omega) (by omega)
  have hexp : ((e + 1075).toNat : Int) - 1075 = e := by omega
  rw [hfield, hexp] at hholds
  exact ⟨_, by omega, hholds.eq_finite (Positive.unpack_pack (.finite hm)) (by omega),
    hholds.bounds.1⟩

/-- A natural number of at most fifty-three bits is a double. -/
theorem ofNat_eq (hm : 0 < m) (hk : m.log2 + k = 52) : UnpackedFloat.ofNat .binary64 m =
    .finite .positive (m * Nat.pow 2 k) (-k) (Nat.mul_pos hm (Nat.two_pow_pos k)) := by
  have hpos : 0 < m * Nat.pow 2 k := Nat.mul_pos hm (Nat.two_pow_pos k)
  have hbits : (m * Nat.pow 2 k).log2 = 52 := (log2_mul_pow hm k).trans hk
  have hlow := Nat.log2_self_le (Nat.ne_of_gt hpos)
  have hhigh := Nat.lt_log2_self (n := m * Nat.pow 2 k)
  rw [hbits] at hlow hhigh
  have hc : Canonical (m * Nat.pow 2 k) (-k) := ⟨hpos, hhigh, by omega, by omega, .inl hlow⟩
  have hcompare : compare (m : Int) 0 = .gt := Int.compare_eq_gt.2 (by omega)
  have hshift : (0 - max ((m.log2 : Int) + 0 - 52) (-1074)).toNat = k := by omega
  have hexact := roundWithAccuracy_exact hc .positive 0
  rw [show Nat.pow 2 0 = 1 from rfl, Nat.mul_one, Int.natCast_zero, Int.sub_zero] at hexact
  refine Eq.trans ?_ hexact
  simp only [UnpackedFloat.ofNat, UnpackedFloat.ofInt, UnpackedFloat.normalize, hcompare,
    UnpackedFloat.round, decreaseExponent, Int.toNat_natCast, targetExponent_eq, hshift]
  rw [Nat.shiftLeft_eq, Int.zero_sub]
  rfl

/-- What an integer becomes that a double can hold. -/
theorem modest_toFloat (hm : 0 < m) (hlt : m < 0x20000000000000) :
    Modest m.toUInt64.toFloat.toModel.unpack := by
  have hlog : m.log2 < 53 := (Nat.log2_lt (Nat.ne_of_gt hm)).2 hlt
  have hnat : m.toUInt64.toNat = m := Nat.mod_eq_of_lt (Nat.lt_trans hlt (by decide))
  obtain ⟨k, hk⟩ : ∃ k, m.log2 + k = 52 := ⟨52 - m.log2, by omega⟩
  have hfloat : m.toUInt64.toFloat.toModel.unpack =
      (Float.Model.pack (UnpackedFloat.ofNat .binary64 m)).unpack := by
    change (Float.Model.pack (UnpackedFloat.ofUInt64 .binary64 m.toUInt64)).unpack = _
    rw [UnpackedFloat.ofUInt64, hnat]
  obtain ⟨n, hn, hunpack, hlt⟩ := unpack_pack_normal (e := -k) ((log2_mul_pow hm k).trans hk)
    (Nat.mul_pos hm (Nat.two_pow_pos k)) (by omega) (by omega)
  rw [hfloat, ofNat_eq hm hk]
  exact ⟨n, -k, hn, hunpack, hlt, by omega, by omega⟩

def isModest : UnpackedFloat → Bool
  | .finite .positive m e _ => m < 0x20000000000000 && -52 ≤ e && e ≤ 21
  | _ => false

theorem modest_of_isModest (h : isModest f) : Modest f := by
  cases f with
  | finite s m e hm =>
    cases s with
    | positive =>
      replace h : (decide (m < 0x20000000000000) && decide (-52 ≤ e) && decide (e ≤ 21)) = true := h
      simp only [Bool.and_eq_true, decide_eq_true_eq] at h
      exact ⟨m, e, hm, rfl, h.1.1, h.1.2, h.2⟩
    | negative => contradiction
  | _ => contradiction

/-- The powers of ten that a double can hold. -/
theorem modest_power (hk : k < Float.exactlyRepresentablePowersOfTen.size) :
    Modest Float.exactlyRepresentablePowersOfTen[k].toModel.unpack := by
  have hall : Float.exactlyRepresentablePowersOfTen.all fun x => isModest x.toModel.unpack := by
    decide +kernel
  exact modest_of_isModest (Array.all_eq_true.1 hall k hk)

/-! ### Decimals -/

/-- A double without a minus sign that is finite if and only if `m * 10 ^ e` is in range. -/
structure Fits (m : Nat) (e : Int) (x : Float) : Prop where
  positive : Positive x.toModel.unpack
  isFinite_iff : x.isFinite ↔ InRange m e

theorem Positive.fits (hp : Positive f) (h : (Float.Model.pack f).isFinite ↔ InRange m e) :
    Fits m e (.ofModel (Float.Model.pack f)) := ⟨hp.unpack_pack, h⟩

theorem Modest.positive_mul (hf : Modest f) (hg : Modest g) :
    Positive (UnpackedFloat.mul .binary64 f g) := by
  obtain ⟨m, e, hm, rfl, -⟩ := hf
  obtain ⟨n, i, hn, rfl, -⟩ := hg
  exact positive_round

theorem Modest.positive_div (hf : Modest f) (hg : Modest g) :
    Positive (UnpackedFloat.div .binary64 f g) := by
  obtain ⟨m, e, hm, rfl, -⟩ := hf
  obtain ⟨n, i, hn, rfl, -⟩ := hg
  exact positive_round

/-- What the fast path takes is always in range. -/
theorem inRange_modest (hm : m < 0x20000000000000) (hk : k ≤ 22) :
    InRange m k ∧ InRange m (-k) := by
  have hborder : 0x20000000000000 * Nat.pow 10 22 ≤ border := by decide +kernel
  have hle : Nat.pow 10 k ≤ Nat.pow 10 22 := Nat.pow_le_pow_right (by decide) hk
  rw [inRange_ofNat, inRange_neg]
  constructor
  · calc
      m * Nat.pow 10 k < 0x20000000000000 * Nat.pow 10 k :=
        Nat.mul_lt_mul_of_pos_right hm (Nat.pow_pos (by decide))
      _ ≤ 0x20000000000000 * Nat.pow 10 22 := Nat.mul_le_mul_left _ hle
      _ ≤ border := hborder
  · calc
      m < 0x20000000000000 := hm
      _ ≤ 0x20000000000000 * Nat.pow 10 22 := Nat.le_mul_of_pos_right _ (Nat.pow_pos (by decide))
      _ ≤ border := hborder
      _ ≤ border * Nat.pow 10 k := Nat.le_mul_of_pos_right _ (Nat.pow_pos (by decide))

theorem fits_ofScientific_ofNat (hm : 0 < m) (k : Nat) :
    Fits m k (Float.ofScientific m false k) := by
  unfold Float.ofScientific
  split
  · rename_i h
    have hint := modest_toFloat hm h.1
    have hpow := modest_power (k := k) (Nat.lt_succ_of_le h.2)
    exact (hint.positive_mul hpow).fits
      (iff_of_true (hint.isFinite_mul hpow) (inRange_modest h.1 h.2).1)
  · exact (positive_ofScientific hm k).fits (isFinite_ofScientific_ofNat hm k)

theorem fits_ofScientific_neg (hm : 0 < m) (hk : 0 < k) :
    Fits m (-k) (Float.ofScientific m true k) := by
  unfold Float.ofScientific
  split
  · rename_i h
    have hint := modest_toFloat hm h.1
    have hpow := modest_power (k := k) (Nat.lt_succ_of_le h.2)
    exact (hint.positive_div hpow).fits
      (iff_of_true (hint.isFinite_div hpow) (inRange_modest h.1 h.2).2)
  · rw [if_pos rfl]
    exact (positive_ofScientific hm (-k)).fits (isFinite_ofScientific_neg hm hk)

theorem fits_ofScientific (hm : 0 < m) (e : Int) :
    Fits m e (Float.ofScientific m (e < 0) e.natAbs) := by
  rcases Int.lt_or_le e 0 with he | he
  · obtain ⟨k, hk, rfl⟩ : ∃ k : Nat, 0 < k ∧ e = -k := ⟨e.natAbs, by omega, by omega⟩
    rw [decide_eq_true he, Int.natAbs_neg, Int.natAbs_natCast]
    exact fits_ofScientific_neg hm hk
  · obtain ⟨k, rfl⟩ := Int.eq_ofNat_of_zero_le he
    rw [decide_eq_false (Int.not_lt.2 he), Int.natAbs_natCast]
    exact fits_ofScientific_ofNat hm k

theorem fits_zero (h : InRange m e) : Fits m e 0.0 := by
  have hzero : (0.0 : Float).toModel.unpack = .zero .positive := rfl
  exact ⟨hzero ▸ .zero, iff_of_true (by decide +kernel) h⟩

theorem fits_infinity (h : ¬ InRange m e) : Fits m e (1.0 / 0.0) := by
  have hinf : (1.0 / 0.0 : Float).toModel.unpack = .infinity .positive := rfl
  exact ⟨hinf ▸ .infinity, iff_of_false (by decide +kernel) h⟩

theorem lt_pow_length (m : Nat) : m < Nat.pow 10 (Nat.toDigits 10 m).length :=
  (Nat.length_toDigits_le_iff (by decide) Nat.length_toDigits_pos).1 (Nat.le_refl _)

theorem pow_le_of_lt_length (hm : 0 < m) (h : k < (Nat.toDigits 10 m).length) :
    Nat.pow 10 k ≤ m := by
  rcases Nat.eq_zero_or_pos k with rfl | hk
  · exact hm
  · exact Nat.not_lt.1 fun hlt => Nat.not_le.2 h ((Nat.length_toDigits_le_iff (by decide) hk).2 hlt)

/-- The number of digits alone tells that a decimal is far outside the range. -/
theorem not_inRange_of_length (hm : 0 < m) (h : 310 < ((Nat.toDigits 10 m).length : Int) + e) :
    ¬ InRange m e := by
  obtain ⟨k, hk⟩ : ∃ k, k + 1 = (Nat.toDigits 10 m).length :=
    ⟨_, Nat.sub_add_cancel Nat.length_toDigits_pos⟩
  obtain ⟨j, hj⟩ : ∃ j, j = 309 := ⟨_, rfl⟩
  rw [InRange, Nat.not_lt]
  calc
    border * Nat.pow 10 (-e).toNat ≤ Nat.pow 10 j * Nat.pow 10 (-e).toNat :=
      Nat.mul_le_mul_right _ (border_le (by omega))
    _ = Nat.pow 10 (j + (-e).toNat) := (Nat.pow_add 10 _ _).symm
    _ ≤ Nat.pow 10 (k + e.toNat) := Nat.pow_le_pow_right (by decide) (by omega)
    _ = Nat.pow 10 k * Nat.pow 10 e.toNat := Nat.pow_add 10 _ _
    _ ≤ m * Nat.pow 10 e.toNat := Nat.mul_le_mul_right _ (pow_le_of_lt_length hm (by omega))

theorem inRange_of_length (h : ((Nat.toDigits 10 m).length : Int) + e < -325) : InRange m e := by
  obtain ⟨k, rfl⟩ : ∃ k : Nat, e = -k := ⟨e.natAbs, by omega⟩
  refine inRange_of_lt_pow (Nat.lt_of_lt_of_le (lt_pow_length m) ?_)
  exact Nat.pow_le_pow_right (by decide) (by omega)

theorem inRange_zero (e : Int) : InRange 0 e := by
  rw [InRange, Nat.zero_mul]
  exact Nat.mul_pos border_pos (Nat.pow_pos (by decide))

/-- Which decimals are read as finite doubles; none gets a minus sign that it has not got. -/
theorem fits_floatOfDecimal (m : Nat) (e : Int) : Fits m e (floatOfDecimal false m e) := by
  unfold floatOfDecimal
  dsimp only
  rw [if_neg Bool.false_ne_true]
  split
  · rename_i hm
    exact hm ▸ fits_zero (inRange_zero e)
  · rename_i hm
    have hpos := Nat.pos_of_ne_zero hm
    split
    · rename_i htop
      exact fits_infinity (not_inRange_of_length hpos htop)
    · split
      · rename_i htop
        exact fits_zero (inRange_of_length htop)
      · exact fits_ofScientific hpos e

end Terse.Double
