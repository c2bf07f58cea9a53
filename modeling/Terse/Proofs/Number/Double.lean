import Terse.Number.Fold

/-! Doubles by their parts: what a finite double can be, and what becomes of it when it is
stored. -/
namespace Terse.Double

open Float.Model Float.Model.UnpackedFloat

variable {x : Float} {b : BitVec 64} {s t : Sign} {m k : Nat} {e : Int} {f : UnpackedFloat}

/-- Mantissa and exponent of a finite double other than zero. -/
structure Canonical (m : Nat) (e : Int) : Prop where
  pos : 0 < m
  lt : m < 0x20000000000000
  le_exp : -1074 ≤ e
  exp_le : e ≤ 971
  normal : 0x10000000000000 ≤ m ∨ e = -1074

/-- The finite number `m * 2 ^ e`, up to its sign. -/
inductive Holds : Nat → Int → UnpackedFloat → Prop
  | zero (s : Sign) : Holds 0 (-1074) (.zero s)
  | finite (s : Sign) {m : Nat} {e : Int} (h : Canonical m e) : Holds m e (.finite s m e h.pos)

/-- Neither infinite nor NaN. -/
def IsFinite (f : UnpackedFloat) : Prop := ∃ m e, Holds m e f

def IsZero (f : UnpackedFloat) : Prop := ∃ s, f = .zero s

/-- One or minus one. -/
def IsOne (f : UnpackedFloat) : Prop := ∃ s hm, f = .finite s 0x10000000000000 (-52) hm

theorem isFinite_zero (s : Sign) : IsFinite (.zero s) := ⟨_, _, .zero s⟩

theorem Holds.isFinite (h : Holds m e f) : f.isFinite := by
  cases h <;> rfl

/-- A finite double has at most fifty-three bits, between the smallest and the largest exponent. -/
theorem Holds.bounds (h : Holds m e f) : m < 0x20000000000000 ∧ -1074 ≤ e ∧ e ≤ 971 := by
  cases h with
  | zero => decide
  | finite s h => exact ⟨h.lt, h.le_exp, h.exp_le⟩

/-- Zero is the double without a mantissa. -/
theorem Holds.isZero_iff (h : Holds m e f) : IsZero f ↔ m = 0 := by
  cases h with
  | zero s => exact iff_of_true ⟨s, rfl⟩ rfl
  | finite s h =>
    refine iff_of_false ?_ (Nat.ne_of_gt h.pos)
    rintro ⟨t, ht⟩
    contradiction

theorem IsFinite.neg (h : IsFinite f) : IsFinite f.neg := by
  obtain ⟨m, e, h⟩ := h
  cases h with
  | zero s => exact isFinite_zero (-s)
  | finite s h => exact ⟨_, _, .finite (-s) h⟩

theorem IsZero.neg (h : IsZero f) : IsZero f.neg := by
  obtain ⟨s, rfl⟩ := h
  exact ⟨-s, rfl⟩

theorem IsOne.not_isZero (h : IsOne f) : ¬ IsZero f := by
  rintro ⟨s, hs⟩
  obtain ⟨t, hm, ht⟩ := h
  rw [hs] at ht
  contradiction

def exponentField (b : BitVec 64) : Nat := (@unpackExponent .binary64 b).toNat

def fractionField (b : BitVec 64) : Nat := (@unpackMantissa .binary64 b).toNat

theorem exponentField_lt (b : BitVec 64) : exponentField b < 0x800 :=
  (@unpackExponent .binary64 b).isLt

theorem fractionField_lt (b : BitVec 64) : fractionField b < 0x10000000000000 :=
  (@unpackMantissa .binary64 b).isLt

theorem toNat_exponent (w : UInt64) : ((w >>> 52) &&& 0x7ff).toNat = exponentField w.toBitVec := by
  rw [UInt64.toNat_and]
  refine (Nat.and_two_pow_sub_one_eq_mod _ 11).trans ?_
  simp [exponentField, unpackExponent]

theorem toNat_fraction (w : UInt64) :
    (w &&& 0xfffffffffffff).toNat = fractionField w.toBitVec := by
  rw [UInt64.toNat_and]
  refine (Nat.and_two_pow_sub_one_eq_mod _ 52).trans ?_
  simp [fractionField, unpackMantissa]

/-- Above the lowest exponent the mantissa has one more bit than is stored. -/
theorem mantissa_eq (b : BitVec 64) :
    (1#1 ++ @unpackMantissa .binary64 b).toNat = 0x10000000000000 + fractionField b := by
  have h := Nat.shiftLeft_add_eq_or_of_lt (@unpackMantissa .binary64 b).isLt 1
  rw [BitVec.toNat_append]
  exact h.symm

/-- With an exponent field of zero the fraction is the mantissa. -/
theorem holds_unpack_subnormal (hzero : exponentField b = 0) :
    Holds (fractionField b) (-1074) (UnpackedFloat.unpack .binary64 b) := by
  have he : @unpackExponent .binary64 b = 0#11 := BitVec.eq_of_toNat_eq hzero
  have hlt := fractionField_lt b
  unfold UnpackedFloat.unpack
  dsimp only
  rw [he, if_neg (by decide), if_pos rfl]
  by_cases hf : @unpackMantissa .binary64 b = 0#52
  · have hfraction : fractionField b = 0 := congrArg BitVec.toNat hf
    rw [dif_pos hf, hfraction]
    exact .zero _
  · rw [dif_neg hf]
    have hpos : 0 < fractionField b := Nat.pos_of_ne_zero fun h => hf (BitVec.eq_of_toNat_eq h)
    exact .finite _ ⟨hpos, by omega, by decide, by decide, .inr rfl⟩

/-- With an exponent field in between, a hidden bit stands before the fraction. -/
theorem holds_unpack_normal (hzero : exponentField b ≠ 0) (hmax : exponentField b ≠ 0x7ff) :
    Holds (0x10000000000000 + fractionField b) (exponentField b - 1075)
      (UnpackedFloat.unpack .binary64 b) := by
  have he : @unpackExponent .binary64 b ≠ 0#11 := fun h => hzero (congrArg BitVec.toNat h)
  have hmax' : @unpackExponent .binary64 b ≠ -1#11 := fun h => hmax (congrArg BitVec.toNat h)
  have hlt := fractionField_lt b
  have hle := exponentField_lt b
  have hc : Canonical (0x10000000000000 + fractionField b) (exponentField b - 1075) :=
    ⟨by omega, by omega, by omega, by omega, .inl (by omega)⟩
  have hunpack : UnpackedFloat.unpack .binary64 b =
      .finite (.ofBitVec (@unpackSign .binary64 b)) (0x10000000000000 + fractionField b)
        (exponentField b - 1075) hc.pos := by
    unfold UnpackedFloat.unpack
    dsimp only
    rw [if_neg hmax', if_neg he, UnpackedFloat.finite.injEq]
    exact ⟨rfl, mantissa_eq b, rfl⟩
  rw [hunpack]
  exact .finite _ hc

/-- The largest exponent field is for infinity and NaN. -/
theorem not_isFinite_unpack (hmax : exponentField b = 0x7ff) :
    (UnpackedFloat.unpack .binary64 b).isFinite = false := by
  have he : @unpackExponent .binary64 b = -1#11 := BitVec.eq_of_toNat_eq hmax
  unfold UnpackedFloat.unpack
  dsimp only
  rw [if_pos he]
  split <;> rfl

/-- Below the highest exponent all doubles are finite. -/
theorem isFinite_unpack (hmax : exponentField b ≠ 0x7ff) :
    IsFinite (UnpackedFloat.unpack .binary64 b) := by
  by_cases hzero : exponentField b = 0
  · exact ⟨_, _, holds_unpack_subnormal hzero⟩
  · exact ⟨_, _, holds_unpack_normal hzero hmax⟩

theorem exponentField_ne (h : x.isFinite) : exponentField x.toBits.toBitVec ≠ 0x7ff := by
  intro hmax
  have hfalse : x.isFinite = false := not_isFinite_unpack hmax
  exact Bool.false_ne_true (hfalse.symm.trans h)

theorem isFinite_of_float (h : x.isFinite) : IsFinite x.toModel.unpack :=
  isFinite_unpack (exponentField_ne h)

/-- The exact value of a finite double is made of its parts. -/
theorem ofFloat?_of_isFinite (h : x.isFinite) :
    ∃ d, Binary.ofFloat? x = some d ∧ Holds d.mant d.exp x.toModel.unpack := by
  have hmax := exponentField_ne h
  simp only [Binary.ofFloat?, toNat_exponent, toNat_fraction, if_neg hmax]
  split
  · rename_i hzero
    exact ⟨_, rfl, holds_unpack_subnormal hzero⟩
  · rename_i hzero
    exact ⟨_, rfl, holds_unpack_normal hzero hmax⟩

theorem isFinite_of_ofFloat? {d : Binary} (h : Binary.ofFloat? x = some d) : x.isFinite := by
  have hmax : exponentField x.toBits.toBitVec ≠ 0x7ff := by
    intro hmax
    simp only [Binary.ofFloat?, toNat_exponent, hmax, if_true] at h
    contradiction
  obtain ⟨m, e, hholds⟩ := isFinite_unpack hmax
  exact hholds.isFinite

theorem fields_of_zero (h : UnpackedFloat.unpack .binary64 b = .zero s) :
    exponentField b = 0 ∧ fractionField b = 0 := by
  have hmax : exponentField b ≠ 0x7ff := by
    intro hmax
    have hfalse := not_isFinite_unpack hmax
    rw [h] at hfalse
    contradiction
  by_cases hzero : exponentField b = 0
  · exact ⟨hzero, (holds_unpack_subnormal hzero).isZero_iff.1 ⟨s, h⟩⟩
  · have := (holds_unpack_normal hzero hmax).isZero_iff.1 ⟨s, h⟩
    omega

theorem exponentField_packComponents (s : Sign) (ev : BitVec 11) (mv : BitVec 52) :
    exponentField (packComponents .binary64 s ev mv) = ev.toNat :=
  congrArg BitVec.toNat (@unpackExponent_packComponents .binary64 s ev mv)

theorem fractionField_packComponents (s : Sign) (ev : BitVec 11) (mv : BitVec 52) :
    fractionField (packComponents .binary64 s ev mv) = mv.toNat :=
  congrArg BitVec.toNat (@unpackMantissa_packComponents .binary64 s ev mv)

/-- How the parts of a number are stored. -/
theorem pack_finite (s : Sign) (e : Int) (hm : 0 < m) :
    UnpackedFloat.pack .binary64 (.finite s m e hm) =
      if 2048 ≤ (e + 1023 + 52).toNat + 1 then packedInfinity .binary64 s
      else if m.log2 + 1 = 53 then
        packComponents .binary64 s (BitVec.ofNat 11 (e + 1023 + 52).toNat) (BitVec.ofNat 52 m)
      else packComponents .binary64 s 0#11 (BitVec.ofNat 52 m) :=
  rfl

/-- Only the exponent tells whether a double can be stored. -/
theorem isFinite_pack_iff (s : Sign) (e : Int) (hm : 0 < m) :
    (Float.Model.pack (.finite s m e hm)).isFinite ↔ e ≤ 971 := by
  have hfield : exponentField (UnpackedFloat.pack .binary64 (.finite s m e hm)) = 0x7ff ↔
      ¬ e ≤ 971 := by
    rw [pack_finite]
    by_cases he : e ≤ 971
    · rw [if_neg (by omega)]
      refine iff_of_false ?_ (by simpa using he)
      split <;> rw [exponentField_packComponents, BitVec.toNat_ofNat]
      · omega
      · decide
    · rw [if_pos (by omega)]
      exact iff_of_true (exponentField_packComponents s _ _) he
  by_cases hmax : exponentField (UnpackedFloat.pack .binary64 (.finite s m e hm)) = 0x7ff
  · have hfalse : (Float.Model.pack (.finite s m e hm)).isFinite = false := not_isFinite_unpack hmax
    rw [hfalse]
    exact iff_of_false Bool.false_ne_true (hfield.1 hmax)
  · obtain ⟨n, i, hholds⟩ := isFinite_unpack hmax
    exact iff_of_true hholds.isFinite (Decidable.not_not.1 fun he => hmax (hfield.2 he))

/-- A finite double stays finite when it is stored. -/
theorem isFinite_pack (h : IsFinite f) : (Float.Model.pack f).isFinite := by
  obtain ⟨m, e, h⟩ := h
  cases h with
  | zero s => cases s <;> rfl
  | finite s h => exact (isFinite_pack_iff s e h.pos).2 h.exp_le

/-- Doubles other than zero, be they finite or not. -/
inductive Nonzero : UnpackedFloat → Prop
  | notANumber : Nonzero .notANumber
  | infinity (s : Sign) : Nonzero (.infinity s)
  | finite (s : Sign) {m : Nat} {e : Int} (hm : 0 < m) :
      m < 0x20000000000000 → -1074 ≤ e → Nonzero (.finite s m e hm)

theorem Nonzero.neg (h : Nonzero f) : Nonzero f.neg := by
  cases h with
  | notANumber => exact .notANumber
  | infinity s => exact .infinity (-s)
  | finite s hm hlt he => exact .finite (-s) hm hlt he

theorem Holds.nonzero (h : Holds m e f) (hm : m ≠ 0) : Nonzero f := by
  cases h with
  | zero s => contradiction
  | finite s h => exact .finite s h.pos h.lt h.le_exp

theorem nonzero_unpack {v : Float.Model} (h : ¬ IsZero v.unpack) : Nonzero v.unpack := by
  by_cases hmax : exponentField v.toBits.toBitVec = 0x7ff
  · have hfalse : v.unpack.isFinite = false := not_isFinite_unpack hmax
    generalize v.unpack = f at hfalse
    cases f with
    | notANumber => exact .notANumber
    | infinity s => exact .infinity s
    | zero => contradiction
    | finite => contradiction
  · obtain ⟨m, e, hholds⟩ := isFinite_unpack hmax
    exact hholds.nonzero fun hm => h (hholds.isZero_iff.2 hm)

/-- Storing a double that is not too small does not turn it to zero. -/
theorem unpack_pack_ne_zero (hm : 0 < m) (hlt : m < 0x20000000000000) (he : -1074 ≤ e) :
    (Float.Model.pack (.finite s m e hm)).unpack ≠ .zero t := by
  intro h
  obtain ⟨hfield, hfraction⟩ :=
    @fields_of_zero (UnpackedFloat.pack .binary64 (.finite s m e hm)) t h
  rw [pack_finite] at hfield hfraction
  split at hfield
  · rw [packedInfinity, exponentField_packComponents] at hfield
    contradiction
  · rename_i hmax
    rw [if_neg hmax] at hfraction
    split at hfield
    · rw [exponentField_packComponents, BitVec.toNat_ofNat] at hfield
      omega
    · -- a mantissa with room to spare is stored as it is
      rename_i hlog
      rw [if_neg hlog, fractionField_packComponents, BitVec.toNat_ofNat] at hfraction
      have hbits : m.log2 < 53 := (Nat.log2_lt (Nat.ne_of_gt hm)).2 hlt
      have hroom : m.log2 < 52 := by omega
      have hsmall : m < 0x10000000000000 := (Nat.log2_lt (Nat.ne_of_gt hm)).1 hroom
      change m % 0x10000000000000 = 0 at hfraction
      omega

/-- A double that is not zero is not stored as one. -/
theorem Nonzero.unpack_pack (h : Nonzero f) : ¬ IsZero (Float.Model.pack f).unpack := by
  rintro ⟨t, ht⟩
  cases h with
  | notANumber => exact absurd (fields_of_zero ht).1 (by decide)
  | infinity s => cases s <;> exact absurd (fields_of_zero ht).1 (by decide)
  | finite s hm hlt he => exact unpack_pack_ne_zero hm hlt he ht

end Terse.Double
