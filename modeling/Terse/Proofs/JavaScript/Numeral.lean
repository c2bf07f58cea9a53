import Terse.Number.Basic
import Terse.Proofs.JavaScript.Lexer

/-! Numbers of a program are written as decimal literals, as far as they are finite. -/
namespace Terse

/-! ### Digits -/

open JavaScript (IsDigits IsWhole IsPlaces IsExponent)

theorem isDigits_toDigits (n : Nat) : IsDigits (Nat.toDigits 10 n) :=
  ⟨Nat.toDigits_ne_nil, fun _ hd => Nat.isDigit_of_mem_toDigits (by decide) (by decide) hd⟩

theorem digitChar_ne_zero : ∀ n < 10, n ≠ 0 → n.digitChar ≠ '0' := by decide

/-- Only the numeral of zero starts with one. -/
theorem head_toDigits {n : Nat} (h : n ≠ 0) : (Nat.toDigits 10 n).head? ≠ some '0' := by
  induction n using Nat.strongRecOn with
  | ind n ih =>
    by_cases hn : n < 10
    · rw [Nat.toDigits_of_lt_base hn]
      simpa using digitChar_ne_zero n hn h
    · rw [Nat.toDigits_of_base_le (by decide) (by omega), List.head?_append_of_ne_nil _
        Nat.toDigits_ne_nil]
      exact ih (n / 10) (by omega) (by omega)

theorem isWhole_of_head {ds : List Char} (h : IsDigits ds) (hhead : ds.head? ≠ some '0') :
    IsWhole ds := by
  refine ⟨h, ?_⟩
  rintro _ rfl
  exact absurd rfl hhead

/-- A natural number is written without leading zeros. -/
theorem isWhole_toDigits (n : Nat) : IsWhole (Nat.toDigits 10 n) := by
  by_cases h : n = 0
  · subst h
    refine ⟨isDigits_toDigits 0, ?_⟩
    rintro ds hds
    exact (List.cons.inj hds).2.symm
  · exact isWhole_of_head (isDigits_toDigits n) (head_toDigits h)

theorem isDigits_append {ds es : List Char} (hds : ∀ d ∈ ds, d.isDigit) (hes : IsDigits es) :
    IsDigits (ds ++ es) :=
  ⟨List.append_ne_nil_of_right_ne_nil _ hes.1, List.forall_mem_append.2 ⟨hds, hes.2⟩⟩

theorem isDigit_replicate (n : Nat) : ∀ d ∈ List.replicate n '0', d.isDigit := by
  intro d hd
  rw [List.eq_of_mem_replicate hd]
  rfl

/-! ### Decimals -/

/-- A literal with a point or an exponent. -/
def IsFraction (cs : List Char) : Prop :=
  ∃ whole places expo, cs = whole ++ (places ++ expo) ∧ IsWhole whole ∧ IsPlaces places ∧
    IsExponent expo ∧ (places ≠ [] ∨ expo ≠ [])

theorem isWhole_singleton {c : Char} (h : c.isDigit) : IsWhole [c] := by
  refine ⟨⟨by simp, by simpa using h⟩, ?_⟩
  rintro ds hds
  exact (List.cons.inj hds).2.symm

theorem isFraction_places {whole places : List Char} (hw : IsWhole whole) (hp : IsDigits places) :
    IsFraction (whole ++ '.' :: places) :=
  ⟨whole, '.' :: places, [], by simp, hw, .inr ⟨places, hp, rfl⟩, .inl rfl, .inl (by simp)⟩

theorem isFraction_exponent (whole places : List Char) {expo : List Char} (hw : IsWhole whole)
    (hp : IsPlaces places) (he : IsExponent expo) (hne : expo ≠ []) :
    IsFraction (whole ++ (places ++ expo)) :=
  ⟨whole, places, expo, rfl, hw, hp, he, .inr hne⟩

namespace Decimal

variable {d : Decimal}

theorem isFraction_positional {ds : List Char} {n : Nat} (hds : IsDigits ds)
    (hhead : ds.head? ≠ some '0') (hpos : 0 < n) (hn : n < ds.length) :
    IsFraction (ds.take n ++ '.' :: ds.drop n) := by
  refine isFraction_places (isWhole_of_head ⟨?_, fun d hd => hds.2 d (List.mem_of_mem_take hd)⟩ ?_)
    ⟨?_, fun d hd => hds.2 d (List.mem_of_mem_drop hd)⟩
  · rw [ne_eq, List.take_eq_nil_iff]
    rintro (h | h)
    · omega
    · exact hds.1 h
  · rwa [List.head?_take, if_neg (by omega)]
  · rw [ne_eq, List.drop_eq_nil_iff]
    omega

/-- The first digit alone stands before the point. -/
theorem isPlaces_rest {c : Char} {cs : List Char} (h : IsDigits (c :: cs)) (hne : cs ≠ []) :
    IsPlaces ('.' :: cs) :=
  .inr ⟨cs, ⟨hne, (List.forall_mem_cons.1 h.2).2⟩, rfl⟩

/-- A decimal other than zero is written with a point or an exponent. -/
theorem isFraction_chars (hd : d.digits ≠ 0) : IsFraction d.chars := by
  have hdigits := isDigits_toDigits d.digits
  have hhead := head_toDigits hd
  unfold chars
  generalize Nat.toDigits 10 d.digits = ds at hdigits hhead
  dsimp only
  split
  · split
    · exact isFraction_places (isWhole_singleton rfl)
        (isDigits_append (isDigit_replicate _) hdigits)
    · split
      · refine isFraction_places (isWhole_of_head ⟨?_, ?_⟩ ?_) ⟨by simp, by simp⟩
        · exact List.append_ne_nil_of_left_ne_nil hdigits.1 _
        · exact List.forall_mem_append.2 ⟨hdigits.2, isDigit_replicate _⟩
        · rwa [List.head?_append_of_ne_nil _ hdigits.1]
      · exact isFraction_positional hdigits hhead (by omega) (by omega)
  · rw [List.append_assoc]
    have hexpo (sign : Char) (hsign : sign = '+' ∨ sign = '-') (n k : Nat) :
        IsExponent ('e' :: sign :: (List.replicate k '0' ++ Nat.toDigits 10 n)) :=
      .inr ⟨sign, _, hsign, isDigits_append (isDigit_replicate _) (isDigits_toDigits n), rfl⟩
    have hsign (p : Prop) [Decidable p] : (if p then '-' else '+') = '+' ∨
        (if p then '-' else '+') = '-' := by split <;> simp
    cases ds with
    | nil => exact absurd rfl hdigits.1
    | cons c cs =>
      have hwhole : IsWhole [c] := isWhole_singleton (hdigits.2 c List.mem_cons_self)
      cases cs with
      | nil => exact isFraction_exponent [c] [] hwhole (.inl rfl) (hexpo _ (hsign _) _ _) (by simp)
      | cons d ds =>
        exact isFraction_exponent [c] ('.' :: d :: ds) hwhole (isPlaces_rest hdigits (by simp))
          (hexpo _ (hsign _) _ _) (by simp)

theorem strip_ne_zero (fuel : Nat) (hd : d.digits ≠ 0) : (d.strip fuel).digits ≠ 0 := by
  induction fuel generalizing d with
  | zero => exact hd
  | succ fuel ih =>
    rw [strip]
    split
    · apply ih
      dsimp only
      omega
    · exact hd

end Decimal

namespace Binary

variable {b : Binary} {d : Decimal}

/-- Zero reads back as no other size. -/
theorem digits_ne_zero_of_readsBack (hm : b.mant ≠ 0) (h : b.readsBack d) : d.digits ≠ 0 := by
  intro hd
  have hlow (n : Nat) (q : Int) (hn : 0 < n) : d.compareBinary n q = .lt := by
    have hpos : 0 < n * Nat.pow 2 q.toNat * Nat.pow 10 (-d.exp).toNat :=
      Nat.mul_pos (Nat.mul_pos hn (Nat.pow_pos (by decide))) (Nat.pow_pos (by decide))
    rw [Decimal.compareBinary, hd, Nat.zero_mul, Nat.zero_mul]
    exact Nat.compare_eq_lt.2 hpos
  have hedge : 0 < if b.narrowBelow then 4 * b.mant - 1 else 4 * b.mant - 2 := by
    split <;> omega
  simp [readsBack, hlow _ _ hedge] at h

theorem digits_ne_zero_of_onGrid? {e : Int} (hm : b.mant ≠ 0) (h : b.onGrid? e = some d) :
    d.digits ≠ 0 := by
  unfold onGrid? at h
  dsimp only at h
  generalize b.fraction.1 * Nat.pow 10 (-e).toNat / (b.fraction.2 * Nat.pow 10 e.toNat) = n at h
  obtain ⟨hread, rfl⟩ | rfl : b.readsBack ⟨n, e⟩ ∧ d = ⟨n, e⟩ ∨ d = ⟨n + 1, e⟩ := by
    split at h <;> grind
  · exact digits_ne_zero_of_readsBack hm hread
  · exact Nat.succ_ne_zero n

theorem shortest_ne_zero (hm : b.mant ≠ 0) : b.shortest.digits ≠ 0 := by
  unfold shortest
  dsimp only
  apply Decimal.strip_ne_zero
  generalize hfound : List.findSome? _ _ = found
  cases found with
  | none =>
    exact Nat.mul_ne_zero (Nat.mul_ne_zero hm (Nat.pow_pos (by decide)).ne')
      (Nat.pow_pos (by decide)).ne'
  | some d =>
    obtain ⟨i, -, hi⟩ := List.exists_of_findSome?_eq_some hfound
    exact digits_ne_zero_of_onGrid? hm hi

end Binary

namespace Number

/-- Whether a minus sign is written; zero may have one. -/
def isNegative : Number → Bool
  | int n => n < 0
  | float x =>
    match Binary.ofFloat? x with
    | some b => b.neg
    | none => !x.isNaN && x < 0

def isFinite : Number → Bool
  | int _ => true
  | float x => (Binary.ofFloat? x).isSome

/-- The text of a number without its sign. -/
def sizeChars : Number → List Char
  | int n => Nat.toDigits 10 n.natAbs
  | float x =>
    match Binary.ofFloat? x with
    | some b => if b.mant = 0 then ['0', '.', '0'] else b.shortest.chars
    | none => if x.isNaN then "nan".toList else "inf".toList

/-- A number is its sign and its size. -/
theorem chars_eq (a : Number) :
    a.chars = (if a.isNegative then ['-'] else []) ++ a.sizeChars := by
  cases a with
  | int n =>
    cases n with
    | ofNat n => simp [chars, isNegative, sizeChars, toString, Int.repr]
    | negSucc n => simp [chars, isNegative, sizeChars, toString, Int.repr, Int.negSucc_lt_zero]
  | float x =>
    cases h : Binary.ofFloat? x with
    | none =>
      simp only [chars, floatChars, isNegative, sizeChars, h, Bool.and_eq_true, decide_eq_true_eq]
      by_cases hnan : x.isNaN
      · simp only [hnan]
        rfl
      · by_cases hneg : x < 0
        · simp only [hnan, hneg]
          rfl
        · simp only [hnan, hneg]
          rfl
    | some b =>
      simp only [chars, floatChars, isNegative, sizeChars, h]
      cases b.neg <;> rfl

theorem isWhole_sizeChars (n : Int) : IsWhole (int n).sizeChars := isWhole_toDigits _

/-- A finite double is written with a point or an exponent. -/
theorem isFraction_sizeChars {x : Float} (h : (float x).isFinite) :
    IsFraction (float x).sizeChars := by
  obtain ⟨b, hb⟩ := Option.isSome_iff_exists.1 h
  simp only [sizeChars, hb]
  split
  · exact isFraction_places (isWhole_singleton rfl) ⟨by simp, by simp⟩
  · exact Decimal.isFraction_chars (Binary.shortest_ne_zero (by assumption))

theorem head_of_isDigits {ds cs : List Char} (h : IsDigits ds) :
    ∃ c ∈ (ds ++ cs).head?, JavaScript.isWordChar c := by
  obtain ⟨hne, hdigits⟩ := h
  cases ds with
  | nil => contradiction
  | cons d ds => exact ⟨d, rfl, by simp [JavaScript.isWordChar, hdigits d List.mem_cons_self]⟩

theorem head_sizeChars (a : Number) : ∃ c ∈ a.sizeChars.head?, JavaScript.isWordChar c := by
  cases a with
  | int n =>
    rw [← List.append_nil (int n).sizeChars]
    exact head_of_isDigits (isWhole_sizeChars n).1
  | float x =>
    by_cases h : (float x).isFinite
    · obtain ⟨whole, places, expo, hchars, hw, -⟩ := isFraction_sizeChars h
      rw [hchars]
      exact head_of_isDigits hw.1
    · have hnone : Binary.ofFloat? x = none := by simpa [isFinite] using h
      simp only [sizeChars, hnone]
      split
      · exact ⟨'n', rfl, rfl⟩
      · exact ⟨'i', rfl, rfl⟩

/-- What a number is read as after its sign: a literal, or a name that means nothing. -/
def sizeToken (a : Number) : JavaScript.Token :=
  if a.isFinite then .number a.sizeChars else .word a.sizeChars

end Number

namespace JavaScript

/-- The size of a number is one token, if no point comes after a whole number. -/
theorem lex_sizeChars {a : Number} {rest : List Char} (hrest : Apart rest)
    (hdot : ∀ n, a = .int n → rest.head? ≠ some '.') :
    lex (a.sizeChars ++ rest) = a.sizeToken :: lex rest := by
  unfold Number.sizeToken
  split
  · rename_i hfinite
    cases a with
    | int n =>
      have hlex := lex_numeral (Number.isWhole_sizeChars n) (.inl rfl) (.inl rfl) hrest
        fun _ _ => hdot n rfl
      simpa using hlex
    | float x =>
      obtain ⟨whole, places, expo, hchars, hw, hp, he, hne⟩ := Number.isFraction_sizeChars hfinite
      rw [hchars, List.append_assoc, List.append_assoc]
      refine lex_numeral hw hp he hrest fun hp he => ?_
      obtain h | h := hne <;> contradiction
  · rename_i hfinite
    cases a with
    | int n => exact absurd rfl hfinite
    | float x =>
      cases h : Binary.ofFloat? x with
      | some b => simp [Number.isFinite, h] at hfinite
      | none =>
        have hword (c : Char) (cs : List Char) (hc : isWordStart c) (hcs : ∀ d ∈ cs, isWordChar d) :
            lex ((c :: cs) ++ rest) = .word (c :: cs) :: lex rest := lex_word hc hcs hrest
        simp only [Number.sizeChars, h]
        split
        · exact hword 'n' ['a', 'n'] rfl (List.all_eq_true.1 rfl)
        · exact hword 'i' ['n', 'f'] rfl (List.all_eq_true.1 rfl)

end JavaScript

end Terse
