import Mathlib.Data.List.TakeWhile
import Terse.Number.Numeral
import Terse.Proofs.Source.Item

/-! Which numerals the lexer cuts out, and that each of them can be read unless it is an integer
with too many digits. -/
namespace Terse

variable {c : Char} {cs ds : List Char}

theorem isDecimal_cases (h : isDecimal c) :
    ∃ z ∈ decimalZeros, ∃ k < 10, c = Char.ofNat (z + k) := by
  suffices h : ∃ z ∈ decimalZeros, ∃ k < 10, c.toNat = z + k by
    obtain ⟨z, hz, k, hk, h⟩ := h
    exact ⟨z, hz, k, hk, by rw [← h, Char.ofNat_toNat]⟩
  unfold isDecimal decimalValue? at h
  split at h
  · split at h
    · rename_i hd
      simp only [Char.isDigit, ge_iff_le, Bool.and_eq_true, decide_eq_true_eq] at hd
      have hl : 48 ≤ c.toNat := hd.1
      have hu : c.toNat ≤ 57 := hd.2
      exact ⟨48, by decide, c.toNat - 48, by omega, by omega⟩
    · exact absurd h Bool.false_ne_true
  · rw [Option.isSome_map, List.find?_isSome] at h
    obtain ⟨z, hz, h⟩ := h
    simp only [Bool.and_eq_true, decide_eq_true_eq] at h
    exact ⟨z, hz, c.toNat - z, by omega, by omega⟩

/-- A character that a numeral is not trimmed of, and that is no sign or underscore. -/
def isSolid (c : Char) : Bool := !isBlank c && c ≠ '_' && c ≠ '+' && c ≠ '-'

theorem isSolid_of_isDecimal (h : isDecimal c) : isSolid c := by
  have hall : ∀ z ∈ decimalZeros, ∀ k < 10, isSolid (Char.ofNat (z + k)) := by decide +kernel
  obtain ⟨z, hz, k, hk, rfl⟩ := isDecimal_cases h
  exact hall z hz k hk

theorem isSolid_of_isHex (h : Lexer.isHex c) : isSolid c :=
  Lexer.forall_isHex (P := fun c => isSolid c) (by decide +kernel) h

namespace Numeral

/-- A run of decimal digits. -/
def IsDigits (ds : List Char) : Prop := ds ≠ [] ∧ ∀ c ∈ ds, isDecimal c

/-- A point with digits after it, or nothing. -/
def IsPlaces (cs : List Char) : Prop := cs = [] ∨ ∃ ds, IsDigits ds ∧ cs = '.' :: ds

/-- An exponent, or nothing. -/
def IsExponent (cs : List Char) : Prop :=
  cs = [] ∨ ∃ e sign ds, (e = 'e' ∨ e = 'E') ∧ (sign = [] ∨ sign = ['+'] ∨ sign = ['-']) ∧
    IsDigits ds ∧ cs = e :: (sign ++ ds)

/-- The numerals of the language. -/
def IsNumeral (cs : List Char) : Prop :=
  ∃ whole places expo, IsDigits whole ∧ IsPlaces places ∧ IsExponent expo ∧
    cs = whole ++ places ++ expo

/-- The number in an exponent. -/
def exponentValue : List Char → Int
  | [] => 0
  | _ :: '-' :: ds => -ofDigits 10 ds
  | _ :: '+' :: ds => ofDigits 10 ds
  | _ :: ds => ofDigits 10 ds

/-- The numerals of the language, each with the decimal `m * 10 ^ e` that it writes. -/
def Writes (cs : List Char) (m : Nat) (e : Int) : Prop :=
  ∃ whole places expo, IsDigits whole ∧ IsPlaces places ∧ IsExponent expo ∧
    cs = whole ++ places ++ expo ∧ m = ofDigits 10 (whole ++ places.tail) ∧
    e = exponentValue expo - places.tail.length

theorem IsNumeral.writes {cs : List Char} (h : IsNumeral cs) : ∃ m e, Writes cs m e := by
  obtain ⟨whole, places, expo, hw, hp, he, rfl⟩ := h
  exact ⟨_, _, whole, places, expo, hw, hp, he, rfl, rfl, rfl⟩

theorem Writes.isNumeral {cs : List Char} {m : Nat} {e : Int} (h : Writes cs m e) :
    IsNumeral cs := by
  obtain ⟨whole, places, expo, hw, hp, he, hcs, -⟩ := h
  exact ⟨whole, places, expo, hw, hp, he, hcs⟩

end Numeral

namespace Lexer

open Numeral

theorem isDigits_take {n : Nat} (h : digitsWidth cs = n + 1) : IsDigits (cs.take (n + 1)) := by
  have htake : cs.take (n + 1) = cs.takeWhile isDecimal := by
    rw [← h, digitsWidth, take_takeWhile_length]
  rw [htake]
  refine ⟨fun hnil => ?_, fun c hc => List.mem_takeWhile_imp hc⟩
  simp [digitsWidth, hnil] at h

theorem isPlaces_take (cs : List Char) : IsPlaces (cs.take (placesWidth cs)) := by
  unfold placesWidth
  split
  · split
    · exact .inl rfl
    · rename_i n h
      exact .inr ⟨_, isDigits_take h, rfl⟩
  · exact .inl rfl

theorem isExponent_take_sign {e : Char} {sign rest : List Char} {n : Nat} (he : e = 'e' ∨ e = 'E')
    (hs : sign = [] ∨ sign = ['+'] ∨ sign = ['-']) (h : digitsWidth rest = n + 1) :
    IsExponent ((e :: (sign ++ rest)).take (n + 2 + sign.length)) := by
  have htake : (e :: (sign ++ rest)).take (n + 2 + sign.length) =
      e :: (sign ++ rest.take (n + 1)) := by
    rw [show n + 2 + sign.length = sign.length + (n + 1) + 1 by omega, List.take_succ_cons,
      List.take_length_add_append]
  exact .inr ⟨e, sign, _, he, hs, isDigits_take h, htake⟩

theorem isExponent_take (cs : List Char) : IsExponent (cs.take (exponentWidth cs)) := by
  unfold exponentWidth
  split
  · rename_i e cs
    split
    · rename_i he
      dsimp only
      split
      · exact .inl rfl
      · rename_i n h
        split at h
        · exact isExponent_take_sign he (.inr (.inl rfl)) h
        · exact isExponent_take_sign he (.inr (.inr rfl)) h
        · have hnone := isExponent_take_sign he (.inl rfl) h
          exact hnone
    · exact .inl rfl
  · exact .inl rfl

/-- What is cut as a number is a numeral. -/
theorem isNumeral_take {n : Nat} (h : numberWidth cs = n + 1) : IsNumeral (cs.take (n + 1)) := by
  unfold numberWidth at h
  split at h
  · contradiction
  · rename_i k hk
    rw [← h, List.take_add, List.take_add]
    obtain ⟨m, hm⟩ := Nat.exists_eq_succ_of_ne_zero hk
    exact ⟨_, _, _, hm ▸ isDigits_take hm, isPlaces_take _, isExponent_take _, rfl⟩

end Lexer

namespace Numeral

theorem spacedWell_of_solid {isDigit : Char → Bool} {before : Char} (hb : before ≠ '_')
    (h : ∀ c ∈ cs, c ≠ '_') : spacedWell isDigit before cs := by
  induction cs generalizing before with
  | nil => simp [spacedWell, hb]
  | cons c cs ih =>
    have hc := h c List.mem_cons_self
    simp [spacedWell, hb, hc, ih hc fun c hc => h c (List.mem_cons_of_mem _ hc)]

theorem ne_underscore (h : isSolid c) : c ≠ '_' := by
  simp only [isSolid, Bool.and_eq_true, decide_eq_true_eq] at h
  exact h.1.1.2

theorem sign_of_isSolid {c : Char} {cs : List Char} (h : isSolid c) :
    sign (c :: cs) = (false, c :: cs) := by
  simp only [isSolid, Bool.and_eq_true, decide_eq_true_eq] at h
  unfold sign
  split <;> simp_all

theorem dropWhile_isBlank (h : ∀ c ∈ ds.head?, isSolid c) : ds.dropWhile isBlank = ds := by
  cases ds with
  | nil => rfl
  | cons c ds =>
    have hc := h c rfl
    simp only [isSolid, Bool.and_eq_true, Bool.not_eq_true'] at hc
    simp [hc.1.1.1]

/-- Digits alone are read as they stand. -/
theorem readInt_digits (base : Nat) (hne : ds ≠ []) (hd : ∀ c ∈ ds, (digitIn? base c).isSome)
    (hs : ∀ c ∈ ds, isSolid c) (hm : skipMark base ds = ds) :
    readInt base ds = if base = 10 ∧ digitLimit < ds.length then .error (.tooManyDigits ds.length)
      else .ok (ofDigits base ds) := by
  have hsign : sign ds = (false, ds) := by
    obtain ⟨c, cs, rfl⟩ := List.exists_cons_of_ne_nil hne
    exact sign_of_isSolid (hs c List.mem_cons_self)
  have hblank : ds.dropWhile isBlank = ds :=
    dropWhile_isBlank fun c hc => hs c (List.mem_of_mem_head? hc)
  have hrun : ∀ c ∈ ds, ((digitIn? base c).isSome || decide (c = '_')) = true :=
    fun c hc => by simp [hd c hc]
  have htake := List.takeWhile_eq_self_iff.2 hrun
  have hdrop := List.dropWhile_eq_nil_iff.2 hrun
  have hcount : ds.countP (fun c => (digitIn? base c).isSome) = ds.length :=
    List.countP_eq_length.2 hd
  have hwell : spacedWell (fun c => (digitIn? base c).isSome) ' ' ds :=
    spacedWell_of_solid (by decide) fun c hc => ne_underscore (hs c hc)
  have hlength : ds.length ≠ 0 := mt List.length_eq_zero_iff.1 hne
  simp only [readInt, hblank, hsign, hm, htake, hdrop, hcount, hwell, hlength]
  simp

theorem readInt_ten (h : IsDigits ds) :
    readInt 10 ds = if digitLimit < ds.length then .error (.tooManyDigits ds.length)
      else .ok (ofDigits 10 ds) := by
  have hm : skipMark 10 ds = ds := by
    unfold skipMark
    split <;> simp
  simpa using readInt_digits 10 h.1 h.2 (fun c hc => isSolid_of_isDecimal (h.2 c hc)) hm

/-- A run of digits ends where something else begins. -/
theorem span_digits {rest : List Char} (hds : ∀ c ∈ ds, isDecimal c)
    (hrest : ∀ c ∈ rest.head?, isDecimal c = false) :
    (ds ++ rest).takeWhile isDecimal = ds ∧ (ds ++ rest).dropWhile isDecimal = rest := by
  rw [List.takeWhile_append_of_pos hds, List.dropWhile_append_of_pos hds]
  cases rest with
  | nil => simp
  | cons c rest => simp [hrest c rfl]

theorem head?_places_append {places expo : List Char} (hp : IsPlaces places)
    (he : IsExponent expo) : ∀ c ∈ (places ++ expo).head?, isDecimal c = false := by
  obtain rfl | ⟨ds, -, rfl⟩ := hp
  · obtain rfl | ⟨e, sign, ds, rfl | rfl, -, -, rfl⟩ := he
    · simp
    · simp; decide
    · simp; decide
  · simp; decide

theorem exponentValue_of_isSolid {e c : Char} (h : isSolid c) :
    exponentValue (e :: c :: cs) = ofDigits 10 (c :: cs) := by
  simp only [isSolid, Bool.and_eq_true, decide_eq_true_eq] at h
  unfold exponentValue
  split <;> simp_all

theorem exponent?_eq {expo : List Char} (h : IsExponent expo) :
    exponent? expo = some (exponentValue expo) := by
  obtain rfl | ⟨e, sgn, ds, he, hs, ⟨hne, hds⟩, rfl⟩ := h
  · rfl
  · have hall : ds.all isDecimal := List.all_eq_true.2 hds
    obtain rfl | rfl | rfl := hs
    · obtain ⟨c, cs, rfl⟩ := List.exists_cons_of_ne_nil hne
      have hc := isSolid_of_isDecimal (hds c List.mem_cons_self)
      rw [List.nil_append, exponentValue_of_isSolid hc]
      simp [exponent?, he, sign_of_isSolid hc, hall]
    · simp [exponent?, exponentValue, he, sign, hne, hall]
    · simp [exponent?, exponentValue, he, sign, hne, hall]

/-- A numeral is read as the decimal that it writes. -/
theorem decimal?_eq {m : Nat} {e : Int} (h : Writes cs m e) : decimal? cs = some (m, e) := by
  obtain ⟨whole, places, expo, ⟨hne, hwhole⟩, hp, he, rfl, rfl, rfl⟩ := h
  have hexp := exponent?_eq he
  obtain ⟨htake, hdrop⟩ := span_digits hwhole (head?_places_append hp he)
  rw [List.append_assoc]
  simp only [decimal?, htake, hdrop]
  obtain rfl | ⟨ds, hds, rfl⟩ := hp
  · have hpoint : ∀ rest, [] ++ expo ≠ '.' :: rest := by
      obtain rfl | ⟨e, sgn, ds, rfl | rfl, -, -, rfl⟩ := he <;> simp
    split
    · rename_i h
      exact absurd h (hpoint _)
    · simp [hne, hexp]
  · obtain ⟨htake, hdrop⟩ := span_digits hds.2 (head?_places_append (.inl rfl) he)
    simp only [List.nil_append] at htake hdrop
    simp [hne, htake, hdrop, hexp]

theorem isSolid_head {whole rest : List Char} (h : IsDigits whole) :
    ∀ c ∈ (whole ++ rest).head?, isSolid c := by
  obtain ⟨d, ds, rfl⟩ := List.exists_cons_of_ne_nil h.1
  intro c hc
  obtain rfl := Option.some.inj hc
  exact isSolid_of_isDecimal (h.2 _ List.mem_cons_self)

theorem isSolid_last {ds rest : List Char} (h : IsDigits ds) :
    ∀ c ∈ (rest ++ ds).reverse.head?, isSolid c := by
  rw [List.reverse_append]
  exact isSolid_head ⟨mt List.reverse_eq_nil_iff.1 h.1, fun c hc => h.2 c (List.mem_reverse.1 hc)⟩

theorem IsNumeral.ends_in_digits (h : IsNumeral cs) :
    ∃ front ds, IsDigits ds ∧ cs = front ++ ds := by
  obtain ⟨whole, places, expo, hw, hp, he, rfl⟩ := h
  obtain rfl | ⟨e, sgn, ds, -, -, hds, rfl⟩ := he
  · obtain rfl | ⟨ds, hds, rfl⟩ := hp
    · exact ⟨[], whole, hw, by simp⟩
    · exact ⟨whole ++ ['.'], ds, hds, by simp⟩
  · exact ⟨whole ++ places ++ e :: sgn, ds, hds, by simp⟩

theorem IsNumeral.trim_eq (h : IsNumeral cs) : trim cs = cs := by
  have hfront : cs.dropWhile isBlank = cs := by
    obtain ⟨whole, places, expo, hw, -, -, rfl⟩ := h
    rw [List.append_assoc]
    exact dropWhile_isBlank (isSolid_head hw)
  have hback : cs.reverse.dropWhile isBlank = cs.reverse := by
    obtain ⟨front, ds, hds, rfl⟩ := h.ends_in_digits
    exact dropWhile_isBlank (isSolid_last hds)
  rw [trim, hfront, hback, List.reverse_reverse]

theorem IsNumeral.ne_underscore (h : IsNumeral cs) : ∀ c ∈ cs, c ≠ '_' := by
  have hdigits {ds : List Char} (hds : IsDigits ds) : '_' ∉ ds := fun hc => by
    have := hds.2 _ hc
    contradiction
  obtain ⟨whole, places, expo, hw, hp, he, rfl⟩ := h
  rintro c hc rfl
  simp only [List.mem_append, hdigits hw, false_or] at hc
  obtain hc | hc := hc
  · obtain rfl | ⟨ds, hds, rfl⟩ := hp
    · exact List.not_mem_nil hc
    · simp [hdigits hds] at hc
  · obtain rfl | ⟨e, sgn, ds, rfl | rfl, rfl | rfl | rfl, hds, rfl⟩ := he
    · exact List.not_mem_nil hc
    all_goals simp [hdigits hds] at hc

/-- A digit starts no name. -/
theorem toLower_of_isDecimal (h : isDecimal c) : c.toLower ≠ 'i' ∧ c.toLower ≠ 'n' := by
  have hall : ∀ z ∈ decimalZeros, ∀ k < 10,
      (Char.ofNat (z + k)).toLower ≠ 'i' ∧ (Char.ofNat (z + k)).toLower ≠ 'n' := by decide +kernel
  obtain ⟨z, hz, k, hk, rfl⟩ := isDecimal_cases h
  exact hall z hz k hk

theorem IsNumeral.head (h : IsNumeral cs) : ∃ d rest, isDecimal d ∧ cs = d :: rest := by
  obtain ⟨whole, places, expo, ⟨hne, hw⟩, -, -, rfl⟩ := h
  obtain ⟨d, ds, rfl⟩ := List.exists_cons_of_ne_nil hne
  exact ⟨d, _, hw d List.mem_cons_self, rfl⟩

/-- A numeral is read as the double for the decimal that it writes. -/
theorem readFloat_eq {m : Nat} {e : Int} (hwrites : Writes cs m e) :
    readFloat cs = .ok (floatOfDecimal false m e) := by
  have h := hwrites.isNumeral
  obtain ⟨d, rest, hd, hcs⟩ := h.head
  have hfilter : cs.filter (fun c => decide (c ≠ '_')) = cs :=
    List.filter_eq_self.2 fun c hc => by simp [h.ne_underscore c hc]
  have hwell : spacedWell isDecimal ' ' cs := spacedWell_of_solid (by decide) h.ne_underscore
  have hsign : sign cs = (false, cs) := hcs ▸ sign_of_isSolid (isSolid_of_isDecimal hd)
  have hword (w : String) (hw : w.toList.head? = some 'i' ∨ w.toList.head? = some 'n') :
      String.ofList (cs.map Char.toLower) ≠ w := by
    rintro rfl
    simp [hcs, toLower_of_isDecimal hd] at hw
  simp only [readFloat, h.trim_eq, hwell, hfilter, hsign, decimal?_eq hwrites,
    hword "inf" (.inl rfl), hword "infinity" (.inl rfl), hword "nan" (.inr rfl), Bool.not_true,
    Bool.false_eq_true, or_self, if_false]

/-- A numeral that is too long to be read. -/
def IsOverlong (cs : List Char) : Prop := IsDigits cs ∧ digitLimit < cs.length

theorem read_digits (h : IsDigits cs) : read cs =
    if digitLimit < cs.length then .error (.tooManyDigits cs.length)
    else .ok (.int (ofDigits 10 cs)) := by
  have hint : (cs.any fun c => c = '.' || c = 'e' || c = 'E') = false := by
    refine List.any_eq_false.2 fun c hc hmark => ?_
    have hdigit := h.2 c hc
    simp only [Bool.or_eq_true, decide_eq_true_eq] at hmark
    rcases hmark with (rfl | rfl) | rfl <;> contradiction
  rw [read, hint, if_neg Bool.false_ne_true, readInt_ten h]
  split <;> rfl

/-- A numeral with places or an exponent is read as a double. -/
theorem read_decimal {m : Nat} {e : Int} (h : Writes cs m e) (hdigits : ¬ IsDigits cs) :
    read cs = .ok (.float (floatOfDecimal false m e)) := by
  have hfloat : cs.any fun c => c = '.' || c = 'e' || c = 'E' := by
    obtain ⟨whole, places, expo, hw, rfl | ⟨ds, -, rfl⟩, rfl | ⟨e, sgn, ds, rfl | rfl, -, -, rfl⟩,
      rfl⟩ := h.isNumeral
    · simp [hw] at hdigits
    all_goals simp
  rw [read, if_pos hfloat, readFloat_eq h]
  rfl

/-- A numeral has a value, or too many digits. -/
theorem read_numeral (h : IsNumeral cs) :
    (∃ a, read cs = .ok a) ∨ (IsOverlong cs ∧ read cs = .error (.tooManyDigits cs.length)) := by
  by_cases hdigits : IsDigits cs
  · have hread := read_digits hdigits
    by_cases hlong : digitLimit < cs.length
    · exact .inr ⟨⟨hdigits, hlong⟩, hread.trans (if_pos hlong)⟩
    · exact .inl ⟨_, hread.trans (if_neg hlong)⟩
  · obtain ⟨m, e, hwrites⟩ := h.writes
    exact .inl ⟨_, read_decimal hwrites hdigits⟩

end Numeral

end Terse
