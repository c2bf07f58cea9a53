import Terse.Emit.Code
import Terse.Proofs.JavaScript.Numeral
import Terse.Proofs.Number.Reading
import Terse.Proofs.Source.Numeral

/-! Numerals from the source to the emitted text. An integer is written out in the digits of the
target. A decimal becomes a literal if it is in the range of doubles, and otherwise a word that is
none. -/
namespace Terse

open Double (Fits InRange)

variable {cs : List Char} {c : Char} {m n : Nat} {e i : Int} {x : Float}

theorem IsFraction.isNumeral (h : IsFraction cs) : JavaScript.IsNumeral cs := by
  obtain ⟨whole, places, expo, hcs, hw, hp, he, -⟩ := h
  exact ⟨whole, places, expo, hcs, hw, hp, he⟩

theorem isNumeral_toDigits (n : Nat) : JavaScript.IsNumeral (Nat.toDigits 10 n) :=
  ⟨_, [], [], (List.append_nil _).symm, isWhole_toDigits n, .inl rfl, .inl rfl⟩

/-- A literal starts with a digit. -/
theorem not_isNumeral_cons (hc : c.isDigit = false) (cs : List Char) :
    ¬ JavaScript.IsNumeral (c :: cs) := by
  rintro ⟨whole, places, expo, hcs, ⟨⟨hne, hdigits⟩, -⟩, -⟩
  obtain ⟨d, ds, rfl⟩ := List.exists_cons_of_ne_nil hne
  obtain ⟨rfl, -⟩ := List.cons.inj hcs
  rw [hdigits c List.mem_cons_self] at hc
  contradiction

theorem Number.toList_text (a : Number) : a.text.toList = a.chars := String.toList_ofList

theorem Number.toList_text_int (n : Nat) : (int n).text.toList = Nat.toDigits 10 n := by
  rw [toList_text]
  simp [chars, toString, Int.repr]

namespace Double

theorem isSome_ofFloat? (x : Float) : (Binary.ofFloat? x).isSome ↔ x.isFinite := by
  constructor
  · intro h
    obtain ⟨d, hd⟩ := Option.isSome_iff_exists.1 h
    exact isFinite_of_ofFloat? hd
  · intro h
    obtain ⟨d, hd, -⟩ := ofFloat?_of_isFinite h
    exact Option.isSome_iff_exists.2 ⟨d, hd⟩

theorem ofFloat?_of_not_isFinite (h : x.isFinite = false) : Binary.ofFloat? x = none := by
  rw [← Option.not_isSome_iff_eq_none, isSome_ofFloat?, h]
  exact Bool.false_ne_true

/-- What a numeral is read as is not negative. -/
theorem Fits.isNegative (h : Fits m e x) : (Number.float x).isNegative = false := by
  by_cases hx : x.isFinite
  · obtain ⟨d, hd, -⟩ := ofFloat?_of_isFinite hx
    rw [Number.isNegative, hd]
    exact h.positive.neg_eq hd
  · rw [Bool.not_eq_true] at hx
    obtain ⟨-, hlt⟩ := h.positive.not_lt hx
    rw [Number.isNegative, ofFloat?_of_not_isFinite hx]
    exact (Bool.and_eq_false_iff).2 (.inr (decide_eq_false hlt))

/-- The text of a double that has been read has no sign. -/
theorem Fits.toList_text (h : Fits m e x) :
    (Number.float x).text.toList = (Number.float x).sizeChars := by
  rw [Number.toList_text, Number.chars_eq, h.isNegative]
  rfl

theorem Fits.text_infinite (h : Fits m e x) (hr : ¬ InRange m e) :
    (Number.float x).text = "inf" := by
  have hx : x.isFinite = false := Bool.eq_false_iff.2 fun hx => hr (h.isFinite_iff.1 hx)
  obtain ⟨hnan, -⟩ := h.positive.not_lt hx
  rw [← String.toList_inj, h.toList_text, Number.sizeChars, ofFloat?_of_not_isFinite hx]
  exact if_neg (hnan ▸ Bool.false_ne_true)

/-- A numeral is emitted as one exactly if it is in range. -/
theorem Fits.isNumeral_text (h : Fits m e x) :
    JavaScript.IsNumeral (Number.float x).text.toList ↔ InRange m e := by
  by_cases hr : InRange m e
  · have hfinite : (Number.float x).isFinite := (isSome_ofFloat? x).2 (h.isFinite_iff.2 hr)
    rw [h.toList_text]
    exact iff_of_true (Number.isFraction_sizeChars hfinite).isNumeral hr
  · rw [h.text_infinite hr]
    exact iff_of_false (not_isNumeral_cons rfl _) hr

end Double

namespace Numeral

theorem isDigits_of_all (hne : cs ≠ []) (h : cs.all isDecimal) : IsDigits cs :=
  ⟨hne, List.all_eq_true.1 h⟩

/-- A numeral writes one decimal. -/
theorem Writes.unique (h : Writes cs m e) (h' : Writes cs n i) : m = n ∧ e = i := by
  have hpair := Option.some.inj ((decimal?_eq h).symm.trans (decimal?_eq h'))
  exact ⟨congrArg Prod.fst hpair, congrArg Prod.snd hpair⟩

end Numeral

/-- A numeral that can be read is emitted as a literal if and only if it is an integer or in the
range of doubles; an integer is written out in full, and what is too large is written as
infinite. -/
theorem isNumeral_emitExpr (h : Numeral.IsNumeral cs) (hshort : ¬ Numeral.IsOverlong cs) :
    (∃ m e, Numeral.Writes cs m e) ∧
    ∃ a text, Numeral.read cs = .ok a ∧ (Node.number a).emitExpr = .ok text ∧
      (∀ m e, Numeral.Writes cs m e →
        (JavaScript.IsNumeral text.toList ↔ Numeral.IsDigits cs ∨ InRange m e)) ∧
      (¬ JavaScript.IsNumeral text.toList → text = "inf") ∧
      (Numeral.IsDigits cs → text.toList = Nat.toDigits 10 (Numeral.ofDigits 10 cs)) := by
  refine ⟨h.writes, ?_⟩
  by_cases hdigits : Numeral.IsDigits cs
  · have hread := Numeral.read_digits hdigits
    rw [if_neg fun hlong => hshort ⟨hdigits, hlong⟩] at hread
    have htext := Number.toList_text_int (Numeral.ofDigits 10 cs)
    have hliteral := isNumeral_toDigits (Numeral.ofDigits 10 cs)
    rw [← htext] at hliteral
    exact ⟨_, _, hread, rfl, fun _ _ _ => iff_of_true hliteral (.inl hdigits),
      fun hnot => absurd hliteral hnot, fun _ => htext⟩
  · obtain ⟨m, e, hwrites⟩ := h.writes
    have hfits := Double.fits_floatOfDecimal m e
    refine ⟨_, (Number.float (floatOfDecimal false m e)).text, Numeral.read_decimal hwrites hdigits,
      rfl, ?_, ?_, fun hds => absurd hds hdigits⟩
    · intro n i hwrites'
      obtain ⟨rfl, rfl⟩ := hwrites.unique hwrites'
      rw [hfits.isNumeral_text, or_iff_right hdigits]
    · intro hnot
      exact hfits.text_infinite (mt hfits.isNumeral_text.2 hnot)

/-- Zeros that lead, digits of another script, a fraction and an exponent. -/
theorem isNumeral_emitExpr_scripts :
    Numeral.Writes "0٣.5E+2".toList 35 1 ∧
    ∃ a text, Numeral.read "0٣.5E+2".toList = .ok a ∧ (Node.number a).emitExpr = .ok text ∧
      JavaScript.IsNumeral text.toList := by
  have hwrites : Numeral.Writes "0٣.5E+2".toList 35 1 := by
    refine ⟨['0', '٣'], ['.', '5'], ['E', '+', '2'], ?_, .inr ⟨['5'], ?_, rfl⟩, ?_, rfl, rfl, rfl⟩
    · exact Numeral.isDigits_of_all (by decide) (by decide)
    · exact Numeral.isDigits_of_all (by decide) (by decide)
    · refine .inr ⟨'E', ['+'], ['2'], .inr rfl, .inr (.inl rfl), ?_, rfl⟩
      exact Numeral.isDigits_of_all (by decide) (by decide)
  have hshort : ¬ Numeral.IsOverlong "0٣.5E+2".toList := fun h => absurd h.2 (by decide)
  obtain ⟨-, a, text, hread, hemit, hliteral, -⟩ := isNumeral_emitExpr hwrites.isNumeral hshort
  exact ⟨hwrites, a, text, hread, hemit, (hliteral 35 1 hwrites).2 (.inr (by decide +kernel))⟩

/-- A numeral whose exponent is too large for a double. -/
theorem infinite_numeral_emitted :
    Numeral.IsNumeral "1e400".toList ∧ ¬ Numeral.IsOverlong "1e400".toList ∧
    ∃ a, Numeral.read "1e400".toList = .ok a ∧ (Node.number a).emitExpr = .ok "inf" ∧
      ¬ JavaScript.IsNumeral "inf".toList := by
  refine ⟨⟨['1'], [], ['e', '4', '0', '0'], ?_, .inl rfl, ?_, rfl⟩,
    fun h => absurd h.2 (by decide), ?_⟩
  · exact Numeral.isDigits_of_all (by decide) (by decide)
  · refine .inr ⟨'e', [], ['4', '0', '0'], .inl rfl, .inl rfl, ?_, rfl⟩
    exact Numeral.isDigits_of_all (by decide) (by decide)
  · exact ⟨.float (1.0 / 0.0), rfl, rfl, not_isNumeral_cons rfl _⟩

end Terse
