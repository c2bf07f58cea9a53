import Terse.Proofs.JavaScript.Literal
import Terse.Text.Quoted

/-! A quoted text shows where it ends and what was quoted, whatever comes after it. -/
namespace Terse

open JavaScript (hexFrom_hexDigits length_hexDigits isHex_hexDigits inert_of_isHex)

theorem CodePoint.eq_of_val {p q : CodePoint} (h : p.val = q.val) : p = q := by
  cases p
  cases q
  simpa using h

theorem CodePoint.ofChar_injective : Function.Injective CodePoint.ofChar :=
  fun _ _ h => Char.toNat_inj.1 (congrArg CodePoint.val h)

namespace Text

variable {mark : Char} {p : CodePoint} {t u : Text} {rest rest' : List Char}

theorem ofString_injective : Function.Injective ofString :=
  fun _ _ h => String.toList_inj.1 (List.map_injective_iff.2 CodePoint.ofChar_injective h)

/-- The number of the code point that comes first inside quotes, and what follows it. -/
def readPoint : List Char → Nat × List Char
  | '\\' :: 'x' :: cs => (Lexer.hexFrom 0 (cs.take 2), cs.drop 2)
  | '\\' :: 'u' :: cs => (Lexer.hexFrom 0 (cs.take 4), cs.drop 4)
  | '\\' :: 'U' :: cs => (Lexer.hexFrom 0 (cs.take 8), cs.drop 8)
  | '\\' :: 'n' :: cs => ('\n'.toNat, cs)
  | '\\' :: 'r' :: cs => ('\r'.toNat, cs)
  | '\\' :: 't' :: cs => ('\t'.toNat, cs)
  | '\\' :: c :: cs => (c.toNat, cs)
  | c :: cs => (c.toNat, cs)
  | [] => (0, [])

theorem take_hexDigits (width n : Nat) (rest : List Char) :
    (hexDigits width n ++ rest).take width = hexDigits width n :=
  List.take_left' (length_hexDigits width n)

theorem drop_hexDigits (width n : Nat) (rest : List Char) :
    (hexDigits width n ++ rest).drop width = rest :=
  List.drop_left' (length_hexDigits width n)

theorem hexFrom_of_lt {width n : Nat} (h : n < Nat.pow 16 width) :
    Lexer.hexFrom 0 (hexDigits width n) = n := by
  rw [hexFrom_hexDigits, Nat.zero_mul, Nat.zero_add, Nat.mod_eq_of_lt h]

theorem readPoint_numbered (p : CodePoint) (rest : List Char) :
    readPoint (quotedChar.numbered p ++ rest) = (p.val, rest) := by
  have hlt := p.lt
  unfold quotedChar.numbered
  split
  · have hvalue : Lexer.hexFrom 0 (hexDigits 2 p.val) = p.val := hexFrom_of_lt (by assumption)
    simp only [List.cons_append, readPoint, take_hexDigits, drop_hexDigits, hvalue]
  · split
    · have hvalue : Lexer.hexFrom 0 (hexDigits 4 p.val) = p.val := hexFrom_of_lt (by assumption)
      simp only [List.cons_append, readPoint, take_hexDigits, drop_hexDigits, hvalue]
    · have hvalue : Lexer.hexFrom 0 (hexDigits 8 p.val) = p.val :=
        hexFrom_of_lt (Nat.lt_trans hlt (by decide))
      simp only [List.cons_append, readPoint, take_hexDigits, drop_hexDigits, hvalue]

/-- What a text may be put between. -/
def IsMark (mark : Char) : Prop := mark = '\'' ∨ mark = '"'

theorem isMark_quoteMark (t : Text) : IsMark t.quoteMark := by
  unfold quoteMark
  split
  · exact .inr rfl
  · exact .inl rfl

theorem readPoint_plain {c : Char} (h : c ≠ '\\') : readPoint (c :: rest) = (c.toNat, rest) := by
  unfold readPoint
  split <;> simp_all

/-- A code point is read back from its quotation. -/
theorem readPoint_quotedChar (hm : IsMark mark) (p : CodePoint) (rest : List Char) :
    readPoint (quotedChar mark p ++ rest) = (p.val, rest) := by
  unfold quotedChar
  split
  case h_5 c _ _ _ _ hc =>
    obtain rfl := CodePoint.eq_ofChar hc
    split
    · subst c
      rcases hm with rfl | rfl <;> rfl
    · split
      · exact readPoint_plain (by assumption)
      · exact readPoint_numbered _ _
  case h_6 => exact readPoint_numbered _ _
  all_goals
    rename_i hc
    obtain rfl := CodePoint.eq_ofChar hc
    rfl

theorem numbered_eq_cons (p : CodePoint) : ∃ cs, quotedChar.numbered p = '\\' :: cs := by
  unfold quotedChar.numbered
  split
  · exact ⟨_, rfl⟩
  · split <;> exact ⟨_, rfl⟩

/-- What stands for a code point cannot be taken for the end of the text. -/
theorem quotedChar_eq_cons (hm : IsMark mark) (p : CodePoint) :
    ∃ c cs, quotedChar mark p = c :: cs ∧ c ≠ mark := by
  have hslash : '\\' ≠ mark := by
    rintro rfl
    rcases hm with h | h <;> contradiction
  obtain ⟨cs, hnumbered⟩ := numbered_eq_cons p
  unfold quotedChar
  split
  case h_5 =>
    split
    · exact ⟨_, _, rfl, hslash⟩
    · split
      · exact ⟨_, _, rfl, by assumption⟩
      · exact ⟨_, _, hnumbered, hslash⟩
  case h_6 => exact ⟨_, _, hnumbered, hslash⟩
  all_goals exact ⟨_, _, rfl, hslash⟩

/-- Quotations tell their texts, and where they end. -/
theorem quotedInside_inj (hm : IsMark mark)
    (h : t.flatMap (quotedChar mark) ++ mark :: rest =
      u.flatMap (quotedChar mark) ++ mark :: rest') :
    t = u ∧ rest = rest' := by
  induction t generalizing u with
  | nil =>
    cases u with
    | nil => simpa using h
    | cons q u =>
      obtain ⟨c, cs, hq, hc⟩ := quotedChar_eq_cons hm q
      simp only [List.flatMap_nil, List.flatMap_cons, hq, List.nil_append, List.cons_append,
        List.cons.injEq] at h
      exact absurd h.1.symm hc
  | cons p t ih =>
    cases u with
    | nil =>
      obtain ⟨c, cs, hp, hc⟩ := quotedChar_eq_cons hm p
      simp only [List.flatMap_nil, List.flatMap_cons, hp, List.nil_append, List.cons_append,
        List.cons.injEq] at h
      exact absurd h.1 hc
    | cons q u =>
      rw [List.flatMap_cons, List.flatMap_cons, List.append_assoc, List.append_assoc] at h
      have hread := congrArg readPoint h
      rw [readPoint_quotedChar hm, readPoint_quotedChar hm, Prod.mk.injEq] at hread
      obtain ⟨rfl, hrest⟩ := ih hread.2
      exact ⟨by rw [CodePoint.eq_of_val hread.1], hrest⟩

theorem quotedChars_append (t : Text) (rest : List Char) :
    t.quotedChars ++ rest =
      t.quoteMark :: (t.flatMap (quotedChar t.quoteMark) ++ t.quoteMark :: rest) := by
  simp [quotedChars]

theorem quotedChars_append_inj (h : t.quotedChars ++ rest = u.quotedChars ++ rest') :
    t = u ∧ rest = rest' := by
  rw [quotedChars_append, quotedChars_append, List.cons.injEq] at h
  rw [← h.1] at h
  exact quotedInside_inj (isMark_quoteMark t) h.2

/-- No two texts are quoted alike. -/
theorem quoted_injective : Function.Injective quoted := by
  intro t u h
  have happend : t.quotedChars ++ [] = u.quotedChars ++ [] := by rw [String.ofList_injective h]
  exact (quotedChars_append_inj happend).1

theorem newline_notMem_numbered (p : CodePoint) : '\n' ∉ quotedChar.numbered p := by
  have hdigits (width : Nat) : '\n' ∉ hexDigits width p.val := fun h =>
    (inert_of_isHex (isHex_hexDigits width p.val _ h)).2.2.1 rfl
  unfold quotedChar.numbered
  split
  · simp [hdigits]
  · split <;> simp [hdigits]

theorem newline_notMem_quotedChar (mark : Char) (p : CodePoint) : '\n' ∉ quotedChar mark p := by
  have hnumbered := newline_notMem_numbered p
  unfold quotedChar
  split
  case h_5 c _ hline _ _ _ =>
    have hc : c ≠ '\n' := hline
    split
    · simp [hc.symm]
    · split
      · simp [hc.symm]
      · exact hnumbered
  case h_6 => exact hnumbered
  all_goals decide

/-- A quoted text stays on its line. -/
theorem newline_notMem_quotedChars (t : Text) : '\n' ∉ t.quotedChars := by
  have hmark : '\n' ≠ t.quoteMark := by
    intro h
    rcases isMark_quoteMark t with h' | h' <;> exact absurd (h.trans h') (by decide)
  simp [quotedChars, hmark, newline_notMem_quotedChar]

end Text

theorem toList_quotedString (s : String) :
    (quotedString s).toList = (Text.ofString s).quotedChars := by
  rw [quotedString, Text.quoted, String.toList_ofList]

/-- Quoted strings tell what follows them. -/
theorem quotedString_append_inj {s t a b : String} (h : quotedString s ++ a = quotedString t ++ b) :
    s = t ∧ a = b := by
  rw [← String.toList_inj, String.toList_append, String.toList_append, toList_quotedString,
    toList_quotedString] at h
  obtain ⟨htext, hrest⟩ := Text.quotedChars_append_inj h
  exact ⟨Text.ofString_injective htext, String.toList_inj.1 hrest⟩

theorem quotedString_inj {s t : String} (h : quotedString s = quotedString t) : s = t :=
  Text.ofString_injective (Text.quoted_injective h)

end Terse
