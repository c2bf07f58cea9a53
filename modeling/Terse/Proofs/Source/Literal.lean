import Terse.Literal
import Terse.Proofs.Source.Item
import Terse.Proofs.Source.Numeral

/-! What string literals spell. -/
namespace Terse.Literal

open Lexer

variable {c quote : Char} {cs ds : List Char} {p : CodePoint} {t : Text}

/-- Hexadecimal digits and the code point that they name. -/
structure Names (ds : List Char) (p : CodePoint) : Prop where
  ne_nil : ds ≠ []
  isHex : ∀ c ∈ ds, Lexer.isHex c
  val_eq : Numeral.ofDigits 16 ds = p.val

/-- The items between the quotes of a literal, and one code point for each. -/
inductive Spells : List Char → Text → Prop
  | nil : Spells [] []
  | plain {c : Char} {cs : List Char} {t : Text} :
      c ≠ '\\' → Spells cs t → Spells (c :: cs) (.ofChar c :: t)
  | escape {c : Char} {cs : List Char} {t : Text} :
      c ≠ 'x' → c ≠ 'u' → Spells cs t → Spells ('\\' :: c :: cs) (.ofChar (escaped c) :: t)
  | hex {ds cs : List Char} {p : CodePoint} {t : Text} :
      ds.length = 2 → Names ds p → Spells cs t → Spells ('\\' :: 'x' :: (ds ++ cs)) (p :: t)
  | unicode {ds cs : List Char} {p : CodePoint} {t : Text} :
      ds.length = 4 → Names ds p → Spells cs t → Spells ('\\' :: 'u' :: (ds ++ cs)) (p :: t)
  | braced {ds cs : List Char} {p : CodePoint} {t : Text} :
      Names ds p → Spells cs t →
      Spells ('\\' :: 'u' :: '\x7b' :: (ds ++ '\x7d' :: cs)) (p :: t)

theorem skipMark_hex (h : ∀ c ∈ ds, Lexer.isHex c) : Numeral.skipMark 16 ds = ds := by
  unfold Numeral.skipMark
  split
  · rename_i zero x rest
    have hx := h x (by simp)
    rw [if_neg]
    rintro ⟨-, -, rfl | rfl⟩ <;> contradiction
  · rfl

theorem digitIn?_hex (h : Lexer.isHex c) : (Numeral.digitIn? 16 c).isSome := by
  simp only [Lexer.isHex, Bool.and_eq_true] at h
  exact h.2

theorem codePoint_of_names (h : Names ds p) : codePoint ds = .ok p := by
  have hread := Numeral.readInt_digits 16 h.ne_nil (fun c hc => digitIn?_hex (h.isHex c hc))
    (fun c hc => isSolid_of_isHex (h.isHex c hc)) (skipMark_hex h.isHex)
  have hneg : ¬ (p.val : Int) < 0 := by omega
  simp [codePoint, hread, h.val_eq, CodePoint.ofNat?, p.lt, hneg]

theorem hexFrom_zero (h : ∀ c ∈ ds, isHex c) : hexFrom 0 ds = Numeral.ofDigits 16 ds := by
  refine List.foldl_ext _ _ _ fun n c hc => ?_
  obtain ⟨d, hd⟩ := Option.isSome_iff_exists.1 (digitIn?_hex (h c hc))
  have hv : hexValue? c = some d := hd
  rw [hd, hv, Option.getD_some]

theorem names_of_lt (hne : ds ≠ []) (h : ∀ c ∈ ds, isHex c) (hlt : hexFrom 0 ds < 0x110000) :
    Names ds ⟨hexFrom 0 ds, hlt⟩ := ⟨hne, h, (hexFrom_zero h).symm⟩

/-- A body that spells a text is read as it. -/
theorem spelled_of_spells (h : Spells cs t) : spelled cs = .ok t := by
  induction h with
  | nil => simp [spelled]
  | plain hc _ ih => simp [spelled, hc, ih]
  | escape hx hu _ ih => simp [spelled, hu, ih]
  | hex hl hn _ ih =>
    simp only [spelled, ← hl, List.take_left, List.drop_left, codePoint_of_names hn, ih]
    rfl
  | @unicode ds cs p t hl hn _ ih =>
    obtain ⟨d, ds, rfl⟩ := List.exists_cons_of_ne_nil hn.ne_nil
    have hd : d ≠ '\x7b' := by
      rintro rfl
      exact absurd (hn.isHex _ List.mem_cons_self) (by decide)
    have htake : (d :: ds ++ cs).take 4 = d :: ds := by rw [← hl, List.take_left]
    have hdrop : (d :: ds ++ cs).drop 4 = cs := by rw [← hl, List.drop_left]
    rw [List.cons_append] at htake hdrop ⊢
    rw [spelled, htake, hdrop, codePoint_of_names hn, ih]
    · rfl
    · exact List.cons_ne_nil _ _
    · exact fun _ h => hd (List.cons.inj h).1
  | @braced ds cs p t hn _ ih =>
    have hds : ∀ c ∈ ds, decide (c ≠ '\x7d') = true := by
      intro c hc
      refine decide_eq_true fun h => ?_
      subst h
      exact absurd (hn.isHex _ hc) (by decide)
    have htake : (ds ++ '\x7d' :: cs).takeWhile (fun c => decide (c ≠ '\x7d')) = ds := by
      rw [List.takeWhile_append_of_pos hds]
      simp
    have hafter : afterBrace (ds ++ '\x7d' :: cs) = cs := by
      rw [afterBrace, List.dropWhile_append_of_pos hds]
      simp
    rw [spelled, if_pos (by simp), htake, hafter, codePoint_of_names hn, ih]
    rfl

theorem toNat_escaped (c : Char) : (escaped c).toNat = (Item.escape c).code := by
  unfold escaped
  split <;> simp [Item.code]

/-- An item spells one code point. -/
theorem Item.Fits.spells {i : Item} (h : i.Fits quote) : ∃ p : CodePoint, p.val = i.code ∧
    ∀ {body : List Char} {t : Text}, Spells body t → Spells (i.chars ++ body) (p :: t) := by
  cases i with
  | plain c => exact ⟨.ofChar c, rfl, fun ht => .plain h.2.1 ht⟩
  | escape c => exact ⟨.ofChar (escaped c), toNat_escaped c, fun ht => .escape h.1 h.2.1 ht⟩
  | hex ds =>
    obtain ⟨hl, hds⟩ := h
    have hp := names_of_lt (List.ne_nil_of_length_eq_add_one hl) hds
      (hexFrom_lt_of_length hds (by omega))
    exact ⟨_, rfl, fun ht => .hex hl hp ht⟩
  | unicode ds =>
    obtain ⟨hl, hds⟩ := h
    have hp := names_of_lt (List.ne_nil_of_length_eq_add_one hl) hds
      (hexFrom_lt_of_length hds (by omega))
    exact ⟨_, rfl, fun ht => .unicode hl hp ht⟩
  | braced ds =>
    have hp := names_of_lt (ne_nil_of_isBraced h) (isHex_of_isBraced h) (hexFrom_lt_of_isBraced h)
    refine ⟨⟨_, hexFrom_lt_of_isBraced h⟩, rfl, fun ht => ?_⟩
    simpa [Item.chars] using Spells.braced hp ht

/-- Items that fit spell a text, code by code. -/
theorem spells_items {items : List Item} (h : ∀ i ∈ items, i.Fits quote) :
    ∃ t : Text, Spells (items.flatMap Item.chars) t ∧
      t.map CodePoint.val = items.map Item.code := by
  induction items with
  | nil => exact ⟨[], .nil, rfl⟩
  | cons i items ih =>
    obtain ⟨hi, hitems⟩ := List.forall_mem_cons.1 h
    obtain ⟨p, hp, hspells⟩ := hi.spells
    obtain ⟨t, ht, hcodes⟩ := ih hitems
    refine ⟨p :: t, ?_, by simp [hp, hcodes]⟩
    rw [List.flatMap_cons]
    exact hspells ht

/-- A literal with its quotes. -/
def IsLiteral (cs : List Char) : Prop :=
  ∃ quote body t, cs = quote :: (body ++ [quote]) ∧ Spells body t

theorem value_of_spells (h : Spells cs t) : value (quote :: (cs ++ [quote])) = .ok t.joinPairs := by
  rw [value, List.drop_succ_cons, List.drop_zero, List.dropLast_concat, spelled_of_spells h]
  rfl

/-- Every string literal has a value. -/
theorem value_literal (h : IsLiteral cs) : ∃ t, value cs = .ok t := by
  obtain ⟨quote, body, t, rfl, ht⟩ := h
  exact ⟨t.joinPairs, value_of_spells ht⟩

end Terse.Literal

namespace Terse

variable {cs : List Char}

/-- What is cut as a string is a literal. -/
theorem Lexer.isLiteral_take {n : Nat} (h : stringWidth cs = n + 1) :
    Literal.IsLiteral (cs.take (n + 1)) := by
  obtain ⟨quote, items, rest, -, hitems, rfl, rfl⟩ := stringWidth_items.1 h
  obtain ⟨t, ht, -⟩ := Literal.spells_items hitems
  refine ⟨quote, _, t, ?_, ht⟩
  rw [List.take_succ_cons, List.take_length_add_append]
  rfl

end Terse
