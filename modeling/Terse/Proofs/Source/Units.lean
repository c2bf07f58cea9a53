import Terse.Proofs.Source.Literal

/-! The UTF-16 units of string literals. Pairs of surrogates are joined, which the units do not
show. -/
namespace Terse

/-- The UTF-16 units of a code point, given as a number. -/
def utf16 (n : Nat) : List Nat :=
  if n < 0x10000 then [n] else [0xd800 + (n - 0x10000) / 0x400, 0xdc00 + (n - 0x10000) % 0x400]

variable {p q : CodePoint} {t : Text}

theorem CodePoint.units_eq (p : CodePoint) : p.units = utf16 p.val := rfl

theorem utf16_of_lt {n : Nat} (h : n < 0x10000) : utf16 n = [n] := if_pos h

theorem CodePoint.val_joined (hp : p.IsHigh) (hq : q.IsLow) :
    (p.joined q hp hq).val = 0x10000 + (p.val - 0xd800) * 0x400 + (q.val - 0xdc00) :=
  rfl

theorem CodePoint.le_joined (hp : p.IsHigh) (hq : q.IsLow) : 0x10000 ≤ (p.joined q hp hq).val := by
  rw [val_joined, Nat.add_assoc]
  exact Nat.le_add_right _ _

/-- A pair of surrogates and the code point that they are joined to have the same units. -/
theorem CodePoint.units_joined (hp : p.IsHigh) (hq : q.IsLow) :
    (p.joined q hp hq).units = p.units ++ q.units := by
  have hplow : 0xd800 ≤ p.val := hp.1
  have hphigh : p.val < 0xdc00 := hp.2
  have hqlow : 0xdc00 ≤ q.val := hq.1
  have hqhigh : q.val < 0xe000 := hq.2
  rw [p.units_eq, q.units_eq, units_eq, utf16_of_lt (by omega : p.val < 0x10000),
    utf16_of_lt (by omega : q.val < 0x10000), utf16, if_neg (Nat.not_lt.2 (le_joined hp hq))]
  have hval := val_joined hp hq
  generalize (p.joined q hp hq).val = n at hval
  simp only [List.cons_append, List.nil_append, List.cons.injEq, and_true]
  omega

namespace Text

/-- Joining pairs changes no units. -/
theorem units_joinPairs (t : Text) : t.joinPairs.units = t.units := by
  fun_induction joinPairs t with
  | case1 => rfl
  | case2 => rfl
  | case3 p q rest h ih =>
    simp only [units, List.flatMap_cons, CodePoint.units_joined, List.append_assoc] at ih ⊢
    rw [ih]
  | case4 p q rest h ih =>
    simp only [units, List.flatMap_cons] at ih ⊢
    rw [ih]

/-- No high surrogate stands right before a low one. -/
def IsJoined (t : Text) : Prop := t.IsChain fun p q => ¬ (p.IsHigh ∧ q.IsLow)

theorem isJoined_cons (h : ∀ q ∈ t.head?, ¬ (p.IsHigh ∧ q.IsLow)) (ht : IsJoined t) :
    IsJoined (p :: t) := by
  cases t with
  | nil => exact .singleton p
  | cons q t => exact .cons_cons (h q rfl) ht

/-- A low surrogate that comes first has been there before. -/
theorem head?_joinPairs (hp : p ∈ t.joinPairs.head?) (hlow : p.IsLow) : p ∈ t.head? := by
  unfold joinPairs at hp
  split at hp
  · exact hp
  · exact hp
  · split at hp
    · rename_i h
      obtain rfl := Option.some.inj hp
      have hle := CodePoint.le_joined h.1 h.2
      exact absurd hlow.2 (by omega)
    · exact hp

theorem isJoined_joinPairs (t : Text) : t.joinPairs.IsJoined := by
  fun_induction joinPairs t with
  | case1 => exact .nil
  | case2 p => exact .singleton p
  | case3 p q rest h ih =>
    refine isJoined_cons (fun r _ hr => ?_) ih
    have hle := CodePoint.le_joined h.1 h.2
    exact absurd hr.1.2 (by omega)
  | case4 p q rest h ih =>
    refine isJoined_cons (fun r hr hpair => h ?_) ih
    obtain rfl : q = r := Option.some.inj (head?_joinPairs hr hpair.2)
    exact hpair

end Text

namespace Literal

/-- The units that an item denotes. -/
def Item.units (i : Item) : List Nat := utf16 i.code

/-- A text that is one literal from its first character to its last. -/
def IsWhole (text : List Char) : Prop := text ≠ [] ∧ Lexer.stringWidth text = text.length

/-- A literal is its items between quotes. -/
structure Consists (text : List Char) (quote : Char) (items : List Item) : Prop where
  quoted : quote = '\'' ∨ quote = '"'
  fits : ∀ i ∈ items, i.Fits quote
  text_eq : text = quote :: (items.flatMap Item.chars ++ [quote])

variable {text : List Char} {quote : Char} {items : List Item}

theorem isWhole_iff : IsWhole text ↔ ∃ quote items, Consists text quote items := by
  constructor
  · rintro ⟨hne, hwidth⟩
    obtain ⟨n, hn⟩ := Nat.exists_eq_add_one.2 (List.length_pos_iff.2 hne)
    rw [hn] at hwidth
    obtain ⟨quote, items, rest, hquote, hfits, rfl, rfl⟩ := Lexer.stringWidth_items.1 hwidth
    have hrest : rest = [] := by
      simp only [List.length_cons, List.length_append] at hn
      exact List.length_eq_zero_iff.1 (by omega)
    exact ⟨quote, items, hquote, hfits, by rw [hrest]⟩
  · rintro ⟨quote, items, hquote, hfits, rfl⟩
    refine ⟨List.cons_ne_nil _ _, ?_⟩
    rw [Lexer.stringWidth_items.2 ⟨quote, items, [], hquote, hfits, rfl, rfl⟩]
    simp

theorem units_of_codes (h : t.map CodePoint.val = items.map Item.code) :
    t.units = items.flatMap Item.units := by
  have hunits : t.units = (t.map CodePoint.val).flatMap utf16 := by
    rw [List.flatMap_map]
    rfl
  rw [hunits, h, List.flatMap_map]
  rfl

/-- A literal that consists of items has a value with their units. -/
theorem Consists.value (h : Consists text quote items) :
    ∃ t, value text = .ok t ∧ t.units = items.flatMap Item.units ∧ t.IsJoined := by
  obtain ⟨-, hfits, rfl⟩ := h
  obtain ⟨t, ht, hcodes⟩ := spells_items hfits
  refine ⟨t.joinPairs, value_of_spells ht, ?_, t.isJoined_joinPairs⟩
  rw [t.units_joinPairs, units_of_codes hcodes]

/-- The literals that the lexer cuts out are items between quotes. Each has a value, whose units are
those of its items in their order, and in which no two surrogates make a pair. -/
theorem value_units (text : List Char) :
    (IsWhole text ↔ ∃ quote items, Consists text quote items) ∧
      (IsWhole text → ∃ t, value text = .ok t ∧
        (∀ quote items, Consists text quote items → t.units = items.flatMap Item.units) ∧
        t.IsJoined) := by
  refine ⟨isWhole_iff, fun hwhole => ?_⟩
  obtain ⟨quote, items, h⟩ := isWhole_iff.1 hwhole
  obtain ⟨t, hvalue, -, hjoined⟩ := h.value
  refine ⟨t, hvalue, fun quote items h => ?_, hjoined⟩
  obtain ⟨u, hu, hunits, -⟩ := h.value
  obtain rfl : t = u := Except.ok.inj (hvalue.symm.trans hu)
  exact hunits

/-- A literal that spells the halves of a pair in two ways. -/
def halvesApart : List Char := "'\\ud83d\\u\x7b0de00\x7d\\x41\\n'".toList

theorem value_units_pair :
    IsWhole halvesApart ∧ ∃ t, value halvesApart = .ok t ∧
      t.units = [0xd83d, 0xde00, 0x41, 0x0a] ∧ t.IsJoined := by
  have hitems : Consists halvesApart '\''
      [.unicode "d83d".toList, .braced "0de00".toList, .hex "41".toList, .escape 'n'] := by
    refine ⟨.inl rfl, ?_, by decide⟩
    simp only [List.forall_mem_cons, List.not_mem_nil, false_implies, implies_true, and_true]
    exact ⟨⟨rfl, List.all_eq_true.1 (by decide)⟩,
      ⟨1, "de00".toList, rfl, List.all_eq_true.1 (by decide), .inl (by decide)⟩,
      ⟨rfl, List.all_eq_true.1 (by decide)⟩, ⟨by decide, by decide, by decide⟩⟩
  obtain ⟨hwhole, hvalue⟩ := value_units halvesApart
  have hw := hwhole.2 ⟨_, _, hitems⟩
  obtain ⟨t, ht, hunits, hjoined⟩ := hvalue hw
  exact ⟨hw, t, ht, (hunits _ _ hitems).trans (by decide), hjoined⟩

end Literal

end Terse
