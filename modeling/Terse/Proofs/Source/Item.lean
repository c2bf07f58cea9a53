import Mathlib.Data.List.Basic
import Terse.Source.Lexer

/-! The items of a string literal, and that the lexer cuts a literal into them. -/
namespace Terse

variable {c quote : Char} {cs ds : List Char}

namespace Lexer

/-- The number that digits spell when they follow others. -/
def hexFrom (n : Nat) (ds : List Char) : Nat :=
  ds.foldl (fun n c => 16 * n + (hexValue? c).getD 0) n

end Lexer

namespace Literal

/-- One item between the quotes of a literal. -/
inductive Item where
  | plain (c : Char)
  | escape (c : Char)
  | hex (ds : List Char)
  | unicode (ds : List Char)
  | braced (ds : List Char)

namespace Item

def chars : Item → List Char
  | plain c => [c]
  | escape c => ['\\', c]
  | hex ds => '\\' :: 'x' :: ds
  | unicode ds => '\\' :: 'u' :: ds
  | braced ds => '\\' :: 'u' :: '\x7b' :: (ds ++ ['\x7d'])

/-- Any zeros, and then one to five digits, or six of which the first two are `10`. -/
def IsBraced (ds : List Char) : Prop :=
  ∃ k tail, ds = List.replicate k '0' ++ tail ∧ (∀ c ∈ tail, Lexer.isHex c) ∧
    ((tail ≠ [] ∧ tail.length ≤ 5) ∨ ∃ low, tail = '1' :: '0' :: low ∧ low.length = 4)

/-- What may stand between the quotes. -/
def Fits (quote : Char) : Item → Prop
  | plain c => c ≠ quote ∧ c ≠ '\\' ∧ c ≠ '\n'
  | escape c => c ≠ 'x' ∧ c ≠ 'u' ∧ c ≠ '\n'
  | hex ds => ds.length = 2 ∧ ∀ c ∈ ds, Lexer.isHex c
  | unicode ds => ds.length = 4 ∧ ∀ c ∈ ds, Lexer.isHex c
  | braced ds => IsBraced ds

/-- The code point that an item stands for, as a number. -/
def code : Item → Nat
  | plain c => c.toNat
  | escape 'n' => 0x0a
  | escape 't' => 0x09
  | escape 'r' => 0x0d
  | escape '0' => 0x00
  | escape c => c.toNat
  | hex ds | unicode ds | braced ds => Lexer.hexFrom 0 ds

theorem plain_or_escape (i : Item) : (∃ c, i = plain c) ∨ ∃ cs, i.chars = '\\' :: cs := by
  cases i with
  | plain c => exact .inl ⟨c, rfl⟩
  | escape | hex | unicode | braced => exact .inr ⟨_, rfl⟩

theorem length_pos (i : Item) : 0 < i.chars.length := by
  cases i <;> exact Nat.succ_pos _

end Item

end Literal

namespace Lexer

open Literal

variable {s : InString} {n : Nat}

theorem hexFrom_cons (n : Nat) (c : Char) (ds : List Char) :
    hexFrom n (c :: ds) = hexFrom (16 * n + (hexValue? c).getD 0) ds := rfl

theorem hexFrom_append (n : Nat) (ds es : List Char) :
    hexFrom n (ds ++ es) = hexFrom (hexFrom n ds) es :=
  List.foldl_append

theorem hexFrom_zeros (k : Nat) : hexFrom 0 (List.replicate k '0') = 0 := by
  induction k with
  | zero => rfl
  | succ k ih => exact ih

/-- The longest run of such characters at the start of a text is cut off by its length. -/
theorem take_takeWhile_length (p : Char → Bool) (cs : List Char) :
    cs.take (cs.takeWhile p).length = cs.takeWhile p :=
  (List.prefix_iff_eq_take.1 (List.takeWhile_prefix p)).symm

/-- What holds of all hexadecimal digits. There are few enough to look at each. -/
theorem forall_isHex {P : Char → Prop} (hall : ∀ n < 128, isHex (Char.ofNat n) → P (Char.ofNat n))
    (h : isHex c) : P c := by
  have hn : c.toNat < 128 := by
    simp only [isHex, Bool.and_eq_true, decide_eq_true_eq] at h
    exact h.1
  rw [← Char.ofNat_toNat c] at h ⊢
  exact hall _ hn h

theorem hexValue_lt (h : isHex c) : (hexValue? c).getD 0 < 16 :=
  forall_isHex (P := fun c => (hexValue? c).getD 0 < 16) (by decide +kernel) h

theorem eq_zero_of_hexValue (h : isHex c) (hv : (hexValue? c).getD 0 = 0) : c = '0' :=
  forall_isHex (P := fun c => (hexValue? c).getD 0 = 0 → c = '0') (by decide +kernel) h hv

theorem eq_one_of_hexValue (h : isHex c) (hv : (hexValue? c).getD 0 = 1) : c = '1' :=
  forall_isHex (P := fun c => (hexValue? c).getD 0 = 1 → c = '1') (by decide +kernel) h hv

theorem pow_length_cons (c : Char) (ds : List Char) :
    Nat.pow 16 (c :: ds).length = 16 * Nat.pow 16 ds.length :=
  Nat.mul_comm _ _

theorem hexFrom_lt (h : ∀ c ∈ ds, isHex c) (n : Nat) :
    hexFrom n ds < (n + 1) * Nat.pow 16 ds.length := by
  induction ds generalizing n with
  | nil => exact Nat.lt_of_lt_of_eq (Nat.lt_succ_self n) (Nat.mul_one _).symm
  | cons c ds ih =>
    obtain ⟨hc, hds⟩ := List.forall_mem_cons.1 h
    have hvalue := hexValue_lt hc
    rw [hexFrom_cons, pow_length_cons, ← Nat.mul_assoc]
    refine Nat.lt_of_lt_of_le (ih hds _) ?_
    exact Nat.mul_le_mul_right _ (by omega)

theorem hexFrom_lt_of_length (h : ∀ c ∈ ds, isHex c) (hl : ds.length ≤ 4) :
    hexFrom 0 ds < 0x110000 := by
  have hlt := hexFrom_lt h 0
  have hle : Nat.pow 16 ds.length ≤ 0x10000 := Nat.pow_le_pow_right (n := 16) (by decide) hl
  omega

theorem le_hexFrom (n : Nat) (ds : List Char) : n * Nat.pow 16 ds.length ≤ hexFrom n ds := by
  induction ds generalizing n with
  | nil => exact Nat.le_of_eq (Nat.mul_one n)
  | cons c ds ih =>
    rw [hexFrom_cons, pow_length_cons, ← Nat.mul_assoc]
    exact Nat.le_trans (Nat.mul_le_mul_right _ (by omega)) (ih _)

/-- A number below `110000` that starts with no zero has few digits, or six of which two are
known. -/
theorem length_of_hexFrom_lt (hc : c ≠ '0') (h : ∀ d ∈ c :: ds, isHex d)
    (hlt : hexFrom 0 (c :: ds) < 0x110000) :
    (c :: ds).length ≤ 5 ∨ ∃ low, c :: ds = '1' :: '0' :: low ∧ low.length = 4 := by
  rcases Nat.lt_or_ge ds.length 5 with hshort | hlong
  · exact .inl hshort
  · obtain ⟨d, low, rfl⟩ := List.exists_cons_of_length_pos (Nat.lt_of_lt_of_le (by decide) hlong)
    obtain ⟨hhex, hds⟩ := List.forall_mem_cons.1 h
    have hd := (List.forall_mem_cons.1 hds).1
    have hpos : (hexValue? c).getD 0 ≠ 0 := fun hv => hc (eq_zero_of_hexValue hhex hv)
    generalize hn : 16 * (16 * 0 + (hexValue? c).getD 0) + (hexValue? d).getD 0 = n
    have hle : n * Nat.pow 16 low.length ≤ hexFrom 0 (c :: d :: low) := hn ▸ le_hexFrom _ low
    have hlow : 4 ≤ low.length := Nat.le_of_succ_le_succ hlong
    -- the first two digits leave no room for more than four others, nor for another first two
    have hpow : 0x10000 ≤ Nat.pow 16 low.length := Nat.pow_le_pow_right (n := 16) (by decide) hlow
    have hsixteen : n ≤ 16 := by
      refine Nat.le_of_lt_succ (Nat.lt_of_mul_lt_mul_right (a := 0x10000) ?_)
      exact Nat.lt_of_le_of_lt (Nat.mul_le_mul_left n hpow) (Nat.lt_of_le_of_lt hle hlt)
    obtain rfl : n = 16 := by omega
    obtain rfl := eq_one_of_hexValue hhex (by omega)
    obtain rfl := eq_zero_of_hexValue hd (by omega)
    refine .inr ⟨low, rfl, Nat.le_antisymm (Nat.le_of_not_lt fun hmore => ?_) hlow⟩
    have hpow : 0x100000 ≤ Nat.pow 16 low.length := Nat.pow_le_pow_right (n := 16) (by decide) hmore
    omega

/-- Digits below the end of the code points can stand in braces. -/
theorem isBraced_of_lt (hne : ds ≠ []) (h : ∀ c ∈ ds, isHex c) (hlt : hexFrom 0 ds < 0x110000) :
    Item.IsBraced ds := by
  induction ds with
  | nil => contradiction
  | cons c ds ih =>
    by_cases hc : c = '0'
    · subst hc
      cases ds with
      | nil => exact ⟨0, ['0'], rfl, h, .inl ⟨hne, by decide⟩⟩
      | cons d ds =>
        obtain ⟨k, tail, htail, hrest⟩ :=
          ih (List.cons_ne_nil d ds) (List.forall_mem_cons.1 h).2 hlt
        exact ⟨k + 1, tail, congrArg ('0' :: ·) htail, hrest⟩
    · refine ⟨0, c :: ds, rfl, h, ?_⟩
      exact (length_of_hexFrom_lt hc h hlt).imp_left fun hl => ⟨hne, hl⟩

theorem ne_nil_of_isBraced (h : Item.IsBraced ds) : ds ≠ [] := by
  obtain ⟨k, tail, rfl, -, ⟨hne, -⟩ | ⟨low, rfl, -⟩⟩ := h
  · exact List.append_ne_nil_of_right_ne_nil _ hne
  · exact List.append_ne_nil_of_right_ne_nil _ (List.cons_ne_nil _ _)

theorem isHex_of_isBraced (h : Item.IsBraced ds) : ∀ c ∈ ds, isHex c := by
  obtain ⟨k, tail, rfl, htail, -⟩ := h
  refine List.forall_mem_append.2 ⟨fun c hc => ?_, htail⟩
  rw [List.eq_of_mem_replicate hc]
  rfl

/-- What stands in braces is a code point. -/
theorem hexFrom_lt_of_isBraced (h : Item.IsBraced ds) : hexFrom 0 ds < 0x110000 := by
  obtain ⟨k, tail, rfl, htail, hshape⟩ := h
  rw [hexFrom_append, hexFrom_zeros]
  obtain ⟨-, hl⟩ | ⟨low, rfl, hl⟩ := hshape
  · have hlt := hexFrom_lt htail 0
    have hle : Nat.pow 16 tail.length ≤ 0x100000 := Nat.pow_le_pow_right (n := 16) (by decide) hl
    omega
  · have hlow := hexFrom_lt (List.forall_mem_cons.1 (List.forall_mem_cons.1 htail).2).2 16
    rw [hl] at hlow
    exact hlow

/-- A string ends at its quote outside an escape, or goes on with a character that its state
allows. -/
theorem stringRest_cons : stringRest quote s (c :: cs) = n + 1 ↔
    (s.isPlain ∧ c = quote) ∧ n = 0 ∨
      ¬ (s.isPlain ∧ c = quote) ∧
        ∃ s' m, s.step c = some s' ∧ stringRest quote s' cs = m + 1 ∧ n = m + 1 := by
  have hend : (s.isPlain && c == quote) = true ↔ s.isPlain ∧ c = quote := by simp
  rw [stringRest]
  by_cases hq : s.isPlain ∧ c = quote
  · rw [if_pos (hend.2 hq), and_iff_right hq, or_iff_left fun h => h.1 hq]
    omega
  · rw [if_neg (mt hend.1 hq), and_iff_right hq, or_iff_right fun h => hq h.1]
    cases hstep : s.step c with
    | none => simp
    | some s' =>
      cases hrest : stringRest quote s' cs with
      | zero => simp [hrest]
      | succ m =>
        simp only [hrest, Option.some.injEq]
        constructor
        · exact fun h => ⟨s', m, rfl, hrest, by omega⟩
        · rintro ⟨_, k, rfl, hk, rfl⟩
          omega

theorem stringRest_step (hs : s.isPlain = false) : stringRest quote s cs = n + 1 ↔
    ∃ c rest s' m, cs = c :: rest ∧ s.step c = some s' ∧ stringRest quote s' rest = m + 1 ∧
      n = m + 1 := by
  cases cs with
  | nil => simp [stringRest]
  | cons c cs =>
    rw [stringRest_cons]
    simp [hs]

theorem step_plain {s' : InString} : InString.plain.step c = some s' ↔
    c ≠ '\n' ∧ (c = '\\' ∧ s' = .escape ∨ c ≠ '\\' ∧ s' = .plain) := by
  grind [InString.step]

theorem step_escape {s' : InString} : InString.escape.step c = some s' ↔ c ≠ '\n' ∧
    (c = 'x' ∧ s' = .digits 2 ∨ c = 'u' ∧ s' = .unicode ∨ (c ≠ 'x' ∧ c ≠ 'u') ∧ s' = .plain) := by
  grind [InString.step]

theorem step_digits {k : Nat} {s' : InString} : (InString.digits (k + 1)).step c = some s' ↔
    isHex c ∧ s' = if k = 0 then .plain else .digits k := by
  grind [InString.step]

theorem step_unicode {s' : InString} : InString.unicode.step c = some s' ↔
    c = '\x7b' ∧ s' = .braced none ∨ isHex c ∧ s' = .digits 3 := by
  have hbrace : isHex '\x7b' = false := rfl
  grind [InString.step]

theorem step_braced {v : Option Nat} {s' : InString} : (InString.braced v).step c = some s' ↔
    (c = '\x7d' ∧ (∃ k, v = some k ∧ k < 0x110000) ∧ s' = .plain) ∨
      isHex c ∧ s' = .braced (some (16 * v.getD 0 + (hexValue? c).getD 0)) := by
  have hbrace : isHex '\x7d' = false := rfl
  cases v <;> grind [InString.step]

/-- The digits of an escape are read one by one. -/
theorem stringRest_digits {k : Nat} : stringRest quote (.digits (k + 1)) cs = n + 1 ↔
    ∃ ds rest m, cs = ds ++ rest ∧ (ds.length = k + 1 ∧ ∀ c ∈ ds, isHex c) ∧
      stringRest quote .plain rest = m + 1 ∧ n = m + (k + 1) := by
  induction k generalizing cs n with
  | zero =>
    rw [stringRest_step rfl]
    constructor
    · rintro ⟨c, rest, s', m, rfl, hstep, hrest, rfl⟩
      obtain ⟨hc, rfl⟩ := step_digits.1 hstep
      exact ⟨[c], rest, m, rfl, ⟨rfl, List.forall_mem_singleton.2 hc⟩, hrest, rfl⟩
    · rintro ⟨ds, rest, m, rfl, ⟨hl, hds⟩, hrest, rfl⟩
      obtain ⟨c, rfl⟩ := List.length_eq_one_iff.1 hl
      exact ⟨c, rest, _, m, rfl, step_digits.2 ⟨hds c (List.mem_singleton_self c), rfl⟩, hrest, rfl⟩
  | succ k ih =>
    rw [stringRest_step rfl]
    constructor
    · rintro ⟨c, rest, s', m, rfl, hstep, hrest, rfl⟩
      obtain ⟨hc, rfl⟩ := step_digits.1 hstep
      obtain ⟨ds, rest, m, rfl, ⟨hl, hds⟩, hplain, rfl⟩ := ih.1 hrest
      exact ⟨c :: ds, rest, m, rfl, ⟨congrArg (· + 1) hl, List.forall_mem_cons.2 ⟨hc, hds⟩⟩, hplain,
        rfl⟩
    · rintro ⟨ds, rest, m, rfl, ⟨hl, hds⟩, hplain, rfl⟩
      obtain ⟨c, ds, rfl⟩ := List.exists_cons_of_length_eq_add_one hl
      obtain ⟨hc, hds⟩ := List.forall_mem_cons.1 hds
      refine ⟨c, ds ++ rest, _, m + (k + 1), rfl, step_digits.2 ⟨hc, rfl⟩, ?_, rfl⟩
      exact ih.2 ⟨ds, rest, m, rfl, ⟨Nat.succ.inj hl, hds⟩, hplain, rfl⟩

/-- The digits in braces are read to the brace that closes them, and stay below the end of the code
points. -/
theorem stringRest_braced {v : Option Nat} : stringRest quote (.braced v) cs = n + 1 ↔
    ∃ ds rest m, cs = ds ++ '\x7d' :: rest ∧ (v.isSome ∨ ds ≠ []) ∧ (∀ c ∈ ds, isHex c) ∧
      hexFrom (v.getD 0) ds < 0x110000 ∧
      stringRest quote .plain rest = m + 1 ∧ n = m + (ds.length + 1) := by
  induction cs generalizing v n with
  | nil => simp [stringRest]
  | cons c cs ih =>
    rw [stringRest_step rfl]
    constructor
    · rintro ⟨_, _, s', m, he, hstep, hrest, rfl⟩
      obtain ⟨rfl, rfl⟩ := List.cons.inj he
      obtain ⟨rfl, ⟨k, rfl, hk⟩, rfl⟩ | ⟨hc, rfl⟩ := step_braced.1 hstep
      · exact ⟨[], _, m, rfl, .inl rfl, fun _ h => absurd h List.not_mem_nil, hk, hrest, rfl⟩
      · obtain ⟨ds, rest, m, rfl, -, hds, hlt, hplain, rfl⟩ := ih.1 hrest
        exact ⟨c :: ds, rest, m, rfl, .inr (List.cons_ne_nil _ _), List.forall_mem_cons.2 ⟨hc, hds⟩,
          hlt, hplain, rfl⟩
    · rintro ⟨ds, rest, m, he, hsome, hds, hlt, hplain, rfl⟩
      cases ds with
      | nil =>
        obtain ⟨rfl, rfl⟩ := List.cons.inj he
        obtain ⟨k, rfl⟩ := Option.isSome_iff_exists.1 (hsome.resolve_right (absurd rfl))
        exact ⟨_, _, .plain, m, rfl, step_braced.2 (.inl ⟨rfl, ⟨k, rfl, hlt⟩, rfl⟩), hplain, rfl⟩
      | cons d ds =>
        obtain ⟨rfl, rfl⟩ := List.cons.inj he
        obtain ⟨hc, hds⟩ := List.forall_mem_cons.1 hds
        refine ⟨c, _, _, m + (ds.length + 1), rfl, step_braced.2 (.inr ⟨hc, rfl⟩), ?_, rfl⟩
        exact ih.2 ⟨ds, rest, m, rfl, .inl rfl, hds, hlt, hplain, rfl⟩

theorem stringRest_unicode : stringRest quote .unicode cs = n + 1 ↔
    (∃ ds rest m, cs = ds ++ rest ∧ (ds.length = 4 ∧ ∀ c ∈ ds, isHex c) ∧
      stringRest quote .plain rest = m + 1 ∧ n = m + 4) ∨
    ∃ ds rest m, cs = '\x7b' :: (ds ++ '\x7d' :: rest) ∧ Item.IsBraced ds ∧
      stringRest quote .plain rest = m + 1 ∧ n = m + (ds.length + 2) := by
  rw [stringRest_step rfl]
  constructor
  · rintro ⟨c, rest, s', m, rfl, hstep, hrest, rfl⟩
    obtain ⟨rfl, rfl⟩ | ⟨hc, rfl⟩ := step_unicode.1 hstep
    · obtain ⟨ds, rest, m, rfl, hne, hds, hlt, hplain, rfl⟩ := stringRest_braced.1 hrest
      have hbraced := isBraced_of_lt (hne.resolve_left (by simp)) hds hlt
      exact .inr ⟨ds, rest, m, rfl, hbraced, hplain, rfl⟩
    · obtain ⟨ds, rest, m, rfl, ⟨hl, hds⟩, hplain, rfl⟩ := stringRest_digits.1 hrest
      exact .inl ⟨c :: ds, rest, m, rfl, ⟨congrArg (· + 1) hl, List.forall_mem_cons.2 ⟨hc, hds⟩⟩,
        hplain, rfl⟩
  · rintro (⟨ds, rest, m, rfl, ⟨hl, hds⟩, hplain, rfl⟩ | ⟨ds, rest, m, rfl, hbraced, hplain, rfl⟩)
    · obtain ⟨c, ds, rfl⟩ := List.exists_cons_of_length_eq_add_one hl
      obtain ⟨hc, hds⟩ := List.forall_mem_cons.1 hds
      refine ⟨c, ds ++ rest, .digits 3, m + 3, rfl, step_unicode.2 (.inr ⟨hc, rfl⟩), ?_, rfl⟩
      exact stringRest_digits.2 ⟨ds, rest, m, rfl, ⟨Nat.succ.inj hl, hds⟩, hplain, rfl⟩
    · refine ⟨_, _, .braced none, m + (ds.length + 1), rfl, rfl, ?_, rfl⟩
      exact stringRest_braced.2 ⟨ds, rest, m, rfl, .inr (ne_nil_of_isBraced hbraced),
        isHex_of_isBraced hbraced, hexFrom_lt_of_isBraced hbraced, hplain, rfl⟩

/-- After a backslash: the rest of an item, and then plain text again. -/
theorem item_of_escape (h : stringRest quote .escape cs = n + 1) :
    ∃ (i : Item) (rest : List Char) (m : Nat), '\\' :: cs = i.chars ++ rest ∧ i.Fits quote ∧
      stringRest quote .plain rest = m + 1 ∧ n + 1 = m + i.chars.length := by
  obtain ⟨c, rest, s', m, rfl, hstep, hrest, rfl⟩ := (stringRest_step rfl).1 h
  obtain ⟨hn, ⟨rfl, rfl⟩ | ⟨rfl, rfl⟩ | ⟨⟨hx, hu⟩, rfl⟩⟩ := step_escape.1 hstep
  · obtain ⟨ds, rest, m, rfl, hds, hplain, rfl⟩ := stringRest_digits.1 hrest
    exact ⟨.hex ds, rest, m, rfl, hds, hplain, by simp [Item.chars, hds.1]⟩
  · obtain ⟨ds, rest, m, rfl, hds, hplain, rfl⟩ | ⟨ds, rest, m, rfl, hds, hplain, rfl⟩ :=
      stringRest_unicode.1 hrest
    · exact ⟨.unicode ds, rest, m, rfl, hds, hplain, by simp [Item.chars, hds.1]⟩
    · exact ⟨.braced ds, rest, m, by simp [Item.chars], hds, hplain, by simp [Item.chars]; omega⟩
  · exact ⟨.escape c, rest, m, rfl, ⟨hx, hu, hn⟩, hrest, rfl⟩

/-- An escape that fits is read as a whole. -/
theorem escape_of_item {i : Item} {rest : List Char} {m : Nat} (he : '\\' :: cs = i.chars ++ rest)
    (hfits : i.Fits quote) (hplain : stringRest quote .plain rest = m + 1)
    (hlength : n + 1 = m + i.chars.length) : stringRest quote .escape cs = n + 1 := by
  rw [stringRest_step rfl]
  cases i with
  | plain c => exact absurd (List.cons.inj he).1.symm hfits.2.1
  | escape c =>
    obtain ⟨hx, hu, hn⟩ := hfits
    obtain rfl : cs = c :: rest := (List.cons.inj he).2
    have hstep := step_escape.2 ⟨hn, .inr (.inr ⟨⟨hx, hu⟩, rfl⟩)⟩
    exact ⟨c, rest, .plain, m, rfl, hstep, hplain, Nat.succ.inj hlength⟩
  | hex ds =>
    obtain rfl : cs = 'x' :: (ds ++ rest) := (List.cons.inj he).2
    refine ⟨_, _, .digits 2, m + 2, rfl, rfl, ?_, ?_⟩
    · exact stringRest_digits.2 ⟨ds, rest, m, rfl, hfits, hplain, rfl⟩
    · simp only [Item.chars, List.length_cons, hfits.1] at hlength
      omega
  | unicode ds =>
    obtain rfl : cs = 'u' :: (ds ++ rest) := (List.cons.inj he).2
    refine ⟨_, _, .unicode, m + 4, rfl, rfl, ?_, ?_⟩
    · exact stringRest_unicode.2 (.inl ⟨ds, rest, m, rfl, hfits, hplain, rfl⟩)
    · simp only [Item.chars, List.length_cons, hfits.1] at hlength
      omega
  | braced ds =>
    obtain rfl : cs = 'u' :: '\x7b' :: (ds ++ '\x7d' :: rest) := by
      simpa [Item.chars] using (List.cons.inj he).2
    refine ⟨_, _, .unicode, m + (ds.length + 2), rfl, rfl, ?_, ?_⟩
    · exact stringRest_unicode.2 (.inr ⟨ds, rest, m, rfl, hfits, hplain, rfl⟩)
    · simp only [Item.chars, List.length_cons, List.length_append, List.length_nil] at hlength
      omega

/-- In plain text: the closing quote, or one more item. -/
theorem stringRest_plain (hq : quote ≠ '\\') : stringRest quote .plain cs = n + 1 ↔
    (∃ rest, cs = quote :: rest) ∧ n = 0 ∨
      ∃ (i : Item) (rest : List Char) (m : Nat), cs = i.chars ++ rest ∧ i.Fits quote ∧
        stringRest quote .plain rest = m + 1 ∧ n = m + i.chars.length := by
  constructor
  · intro h
    cases cs with
    | nil => simp [stringRest] at h
    | cons c cs =>
      obtain ⟨⟨-, rfl⟩, rfl⟩ | ⟨hend, s', m, hstep, hrest, rfl⟩ := stringRest_cons.1 h
      · exact .inl ⟨⟨cs, rfl⟩, rfl⟩
      obtain ⟨hn, ⟨rfl, rfl⟩ | ⟨hb, rfl⟩⟩ := step_plain.1 hstep
      · exact .inr (item_of_escape hrest)
      · exact .inr ⟨.plain c, cs, m, rfl, ⟨fun hc => hend ⟨rfl, hc⟩, hb, hn⟩, hrest, rfl⟩
  · rintro (⟨⟨rest, rfl⟩, rfl⟩ | ⟨i, rest, m, rfl, hfits, hplain, rfl⟩)
    · exact stringRest_cons.2 (.inl ⟨⟨rfl, rfl⟩, rfl⟩)
    obtain ⟨c, rfl⟩ | ⟨cs, hcs⟩ := i.plain_or_escape
    · obtain ⟨hc, hb, hn⟩ := hfits
      have hstep := step_plain.2 ⟨hn, .inr ⟨hb, rfl⟩⟩
      exact stringRest_cons.2 (.inr ⟨fun h => hc h.2, .plain, m, hstep, hplain, rfl⟩)
    · rw [hcs]
      refine stringRest_cons.2 (.inr ⟨fun h => hq h.2.symm, .escape, m + cs.length, rfl, ?_, rfl⟩)
      exact escape_of_item (by rw [hcs]; rfl) hfits hplain (by rw [hcs]; rfl)

/-- What follows an opening quote. -/
theorem stringRest_items (hq : quote ≠ '\\') : stringRest quote .plain cs = n + 1 ↔
    ∃ (items : List Item) (rest : List Char), cs = items.flatMap Item.chars ++ quote :: rest ∧
      (∀ i ∈ items, i.Fits quote) ∧ n = (items.flatMap Item.chars).length := by
  constructor
  · -- each item is shorter than what it starts
    intro h
    induction n using Nat.strongRecOn generalizing cs with
    | ind n ih =>
      obtain ⟨⟨rest, rfl⟩, rfl⟩ | ⟨i, rest, m, rfl, hfits, hplain, rfl⟩ := (stringRest_plain hq).1 h
      · exact ⟨[], rest, rfl, fun _ h => absurd h List.not_mem_nil, rfl⟩
      · obtain ⟨items, rest, rfl, hitems, rfl⟩ := ih m (Nat.lt_add_of_pos_right i.length_pos) hplain
        exact ⟨i :: items, rest, by simp, List.forall_mem_cons.2 ⟨hfits, hitems⟩,
          by simp [Nat.add_comm]⟩
  · rintro ⟨items, rest, rfl, hitems, rfl⟩
    induction items with
    | nil => exact (stringRest_plain hq).2 (.inl ⟨⟨rest, rfl⟩, rfl⟩)
    | cons i items ih =>
      obtain ⟨hfits, hitems⟩ := List.forall_mem_cons.1 hitems
      exact (stringRest_plain hq).2
        (.inr ⟨i, _, _, by simp, hfits, ih hitems, by simp [Nat.add_comm]⟩)

/-- A string is a quote, items that fit, and the same quote again. -/
theorem stringWidth_items : stringWidth cs = n + 1 ↔
    ∃ (quote : Char) (items : List Item) (rest : List Char), (quote = '\'' ∨ quote = '"') ∧
      (∀ i ∈ items, i.Fits quote) ∧ cs = quote :: (items.flatMap Item.chars ++ quote :: rest) ∧
      n = (items.flatMap Item.chars).length + 1 := by
  constructor
  · intro h
    unfold stringWidth at h
    split at h
    · rename_i quote cs
      split at h
      · rename_i hq
        have hb : quote ≠ '\\' := by rcases hq with rfl | rfl <;> decide
        split at h
        · contradiction
        · rename_i m hm
          obtain ⟨items, rest, rfl, hitems, rfl⟩ := (stringRest_items hb).1 hm
          exact ⟨quote, items, rest, hq, hitems, rfl, by omega⟩
      · contradiction
    · contradiction
  · rintro ⟨quote, items, rest, hq, hitems, rfl, rfl⟩
    have hb : quote ≠ '\\' := by rcases hq with rfl | rfl <;> decide
    have hrest := (stringRest_items hb).2 ⟨items, rest, rfl, hitems, rfl⟩
    simp only [stringWidth, if_pos hq, hrest]

end Lexer

end Terse
