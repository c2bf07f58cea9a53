import Terse.Emit.Code
import Terse.Proofs.JavaScript.Lexer
import Terse.Proofs.Source.Item
import Terse.Simplify

/-! What a string literal of JavaScript stands for, and that the literals of an emitted program
stand for their texts. -/
namespace Terse

namespace CodePoint

variable {p : CodePoint} {c : Char}

theorem eq_ofChar (h : p.toChar? = some c) : p = ofChar c := by
  by_cases hvalid : p.val.isValidChar
  · rw [toChar?, dif_pos hvalid] at h
    obtain rfl := Option.some.inj h
    rfl
  · rw [toChar?, dif_neg hvalid] at h
    contradiction

theorem units_of_lt (h : p.val < 0x10000) : p.units = [p.val] := if_pos h

/-- Only surrogates are no characters. -/
theorem isSurrogate_of_toChar? (h : p.toChar? = none) : p.IsSurrogate := by
  by_cases hvalid : p.val.isValidChar
  · rw [toChar?, dif_pos hvalid] at h
    contradiction
  · have hlt := p.lt
    simp only [Nat.isValidChar, not_or, not_and, Nat.not_lt] at hvalid
    exact ⟨hvalid.1, by omega⟩

theorem units_lt (p : CodePoint) : ∀ u ∈ p.units, u < 0x10000 := by
  have hlt := p.lt
  unfold units
  split
  · simpa using ‹p.val < 0x10000›
  · intro u hu
    simp only [List.mem_cons, List.not_mem_nil, or_false] at hu
    omega

end CodePoint

namespace JavaScript

/-- Where the decoding of a string literal stands, after its opening quote. -/
inductive Decoding where
  | plain
  /-- A backslash was read. -/
  | escape
  /-- The escape of zero was read, which no digit may follow. -/
  | zero
  /-- An escaped carriage return was read, to which a line feed would belong. -/
  | lineEnd
  /-- That many more hexadecimal digits belong to the escape, which has spelled this number so
  far. -/
  | digits (left value : Nat)
  | unicode
  /-- Inside braces, with the number spelled so far, if any digit was read. -/
  | braced (value : Option Nat)
deriving DecidableEq, Repr

/-- The units of a character that stands after a backslash, where it starts no longer escape. -/
def escapedUnits (c : Char) : List Nat :=
  match c with
  | 'b' => [0x08]
  | 't' => [0x09]
  | 'n' => [0x0a]
  | 'v' => [0x0b]
  | 'f' => [0x0c]
  | 'r' => [0x0d]
  | c => (CodePoint.ofChar c).units

namespace Decoding

/-- A character outside of escapes. A quote or the end of a line may not stand there. -/
def stepPlain (c : Char) : Option (Decoding × List Nat) :=
  if c = '"' ∨ c = '\n' ∨ c = '\r' then none
  else if c = '\\' then some (escape, [])
  else some (plain, (CodePoint.ofChar c).units)

/-- The character after a backslash. The end of a line is passed over there. -/
def stepEscape (c : Char) : Option (Decoding × List Nat) :=
  if c = 'x' then some (digits 2 0, [])
  else if c = 'u' then some (unicode, [])
  else if c = '0' then some (zero, [0])
  else if c.isDigit then none
  else if c = '\r' then some (lineEnd, [])
  else if c = '\n' ∨ c = '\u2028' ∨ c = '\u2029' then some (plain, [])
  else some (plain, escapedUnits c)

/-- The state after one more character, and the units that are complete with it; nothing where no
literal goes on like that. -/
def step (s : Decoding) (c : Char) : Option (Decoding × List Nat) :=
  match s with
  | plain => stepPlain c
  | escape => stepEscape c
  | zero => if c.isDigit then none else stepPlain c
  | lineEnd => if c = '\n' then some (plain, []) else stepPlain c
  | digits left value =>
    if Lexer.isHex c then
      some (if left ≤ 1 then (plain, [Lexer.hexFrom value [c]])
        else (digits (left - 1) (Lexer.hexFrom value [c]), []))
    else none
  | unicode =>
    if c = '\x7b' then some (braced none, [])
    else if Lexer.isHex c then some (digits 3 (Lexer.hexFrom 0 [c]), [])
    else none
  | braced value =>
    if c = '\x7d' then
      (value.bind CodePoint.ofNat?).map fun p => (plain, p.units)
    else if Lexer.isHex c then some (braced (some (Lexer.hexFrom (value.getD 0) [c])), [])
    else none

/-- Whether the closing quote may come next. -/
def isEnd : Decoding → Bool
  | plain | zero | lineEnd => true
  | _ => false

/-- The units that the rest of the characters between the quotes stands for. -/
def run : Decoding → List Char → Option (List Nat)
  | s, [] => if s.isEnd then some [] else none
  | s, c :: cs => (s.step c).bind fun next => (run next.1 cs).map (next.2 ++ ·)

end Decoding

/-- The UTF-16 units of a string literal in double quotes. -/
def decode? : List Char → Option (List Nat)
  | '"' :: cs => if cs.getLast? = some '"' then Decoding.run .plain cs.dropLast else none
  | _ => none

/-- Whether a quote stands in a text without a backslash of its own before it. -/
def hasBareQuote : List Char → Bool
  | [] => false
  | '\\' :: _ :: cs => hasBareQuote cs
  | c :: cs => c == '"' || hasBareQuote cs

variable {c : Char} {cs ds : List Char} {us vs : List Nat}

/-- A part of a literal that stands for these units, whatever comes after it. -/
structure Denotes (cs : List Char) (us : List Nat) : Prop where
  run_append (rest : List Char) :
    Decoding.run .plain (cs ++ rest) = (Decoding.run .plain rest).map (us ++ ·)
  bare_append (rest : List Char) : hasBareQuote (cs ++ rest) = hasBareQuote rest
  unbroken : ∀ c ∈ cs, c ≠ '\n' ∧ c ≠ '\r'

theorem denotes_nil : Denotes [] [] where
  run_append rest := by simp
  bare_append rest := rfl
  unbroken := by simp

/-- Texts in a literal denote units in their order. -/
theorem Denotes.append (hcs : Denotes cs us) (hds : Denotes ds vs) :
    Denotes (cs ++ ds) (us ++ vs) where
  run_append rest := by
    rw [List.append_assoc, hcs.run_append, hds.run_append, Option.map_map]
    congr 1
    funext ws
    simp
  bare_append rest := by rw [List.append_assoc, hcs.bare_append, hds.bare_append]
  unbroken := List.forall_mem_append.2 ⟨hcs.unbroken, hds.unbroken⟩

theorem denotes_flatMap {α : Type} {f : α → List Char} {g : α → List Nat} {as : List α}
    (h : ∀ a ∈ as, Denotes (f a) (g a)) : Denotes (as.flatMap f) (as.flatMap g) := by
  induction as with
  | nil => exact denotes_nil
  | cons a as ih =>
    obtain ⟨ha, has⟩ := List.forall_mem_cons.1 h
    rw [List.flatMap_cons, List.flatMap_cons]
    exact ha.append (ih has)

theorem hasBareQuote_cons (hquote : c ≠ '"') (hslash : c ≠ '\\') (rest : List Char) :
    hasBareQuote (c :: rest) = hasBareQuote rest := by
  rw [hasBareQuote]
  · simp [hquote]
  · intro d ds h
    exact absurd h hslash

theorem run_cons {s s' : Decoding} (h : s.step c = some (s', us)) :
    s.run (c :: cs) = (s'.run cs).map (us ++ ·) := by
  rw [Decoding.run, h]
  rfl

/-- A character that no escape is needed for stands for its own units. -/
theorem denotes_plain (hquote : c ≠ '"') (hslash : c ≠ '\\') (hn : c ≠ '\n') (hr : c ≠ '\r') :
    Denotes [c] (CodePoint.ofChar c).units where
  run_append rest := by
    simp [Decoding.run, Decoding.step, Decoding.stepPlain, hquote, hslash, hn, hr]
  bare_append rest := hasBareQuote_cons hquote hslash rest
  unbroken := by simp [hn, hr]

/-- The escapes of one character. -/
theorem denotes_escape (h : Decoding.stepEscape c = some (.plain, us)) (hn : c ≠ '\n')
    (hr : c ≠ '\r') : Denotes ['\\', c] us where
  run_append rest := by
    have hstart : Decoding.step .plain '\\' = some (.escape, []) := rfl
    have hletter : Decoding.step .escape c = some (.plain, us) := h
    rw [List.cons_append, List.cons_append, List.nil_append, run_cons hstart, run_cons hletter,
      Option.map_map]
    rfl
  bare_append rest := rfl
  unbroken := by simp [hn, hr]

/-- Hexadecimal digits that are still to come go on with the number that was spelled so far. -/
theorem run_digits {left : Nat} (hds : ∀ d ∈ ds, Lexer.isHex d) (hl : ds.length = left + 1)
    (value : Nat) (rest : List Char) :
    Decoding.run (.digits (left + 1) value) (ds ++ rest) =
      (Decoding.run .plain rest).map ([Lexer.hexFrom value ds] ++ ·) := by
  induction left generalizing ds value with
  | zero =>
    obtain ⟨d, rfl⟩ := List.length_eq_one_iff.1 hl
    simp [Decoding.run, Decoding.step, hds d List.mem_cons_self]
  | succ left ih =>
    obtain ⟨d, ds, rfl⟩ := List.exists_cons_of_length_eq_add_one hl
    obtain ⟨hd, hds⟩ := List.forall_mem_cons.1 hds
    have hrest := ih hds (Nat.succ.inj hl) (Lexer.hexFrom value [d])
    have hstep : Decoding.step (.digits (left + 1 + 1) value) d =
        some (.digits (left + 1) (Lexer.hexFrom value [d]), []) := by
      simp [Decoding.step, hd]
    rw [List.cons_append, run_cons hstep, hrest, Option.map_map]
    rfl

/-- An escape with four digits denotes their value. -/
theorem run_unicode (hds : ∀ d ∈ ds, Lexer.isHex d) (hl : ds.length = 4) (rest : List Char) :
    Decoding.run .plain ('\\' :: 'u' :: (ds ++ rest)) =
      (Decoding.run .plain rest).map ([Lexer.hexFrom 0 ds] ++ ·) := by
  obtain ⟨d, ds, rfl⟩ := List.exists_cons_of_length_eq_add_one hl
  obtain ⟨hd, hds⟩ := List.forall_mem_cons.1 hds
  have hbrace : d ≠ '\x7b' := by
    rintro rfl
    contradiction
  -- the first digit decides that no brace follows, and the other three go on with it
  have hfirst : Decoding.step .unicode d = some (.digits 3 (Lexer.hexFrom 0 [d]), []) := by
    simp [Decoding.step, hbrace, hd]
  have hstart : Decoding.step .plain '\\' = some (.escape, []) := rfl
  have hletter : Decoding.step .escape 'u' = some (.unicode, []) := rfl
  rw [List.cons_append, run_cons hstart, run_cons hletter, run_cons hfirst,
    run_digits hds (Nat.succ.inj hl), Option.map_map, Option.map_map, Option.map_map]
  rfl

/-- Hexadecimal digits are nothing that matters in a literal. -/
theorem inert_of_isHex {d : Char} (h : Lexer.isHex d) :
    d ≠ '"' ∧ d ≠ '\\' ∧ d ≠ '\n' ∧ d ≠ '\r' :=
  Lexer.forall_isHex (P := fun d => d ≠ '"' ∧ d ≠ '\\' ∧ d ≠ '\n' ∧ d ≠ '\r') (by decide +kernel) h

theorem hasBareQuote_digits (hds : ∀ d ∈ ds, Lexer.isHex d) (rest : List Char) :
    hasBareQuote (ds ++ rest) = hasBareQuote rest := by
  induction ds with
  | nil => rfl
  | cons d ds ih =>
    obtain ⟨hd, hds⟩ := List.forall_mem_cons.1 hds
    obtain ⟨hquote, hslash, -, -⟩ := inert_of_isHex hd
    rw [List.cons_append, hasBareQuote_cons hquote hslash, ih hds]

theorem hexValue_hexDigit : ∀ n < 16, (hexValue? (hexDigit n)).getD 0 = n := by decide

theorem length_hexDigits (width n : Nat) : (hexDigits width n).length = width := by
  induction width with
  | zero => rfl
  | succ width ih => rw [hexDigits, List.length_cons, ih]

theorem isHex_hexDigits (width n : Nat) : ∀ d ∈ hexDigits width n, Lexer.isHex d := by
  induction width with
  | zero => simp [hexDigits]
  | succ width ih =>
    exact List.forall_mem_cons.2 ⟨isHex_hexDigit _ (Nat.mod_lt _ (by decide)), ih⟩

/-- The last digits of a number spell what is left of it. -/
theorem hexFrom_hexDigits (width n value : Nat) :
    Lexer.hexFrom value (hexDigits width n) = value * Nat.pow 16 width + n % Nat.pow 16 width := by
  induction width generalizing value with
  | zero => simp [hexDigits, Lexer.hexFrom, Nat.mod_one]
  | succ width ih =>
    have hmod : n % Nat.pow 16 (width + 1) =
        n % Nat.pow 16 width + Nat.pow 16 width * (n / Nat.pow 16 width % 16) := Nat.mod_pow_succ
    have hpow : Nat.pow 16 (width + 1) = Nat.pow 16 width * 16 := rfl
    rw [hexDigits, Lexer.hexFrom_cons, ih, hexValue_hexDigit _ (Nat.mod_lt _ (by decide)), hmod,
      hpow]
    grind

/-- The escape of a unit stands for it. -/
theorem denotes_unitEscape {u : Nat} (h : u < 0x10000) : Denotes (CodePoint.unitEscape u) [u] where
  run_append rest := by
    have hvalue := hexFrom_hexDigits 4 u 0
    rw [Nat.zero_mul, Nat.zero_add, Nat.mod_eq_of_lt h] at hvalue
    rw [CodePoint.unitEscape, List.cons_append, List.cons_append,
      run_unicode (isHex_hexDigits 4 u) (length_hexDigits 4 u), hvalue]
  bare_append rest := hasBareQuote_digits (isHex_hexDigits 4 u) rest
  unbroken := by
    refine List.forall_mem_cons.2 ⟨by decide, List.forall_mem_cons.2 ⟨by decide, fun d hd => ?_⟩⟩
    exact (inert_of_isHex (isHex_hexDigits 4 u d hd)).2.2

variable {p : CodePoint}

/-- A short escape denotes its code point. -/
theorem denotes_shortEscape (h : p.shortEscape? = some cs) : Denotes cs p.units := by
  unfold CodePoint.shortEscape? at h
  split at h
  case h_8 =>
    split at h
    · rename_i hcontrol
      obtain rfl := Option.some.inj h
      rw [CodePoint.units_of_lt (by omega)]
      exact denotes_unitEscape (by omega)
    · contradiction
  all_goals
    rename_i hc
    obtain rfl := Option.some.inj h
    obtain rfl := CodePoint.eq_ofChar hc
    exact denotes_escape rfl (by decide) (by decide)

/-- A character that no escape stands for may stand for itself. -/
theorem denotes_toChar (h : p.shortEscape? = none) (hc : p.toChar? = some c) :
    Denotes [c] p.units := by
  obtain rfl := CodePoint.eq_ofChar hc
  unfold CodePoint.shortEscape? at h
  rw [hc] at h
  refine denotes_plain ?_ ?_ ?_ ?_
  all_goals
    rintro rfl
    simp at h

theorem denotes_surrogate (h : p.toChar? = none) :
    Denotes (CodePoint.unitEscape p.val) p.units := by
  have hlt : p.val < 0xe000 := (CodePoint.isSurrogate_of_toChar? h).2
  rw [CodePoint.units_of_lt (by omega)]
  exact denotes_unitEscape (by omega)

/-- Whatever stands in a literal for a code point stands for its units. -/
theorem denotes_inLiteral (p : CodePoint) : Denotes p.inLiteral p.units := by
  unfold CodePoint.inLiteral
  split
  · exact denotes_shortEscape (by assumption)
  · exact denotes_toChar (by assumption) (by assumption)
  · exact denotes_surrogate (by assumption)

/-- What is written for a code point in a key denotes its units. -/
theorem denotes_inKey (p : CodePoint) : Denotes p.inKey p.units := by
  unfold CodePoint.inKey
  split
  · exact denotes_shortEscape (by assumption)
  · split
    · exact denotes_toChar (by assumption) (by assumption)
    · have hunits := denotes_flatMap fun u hu => denotes_unitEscape (p.units_lt u hu)
      rwa [List.flatMap_singleton'] at hunits
  · exact denotes_surrogate (by assumption)

/-- A string literal from quote to quote: no line ends in it, no half of a surrogate pair and no
quote stands in it as it is, and it stands for these units. -/
structure IsString (text : List Char) (us : List Nat) : Prop where
  quoted : ∃ body, text = '"' :: (body ++ ['"']) ∧ (∀ c ∈ body, c ≠ '\n' ∧ c ≠ '\r') ∧
    (∀ c ∈ body, ¬ (0xd800 ≤ c.toNat ∧ c.toNat < 0xe000)) ∧ hasBareQuote body = false
  decodes : decode? text = some us

theorem not_surrogate (c : Char) : ¬ (0xd800 ≤ c.toNat ∧ c.toNat < 0xe000) := by
  have hvalid : c.toNat.isValidChar := c.valid
  unfold Nat.isValidChar at hvalid
  omega

theorem Denotes.isString (h : Denotes cs us) : IsString ('"' :: (cs ++ ['"'])) us where
  quoted := by
    refine ⟨cs, rfl, h.unbroken, fun c _ => not_surrogate c, ?_⟩
    rw [← List.append_nil cs, h.bare_append]
    rfl
  decodes := by
    have hrun := h.run_append []
    rw [List.append_nil] at hrun
    rw [decode?, if_pos (by simp), List.dropLast_concat, hrun]
    simp [Decoding.run, Decoding.isEnd]

theorem isString_literal (t : Text) : IsString t.literalChars t.units :=
  (denotes_flatMap fun p (_ : p ∈ t) => denotes_inLiteral p).isString

theorem isString_key (t : Text) : IsString t.keyChars t.units :=
  (denotes_flatMap fun p (_ : p ∈ t) => denotes_inKey p).isString

end JavaScript

open JavaScript (IsString)

theorem Node.emitExpr_dictItem (key : String) (value : Node) :
    (dictItem key value).emitExpr = (keyLiteral key ++ ": " ++ ·) <$> value.emitExpr := by
  have hfault : (dictItem key value).exprFault? = value.exprFault? := rfl
  unfold emitExpr
  rw [hfault]
  cases value.exprFault? with
  | none => rfl
  | some f => rfl

/-- What is emitted for a text is a literal that stands for it, as a value and as a key, and the
length that simplification gives a text is the number of its units. -/
theorem isString_emitExpr (t : Text) :
    (∃ text, (Node.string t).emitExpr = .ok text ∧ IsString text.toList t.units) ∧
    IsString t.keyChars t.units ∧
    (∀ (key : String) (value : Node), (Node.dictItem key value).emitExpr =
      (String.ofList (Text.ofString key).keyChars ++ ": " ++ ·) <$> value.emitExpr) ∧
    (Node.unary .length (.string t)).optimize = .ok (.number (.int t.units.length)) := by
  refine ⟨⟨t.literal, rfl, ?_⟩, JavaScript.isString_key t, Node.emitExpr_dictItem, rfl⟩
  rw [Text.literal, String.toList_ofList]
  exact JavaScript.isString_literal t

-- half of a pair, a quote, the end of a line, and a letter that only keys escape
example : Text.literalChars [⟨0xd83d, by decide⟩, .ofChar '"', .ofChar '\n', .ofChar 'é'] =
    ['"', '\\', 'u', 'd', '8', '3', 'd', '\\', '"', '\\', 'n', 'é', '"'] := by decide

end Terse
