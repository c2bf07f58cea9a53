import Terse.Emit.Quote
import Terse.Proofs.Source.Names

/-! How JavaScript cuts the text of an expression into tokens. Of its tokens only those are known
that can be written in ASCII, without comments, templates and regular expressions. -/
namespace Terse.JavaScript

/-- Brackets, separators and operators. -/
inductive Mark where
  | lparen | rparen | lbracket | rbracket | lbrace | rbrace
  | comma | colon | question | dot | optionalDot | arrow
  | bang | increment | decrement
  | plus | minus | times | divide | remainder | power
  | less | lessEqual | greater | greaterEqual | equal | notEqual | and | or
  | other (text : List Char)
deriving DecidableEq, Repr

inductive Token where
  | word (text : List Char)
  | number (text : List Char)
  /-- A string literal with its quotes. -/
  | string (text : List Char)
  | mark (m : Mark)
  /-- What no token looks like. -/
  | malformed
deriving DecidableEq, Repr

/-- All marks, those first that start with others. -/
def marks : List (List Char × Mark) := [
    "...", "===", "!==", "**=", "<<=", ">>>=", ">>=", ">>>", "&&=", "||=", "??=", "//", "/*", "??",
    "<<", ">>", "+=", "-=", "*=", "/=", "%=", "&=", "|=", "^="].map
    (fun w => (w.toList, .other w.toList)) ++ [
  ("?.".toList, .optionalDot), ("=>".toList, .arrow), ("++".toList, .increment),
  ("--".toList, .decrement), ("**".toList, .power), ("<=".toList, .lessEqual),
  (">=".toList, .greaterEqual), ("==".toList, .equal), ("!=".toList, .notEqual),
  ("&&".toList, .and), ("||".toList, .or), ("(".toList, .lparen), (")".toList, .rparen),
  ("[".toList, .lbracket), ("]".toList, .rbracket), ("\x7b".toList, .lbrace),
  ("\x7d".toList, .rbrace), (",".toList, .comma), (":".toList, .colon), ("?".toList, .question),
  (".".toList, .dot), ("!".toList, .bang), ("+".toList, .plus), ("-".toList, .minus),
  ("*".toList, .times), ("/".toList, .divide), ("%".toList, .remainder), ("<".toList, .less),
  (">".toList, .greater)] ++ [";", "=", "&", "|", "^", "~"].map fun w => (w.toList, .other w.toList)

def mark? (cs : List Char) : Option (List Char × Mark) := marks.find? fun p => p.1.isPrefixOf cs

def isWordStart (c : Char) : Bool := Lexer.isLetter c || c = '_' || c = '$'

def isWordChar (c : Char) : Bool := isWordStart c || c.isDigit

/-- A point, and digits if there are any. -/
def placesWidth : List Char → Nat
  | '.' :: cs => (cs.takeWhile Char.isDigit).length + 1
  | _ => 0

def signWidth : List Char → Nat
  | '+' :: _ => 1
  | '-' :: _ => 1
  | _ => 0

/-- An exponent letter, an optional sign, and digits. -/
def exponentWidth : List Char → Nat
  | c :: cs =>
    let digits := ((cs.drop (signWidth cs)).takeWhile Char.isDigit).length
    if (c = 'e' ∨ c = 'E') ∧ digits ≠ 0 then digits + signWidth cs + 1 else 0
  | [] => 0

/-- The width of a decimal literal, which starts with a digit. -/
def numberWidth (cs : List Char) : Nat :=
  let n := (cs.takeWhile Char.isDigit).length
  let n := n + placesWidth (cs.drop n)
  n + exponentWidth (cs.drop n)

/-- A decimal literal, and how far it reaches after its first digit. A zero may not stand before
other digits, nor may a word follow at once. -/
def numeral (c : Char) (cs : List Char) : Token × Nat :=
  let width := numberWidth (c :: cs)
  let tail := ((c :: cs).drop width).takeWhile isWordChar
  if tail.isEmpty && !(c == '0' && cs.head?.any Char.isDigit) then
    (.number ((c :: cs).take width), width - 1)
  else (.malformed, width - 1 + tail.length)

/-- Where the reading of a string literal stands, after its opening quote. -/
inductive InString where
  | plain
  /-- A backslash was read. -/
  | escape
  /-- That many more hexadecimal digits belong to the escape. -/
  | digits (left : Nat)
deriving DecidableEq

/-- The state after one more character; nothing where no literal goes on like that. -/
def InString.step (s : InString) (c : Char) : Option InString :=
  match s with
  | plain => if c = '\n' ∨ c = '\r' then none else if c = '\\' then some escape else some plain
  | escape =>
    if c.isDigit then none else if c = 'x' then some (digits 2) else if c = 'u' then some (digits 4)
    else some plain
  | digits left =>
    if Lexer.isHex c then some (if left ≤ 1 then plain else digits (left - 1)) else none

/-- The width of what follows the opening quote, closing quote included. -/
def stringWidth? : InString → List Char → Option Nat
  | _, [] => none
  | s, c :: cs =>
    if s = .plain ∧ c = '"' then some 1
    else (s.step c).bind fun s => (stringWidth? s cs).map (· + 1)

/-- The token that a text starts with, and how far it reaches after its first character. -/
def next (c : Char) (cs : List Char) : Token × Nat :=
  if isWordStart c then
    (.word (c :: cs.takeWhile isWordChar), (cs.takeWhile isWordChar).length)
  else if c.isDigit then numeral c cs
  else if c = '"' then
    match stringWidth? .plain cs with
    | some n => (.string (c :: cs.take n), n)
    | none => (.malformed, cs.length)
  else
    match mark? (c :: cs) with
    | some (text, m) => (.mark m, text.length - 1)
    | none => (.malformed, 0)

def lex (cs : List Char) : List Token :=
  match cs with
  | [] => []
  | c :: cs =>
    if Lexer.isSpace c then lex cs
    else (next c cs).1 :: lex (cs.drop (next c cs).2)
termination_by cs.length
decreasing_by all_goals simp only [List.length_cons, List.length_drop]; omega

variable {c : Char} {cs rest : List Char}

/-- Nothing that could go on with a word or a number comes first. -/
structure Apart (cs : List Char) : Prop where
  head : ∀ c ∈ cs.head?, isWordChar c = false
  sign {c d : Char} {rest : List Char} : cs = c :: d :: rest → c = '+' ∨ c = '-' → d.isDigit = false

@[simp]
theorem lex_nil : lex [] = [] := by rw [lex]

theorem lex_space : lex (' ' :: cs) = lex cs := by
  rw [lex, if_pos (by decide)]

theorem isSpace_eq_false (h : isWordChar c) : Lexer.isSpace c = false := by
  rw [Bool.eq_false_iff]
  intro hs
  simp only [Lexer.isSpace, Bool.or_eq_true, decide_eq_true_eq] at hs
  obtain (((rfl | rfl) | rfl) | rfl) | rfl := hs <;> revert h <;> decide

theorem takeWhile_append_apart {p : Char → Bool} (cs : List Char)
    (hrest : ∀ d ∈ rest.head?, p d = false) : (cs ++ rest).takeWhile p = cs.takeWhile p := by
  have hnil : rest.takeWhile p = [] := by
    cases rest with
    | nil => rfl
    | cons d rest => exact List.takeWhile_cons_of_neg (by simp [hrest d rfl])
  induction cs with
  | nil => exact hnil
  | cons c cs ih => simp only [List.cons_append, List.takeWhile_cons, ih]

theorem takeWhile_of_apart {p : Char → Bool} (hcs : ∀ d ∈ cs, p d)
    (hrest : ∀ d ∈ rest.head?, p d = false) : (cs ++ rest).takeWhile p = cs := by
  rw [takeWhile_append_apart cs hrest, List.takeWhile_eq_self_iff]
  exact hcs

/-- A whole word is one token. -/
theorem lex_word (hc : isWordStart c) (hcs : ∀ d ∈ cs, isWordChar d) (hrest : Apart rest) :
    lex (c :: (cs ++ rest)) = .word (c :: cs) :: lex rest := by
  have hspace : Lexer.isSpace c = false := isSpace_eq_false (by simp [isWordChar, hc])
  rw [lex, if_neg (by simp [hspace]), next, if_pos hc, takeWhile_of_apart hcs hrest.head,
    List.drop_left]

/-- A character that starts neither a word nor a literal. -/
def isMarkStart (c : Char) : Bool :=
  !Lexer.isSpace c && !isWordStart c && !c.isDigit && c ≠ '"'

/-- The mark that a text starts with is its next token. -/
theorem lex_mark {text : List Char} {m : Mark} (hc : isMarkStart c)
    (h : mark? (c :: cs) = some (text, m)) (hrest : cs.drop (text.length - 1) = rest) :
    lex (c :: cs) = .mark m :: lex rest := by
  simp only [isMarkStart, Bool.and_eq_true, Bool.not_eq_true', decide_eq_true_eq] at hc
  obtain ⟨⟨⟨hspace, hword⟩, hdigit⟩, hquote⟩ := hc
  rw [lex, if_neg (by simp [hspace]), next, if_neg (by simp [hword]), if_neg (by simp [hdigit]),
    if_neg hquote, h, hrest]

def IsDigits (ds : List Char) : Prop := ds ≠ [] ∧ ∀ d ∈ ds, d.isDigit

/-- Nothing, or a point with digits after it. -/
def IsPlaces (cs : List Char) : Prop := cs = [] ∨ ∃ ds, IsDigits ds ∧ cs = '.' :: ds

/-- Nothing, or an exponent with its sign. -/
def IsExponent (cs : List Char) : Prop :=
  cs = [] ∨ ∃ sign ds, (sign = '+' ∨ sign = '-') ∧ IsDigits ds ∧ cs = 'e' :: sign :: ds

/-- Digits that do not start with a zero, unless that is all. -/
def IsWhole (cs : List Char) : Prop := IsDigits cs ∧ ∀ ds, cs = '0' :: ds → ds = []

def IsNumeral (cs : List Char) : Prop :=
  ∃ whole places expo, cs = whole ++ (places ++ expo) ∧ IsWhole whole ∧ IsPlaces places ∧
    IsExponent expo

variable {whole places expo name : List Char}

theorem isDigit_eq_false (h : isWordChar c = false) : c.isDigit = false :=
  (Bool.or_eq_false_iff.1 h).2

theorem head_places (hp : IsPlaces places) (he : IsExponent expo) (hrest : Apart rest) :
    ∀ d ∈ (places ++ (expo ++ rest)).head?, d.isDigit = false := by
  intro d hd
  obtain rfl | ⟨ds, -, rfl⟩ := hp
  · obtain rfl | ⟨sign, ds, -, -, rfl⟩ := he
    · exact isDigit_eq_false (hrest.head d hd)
    · obtain rfl := Option.some.inj hd
      rfl
  · obtain rfl := Option.some.inj hd
    rfl

theorem head_exponent (he : IsExponent expo) (hrest : Apart rest) :
    ∀ d ∈ (expo ++ rest).head?, d.isDigit = false :=
  head_places (.inl rfl) he hrest

theorem placesWidth_places (hp : IsPlaces places) (he : IsExponent expo) (hrest : Apart rest)
    (hdot : places = [] → expo = [] → rest.head? ≠ some '.') :
    placesWidth (places ++ (expo ++ rest)) = places.length := by
  obtain rfl | ⟨ds, hds, rfl⟩ := hp
  · obtain rfl | ⟨sign, ds, -, -, rfl⟩ := he
    · cases rest with
      | nil => rfl
      | cons d rest =>
        have hd : d ≠ '.' := fun h => hdot rfl rfl (congrArg some h)
        simp [placesWidth, hd]
    · rfl
  · rw [List.cons_append, placesWidth, takeWhile_of_apart hds.2 (head_exponent he hrest)]
    rfl

theorem exponentWidth_exponent (he : IsExponent expo) (hrest : Apart rest) :
    exponentWidth (expo ++ rest) = expo.length := by
  obtain rfl | ⟨sign, ds, hsign, hds, rfl⟩ := he
  · cases rest with
    | nil => rfl
    | cons d rest =>
      have hd := hrest.head d rfl
      have hne : ¬ (d = 'e' ∨ d = 'E') := by
        rintro (rfl | rfl) <;> revert hd <;> decide
      simp [exponentWidth, hne]
  · have hdigits := takeWhile_of_apart hds.2 fun d hd => isDigit_eq_false (hrest.head d hd)
    obtain rfl | rfl := hsign <;> simp [exponentWidth, signWidth, hdigits, hds.1]

theorem numberWidth_numeral (hw : IsDigits whole) (hp : IsPlaces places) (he : IsExponent expo)
    (hrest : Apart rest) (hdot : places = [] → expo = [] → rest.head? ≠ some '.') :
    numberWidth (whole ++ (places ++ (expo ++ rest))) =
      (whole ++ (places ++ expo)).length := by
  have hwhole := takeWhile_of_apart hw.2 (head_places hp he hrest)
  have hplaces := placesWidth_places hp he hrest hdot
  have hdrop : (whole ++ (places ++ (expo ++ rest))).drop (whole.length + places.length) =
      expo ++ rest := by
    rw [← List.length_append, ← List.append_assoc, List.drop_left]
  simp only [numberWidth, hwhole, List.drop_left, hplaces, hdrop,
    exponentWidth_exponent he hrest, List.length_append, Nat.add_assoc]

theorem isWordStart_eq_false (h : c.isDigit) : isWordStart c = false := by
  have hle : c ≤ '9' := by
    simp only [Char.isDigit, Bool.and_eq_true, decide_eq_true_eq] at h
    exact h.2
  rw [Bool.eq_false_iff]
  intro hs
  simp only [isWordStart, Lexer.isLetter, Bool.or_eq_true, Bool.and_eq_true, decide_eq_true_eq]
    at hs
  obtain ((⟨ha, -⟩ | ⟨hA, -⟩) | rfl) | rfl := hs
  · exact absurd (Char.le_trans ha hle) (by decide)
  · exact absurd (Char.le_trans hA hle) (by decide)
  all_goals contradiction

theorem lex_digit (h : c.isDigit) :
    lex (c :: cs) = (numeral c cs).1 :: lex (cs.drop (numeral c cs).2) := by
  have hspace : Lexer.isSpace c = false := isSpace_eq_false (by simp [isWordChar, h])
  rw [lex, if_neg (by simp [hspace]), next, if_neg (by simp [isWordStart_eq_false h]), if_pos h]

/-- A literal, and what is left of a word that follows at once. -/
theorem lex_literal {lit tail : List Char} (hc : c.isDigit)
    (hwidth : numberWidth (c :: (lit ++ (tail ++ rest))) = lit.length + 1)
    (hlead : c = '0' → ∀ d ∈ (lit ++ (tail ++ rest)).head?, d.isDigit = false)
    (htail : ∀ d ∈ tail, isWordChar d) (hrest : Apart rest) :
    lex (c :: (lit ++ (tail ++ rest))) =
      (if tail = [] then .number (c :: lit) else .malformed) :: lex rest := by
  have hzero : (c == '0' && (lit ++ (tail ++ rest)).head?.any Char.isDigit) = false := by
    by_cases h : c = '0'
    · cases hd : (lit ++ (tail ++ rest)).head? with
      | none => simp
      | some d => simp [hlead h d hd]
    · simp [h]
  have htake : (tail ++ rest).takeWhile isWordChar = tail := takeWhile_of_apart htail hrest.head
  rw [lex_digit hc, numeral]
  simp only [hwidth, List.drop_succ_cons, List.drop_left, htake, hzero, List.take_succ_cons,
    List.take_left, Nat.add_sub_cancel, Bool.not_false, Bool.and_true, List.isEmpty_iff]
  by_cases h : tail = []
  · subst h
    simp
  · rw [if_neg h, if_neg h]
    simp only
    rw [← List.length_append, ← List.append_assoc, List.drop_left]

/-- A literal is one token, if no point comes after it that it could take for its own. -/
theorem lex_numeral (hw : IsWhole whole) (hp : IsPlaces places) (he : IsExponent expo)
    (hrest : Apart rest) (hdot : places = [] → expo = [] → rest.head? ≠ some '.') :
    lex (whole ++ (places ++ (expo ++ rest))) =
      .number (whole ++ (places ++ expo)) :: lex rest := by
  have hwidth := numberWidth_numeral hw.1 hp he hrest hdot
  have hhead := head_places hp he hrest
  obtain ⟨⟨hne, hdigits⟩, hzero⟩ := hw
  cases whole with
  | nil => contradiction
  | cons c ws =>
    have hsplit : (c :: ws) ++ (places ++ (expo ++ rest)) =
        c :: ((ws ++ (places ++ expo)) ++ ([] ++ rest)) := by
      simp only [List.append_assoc, List.cons_append, List.nil_append]
    rw [hsplit] at hwidth ⊢
    rw [lex_literal (hdigits c List.mem_cons_self) hwidth ?_ (by simp) hrest, if_pos rfl,
      List.cons_append]
    rintro rfl
    obtain rfl := hzero ws rfl
    simpa only [List.nil_append, List.append_assoc] using hhead

theorem exponentWidth_le (cs : List Char) : exponentWidth cs ≤ cs.length := by
  cases cs with
  | nil => exact Nat.le_refl 0
  | cons c cs =>
    have hle := (List.takeWhile_sublist Char.isDigit (l := cs.drop (signWidth cs))).length_le
    rw [List.length_drop] at hle
    rw [exponentWidth]
    split
    · simp only [List.length_cons]
      omega
    · exact Nat.zero_le _

theorem signWidth_of_isWordChar (h : isWordChar c) : signWidth (c :: cs) = 0 := by
  unfold signWidth
  split <;> simp_all <;> revert h <;> decide

theorem takeWhile_signed (hrest : Apart rest) :
    (rest.drop (signWidth rest)).takeWhile Char.isDigit = [] := by
  cases rest with
  | nil => rfl
  | cons c rest =>
    by_cases hsign : c = '+' ∨ c = '-'
    · have hwidth : signWidth (c :: rest) = 1 := by
        obtain rfl | rfl := hsign <;> rfl
      rw [hwidth, List.drop_one, List.tail_cons]
      cases rest with
      | nil => rfl
      | cons d rest => exact List.takeWhile_cons_of_neg (by simp [hrest.sign rfl hsign])
    · have hwidth : signWidth (c :: rest) = 0 := by
        unfold signWidth
        split <;> simp_all
      rw [hwidth, List.drop_zero]
      exact List.takeWhile_cons_of_neg (by simp [isDigit_eq_false (hrest.head c rfl)])

/-- Whether a word starts with an exponent does not depend on what comes after it. -/
theorem exponentWidth_append (hcs : ∀ d ∈ cs, isWordChar d) (hne : cs ≠ []) (hrest : Apart rest) :
    exponentWidth (cs ++ rest) = exponentWidth cs := by
  cases cs with
  | nil => exact absurd rfl hne
  | cons c cs =>
    obtain ⟨-, hcs⟩ := List.forall_mem_cons.1 hcs
    cases cs with
    | nil =>
      -- only a sign with digits after it could go on with a letter alone
      have hnone := takeWhile_signed hrest
      have hnil : exponentWidth [c] = 0 := by simp [exponentWidth]
      rw [hnil]
      simp [exponentWidth, hnone]
    | cons d ds =>
      have hd := List.forall_mem_cons.1 hcs
      have hsign (more : List Char) : signWidth (d :: more) = 0 := signWidth_of_isWordChar hd.1
      have hdigit : ∀ d ∈ rest.head?, Char.isDigit d = false := fun d hd =>
        isDigit_eq_false (hrest.head d hd)
      have htake : (d :: (ds ++ rest)).takeWhile Char.isDigit = (d :: ds).takeWhile Char.isDigit :=
        takeWhile_append_apart (d :: ds) hdigit
      simp only [List.cons_append, exponentWidth, hsign, List.drop_zero, htake]

theorem isWordStart_of_isLetter (h : Lexer.isLetter c) : isWordStart c := by
  simp [isWordStart, h]

theorem isDigit_of_isLetter (h : Lexer.isLetter c) : c.isDigit = false := by
  rw [Bool.eq_false_iff]
  intro hd
  have hs := isWordStart_eq_false hd
  rw [isWordStart_of_isLetter h] at hs
  contradiction

theorem isWordChar_of_isWordChar (h : Lexer.isWordChar c) : isWordChar c := by
  simp only [Lexer.isWordChar, Bool.or_eq_true, decide_eq_true_eq] at h
  simp only [isWordChar, isWordStart, Bool.or_eq_true, decide_eq_true_eq]
  tauto

theorem isWordChar_of_isName (h : IsName name) : ∀ d ∈ name, isWordChar d := by
  obtain ⟨c, cs, rfl, hc, hcs⟩ := h
  refine List.forall_mem_cons.2 ⟨?_, fun d hd => isWordChar_of_isWordChar (hcs d hd)⟩
  simp [isWordChar, isWordStart, hc]

theorem ne_nil_of_isName (h : IsName name) : name ≠ [] := by
  obtain ⟨c, cs, rfl, -, -⟩ := h
  exact List.cons_ne_nil c cs

/-- What becomes of a whole number that a point and a name follow: the point is taken for its own,
and then the name is either an exponent or in the way. -/
def glued (whole name : List Char) : Token :=
  if exponentWidth name = name.length then .number (whole ++ '.' :: name) else .malformed

/-- A point after whole digits belongs to the number, and an exponent after it too. -/
theorem numberWidth_glued (hw : IsDigits whole) (hname : IsName name) (hrest : Apart rest) :
    numberWidth (whole ++ '.' :: (name ++ rest)) = whole.length + 1 + exponentWidth name := by
  have hplaces : placesWidth ('.' :: (name ++ rest)) = 1 := by
    obtain ⟨c, cs, rfl, hc, -⟩ := hname
    simp [placesWidth, isDigit_of_isLetter hc]
  have hwhole : (whole ++ '.' :: (name ++ rest)).takeWhile Char.isDigit = whole :=
    takeWhile_of_apart hw.2 (by simp)
  have hdrop : (whole ++ '.' :: (name ++ rest)).drop (whole.length + 1) = name ++ rest := by
    rw [← List.drop_drop, List.drop_left]
    rfl
  simp only [numberWidth, hwhole, List.drop_left, hplaces, hdrop,
    exponentWidth_append (isWordChar_of_isName hname) (ne_nil_of_isName hname) hrest]

/-- A name after whole digits and a point does not become a token of its own. -/
theorem lex_glued (hw : IsWhole whole) (hname : IsName name) (hrest : Apart rest) :
    lex (whole ++ '.' :: (name ++ rest)) = glued whole name :: lex rest := by
  have hwidth := numberWidth_glued hw.1 hname hrest
  have hle := exponentWidth_le name
  obtain ⟨⟨hne, hdigits⟩, hzero⟩ := hw
  cases whole with
  | nil => contradiction
  | cons c ws =>
    have hsplit : (c :: ws) ++ '.' :: (name ++ rest) =
        c :: ((ws ++ '.' :: name.take (exponentWidth name)) ++
          (name.drop (exponentWidth name) ++ rest)) := by
      have hname := List.take_append_drop (exponentWidth name) name
      simp only [List.append_assoc, List.cons_append]
      rw [← List.append_assoc (name.take _), hname]
    have hlength : (ws ++ '.' :: name.take (exponentWidth name)).length + 1 =
        (c :: ws).length + 1 + exponentWidth name := by
      simp only [List.length_append, List.length_cons, List.length_take]
      omega
    rw [hsplit] at hwidth ⊢
    rw [← hlength] at hwidth
    rw [lex_literal (hdigits c List.mem_cons_self) hwidth ?_ ?_ hrest, glued]
    · by_cases h : exponentWidth name = name.length
      · simp [h]
      · have hdrop : name.drop (exponentWidth name) ≠ [] := by
          rw [ne_eq, List.drop_eq_nil_iff]
          omega
        rw [if_neg h, if_neg hdrop]
    · rintro rfl
      obtain rfl := hzero ws rfl
      simp
    · exact fun d hd => isWordChar_of_isName hname d (List.mem_of_mem_drop hd)

/-- A part of a string literal after which the literal goes on as before. -/
def IsPiece (cs : List Char) : Prop :=
  ∀ rest, stringWidth? .plain (cs ++ rest) = (stringWidth? .plain rest).map (· + cs.length)

theorem isPiece_nil : IsPiece [] := fun rest => by simp

theorem isPiece_append {ds : List Char} (hcs : IsPiece cs) (hds : IsPiece ds) :
    IsPiece (cs ++ ds) := by
  intro rest
  rw [List.append_assoc, hcs, hds, Option.map_map, List.length_append]
  congr 1
  funext n
  simp only [Function.comp_apply]
  omega

theorem isPiece_flatMap {α : Type} {f : α → List Char} {as : List α} (h : ∀ a ∈ as, IsPiece (f a)) :
    IsPiece (as.flatMap f) := by
  induction as with
  | nil => exact isPiece_nil
  | cons a as ih =>
    obtain ⟨ha, has⟩ := List.forall_mem_cons.1 h
    rw [List.flatMap_cons]
    exact isPiece_append ha (ih has)

theorem lex_string (rest : List Char) (h : IsPiece cs) :
    lex ('"' :: (cs ++ '"' :: rest)) = .string ('"' :: (cs ++ ['"'])) :: lex rest := by
  have hwidth : stringWidth? .plain (cs ++ '"' :: rest) = some (cs ++ ['"']).length := by
    rw [h]
    simp [stringWidth?, Nat.add_comm]
  have hsplit : cs ++ '"' :: rest = (cs ++ ['"']) ++ rest := by simp
  rw [lex, if_neg (by decide), next, if_neg (by decide), if_neg (by decide), if_pos rfl, hwidth]
  simp only
  rw [hsplit, List.take_left, List.drop_left]

theorem isPiece_plain (hquote : c ≠ '"') (hslash : c ≠ '\\') (hn : c ≠ '\n') (hr : c ≠ '\r') :
    IsPiece [c] := by
  intro rest
  simp [stringWidth?, InString.step, hquote, hslash, hn, hr]

theorem isPiece_escape (hdigit : c.isDigit = false) (hx : c ≠ 'x') (hu : c ≠ 'u') :
    IsPiece ['\\', c] := by
  intro rest
  simp [stringWidth?, InString.step, hdigit, hx, hu, Function.comp_def]

theorem isHex_hexDigit : ∀ n < 16, Lexer.isHex (hexDigit n) := by decide

theorem stringWidth?_hexDigits (width n : Nat) :
    stringWidth? (.digits (width + 1)) (hexDigits (width + 1) n ++ rest) =
      (stringWidth? .plain rest).map (· + (width + 1)) := by
  have hhex (m : Nat) : Lexer.isHex (hexDigit (m % 16)) :=
    isHex_hexDigit _ (Nat.mod_lt _ (by decide))
  induction width with
  | zero => simp [hexDigits, stringWidth?, InString.step, hhex]
  | succ width ih =>
    rw [hexDigits, List.cons_append, stringWidth?]
    simp [InString.step, hhex, ih, Function.comp_def, Nat.add_assoc]

theorem isPiece_unitEscape (u : Nat) : IsPiece (CodePoint.unitEscape u) := by
  intro rest
  have hu : Char.isDigit 'u' = false := by decide
  have hstart (cs : List Char) : stringWidth? .plain ('\\' :: 'u' :: cs) =
      (stringWidth? (.digits 4) cs).map (· + 2) := by
    simp [stringWidth?, InString.step, hu, Function.comp_def]
  rw [CodePoint.unitEscape, List.cons_append, List.cons_append, hstart, stringWidth?_hexDigits]
  simp [hexDigits, Function.comp_def]

variable {p : CodePoint}

theorem isPiece_shortEscape (h : p.shortEscape? = some cs) : IsPiece cs := by
  unfold CodePoint.shortEscape? at h
  split at h
  case h_8 =>
    split at h
    · obtain rfl := Option.some.inj h
      exact isPiece_unitEscape _
    · contradiction
  all_goals
    obtain rfl := Option.some.inj h
    exact isPiece_escape (by decide) (by decide) (by decide)

/-- A character that no escape stands for may stand for itself. -/
theorem isPiece_of_toChar? (h : p.shortEscape? = none) (hc : p.toChar? = some c) : IsPiece [c] := by
  unfold CodePoint.shortEscape? at h
  rw [hc] at h
  refine isPiece_plain ?_ ?_ ?_ ?_
  all_goals
    rintro rfl
    simp at h

theorem isPiece_inLiteral (p : CodePoint) : IsPiece p.inLiteral := by
  unfold CodePoint.inLiteral
  split
  · exact isPiece_shortEscape (by assumption)
  · exact isPiece_of_toChar? (by assumption) (by assumption)
  · exact isPiece_unitEscape _

theorem isPiece_inKey (p : CodePoint) : IsPiece p.inKey := by
  unfold CodePoint.inKey
  split
  · exact isPiece_shortEscape (by assumption)
  · split
    · exact isPiece_of_toChar? (by assumption) (by assumption)
    · exact isPiece_flatMap fun u _ => isPiece_unitEscape u
  · exact isPiece_unitEscape _

theorem lex_literalChars (t : Text) :
    lex (t.literalChars ++ rest) = .string t.literalChars :: lex rest := by
  have h := lex_string rest (isPiece_flatMap fun p (_ : p ∈ t) => isPiece_inLiteral p)
  simpa [Text.literalChars] using h

theorem lex_keyChars (t : Text) : lex (t.keyChars ++ rest) = .string t.keyChars :: lex rest := by
  have h := lex_string rest (isPiece_flatMap fun p (_ : p ∈ t) => isPiece_inKey p)
  simpa [Text.keyChars] using h

end Terse.JavaScript
