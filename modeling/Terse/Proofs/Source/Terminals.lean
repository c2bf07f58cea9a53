import Terse.Proofs.Source.Names
import Terse.Proofs.Source.Units

/-! What the terminals match: each finds the longest text of its own class at the start of a text,
and finds none only where there is none. -/
namespace Terse

namespace TokenKind

/-- The words and signs that are tokens of a kind. -/
def spellings : TokenKind → List String
  | relop => ["<=", ">=", "==", "~=", "<", ">"]
  | mathAssign => ["+=", "-=", "*=", "/="]
  | incDec => ["++", "--"]
  | arith => ["+", "-", "*", "/", "%"]
  | unary => ["_", "~", "#"]
  | times => ["*."] | arrow => ["=>"] | optionalDot => ["?."] | ampersand => ["&"] | bang => ["!"]
  | caret => ["^"] | colon => [":"] | comma => [","] | dot => ["."] | equal => ["="]
  | lbrace => ["\x7b"] | lpar => ["("] | lsqb => ["["] | qmark => ["?"] | rbrace => ["\x7d"]
  | rpar => [")"] | rsqb => ["]"] | semicolon => [";"] | bar => ["|"]
  | breakWord => ["br"] | continueWord => ["ct"] | returnWord => ["r"] | factorial => ["F"]
  | functionWord => ["f"] | whileWord => ["w"] | inWord => ["in"] | throwWord => ["th"]
  | tryWord => ["t"] | exceptWord => ["e"] | trueWord => ["true"] | falseWord => ["false"]
  | string | number | name | endOfText | other _ => []

/-- The texts that are tokens of a kind. -/
def Spells (kind : TokenKind) (cs : List Char) : Prop :=
  match kind with
  | string => ∃ quote items, Literal.Consists cs quote items
  | number => Numeral.IsNumeral cs
  | name => IsName cs
  | kind => String.ofList cs ∈ kind.spellings

end TokenKind

namespace Lexer

def IsSpaces (cs : List Char) : Prop := cs ≠ [] ∧ ∀ c ∈ cs, c ∈ [' ', '\t', '\x0c', '\r', '\n']

/-- A comment runs to the end of its line. -/
def IsComment (cs : List Char) : Prop := ∃ rest, cs = '/' :: '/' :: rest ∧ '\n' ∉ rest

/-- How the lexemes look that a terminal cuts out, and what they are good for. -/
structure Description where
  use : Use
  Matches : List Char → Prop

def Description.token (kind : TokenKind) : Description := ⟨.token kind, kind.Spells⟩

/-- The terminals, the first of which to match wins. -/
def descriptions : List Description :=
  [.token .string, .token .number, .token .name, ⟨.skipped, IsSpaces⟩, ⟨.skipped, IsComment⟩,
    .token .relop, .token .mathAssign, .token .incDec, .token .times, .token .arrow,
    .token .optionalDot, .token .arith, .token .unary, .token .ampersand, .token .bang,
    .token .caret, .token .colon, .token .comma, .token .dot, .token .equal, .token .lbrace,
    .token .lpar, .token .lsqb, .token .qmark, .token .rbrace, .token .rpar, .token .rsqb,
    .token .semicolon, .token .bar]

/-- The width is that of the longest text of the class at the start; zero stands for none. -/
structure Measures (width : List Char → Nat) (Matches : List Char → Prop) : Prop where
  ne_nil {cs : List Char} : Matches cs → cs ≠ []
  le_length (cs : List Char) : width cs ≤ cs.length
  take {cs : List Char} {n : Nat} : width cs = n + 1 → Matches (cs.take (n + 1))
  longest {cs : List Char} (rest : List Char) : Matches cs → cs.length ≤ width (cs ++ rest)

structure Describes (d : Description) (t : Terminal) : Prop where
  use_eq : d.use = t.use
  measures : Measures t.width d.Matches

variable {c : Char} {cs rest ds : List Char} {p : Char → Bool}

theorem le_takeWhile (h : ∀ c ∈ cs, p c) : cs.length ≤ ((cs ++ rest).takeWhile p).length := by
  rw [List.takeWhile_append_of_pos h, List.length_append]
  exact Nat.le_add_right _ _

theorem takeWhile_le (p : Char → Bool) (cs : List Char) : (cs.takeWhile p).length ≤ cs.length :=
  (List.takeWhile_prefix p).length_le

/-! ### Strings -/

/-- Strings are cut as far as they are described. -/
theorem measures_string : Measures stringWidth TokenKind.string.Spells where
  ne_nil := by
    rintro cs ⟨quote, items, -, -, rfl⟩
    exact List.cons_ne_nil _ _
  le_length cs := by
    cases hw : stringWidth cs with
    | zero => exact Nat.zero_le _
    | succ n =>
      obtain ⟨quote, items, rest, -, -, rfl, rfl⟩ := stringWidth_items.1 hw
      simp
  take {cs n} hw := by
    obtain ⟨quote, items, rest, hquote, hfits, rfl, rfl⟩ := stringWidth_items.1 hw
    refine ⟨quote, items, hquote, hfits, ?_⟩
    rw [List.take_succ_cons, List.take_length_add_append]
    rfl
  longest {cs} rest h := by
    obtain ⟨quote, items, hquote, hfits, rfl⟩ := h
    rw [stringWidth_items.2 ⟨quote, items, rest, hquote, hfits, by simp, rfl⟩]
    simp

/-! ### Numbers -/

section

open Numeral

theorem digitsWidth_le (cs : List Char) : digitsWidth cs ≤ cs.length := takeWhile_le _ _

theorem placesWidth_le (cs : List Char) : placesWidth cs ≤ cs.length := by
  unfold placesWidth
  split
  · rename_i cs
    have hle := digitsWidth_le cs
    split <;> simp_all
  · exact Nat.zero_le _

theorem exponentWidth_le (cs : List Char) : exponentWidth cs ≤ cs.length := by
  unfold exponentWidth
  split
  · split
    · dsimp only
      split
      · exact Nat.zero_le _
      · rename_i n h
        have hle : n + 1 ≤ _ := h ▸ digitsWidth_le _
        rw [List.length_drop] at hle
        rw [List.length_cons]
        omega
    · exact Nat.zero_le _
  · exact Nat.zero_le _

theorem numberWidth_le (cs : List Char) : numberWidth cs ≤ cs.length := by
  have hwhole := digitsWidth_le cs
  unfold numberWidth
  split
  · exact Nat.zero_le _
  · dsimp only
    have hplaces := placesWidth_le (cs.drop (digitsWidth cs))
    have hexponent :=
      exponentWidth_le (cs.drop (digitsWidth cs + placesWidth (cs.drop (digitsWidth cs))))
    rw [List.length_drop] at hplaces hexponent
    omega

/-- Digits that something else follows are all the digits there. -/
theorem digitsWidth_append (h : ∀ c ∈ ds, isDecimal c)
    (hrest : ∀ c ∈ rest.head?, isDecimal c = false) :
    digitsWidth (ds ++ rest) = ds.length := by
  rw [digitsWidth, (span_digits h hrest).1]

theorem le_digitsWidth (h : IsDigits ds) (rest : List Char) :
    ds.length ≤ digitsWidth (ds ++ rest) :=
  le_takeWhile h.2

theorem le_placesWidth (h : IsDigits ds) (rest : List Char) :
    ds.length + 1 ≤ placesWidth ('.' :: (ds ++ rest)) := by
  have hle := le_digitsWidth h rest
  have hpos := List.length_pos_iff.2 h.1
  rw [placesWidth]
  split <;> omega

theorem le_exponentWidth {e : Char} {sign : List Char} (he : e = 'e' ∨ e = 'E')
    (hs : sign = [] ∨ sign = ['+'] ∨ sign = ['-']) (h : IsDigits ds) (rest : List Char) :
    (e :: (sign ++ ds)).length ≤ exponentWidth (e :: (sign ++ (ds ++ rest))) := by
  have hle := le_digitsWidth h rest
  have hpos := List.length_pos_iff.2 h.1
  obtain ⟨d, ds, rfl⟩ := List.exists_cons_of_ne_nil h.1
  have hd : d ≠ '+' ∧ d ≠ '-' := by
    have hdigit := h.2 d List.mem_cons_self
    constructor <;> rintro rfl <;> contradiction
  rw [List.cons_append] at hle
  obtain rfl | rfl | rfl := hs
  · simp only [exponentWidth, if_pos he, List.nil_append, List.cons_append]
    split <;> rename_i hw <;> split at hw <;> simp_all
  all_goals
    simp only [exponentWidth, if_pos he, List.nil_append, List.cons_append, List.drop_succ_cons,
      List.drop_zero, List.length_cons] at hle hpos ⊢
    split <;> omega

theorem places_le {places : List Char} (h : IsPlaces places) (rest : List Char) :
    places.length ≤ placesWidth (places ++ rest) := by
  obtain rfl | ⟨ds, hds, rfl⟩ := h
  · exact Nat.zero_le _
  · exact le_placesWidth hds rest

theorem placesWidth_append {places : List Char} {e : Char} (h : IsPlaces places)
    (he : e = 'e' ∨ e = 'E') : placesWidth (places ++ e :: rest) = places.length := by
  have hdecimal : isDecimal e = false := by rcases he with rfl | rfl <;> rfl
  obtain rfl | ⟨ds, hds, rfl⟩ := h
  · rcases he with rfl | rfl <;> rfl
  · have hstop : ∀ c ∈ (e :: rest).head?, isDecimal c = false := by simpa using hdecimal
    have hwidth := digitsWidth_append hds.2 hstop
    have hpos := List.length_pos_iff.2 hds.1
    rw [List.cons_append, placesWidth, hwidth, List.length_cons]
    split <;> omega

theorem numberWidth_eq (h : digitsWidth cs ≠ 0) : numberWidth cs = digitsWidth cs +
    placesWidth (cs.drop (digitsWidth cs)) +
    exponentWidth (cs.drop (digitsWidth cs + placesWidth (cs.drop (digitsWidth cs)))) := by
  unfold numberWidth
  split
  · contradiction
  · rfl

/-- A numeral is cut as a whole. -/
theorem IsNumeral.le_numberWidth (h : IsNumeral cs) (rest : List Char) :
    cs.length ≤ numberWidth (cs ++ rest) := by
  obtain ⟨whole, places, expo, hw, hp, he, rfl⟩ := h
  have hpos := List.length_pos_iff.2 hw.1
  by_cases htail : places ++ expo = []
  · obtain ⟨rfl, rfl⟩ := List.append_eq_nil_iff.1 htail
    have hle := le_digitsWidth hw rest
    rw [List.append_nil, List.append_nil, numberWidth_eq (by omega)]
    omega
  · have hstop : ∀ c ∈ (places ++ expo ++ rest).head?, isDecimal c = false := by
      rw [List.head?_append_of_ne_nil _ htail]
      exact head?_places_append hp he
    have hwidth := digitsWidth_append hw.2 hstop
    have happend : whole ++ places ++ expo ++ rest = whole ++ (places ++ expo ++ rest) := by simp
    rw [happend, numberWidth_eq (by omega), hwidth, List.drop_left, List.drop_length_add_append]
    obtain rfl | ⟨e, sign, ds, hmark, hs, hds, rfl⟩ := he
    · have hle := places_le hp rest
      simp only [List.append_nil, List.length_append]
      omega
    · have hle := le_exponentWidth hmark hs hds rest
      have hexpo : places ++ e :: (sign ++ ds) ++ rest = places ++ e :: (sign ++ (ds ++ rest)) := by
        simp
      rw [hexpo, placesWidth_append hp hmark, List.drop_left, List.length_append,
        List.length_append]
      omega

theorem measures_number : Measures numberWidth TokenKind.number.Spells where
  ne_nil h := by
    obtain ⟨d, rest, -, rfl⟩ := IsNumeral.head h
    exact List.cons_ne_nil d rest
  le_length := numberWidth_le
  take := isNumeral_take
  longest rest h := IsNumeral.le_numberWidth h rest

end

/-! ### Names, blanks and comments -/

/-- Names are cut as far as they are described. -/
theorem measures_name : Measures nameWidth TokenKind.name.Spells where
  ne_nil h := by
    obtain ⟨c, rest, rfl, -⟩ := h
    exact List.cons_ne_nil c rest
  le_length cs := by
    unfold nameWidth
    split
    · split
      · exact Nat.succ_le_succ (takeWhile_le _ _)
      · exact Nat.zero_le _
    · exact Nat.zero_le _
  take := isName_take
  longest rest h := by
    obtain ⟨c, cs, rfl, hc, hcs⟩ := h
    rw [List.cons_append, nameWidth, if_pos hc]
    exact Nat.succ_le_succ (le_takeWhile hcs)

theorem isSpace_iff : isSpace c ↔ c ∈ [' ', '\t', '\x0c', '\r', '\n'] := by
  simp [isSpace, or_assoc]

theorem measures_spaces : Measures spaceWidth IsSpaces where
  ne_nil h := h.1
  le_length := takeWhile_le _
  take {cs n} h := by
    rw [← h, spaceWidth, take_takeWhile_length]
    refine ⟨fun hnil => ?_, fun c hc => isSpace_iff.1 (List.mem_takeWhile_imp hc)⟩
    simp [spaceWidth, hnil] at h
  longest rest h := le_takeWhile fun c hc => isSpace_iff.2 (h.2 c hc)

/-- Comments are cut as far as they are described. -/
theorem measures_comment : Measures commentWidth IsComment where
  ne_nil h := by
    obtain ⟨rest, rfl, -⟩ := h
    exact List.cons_ne_nil _ _
  le_length cs := by
    unfold commentWidth
    split
    · exact Nat.add_le_add_right (takeWhile_le _ _) 2
    · exact Nat.zero_le _
  take {cs n} h := by
    unfold commentWidth at h
    split at h
    · rename_i cs
      rw [← h]
      refine ⟨cs.takeWhile (· ≠ '\n'), ?_, fun hn => ?_⟩
      · rw [List.take_succ_cons, List.take_succ_cons, take_takeWhile_length]
      · simpa using List.mem_takeWhile_imp hn
    · contradiction
  longest rest h := by
    obtain ⟨cs, rfl, hcs⟩ := h
    refine Nat.add_le_add_right (le_takeWhile fun c hc => ?_) 2
    exact decide_eq_true fun hn => hcs (hn ▸ hc)

/-! ### Words and signs -/

/-- The first spelling that fits is the longest, if none comes before another that goes on from
it. -/
theorem measures_spellings {spellings : List String} (hne : "" ∉ spellings)
    (horder : spellings.Pairwise fun s t => ¬ s.toList <+: t.toList) :
    Measures (spellingWidth spellings) fun cs => String.ofList cs ∈ spellings where
  ne_nil {cs} h := by
    rintro rfl
    exact hne h
  le_length cs := by
    unfold spellingWidth
    split
    · rename_i s hs
      have hfits := List.find?_some hs
      exact (List.isPrefixOf_iff_prefix.1 hfits).length_le
    · exact Nat.zero_le _
  take := mem_spellings
  longest {cs} rest h := by
    unfold spellingWidth
    have hcs : (String.ofList cs).toList.isPrefixOf (cs ++ rest) = true :=
      List.isPrefixOf_iff_prefix.2 (by simp)
    split
    · rename_i s hs
      obtain ⟨hfits, before, after, he, hbefore⟩ := List.find?_eq_some_iff_append.1 hs
      subst he
      obtain h | h := List.mem_append.1 h
      · have hmisses := hbefore _ h
        rw [hcs] at hmisses
        contradiction
      obtain h | h := List.mem_cons.1 h
      · rw [← h, String.length_ofList]
      have hnot := (List.pairwise_cons.1 (List.pairwise_append.1 horder).2.1).1 _ h
      rw [String.toList_ofList] at hnot
      have hstart := List.prefix_or_prefix_of_prefix (List.isPrefixOf_iff_prefix.1 hfits)
        (List.prefix_append cs rest)
      exact (hstart.resolve_left hnot).length_le
    · rename_i hnone
      exact absurd hcs (List.find?_eq_none.1 hnone _ h)

/-- A list of spellings is described by its kind if no spelling is the start of a later one. -/
theorem describes_spelled (kind : TokenKind) {spellings : List String}
    (hspells : ∀ cs, kind.Spells cs ↔ String.ofList cs ∈ spellings) (hne : "" ∉ spellings)
    (horder : spellings.Pairwise fun s t => ¬ s.toList <+: t.toList) :
    Describes (.token kind) (spelled kind spellings) := by
  have hmatches : kind.Spells = fun cs => String.ofList cs ∈ spellings :=
    funext fun cs => propext (hspells cs)
  have hmeasures := measures_spellings hne horder
  rw [← hmatches] at hmeasures
  exact ⟨rfl, hmeasures⟩

/-- All terminals are described, in their order. -/
theorem describes_terminals : List.Forall₂ Describes descriptions terminals := by
  refine .cons ⟨rfl, measures_string⟩ (.cons ⟨rfl, measures_number⟩ (.cons ⟨rfl, measures_name⟩
    (.cons ⟨rfl, measures_spaces⟩ (.cons ⟨rfl, measures_comment⟩ ?_))))
  repeat' refine .cons (describes_spelled _ (fun _ => Iff.rfl) (by decide) (by decide)) ?_
  exact .nil

end Lexer

end Terse
