import Terse.Operator
import Terse.Proofs.Source.Literal

/-! How the tokens of a text are spelled. -/
namespace Terse

/-- The text of a token is one that its kind can have, as far as the kind does not say it all. -/
def Token.Spelled (t : Token) : Prop :=
  match t.kind with
  | .number => Numeral.IsNumeral t.text.toList
  | .string => Literal.IsLiteral t.text.toList
  | .relop => t.text ∈ ["<=", ">=", "==", "~=", "<", ">"]
  | .mathAssign => t.text ∈ ["+=", "-=", "*=", "/="]
  | .incDec => t.text ∈ ["++", "--"]
  | .arith => t.text ∈ ["+", "-", "*", "/", "%"]
  | .unary => t.text ∈ ["_", "~", "#"]
  | .factorial => t.text = "F"
  | _ => True

namespace Lexer

variable {cs : List Char} {n : Nat} {loc : Option Loc}

/-- What is cut by a list of spellings is one of them. -/
theorem mem_spellings {spellings : List String} (h : spellingWidth spellings cs = n + 1) :
    String.ofList (cs.take (n + 1)) ∈ spellings := by
  unfold spellingWidth at h
  split at h
  · rename_i s hs
    have hfound := List.find?_some hs
    have hpre := List.isPrefixOf_iff_prefix.1 hfound
    have htake : cs.take (n + 1) = s.toList := by
      rw [← h]
      exact (List.prefix_iff_eq_take.1 hpre).symm
    rw [htake, String.ofList_toList]
    exact List.mem_of_find?_eq_some hs
  · contradiction

/-- What a terminal matches. -/
theorem match?_cases {use : Use} (h : match? cs = some (use, n + 1)) :
    ∃ t ∈ terminals, t.use = use ∧ t.width cs = n + 1 := by
  obtain ⟨t, ht, h⟩ := List.exists_of_findSome?_eq_some h
  split at h
  · contradiction
  · rename_i m hm
    simp only [Option.some.injEq, Prod.mk.injEq] at h
    exact ⟨t, ht, h.1, hm.trans h.2⟩

/-- What a terminal cuts is spelled as its kind says. -/
theorem spelled_of_width {t : Terminal} {kind : TokenKind} (ht : t ∈ terminals)
    (huse : t.use = .token kind) (hw : t.width cs = n + 1) :
    Token.Spelled ⟨kind, String.ofList (cs.take (n + 1)), loc⟩ := by
  simp only [terminals, List.mem_cons, List.not_mem_nil, or_false] at ht
  obtain rfl | rfl | rfl | rfl | rfl | rfl | rfl | rfl | rfl | rfl | rfl | rfl | rfl | rfl | rfl |
    rfl | rfl | rfl | rfl | rfl | rfl | rfl | rfl | rfl | rfl | rfl | rfl | rfl | rfl := ht
  · obtain rfl := Use.token.inj huse
    simpa [Token.Spelled] using isLiteral_take hw
  · obtain rfl := Use.token.inj huse
    simpa [Token.Spelled] using isNumeral_take hw
  · obtain rfl := Use.token.inj huse
    trivial
  · contradiction
  · contradiction
  all_goals obtain rfl := Use.token.inj huse
  · exact mem_spellings hw
  · exact mem_spellings hw
  · exact mem_spellings hw
  · trivial
  · trivial
  · trivial
  · exact mem_spellings hw
  · exact mem_spellings hw
  all_goals trivial

theorem spelled_of_word (w : String) : Token.Spelled ⟨.ofWord w, w, loc⟩ := by
  have hall : ∀ p ∈ TokenKind.keywords, Token.Spelled ⟨p.2, p.1, loc⟩ := by
    simp [TokenKind.keywords, Token.Spelled]
  unfold TokenKind.ofWord
  cases hk : TokenKind.keywords.lookup w with
  | none => trivial
  | some k =>
    obtain ⟨front, back, he, -⟩ := List.lookup_eq_some_iff.1 hk
    exact hall (w, k) (he ▸ by simp)

/-- A lexeme that some terminal cut out. -/
def Lexeme.Cut (l : Lexeme) : Prop :=
  ∃ t ∈ terminals, ∃ cs n, t.use = l.use ∧ t.width cs = n + 1 ∧ l.chars = cs.take (n + 1)

/-- Every lexeme is one that a terminal cuts. -/
theorem cut_lexemes (cs : List Char) : ∀ l ∈ (cut cs).1, l.Cut := by
  fun_induction cut cs with
  | case1 => simp
  | case2 c rest use n hmatch lexemes stuck hcut ih =>
    rw [hcut] at ih
    obtain ⟨t, ht, huse, hw⟩ := match?_cases hmatch
    exact List.forall_mem_cons.2 ⟨⟨t, ht, _, n, huse, hw, rfl⟩, ih⟩
  | case3 => simp

/-- A token is made of one lexeme. -/
theorem exists_of_mem_tokensFrom {ls : List Lexeme} {place : Loc} {t : Token}
    (h : t ∈ tokensFrom place ls) : ∃ l ∈ ls, ∃ kind loc, l.use = .token kind ∧
      t = ⟨if kind = .name then .ofWord (String.ofList l.chars) else kind, String.ofList l.chars,
        loc⟩ := by
  induction ls generalizing place with
  | nil => simp [tokensFrom] at h
  | cons l ls ih =>
    rw [tokensFrom] at h
    dsimp only at h
    split at h
    · obtain ⟨l', hl, hmade⟩ := ih h
      exact ⟨l', List.mem_cons_of_mem _ hl, hmade⟩
    · rename_i kind huse
      rcases List.mem_cons.1 h with rfl | h
      · exact ⟨l, List.mem_cons_self, kind, _, huse, rfl⟩
      · obtain ⟨l', hl, hmade⟩ := ih h
        exact ⟨l', List.mem_cons_of_mem _ hl, hmade⟩

theorem spelled_tokensFrom (place : Loc) {ls : List Lexeme} (hls : ∀ l ∈ ls, l.Cut) :
    ∀ t ∈ tokensFrom place ls, t.Spelled := by
  intro t ht
  obtain ⟨l, hl, kind, loc, huse, rfl⟩ := exists_of_mem_tokensFrom ht
  obtain ⟨terminal, hmem, cs, n, hu, hw, hchars⟩ := hls l hl
  split
  · exact spelled_of_word _
  · rw [hchars]
    exact spelled_of_width hmem (hu.trans huse) hw

end Lexer

/-- What holds of all tokens, be they of lexemes or the one at the end. -/
theorem forall_mem_lex {P : Token → Prop} {source : List Char}
    (h : ∀ t ∈ Lexer.tokensFrom .start (Lexer.cut source).1, P t)
    (hend : ∀ loc, P ⟨.endOfText, "", loc⟩) : ∀ t ∈ (lex source).tokens, P t := by
  unfold lex
  generalize Lexer.cut source = cut at h
  obtain ⟨lexemes, rest⟩ := cut
  dsimp only at h ⊢
  split
  · exact List.forall_mem_append.2 ⟨h, List.forall_mem_singleton.2 (hend _)⟩
  · exact h

/-- All tokens of a text are spelled as their kinds say. -/
theorem spelled_lex (source : List Char) : ∀ t ∈ (lex source).tokens, t.Spelled :=
  forall_mem_lex (Lexer.spelled_tokensFrom .start (Lexer.cut_lexemes source)) fun _ => trivial

end Terse
