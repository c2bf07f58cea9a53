import Terse.Proofs.Source.Spelling

/-! What names look like in a source text. -/
namespace Terse

/-- A letter, then letters, digits and underscores. -/
def IsName (cs : List Char) : Prop :=
  ∃ c rest, cs = c :: rest ∧ Lexer.isLetter c ∧ ∀ d ∈ rest, Lexer.isWordChar d

theorem IsName.isWordChar {cs : List Char} (h : IsName cs) : ∀ d ∈ cs, Lexer.isWordChar d := by
  obtain ⟨c, rest, rfl, hc, hrest⟩ := h
  refine List.forall_mem_cons.2 ⟨?_, hrest⟩
  simp [Lexer.isWordChar, hc]

/-- A token that is a name has the text of one. -/
def Token.Named (t : Token) : Prop := t.kind = .name → IsName t.text.toList

namespace Lexer

variable {cs : List Char} {n : Nat}

/-- A name is a letter and all word characters that follow it. -/
theorem exists_of_nameWidth (h : nameWidth cs = n + 1) :
    ∃ c rest, cs = c :: rest ∧ isLetter c ∧ cs.take (n + 1) = c :: rest.takeWhile isWordChar := by
  cases cs with
  | nil => contradiction
  | cons c cs =>
    rw [nameWidth] at h
    split at h
    · rename_i hc
      obtain rfl := Nat.succ.inj h
      refine ⟨c, cs, rfl, hc, ?_⟩
      rw [List.take_succ_cons, take_takeWhile_length]
    · contradiction

theorem isName_take (h : nameWidth cs = n + 1) : IsName (cs.take (n + 1)) := by
  obtain ⟨c, rest, -, hc, htake⟩ := exists_of_nameWidth h
  exact ⟨c, _, htake, hc, fun d hd => List.mem_takeWhile_imp hd⟩

theorem width_of_name {t : Terminal} (ht : t ∈ terminals) (huse : t.use = .token .name) :
    t.width = nameWidth := by
  have hall : ∀ t ∈ terminals, t.use = .token .name → t.width = nameWidth := by
    simp [terminals, spelled]
  exact hall t ht huse

theorem isName_of_cut {l : Lexeme} (h : l.Cut) (huse : l.use = .token .name) : IsName l.chars := by
  obtain ⟨t, ht, cs, n, hu, hw, hchars⟩ := h
  rw [width_of_name ht (hu.trans huse)] at hw
  rw [hchars]
  exact isName_take hw

theorem named_tokensFrom (place : Loc) {ls : List Lexeme} (hls : ∀ l ∈ ls, l.Cut) :
    ∀ t ∈ tokensFrom place ls, t.Named := by
  intro t ht hkind
  obtain ⟨l, hl, kind, loc, huse, rfl⟩ := exists_of_mem_tokensFrom ht
  dsimp only at hkind ⊢
  rw [String.toList_ofList]
  by_cases hk : kind = .name
  · exact isName_of_cut (hls l hl) (hk ▸ huse)
  · rw [if_neg hk] at hkind
    contradiction

end Lexer

/-- All names among the tokens of a text are names of the language. -/
theorem named_lex (source : List Char) : ∀ t ∈ (lex source).tokens, t.Named := by
  refine forall_mem_lex (Lexer.named_tokensFrom .start (Lexer.cut_lexemes source)) ?_
  intro loc hkind
  contradiction

end Terse
