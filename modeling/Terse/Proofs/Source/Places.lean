import Mathlib.Data.List.DropRight
import Terse.Proofs.Source.Spelling

/-! Where the tokens of a text stand in it. -/
namespace Terse

namespace Loc

/-- The characters after the last line feed. -/
def lastLine (cs : List Char) : List Char := cs.rtakeWhile (· ≠ '\n')

/-- The place after some characters, by the lines that they make up. -/
def after (cs : List Char) : Loc := ⟨cs.count '\n' + 1, (lastLine cs).length + 1⟩

/-- Going over a text from its start leads to the place after it. -/
theorem advance_start (cs : List Char) : start.advance cs = after cs := by
  induction cs using List.reverseRecOn with
  | nil => rfl
  | append_singleton cs c ih =>
    rw [advance] at ih
    rw [advance, List.foldl_append, ih, List.foldl_cons, List.foldl_nil, next]
    by_cases hc : c = '\n'
    · simp [hc, after, lastLine]
    · simp [hc, after, lastLine]

end Loc

namespace Lexer

/-- Nothing of a text is lost when it is cut. -/
theorem cut_append (cs : List Char) : (cut cs).1.flatMap (·.chars) ++ (cut cs).2 = cs := by
  fun_induction cut cs with
  | case1 => rfl
  | case2 c rest use n hmatch lexemes stuck hcut ih =>
    rw [hcut] at ih
    rw [List.flatMap_cons, List.append_assoc, ih, List.take_succ_cons, List.cons_append,
      List.take_append_drop]
  | case3 => rfl

/-- A token among others is a lexeme among others, and has its place. -/
theorem exists_lexeme {ls : List Lexeme} {place : Loc} {read rest : List Token} {t : Token}
    (h : tokensFrom place ls = read ++ t :: rest) :
    ∃ front l back kind, ls = front ++ l :: back ∧ l.use = .token kind ∧
      tokensFrom place front = read ∧
      t = ⟨if kind = .name then .ofWord (String.ofList l.chars) else kind, String.ofList l.chars,
        some (place.advance (front.flatMap (·.chars)))⟩ := by
  induction ls generalizing place read with
  | nil => simp [tokensFrom] at h
  | cons l ls ih =>
    rw [tokensFrom] at h
    dsimp only at h
    have hadvance (front : List Lexeme) : (place.advance l.chars).advance
        (front.flatMap (·.chars)) = place.advance ((l :: front).flatMap (·.chars)) := by
      simp [Loc.advance, List.flatMap_cons, List.foldl_append]
    split at h
    · rename_i huse
      obtain ⟨front, l', back, kind, rfl, hkind, hread, ht⟩ := ih h
      refine ⟨l :: front, l', back, kind, rfl, hkind, ?_, hadvance front ▸ ht⟩
      rw [tokensFrom, huse]
      exact hread
    · rename_i kind huse
      cases read with
      | nil =>
        obtain ⟨rfl, -⟩ := List.cons.inj h
        exact ⟨[], l, ls, kind, rfl, huse, rfl, rfl⟩
      | cons u read =>
        obtain ⟨rfl, hrest⟩ := List.cons.inj h
        obtain ⟨front, l', back, kind', rfl, hkind, hread, ht⟩ := ih hrest
        refine ⟨l :: front, l', back, kind', rfl, hkind, ?_, hadvance front ▸ ht⟩
        rw [tokensFrom, huse]
        simp only [hread]

/-- No lexeme is taken for the end of the text. -/
theorem kind_ne_endOfText {ls : List Lexeme} (hls : ∀ l ∈ ls, l.Cut) (place : Loc) :
    ∀ t ∈ tokensFrom place ls, t.kind ≠ .endOfText := by
  have hterminals : ∀ t ∈ terminals, t.use ≠ .token .endOfText := by
    simp [terminals, spelled]
  have hwords : ∀ w, TokenKind.ofWord w ≠ .endOfText := by
    intro w hw
    have hall : ∀ p ∈ TokenKind.keywords, p.2 ≠ .endOfText := by decide
    unfold TokenKind.ofWord at hw
    cases hk : TokenKind.keywords.lookup w with
    | none => simp [hk] at hw
    | some k =>
      obtain ⟨front, back, he, -⟩ := List.lookup_eq_some_iff.1 hk
      rw [hk] at hw
      exact hall (w, k) (he ▸ by simp) hw
  intro t ht
  obtain ⟨l, hl, kind, loc, huse, rfl⟩ := exists_of_mem_tokensFrom ht
  dsimp only
  split
  · exact hwords _
  · obtain ⟨terminal, hmem, _, _, hterminal, -, -⟩ := hls l hl
    rintro rfl
    exact hterminals terminal hmem (hterminal.trans huse)

end Lexer

variable {source : List Char} {lexemes : List Lexer.Lexeme}

/-- A text that is cut to its end. -/
theorem lex_of_cut (h : Lexer.cut source = (lexemes, [])) :
    lex source =
      ⟨Lexer.tokensFrom .start lexemes ++ [⟨.endOfText, "", some (.after source)⟩], none⟩ := by
  have happend := Lexer.cut_append source
  rw [h, List.append_nil] at happend
  simp only [lex, h, happend, Loc.advance_start]

end Terse
