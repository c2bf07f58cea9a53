import Terse.Proofs.Source.Names
import Terse.Proofs.Source.Places

/-! The lines of a text, and what is found on them at the places of its tokens. -/
namespace Terse

namespace Loc

/-- There is one line more than there are line ends. -/
theorem length_splitOn (cs : List Char) : (cs.splitOn '\n').length = cs.count '\n' + 1 := by
  induction cs with
  | nil => rfl
  | cons c cs ih =>
    rw [List.splitOn_cons_eq_if_modifyHead, List.count_cons]
    split
    · rw [List.length_cons, ih]
    · rw [List.length_modifyHead, ih, Nat.add_zero]

theorem head?_splitOn (cs : List Char) :
    (cs.splitOn '\n').head? = some (cs.takeWhile (· ≠ '\n')) := by
  induction cs with
  | nil => rfl
  | cons c cs ih =>
    rw [List.splitOn_cons_eq_if_modifyHead]
    by_cases hc : c = '\n'
    · simp [hc]
    · simp [hc, ih]

/-- The line on which the first part of a text ends goes on to the next line feed. -/
theorem line_after (front back : List Char) :
    ((front ++ back).splitOn '\n')[(after front).line - 1]? =
      some (lastLine front ++ back.takeWhile (· ≠ '\n')) := by
  rw [after, Nat.add_sub_cancel]
  induction front using List.reverseRecOn generalizing back with
  | nil => simpa [lastLine, List.head?_eq_getElem?] using head?_splitOn back
  | append_singleton front c ih =>
    rw [List.append_assoc, List.singleton_append]
    by_cases hc : c = '\n'
    · have hlength := length_splitOn front
      rw [hc, List.splitOn_append_cons_self, List.getElem?_append_right (by simp [hlength])]
      simpa [hlength, lastLine, List.head?_eq_getElem?] using head?_splitOn back
    · have hline := ih (c :: back)
      simpa [hc, lastLine] using hline

theorem after_append (front cs : List Char) : (after front).advance cs = after (front ++ cs) := by
  rw [← advance_start, ← advance_start, advance, advance, advance, List.foldl_append]

end Loc

/-- The text starts with the word, and no more of its characters belong to the word. -/
def StartsWithWord (word text : List Char) : Prop :=
  ∃ rest, text = word ++ rest ∧ ∀ c ∈ rest.head?, ¬ Lexer.isWordChar c

/-- A name does not go on after a line. -/
theorem StartsWithWord.takeWhile {word text : List Char} (h : StartsWithWord word text)
    (hname : IsName word) : StartsWithWord word (text.takeWhile (· ≠ '\n')) := by
  obtain ⟨rest, rfl, hrest⟩ := h
  have hline : ∀ d ∈ word, decide (d ≠ '\n') = true := by
    intro d hd
    refine decide_eq_true ?_
    rintro rfl
    exact absurd (hname.isWordChar _ hd) (by decide)
  refine ⟨rest.takeWhile (· ≠ '\n'), List.takeWhile_append_of_pos hline, fun d hd => ?_⟩
  rw [List.head?_takeWhile, Option.mem_def, Option.filter_eq_some_iff] at hd
  exact hrest d hd.1

/-- The place divides the text, and `back` is what follows it. -/
def Loc.Divides (loc : Loc) (source back : List Char) : Prop :=
  ∃ front, source = front ++ back ∧ loc = .after front

/-- The token has a place in the text; if it is a name, it stands there as a whole. -/
def Token.StandsIn (t : Token) (source : List Char) : Prop :=
  ∃ loc back, t.loc = some loc ∧ loc.Divides source back ∧
    (t.kind = .name → StartsWithWord t.text.toList back)

namespace Lexer

theorem startsWithWord_take {cs : List Char} {n : Nat} (h : nameWidth cs = n + 1) :
    StartsWithWord (cs.take (n + 1)) cs := by
  obtain ⟨c, rest, rfl, -, htake⟩ := exists_of_nameWidth h
  rw [htake]
  refine ⟨rest.dropWhile isWordChar, by simp, fun d hd => ?_⟩
  have hstop := List.head?_dropWhile_not isWordChar rest
  rw [Option.mem_def.1 hd] at hstop
  simpa using hstop

/-- Every token of a text stands where its place says. -/
theorem standsIn_tokensFrom (cs front : List Char) :
    ∀ t ∈ tokensFrom (.after front) (cut cs).1, t.StandsIn (front ++ cs) := by
  fun_induction cut cs generalizing front with
  | case1 => simp [tokensFrom]
  | case2 c rest use n hmatch lexemes stuck hcut ih =>
    have hrest := ih (front ++ (c :: rest).take (n + 1))
    rw [hcut, ← Loc.after_append] at hrest
    have hsource : (front ++ (c :: rest).take (n + 1)) ++ rest.drop n = front ++ c :: rest := by
      simp
    rw [hsource] at hrest
    cases use with
    | skipped => exact hrest
    | token kind =>
      refine List.forall_mem_cons.2 ⟨?_, hrest⟩
      refine ⟨_, c :: rest, rfl, ⟨front, rfl, rfl⟩, fun hkind => ?_⟩
      have hname : kind = .name := by
        by_contra hne
        simp [hne] at hkind
      obtain ⟨t, ht, huse, hwidth⟩ := match?_cases hmatch
      rw [width_of_name ht (hname ▸ huse)] at hwidth
      rw [String.toList_ofList]
      exact startsWithWord_take hwidth
  | case3 => simp [tokensFrom]

end Lexer

/-- The text before the place where cutting stopped. -/
theorem divides_stop (source : List Char) :
    (Loc.start.advance ((Lexer.cut source).1.flatMap (·.chars))).Divides source
      (Lexer.cut source).2 :=
  ⟨_, (Lexer.cut_append source).symm, Loc.advance_start _⟩

/-- Every token stands in the source where its place says, the end of the text included. -/
theorem standsIn_lex (source : List Char) : ∀ t ∈ (lex source).tokens, t.StandsIn source := by
  have htokens := Lexer.standsIn_tokensFrom source []
  have hstop := divides_stop source
  unfold lex
  generalize Lexer.cut source = cut at htokens hstop
  obtain ⟨lexemes, rest⟩ := cut
  dsimp only at htokens ⊢
  split
  · refine List.forall_mem_append.2 ⟨htokens, List.forall_mem_singleton.2 ?_⟩
    refine ⟨_, [], rfl, hstop, ?_⟩
    intro hkind
    contradiction
  · exact htokens

/-- The character that no token starts with stands where its place says. -/
theorem divides_of_stuck {source : List Char} {c : Char} {place : Loc}
    (h : (lex source).stuck = some (c, place)) : ∃ back, place.Divides source back := by
  have hstop := divides_stop source
  unfold lex at h
  dsimp only at h
  split at h
  · contradiction
  · obtain ⟨rfl, rfl⟩ := Prod.mk.inj (Option.some.inj h)
    exact ⟨_, hstop⟩

end Terse
