import Terse.Proofs.Grammar.Forms
import Terse.Proofs.Grammar.Parsed
import Terse.Proofs.Source.Places

/-! What the reading of a text comes to: a tree that the rules make of its tokens, or an error at
the first place where no program goes on. -/
namespace Terse

namespace Phrase

/-- A text that starts with the phrase. -/
def sample : Phrase → String
  | call => "g()"
  | primary | postfixed | prefixed | factor | sum | comparison | conjunction | disjunction | exp =>
    "x"
  | arguments | names => "x)"
  | elements => "x]"
  | dictItem => "x:1"
  | entries => "x:1\x7d"
  | params => "()"
  | block | alternative => ":;"
  | ifStmt => "?x:;"
  | statement => "br"
  | body => ";"
  | rest | program => ""

end Phrase

/-- The productions are in an order in which a chart can be filled. -/
theorem ordered_language : language.Ordered where
  toIndexed := indexed_language
  leads {p r q} hq hr := by
    have hall : ∀ q ∈ (language.define p).base, ∀ r, q.items.head? = some (.part r) →
        language.index r < language.index p := by
      cases p <;> simp [language, Phrase.define, Phrase.ctorIdx]
    exact hall q hq r hr
  base_ne {p q} hq := by
    have hall : ∀ q ∈ (language.define p).base, q.items ≠ [] := by cases p <;> decide
    exact hall q hq
  steps_ne {p q} hq := by
    have hall : ∀ q ∈ (language.define p).steps, q.items ≠ [] := by cases p <;> decide
    exact hall q hq
  productive p := by
    have hsample : (language.readings p (lex p.sample.toList).tokens).readings.isEmpty = false := by
      cases p <;> decide +kernel
    obtain ⟨r, hr⟩ := List.exists_mem_of_ne_nil _ (List.isEmpty_eq_false_iff.1 hsample)
    obtain ⟨read, -, -, -, h⟩ := Grammar.reads_readings indexed_language hr
    exact ⟨read, _, h⟩

/-- The rules derive a program from these tokens. -/
def IsProgram (ts : List Token) : Prop := ∃ d : Derivation .start, d.yield = ts

/-- Some program starts with these tokens. -/
def StartsProgram (ts : List Token) : Prop := ∃ more, IsProgram (ts ++ more)

theorem isProgram_nil : IsProgram [] := ⟨.of (List.mem_singleton.2 rfl) .done, rfl⟩

variable {ts read rest : List Token} {e : Token}

/-- The end of a text stands after all other tokens. -/
theorem eq_of_append_end {end' : Token} (hts : ∀ t ∈ ts, t.kind ≠ .endOfText)
    (he : e.kind = .endOfText) (h : read ++ e :: rest = ts ++ [end']) : read = ts ∧ rest = [] := by
  rcases List.append_eq_append_iff.1 h with ⟨xs, rfl, hend⟩ | ⟨xs, rfl, hend⟩
  · cases xs with
    | nil => exact ⟨(List.append_nil read).symm, (List.cons.inj hend).2⟩
    | cons x xs =>
      obtain ⟨rfl, -⟩ := List.cons.inj hend
      exact absurd he (hts e (by simp))
  · cases xs with
    | nil =>
      obtain ⟨-, rfl⟩ := List.cons.inj hend
      exact ⟨List.append_nil ts, rfl⟩
    | cons x xs => simp at hend

/-- What starts a text that can be read as a program starts a program. -/
theorem startsProgram_iff (hread : ∀ t ∈ read, t.kind ≠ .endOfText) :
    StartsProgram read ↔ ∃ more, language.Derivable .program (read ++ more) := by
  constructor
  · rintro ⟨more, d, hd⟩
    let e : Token := ⟨.endOfText, "", none⟩
    refine ⟨more ++ [e], derivable_program_iff.2 ⟨d, e, rfl, ?_⟩⟩
    rw [hd, List.append_assoc]
  · rintro ⟨more, h⟩
    obtain ⟨d, e, he, h⟩ := derivable_program_iff.1 h
    rcases List.append_eq_append_iff.1 h with ⟨xs, hd, -⟩ | ⟨xs, rfl, hend⟩
    · exact ⟨xs, d, hd⟩
    · cases xs with
      | nil => exact ⟨[], d, by simp⟩
      | cons x xs =>
        obtain ⟨rfl, -⟩ := List.cons.inj hend
        exact absurd he (hread e (by simp))

section

variable (hts : ∀ t ∈ ts, t.kind ≠ .endOfText) (he : e.kind = .endOfText)

include hts

/-- The chart reaches as far as some program goes on. -/
theorem reach_le_iff {j : Nat} (hj : j ≤ ts.length) :
    (language.readings .program (ts ++ [e])).reach ≤ ts.length + 1 - j ↔
      StartsProgram (ts.take j) := by
  have hstart := startsProgram_iff fun t (ht : t ∈ ts.take j) => hts t (List.mem_of_mem_take ht)
  rw [(Grammar.exact_readings ordered_language .program _).reach, hstart]
  constructor
  · rintro (hn | ⟨read, rest, more, he, hn, h⟩)
    · obtain rfl : j = 0 := by
        rw [List.length_append, List.length_singleton] at hn
        omega
      obtain ⟨us, hus⟩ := ordered_language.productive .program
      exact ⟨us, hus⟩
    · have hlength := congrArg List.length he
      simp only [List.length_append, List.length_singleton] at hlength
      have htake : ts.take j = read.take j := by
        have := congrArg (List.take j) he
        rwa [List.take_append_of_le_length hj, List.take_append_of_le_length (by omega)] at this
      refine ⟨read.drop j ++ more, ?_⟩
      rwa [htake, ← List.append_assoc, List.take_append_drop]
  · rintro ⟨more, h⟩
    refine .inr ⟨ts.take j, ts.drop j ++ [e], more, by simp [← List.append_assoc], ?_, h⟩
    rw [List.length_append, List.length_drop, List.length_singleton]
    omega

/-- If the tokens start no program, the first of them that are read do, and no more. -/
theorem startsProgram_take_iff (hnot : ¬ StartsProgram ts) (j : Nat) :
    StartsProgram (ts.take j) ↔
      j ≤ ts.length + 1 - (language.readings .program (ts ++ [e])).reach := by
  have hmost := (reach_le_iff (e := e) hts (Nat.zero_le _)).2 ⟨[], isProgram_nil⟩
  by_cases hj : j ≤ ts.length
  · rw [← reach_le_iff (e := e) hts hj]
    omega
  · have hone := reach_le_iff (e := e) hts (Nat.le_refl ts.length)
    rw [List.take_length] at hone
    rw [List.take_of_length_le (by omega)]
    constructor
    · exact fun h => absurd h hnot
    · intro hle
      exact hone.1 (by omega)

include he

/-- The chart reaches the end of the text exactly if the tokens before it are a program. -/
theorem reach_eq_zero_iff :
    (language.readings .program (ts ++ [e])).reach = 0 ↔ IsProgram ts := by
  rw [← Nat.le_zero, (Grammar.exact_readings ordered_language .program _).reach]
  constructor
  · rintro (hn | ⟨read, rest, more, heq, hn, h⟩)
    · simp at hn
    · obtain rfl := List.length_eq_zero_iff.1 (Nat.le_zero.1 hn)
      rw [List.append_nil] at heq
      obtain ⟨d, e', he', h⟩ := derivable_program_iff.1 h
      rw [← heq, List.append_assoc] at h
      obtain ⟨hd, -⟩ := eq_of_append_end d.kind_ne_endOfText he h
      exact ⟨d, hd.symm⟩
  · rintro ⟨d, rfl⟩
    refine .inr ⟨d.yield ++ [e], [], [], by simp, Nat.le_refl 0, ?_⟩
    rw [List.append_nil]
    exact derivable_program_iff.2 ⟨d, e, he, rfl⟩

end

variable {source : String} {lexemes : List Lexer.Lexeme}

/-- Every tree that is returned is what the rules make of a derivation, and the tokens of the
derivation are those of the whole text, blanks and comments left out. -/
theorem tree_of_parse {tree : Tree} (h : parse source = .ok tree) :
    ∃ lexemes, Lexer.cut source.toList = (lexemes, []) ∧
      lexemes.flatMap (·.chars) = source.toList ∧
      ∃ d : Derivation .start, d.yield = Lexer.tokensFrom .start lexemes ∧ d.tree = tree := by
  obtain ⟨read, rest, htokens, hd⟩ := derives_of_parse h
  obtain ⟨d, e, he, rfl, htree⟩ := Phrase.exists_derivation hd
  have hkinds := Lexer.kind_ne_endOfText (Lexer.cut_lexemes source.toList) .start
  have hcut := Lexer.cut_append source.toList
  generalize hl : Lexer.cut source.toList = cut at hkinds hcut
  obtain ⟨lexemes, stuck⟩ := cut
  cases stuck with
  | nil =>
    rw [lex_of_cut hl, List.append_assoc] at htokens
    obtain ⟨hyield, -⟩ := eq_of_append_end hkinds he htokens.symm
    exact ⟨lexemes, rfl, by simpa using hcut, d, hyield, (List.singleton_inj.1 htree).symm⟩
  | cons c stuck =>
    -- a text that is not cut to its end has no end for a program
    have hstuck : (lex source.toList).tokens = Lexer.tokensFrom .start lexemes := by
      simp only [lex, hl]
    exact absurd he (hkinds e (by simp [← hstuck, htokens]))

/-- A comment, a blank line and a call that could also go on after it. -/
theorem tree_of_parse_commented :
    ∃ tree lexemes, parse "f g(a) => r _a; // negated\n\nx = g(1) (x)++" = .ok tree ∧
      Lexer.cut "f g(a) => r _a; // negated\n\nx = g(1) (x)++".toList = (lexemes, []) ∧
      (Lexer.tokensFrom .start lexemes).length = 20 ∧
      ∃ d : Derivation .start, d.yield = Lexer.tokensFrom .start lexemes ∧ d.tree = tree := by
  have hok : (parse "f g(a) => r _a; // negated\n\nx = g(1) (x)++").isOk := by decide +kernel
  have hlength : (Lexer.tokensFrom .start
      (Lexer.cut "f g(a) => r _a; // negated\n\nx = g(1) (x)++".toList).1).length = 20 := by
    decide +kernel
  cases h : parse "f g(a) => r _a; // negated\n\nx = g(1) (x)++" with
  | error e =>
    rw [h] at hok
    contradiction
  | ok tree =>
    obtain ⟨lexemes, hcut, -, hd⟩ := tree_of_parse h
    rw [hcut] at hlength
    exact ⟨tree, lexemes, rfl, hcut, hlength, hd⟩

/-- A text that is read to its end has a tree. -/
theorem parse_of_reach_zero (hlex : lex source.toList = ⟨ts ++ [e], none⟩)
    (hreach : (language.readings .program (ts ++ [e])).reach = 0)
    (hend : 0 ∈ (language.readings .program (ts ++ [e])).ends) :
    ∃ tree, parse source = .ok tree := by
  obtain ⟨r, hr, -⟩ := List.mem_map.1 hend
  have hsound : ∀ r ∈ (language.readings .program (ts ++ [e])).readings,
      r.Reads (Derives language .program) (ts ++ [e]) := fun _ hr =>
    Grammar.reads_readings indexed_language hr
  unfold parse
  simp only [hlex, hreach]
  generalize (language.readings .program (ts ++ [e])).readings = rs at hr hsound
  cases rs with
  | nil => exact absurd hr List.not_mem_nil
  | cons r' rs =>
    obtain ⟨read, rest, -, -, h⟩ := hsound r' List.mem_cons_self
    obtain ⟨d, _, -, -, htrees⟩ := Phrase.exists_derivation h
    obtain ⟨left, trees⟩ := r'
    obtain rfl : trees = [d.tree] := htrees
    exact ⟨d.tree, by simp⟩

theorem parse_of_unread {t : Token} (hlex : lex source.toList = ⟨ts ++ [e], none⟩)
    (h : (ts ++ [e]).drop (ts.length + 1 - (language.readings .program (ts ++ [e])).reach) =
      t :: rest) :
    parse source = .error ⟨if t.kind = .endOfText then .endOfInput else .unexpected t, t.loc⟩ := by
  unfold parse
  simp only [hlex, List.length_append, List.length_singleton, h, List.head?_cons]

/-- A text that is cut into tokens to its end gives a tree if its tokens are a program. If they are
none but start one, the error is at the end of the text. Otherwise it is at the first token with
which no program goes on. -/
theorem parse_outcome (hcut : Lexer.cut source.toList = (lexemes, []))
    (htokens : Lexer.tokensFrom .start lexemes = ts) :
    (IsProgram ts → ∃ tree, parse source = .ok tree) ∧
    (¬ IsProgram ts → StartsProgram ts →
      parse source = .error ⟨.endOfInput, some (.after source.toList)⟩) ∧
    (¬ StartsProgram ts → ∃ front l back t rest, lexemes = front ++ l :: back ∧
      ts = Lexer.tokensFrom .start front ++ t :: rest ∧ t.text.toList = l.chars ∧
      (∀ j, StartsProgram (ts.take j) ↔ j ≤ (Lexer.tokensFrom .start front).length) ∧
      parse source = .error ⟨.unexpected t, some (.after (front.flatMap (·.chars)))⟩) := by
  have hlex := lex_of_cut hcut
  have hts : ∀ t ∈ ts, t.kind ≠ .endOfText := by
    have hlexemes := Lexer.cut_lexemes source.toList
    rw [hcut] at hlexemes
    exact htokens ▸ Lexer.kind_ne_endOfText hlexemes .start
  rw [htokens] at hlex
  generalize hend : Token.mk .endOfText "" (some (.after source.toList)) = e at hlex
  have he : e.kind = .endOfText := hend ▸ rfl
  refine ⟨fun h => ?_, fun hnot h => ?_, fun hnot => ?_⟩
  · have hzero := (reach_eq_zero_iff hts he).2 h
    refine parse_of_reach_zero hlex hzero ?_
    obtain ⟨d, rfl⟩ := h
    rw [(Grammar.exact_readings ordered_language .program _).ends]
    exact ⟨d.yield ++ [e], [], by simp, rfl, derivable_program_iff.2 ⟨d, e, he, rfl⟩⟩
  · have hle := (reach_le_iff (e := e) hts (Nat.le_refl _)).2 (by rwa [List.take_length])
    have hne : (language.readings .program (ts ++ [e])).reach ≠ 0 :=
      fun hzero => hnot ((reach_eq_zero_iff hts he).1 hzero)
    have hone : (language.readings .program (ts ++ [e])).reach = 1 := by omega
    rw [parse_of_unread hlex (by rw [hone, Nat.add_sub_cancel, List.drop_left]), if_pos he, ← hend]
  · have hfirst := startsProgram_take_iff (e := e) hts hnot
    generalize hk : ts.length + 1 - (language.readings .program (ts ++ [e])).reach = k at hfirst
    have hlt : k < ts.length := by
      by_contra hge
      have hall := (hfirst ts.length).2 (Nat.le_of_not_lt hge)
      rw [List.take_length] at hall
      exact hnot hall
    have hsplit := List.take_append_drop k ts
    rw [List.drop_eq_getElem_cons hlt] at hsplit
    obtain ⟨front, l, back, kind, hlexemes, -, hread, ht⟩ :=
      Lexer.exists_lexeme (htokens.trans hsplit.symm)
    have hparse := parse_of_unread (t := ts[k]) hlex (by
      rw [hk, List.drop_append_of_le_length (Nat.le_of_lt hlt), List.drop_eq_getElem_cons hlt]
      rfl)
    rw [if_neg (hts _ (List.getElem_mem hlt))] at hparse
    refine ⟨front, l, back, ts[k], ts.drop (k + 1), hlexemes, hread ▸ hsplit.symm, ?_,
      fun j => ?_, ?_⟩
    · simp [ht]
    · rw [hfirst, hread, List.length_take_of_le (Nat.le_of_lt hlt)]
    · have hloc : ts[k].loc = some (.after (front.flatMap (·.chars))) := by
        rw [ht, Loc.advance_start]
      rw [hparse, hloc]

/-- The text is refused with this error. -/
def refusedWith (source : String) (error : CompileError) : Bool :=
  match parse source with
  | .error e => e = error
  | .ok _ => false

theorem parse_of_refusedWith {error : CompileError} (h : refusedWith source error) :
    parse source = .error error := by
  unfold refusedWith at h
  split at h
  · rename_i e he
    rw [he, of_decide_eq_true h]
  · contradiction

/-- A function without its end starts a program and is none. -/
theorem parse_outcome_unfinished :
    ∃ lexemes ts, Lexer.cut "f g(a) =>\n  r + a".toList = (lexemes, []) ∧
      Lexer.tokensFrom .start lexemes = ts ∧ ts.length = 9 ∧ ¬ IsProgram ts ∧ StartsProgram ts ∧
      parse "f g(a) =>\n  r + a" = .error ⟨.endOfInput, some ⟨2, 8⟩⟩ := by
  have hparse := parse_of_refusedWith
    (show refusedWith "f g(a) =>\n  r + a" ⟨.endOfInput, some ⟨2, 8⟩⟩ from by decide +kernel)
  have hcut : (Lexer.cut "f g(a) =>\n  r + a".toList).2 = [] := by decide +kernel
  have hlength :
      (Lexer.tokensFrom .start (Lexer.cut "f g(a) =>\n  r + a".toList).1).length = 9 := by
    decide +kernel
  obtain ⟨hprogram, -, hunexpected⟩ := parse_outcome (Prod.ext rfl hcut) rfl
  refine ⟨_, _, Prod.ext rfl hcut, rfl, hlength, fun h => ?_, ?_, hparse⟩
  · obtain ⟨tree, htree⟩ := hprogram h
    rw [hparse] at htree
    contradiction
  · by_contra hnot
    obtain ⟨_, _, _, t, _, -, -, -, -, ht⟩ := hunexpected hnot
    rw [hparse] at ht
    injection ht with ht
    injection ht with ht
    contradiction

end Terse
