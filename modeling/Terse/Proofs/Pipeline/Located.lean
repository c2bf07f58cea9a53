import Terse.Proofs.Grammar.Outcome
import Terse.Proofs.Pipeline.Total
import Terse.Proofs.Source.Lines

/-! An error of a source text has a place in the text, and one about a name is at that name. -/
namespace Terse

variable {source : String} {tree : Tree} {e : CompileError}

/-- The error has a place in the text; if it is about a name, the name stands there as a whole. -/
def CompileError.PointsInto (e : CompileError) (source : List Char) : Prop :=
  ∃ loc back, e.loc = some loc ∧ loc.Divides source back ∧
    ∀ x, e.cause.name? = some x → IsName x.toList ∧ StartsWithWord x.toList back

/-- A text that is cut and read to its end has a tree. -/
theorem parse_of_unread_nil (hstuck : (lex source.toList).stuck = none)
    (hunread : (lex source.toList).tokens.drop ((lex source.toList).tokens.length -
      (language.readings .program (lex source.toList).tokens).reach) = []) :
    ∃ tree, parse source = .ok tree := by
  have hkinds := Lexer.kind_ne_endOfText (Lexer.cut_lexemes source.toList) .start
  rcases hcut : Lexer.cut source.toList with ⟨lexemes, rest⟩
  cases rest with
  | cons c rest => simp [lex, hcut] at hstuck
  | nil =>
    have hlex := lex_of_cut hcut
    rw [hcut] at hkinds
    generalize Lexer.tokensFrom .start lexemes = ts at hlex hkinds
    generalize hend : Token.mk .endOfText "" (some (.after source.toList)) = e at hlex
    have he : e.kind = .endOfText := hend ▸ rfl
    simp only [hlex, List.drop_eq_nil_iff, List.length_append, List.length_singleton] at hunread
    have hreach : (language.readings .program (ts ++ [e])).reach = 0 := by omega
    obtain ⟨d, hd⟩ := (reach_eq_zero_iff hkinds he).1 hreach
    refine parse_of_reach_zero hlex hreach ?_
    rw [(Grammar.exact_readings ordered_language .program _).ends]
    exact ⟨ts ++ [e], [], (List.append_nil _).symm, rfl,
      derivable_program_iff.2 ⟨d, e, he, by rw [hd]⟩⟩

/-- Every syntax error points into the text. -/
theorem pointsInto_of_parse (h : parse source = .error e) : e.PointsInto source.toList := by
  have hparse := h
  unfold parse at h
  dsimp only at h
  split at h
  · rename_i t ht
    obtain rfl := Except.error.inj h
    have hmem := List.mem_of_mem_drop (List.mem_of_mem_head? ht)
    obtain ⟨loc, back, hloc, hdivides, -⟩ := standsIn_lex _ t hmem
    refine ⟨loc, back, hloc, hdivides, fun x hx => ?_⟩
    dsimp only at hx
    split at hx <;> contradiction
  · rename_i c place _ hstuck
    obtain rfl := Except.error.inj h
    obtain ⟨back, hdivides⟩ := divides_of_stuck hstuck
    exact ⟨place, back, rfl, hdivides, fun x hx => nomatch hx⟩
  · rename_i hunread hstuck
    obtain ⟨tree, htree⟩ := parse_of_unread_nil hstuck (List.head?_eq_none_iff.1 hunread)
    rw [hparse] at htree
    contradiction

/-- The place of a token divides the text. -/
def IsPlace (source : List Char) (loc : Option Loc) : Prop :=
  ∃ place back, loc = some place ∧ place.Divides source back

/-- Errors that name a token or a place of the text point into it. -/
theorem allows_pointsInto (source : List Char) :
    Analysis.Allows (fun t => t.Named ∧ t.StandsIn source) (IsPlace source)
      (fun e => ∀ c, e = .compile c → c.PointsInto source) where
  named {t cause} ht hname := by
    rintro _ ⟨⟩
    obtain ⟨hnamed, loc, back, hloc, hdivides, hword⟩ := ht.holds
    refine ⟨loc, back, hloc, hdivides, fun x hx => ?_⟩
    obtain rfl := Option.some.inj (hname.symm.trans hx)
    exact ⟨hnamed ht.kind_eq, hword ht.kind_eq⟩
  placed hloc _ hname := by
    rintro _ ⟨⟩
    obtain ⟨place, back, hplace, hdivides⟩ := hloc
    refine ⟨place, back, hplace, hdivides, fun x hx => ?_⟩
    rw [hname] at hx
    contradiction
  numeral _ _ := fun _ h => nomatch h
  escape _ _ := fun _ h => nomatch h

/-- Every error of analysis points into the text. -/
theorem pointsInto_of_analyze (hp : parse source = .ok tree)
    (ha : analyze tree = .error (.compile e)) : e.PointsInto source.toList := by
  have hstands := standsIn_lex source.toList
  refine allowed_of_analyze (allows_pointsInto source.toList)
    (isStmt_of_parse hp fun t ht => ⟨named_lex _ t ht, hstands t ht⟩)
    (sited_of_parse hp fun t ht => ?_) ha e rfl
  obtain ⟨loc, back, hloc, hdivides, -⟩ := hstands t ht
  exact ⟨loc, back, hloc, hdivides⟩

/-- An error of the text comes from reading it or from resolving its names. -/
theorem error_of_compile {stage : Stage} (h : compile source stage = .error (.compile e)) :
    parse source = .error e ∨
      ∃ tree, parse source = .ok tree ∧ analyze tree = .error (.compile e) := by
  cases hp : parse source with
  | error e' =>
    rw [compile_of_parse_error hp] at h
    obtain rfl := Failure.compile.inj (Except.error.inj h)
    exact .inl rfl
  | ok tree =>
    refine .inr ⟨tree, rfl, ?_⟩
    by_cases hs : stage = .parsed
    · rw [hs, compile_parsed hp] at h
      contradiction
    cases ha : analyze tree with
    | error e' =>
      rw [compile_of_analyze_error hp ha hs] at h
      cases e' with
      | compile c =>
        obtain rfl := Failure.compile.inj (Except.error.inj h)
        rfl
      | numeral | escape | tree => cases h
    | ok ss =>
      obtain ⟨product, shown, hok, -⟩ := compile_of_analyze hp ha stage
      rw [hok] at h
      contradiction

/-- Each error that a compilation ends with is on a line of the text, at one of its characters or
right after them. An error about a name is where that name stands, and the name does not go on
there. -/
theorem compile_error_located {stage : Stage} (h : compile source stage = .error (.compile e)) :
    ∃ loc line, e.loc = some loc ∧ 1 ≤ loc.line ∧
      loc.line ≤ (source.toList.splitOn '\n').length ∧
      (source.toList.splitOn '\n')[loc.line - 1]? = some line ∧
      1 ≤ loc.col ∧ loc.col ≤ line.length + 1 ∧
      ∀ x, e.cause.name? = some x → StartsWithWord x.toList (line.drop (loc.col - 1)) := by
  have hpoints : e.PointsInto source.toList := by
    rcases error_of_compile h with hp | ⟨tree, hp, ha⟩
    · exact pointsInto_of_parse hp
    · exact pointsInto_of_analyze hp ha
  obtain ⟨loc, back, hloc, ⟨front, hsource, rfl⟩, hname⟩ := hpoints
  rw [hsource]
  refine ⟨_, _, hloc, ?_, ?_, Loc.line_after front back, ?_, ?_, fun x hx => ?_⟩
  · simp [Loc.after]
  · simp [Loc.after, Loc.length_splitOn]
  · simp [Loc.after]
  · simp [Loc.after]
  · obtain ⟨hx, hword⟩ := hname x hx
    rw [Loc.after, Nat.add_sub_cancel, List.drop_left]
    exact hword.takeWhile hx

/-- The compilation ends with this error. -/
def failsWith (source : String) (stage : Stage) (error : CompileError) : Bool :=
  match compile source stage with
  | .error failure => failure = .compile error
  | .ok _ => false

theorem compile_of_failsWith {stage : Stage} (h : failsWith source stage e) :
    compile source stage = .error (.compile e) := by
  unfold failsWith at h
  split at h
  · rename_i failure hfailure
    rw [hfailure, of_decide_eq_true h]
  · contradiction

/-- A comment, a carriage return and a tab before a name that is not declared. -/
theorem compile_error_located_undeclared :
    compile "a = 1 // one\r\nf g(b) =>\n\tr + b ab1;" .generated =
        .error (.compile ⟨.undeclared "ab1", some ⟨3, 8⟩⟩) ∧
      ∃ line, ("a = 1 // one\r\nf g(b) =>\n\tr + b ab1;".toList.splitOn '\n')[2]? = some line ∧
        8 ≤ line.length + 1 ∧ StartsWithWord "ab1".toList (line.drop 7) := by
  have herror : compile "a = 1 // one\r\nf g(b) =>\n\tr + b ab1;" .generated =
      .error (.compile ⟨.undeclared "ab1", some ⟨3, 8⟩⟩) :=
    compile_of_failsWith (by decide +kernel)
  obtain ⟨loc, line, hloc, -, -, hline, -, hcol, hname⟩ := compile_error_located herror
  obtain rfl := Option.some.inj hloc
  exact ⟨herror, line, hline, hcol, hname "ab1" rfl⟩

end Terse
