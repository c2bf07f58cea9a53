import Terse.Pipeline
import Terse.Proofs.Analysis.Scoped
import Terse.Proofs.Emit.Total

/-! No source text leads a compilation into a fault of its own: the text is at fault, or all stages
come to their end. -/
namespace Terse

variable {source : String} {tree : Tree} {ss : List Node}

/-- Parsing has only syntax errors. -/
theorem isSyntax_of_parse {e : CompileError} (h : parse source = .error e) : e.cause.isSyntax := by
  unfold parse at h
  dsimp only at h
  split at h
  · obtain rfl := Except.error.inj h
    dsimp only
    split <;> rfl
  · obtain rfl := Except.error.inj h
    rfl
  · split at h
    · contradiction
    · obtain rfl := Except.error.inj h
      rfl

/-- All that can be wrong with a text that has a tree. -/
def IsFlaw (source : String) (e : AnalysisError) : Prop :=
  (∃ c : CompileError, c.cause.isSyntax = false ∧ e = .compile c) ∨
  ∃ t ∈ (lex source.toList).tokens, t.kind = .number ∧ Numeral.IsOverlong t.text.toList ∧
    e = .numeral (.tooManyDigits t.text.toList.length)

theorem allows_isFlaw (source : String) :
    Analysis.Allows (fun t => t.Spelled ∧ t ∈ (lex source.toList).tokens) (fun _ => True)
      (IsFlaw source) where
  named _ hc := .inl ⟨_, Cause.isSyntax_of_name? hc, rfl⟩
  placed _ hc _ := .inl ⟨_, hc, rfl⟩
  numeral {t e} ht he := by
    obtain ⟨hspelled, hmem⟩ := ht.holds
    rw [Token.Spelled, ht.kind_eq] at hspelled
    obtain ⟨a, ha⟩ | ⟨hlong, hread⟩ := Numeral.read_numeral hspelled
    · rw [ha] at he
      contradiction
    · rw [hread] at he
      exact .inr ⟨t, hmem, ht.kind_eq, hlong, congrArg _ (Except.error.inj he).symm⟩
  escape {t e} ht he := by
    have hspelled := ht.holds.1
    rw [Token.Spelled, ht.kind_eq] at hspelled
    obtain ⟨value, hvalue⟩ := Literal.value_literal hspelled
    rw [hvalue] at he
    contradiction

/-- Analysis finds nothing but flaws of the text. -/
theorem isFlaw_of_analyze {e : AnalysisError} (hp : parse source = .ok tree)
    (ha : analyze tree = .error e) : IsFlaw source e :=
  allowed_of_analyze (allows_isFlaw source)
    (isStmt_of_parse hp fun t ht => ⟨spelled_lex _ t ht, ht⟩)
    (fun t _ => .of_forall t fun _ => trivial) ha

namespace Compilation

variable {α β : Type} {w : Logged α} {f : α → Logged β} {r : Except Failure β}

/-- A step ends in the same way whatever was logged before. -/
def Gives (w : Logged α) (r : Except Failure α) : Prop := ∀ log, (w.run.run log).1 = r

theorem Gives.exists_log {r : Except Failure α} (h : Gives w r) (log : List LogRecord) :
    ∃ log', w.run.run log = (r, log') :=
  ⟨_, Prod.ext (h log) rfl⟩

theorem gives_pure (a : α) : Gives (pure a) (.ok a) := fun _ => rfl

theorem run_bind (w : Logged α) (f : α → Logged β) (log : List LogRecord) :
    (w >>= f).run.run log =
      match w.run.run log with
      | (.ok a, log) => (f a).run.run log
      | (.error e, log) => (.error e, log) := by
  rw [ExceptT.run_bind, StateT.run_bind]
  obtain ⟨a | e, log'⟩ := w.run.run log <;> rfl

theorem gives_bind {a : α} (h : Gives w (.ok a)) (hf : Gives (f a) r) : Gives (w >>= f) r := by
  intro log
  obtain ⟨log', hw⟩ := h.exists_log log
  rw [run_bind, hw]
  exact hf log'

theorem gives_bind_error {e : Failure} (h : Gives w (.error e)) : Gives (w >>= f) (.error e) := by
  intro log
  obtain ⟨log', hw⟩ := h.exists_log log
  rw [run_bind, hw]

theorem gives_toTree (h : parse source = .ok tree) : Gives (toTree source) (.ok tree) := by
  unfold toTree
  rw [h]
  exact fun _ => rfl

theorem gives_toTree_error {e : CompileError} (h : parse source = .error e) :
    Gives (toTree source) (.error (.compile e)) := by
  unfold toTree
  rw [h]
  exact fun _ => rfl

theorem gives_toProgram (h : analyze tree = .ok ss) : Gives (toProgram tree) (.ok ss) := by
  unfold toProgram
  rw [h]
  exact fun _ => rfl

theorem gives_toProgram_error {e : AnalysisError} (h : analyze tree = .error e) :
    Gives (toProgram tree) (.error (.ofAnalysis e)) := by
  unfold toProgram
  rw [h]
  exact fun _ => rfl

theorem gives_toSimpler (h : Node.blockFault? ss = none) :
    Gives (toSimpler ss) (.ok (Node.simplifyBlock ss)) := by
  unfold toSimpler
  rw [h]
  exact fun _ => rfl

theorem gives_toCode {code : String} (h : (Node.program ss).emit = .ok code) :
    Gives (toCode ss) (.ok code) := by
  unfold toCode
  rw [h]
  exact fun _ => rfl

/-- Two steps in turn do not depend on the log if neither of them does. -/
theorem exists_gives_bind (h : ∃ r, Gives w r) (hf : ∀ a, ∃ r, Gives (f a) r) :
    ∃ r, Gives (w >>= f) r := by
  obtain ⟨e | a, h⟩ := h
  · exact ⟨_, gives_bind_error h⟩
  · obtain ⟨r, hr⟩ := hf a
    exact ⟨r, gives_bind h hr⟩

/-- No stage looks at the log. -/
theorem exists_gives_run (source : String) (stage : Stage) : ∃ r, Gives (run source stage) r := by
  refine exists_gives_bind ?_ fun tree => ?_
  · unfold toTree
    split <;> exact ⟨_, fun _ => rfl⟩
  split
  · exact ⟨_, gives_pure _⟩
  refine exists_gives_bind ?_ fun ss => ?_
  · unfold toProgram
    split <;> exact ⟨_, fun _ => rfl⟩
  split
  · exact ⟨_, gives_pure _⟩
  refine exists_gives_bind ?_ fun ss => ?_
  · unfold toSimpler
    split <;> exact ⟨_, fun _ => rfl⟩
  split
  · exact ⟨_, gives_pure _⟩
  refine exists_gives_bind ?_ fun code => ⟨_, gives_pure _⟩
  unfold toCode
  split <;> exact ⟨_, fun _ => rfl⟩

/-- The outcome of a compilation does not depend on the log. -/
theorem gives_compile (source : String) (stage : Stage) :
    Gives (run source stage) (compile source stage) := by
  obtain ⟨r, hr⟩ := exists_gives_run source stage
  rw [compile, hr []]
  exact hr

end Compilation

section Compile

open Compilation

variable {code : String}

theorem compile_of_gives {stage : Stage} {r : Except Failure Product}
    (h : Gives (run source stage) r) : compile source stage = r := h []

/-- A text that cannot be parsed fails at every stage. -/
theorem compile_of_parse_error {e : CompileError} (h : parse source = .error e) (stage : Stage) :
    compile source stage = .error (.compile e) :=
  compile_of_gives (gives_bind_error (gives_toTree_error h))

theorem compile_parsed (h : parse source = .ok tree) :
    compile source .parsed = .ok (.message "Syntax is ok") := by
  refine compile_of_gives (gives_bind (gives_toTree h) ?_)
  exact gives_pure _

/-- A text that is not accepted fails at every stage after parsing. -/
theorem compile_of_analyze_error {e : AnalysisError} {stage : Stage} (hp : parse source = .ok tree)
    (ha : analyze tree = .error e) (hs : stage ≠ .parsed) :
    compile source stage = .error (.ofAnalysis e) := by
  refine compile_of_gives (gives_bind (gives_toTree hp) ?_)
  rw [if_neg hs]
  exact gives_bind_error (gives_toProgram_error ha)

theorem compile_analyzed (hp : parse source = .ok tree) (ha : analyze tree = .ok ss) :
    compile source .analyzed = .ok (.program ss) := by
  refine compile_of_gives (gives_bind (gives_toTree hp) (gives_bind (gives_toProgram ha) ?_))
  exact gives_pure _

theorem compile_optimized (hp : parse source = .ok tree) (ha : analyze tree = .ok ss)
    (hf : Node.blockFault? ss = none) :
    compile source .optimized = .ok (.program (Node.simplifyBlock ss)) := by
  refine compile_of_gives (gives_bind (gives_toTree hp) (gives_bind (gives_toProgram ha)
    (gives_bind (gives_toSimpler hf) ?_)))
  exact gives_pure _

/-- An accepted program that has no fault is generated from its simplified form. -/
theorem compile_generated (hp : parse source = .ok tree) (ha : analyze tree = .ok ss)
    (hf : Node.blockFault? ss = none)
    (he : (Node.program (Node.simplifyBlock ss)).emit = .ok code) :
    compile source .generated = .ok (.message code) := by
  refine compile_of_gives (gives_bind (gives_toTree hp) (gives_bind (gives_toProgram ha)
    (gives_bind (gives_toSimpler hf) (gives_bind (gives_toCode he) ?_))))
  exact gives_pure _

/-- How a stage is shown: a message as it is, and a program by the dump that it has. -/
def Product.Shows : Product → String → Prop
  | .message s, text => text = s
  | .program ss, text => (Node.program ss).dump? = some text

theorem Product.Shows.text_eq {product : Product} {shown : String} (h : product.Shows shown) :
    product.text = shown := by
  cases product with
  | message s => exact Eq.symm h
  | program ss =>
    rw [text, show (Node.program ss).dump? = some shown from h, Option.getD_some]

/-- A text whose names are resolved comes through every stage. -/
theorem compile_of_analyze (hp : parse source = .ok tree) (ha : analyze tree = .ok ss)
    (stage : Stage) :
    ∃ product shown, compile source stage = .ok product ∧ product.Shows shown ∧
      (stage = .analyzed ∨ stage = .optimized → ∃ ss', product = .program ss') := by
  have hs := isStmt_of_analyze hp ha
  have hs' := Node.isStmt_simplified hs
  have hf := Node.blockFault?_block hs
  have hscoped := (wellScoped_of_analyze (isStmt_of_parse hp (spelled_lex _)) ha).1
  cases stage with
  | parsed => exact ⟨_, _, compile_parsed hp, rfl, by simp⟩
  | analyzed =>
    obtain ⟨before, hbefore⟩ := Node.dump?_program hs
    exact ⟨_, before, compile_analyzed hp ha, hbefore, fun _ => ⟨_, rfl⟩⟩
  | optimized =>
    obtain ⟨after, hafter⟩ := Node.dump?_program hs'
    exact ⟨_, after, compile_optimized hp ha hf, hafter, fun _ => ⟨_, rfl⟩⟩
  | generated =>
    obtain ⟨code, hcode⟩ := Node.emit_program hs' (Node.scopedBlock_simplifyBlock ss hf hscoped)
    exact ⟨_, code, compile_generated hp ha hf hcode, rfl, by simp⟩

end Compile

/-- The first stage to fail ends the report. -/
theorem runStages_of_analyze_error {e : AnalysisError} (hp : parse source = .ok tree)
    (ha : analyze tree = .error e) :
    runStages source =
      match Failure.ofAnalysis e with
      | .compile c => .ok ⟨[(.parsed, "Syntax is ok")], some c⟩
      | failure => .error failure := by
  have hfail : compile source .analyzed = .error (.ofAnalysis e) :=
    compile_of_analyze_error hp ha (by decide)
  simp only [runStages, Stage.all, runStages.go, compile_parsed hp, hfail]
  cases e <;> rfl

theorem runStages_of_emit {before after code : String} (hp : parse source = .ok tree)
    (ha : analyze tree = .ok ss) (hf : Node.blockFault? ss = none)
    (he : (Node.program (Node.simplifyBlock ss)).emit = .ok code)
    (hbefore : (Node.program ss).dump? = some before)
    (hafter : (Node.program (Node.simplifyBlock ss)).dump? = some after) :
    runStages source = .ok ⟨[(.parsed, "Syntax is ok"), (.analyzed, before), (.optimized, after),
      (.generated, code)], none⟩ := by
  simp only [runStages, Stage.all, runStages.go, compile_parsed hp, compile_analyzed hp ha,
    compile_optimized hp ha hf, compile_generated hp ha hf he, Product.text, hbefore, hafter]
  rfl

open Node (program) in
/-- A text has a syntax error, a name or statement out of place, a number that is too long to be
read, or it comes through all stages, and its program can be emitted without simplification too. -/
theorem compilation_never_stuck (source : String) :
    (∃ e, parse source = .error e ∧ e.cause.isSyntax ∧ runStages source = .ok ⟨[], some e⟩) ∨
    ∃ tree, parse source = .ok tree ∧
      ((∃ e, analyze tree = .error (.compile e) ∧ e.cause.isSyntax = false ∧
          runStages source = .ok ⟨[(.parsed, "Syntax is ok")], some e⟩) ∨
        (∃ t ∈ (lex source.toList).tokens, t.kind = .number ∧ Numeral.IsOverlong t.text.toList ∧
          analyze tree = .error (.numeral (.tooManyDigits t.text.toList.length)) ∧
          runStages source = .error (.numeral (.tooManyDigits t.text.toList.length))) ∨
        ∃ ss ss' plain code before after, analyze tree = .ok ss ∧
          (program ss).optimize = .ok (program ss') ∧
          (program ss).emit = .ok plain ∧ (program ss').emit = .ok code ∧
          (program ss).dump? = some before ∧ (program ss').dump? = some after ∧
          runStages source = .ok ⟨[(.parsed, "Syntax is ok"), (.analyzed, before),
            (.optimized, after), (.generated, code)], none⟩) := by
  cases hp : parse source with
  | error e =>
    refine .inl ⟨e, rfl, isSyntax_of_parse hp, ?_⟩
    simp only [runStages, Stage.all, runStages.go, compile_of_parse_error hp]
  | ok tree =>
    refine .inr ⟨tree, rfl, ?_⟩
    cases ha : analyze tree with
    | error e =>
      have hrun := runStages_of_analyze_error hp ha
      obtain ⟨c, hc, rfl⟩ | ⟨t, ht, hkind, hlong, rfl⟩ := isFlaw_of_analyze hp ha
      · exact .inl ⟨c, rfl, hc, hrun⟩
      · exact .inr (.inl ⟨t, ht, hkind, hlong, rfl, hrun⟩)
    | ok ss =>
      have hs := isStmt_of_analyze hp ha
      have hs' := Node.isStmt_simplified hs
      have hf := Node.blockFault?_block hs
      have hscoped := (wellScoped_of_analyze (isStmt_of_parse hp (spelled_lex _)) ha).1
      obtain ⟨plain, hplain⟩ := Node.emit_program hs hscoped
      obtain ⟨code, hcode⟩ := Node.emit_program hs' (Node.scopedBlock_simplifyBlock ss hf hscoped)
      obtain ⟨before, hbefore⟩ := Node.dump?_program hs
      obtain ⟨after, hafter⟩ := Node.dump?_program hs'
      exact .inr (.inr ⟨ss, _, plain, code, before, after, rfl, Node.optimize_program hs, hplain,
        hcode, hbefore, hafter, runStages_of_emit hp ha hf hcode hbefore hafter⟩)

end Terse
