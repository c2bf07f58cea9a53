import Terse.Command.Run
import Terse.Proofs.Command.FileSystem
import Terse.Proofs.Command.Options
import Terse.Proofs.Pipeline.Located
import Terse.Proofs.Text.Utf8

/-! The command fails cleanly: it writes a graph and shows a stage only when all that was asked for
is there. -/
namespace Terse.Command

open Compilation (Gives gives_bind gives_bind_error gives_pure gives_compile)
open FileSystem (IsPath)

variable {fs : FileSystem} {source file : String} {stage : Stage} {dot graph : Option String}
  {r : Request} {e : CompileError} {product : Product} {args : List String}

/-! ### What a request needs -/

/-- The file of a path holds a program: its bytes are a text in UTF-8, where lines may end in any
way. -/
def HoldsSource (fs : FileSystem) (path source : String) : Prop :=
  ∃ text : String, fs.read path = .ok text.toUTF8.toList ∧
    source = String.ofList (Utf8.normalizeNewlines text.toList)

/-- No whole number of the text has more digits than can be read. -/
def HasShortNumerals (source : String) : Prop :=
  ∀ t ∈ (lex source.toList).tokens, t.kind = .number → ¬ Numeral.IsOverlong t.text.toList

/-- The stage whose program is drawn along with a stage: the simplified one once it is made. -/
def drawnStage (stage : Stage) : Stage :=
  if stage = .optimized ∨ stage = .generated then .optimized else .analyzed

theorem graphStage_eq (stage : Stage) : graphStage stage = drawnStage stage := by
  cases stage <;> rfl

/-- The source cannot be opened, or an error of the source ends one of the compilations that the
request needs. -/
inductive Fails (fs : FileSystem) (file : String) (stage : Stage) (dot : Option String) : Prop
  | unopened {e : FileError} (h : fs.read file = .error e)
  | output {source : String} {e : CompileError} (h : HoldsSource fs file source)
      (he : compile source stage = .error (.compile e))
  | graph {source : String} {e : CompileError} (h : HoldsSource fs file source) (hdot : dot ≠ none)
      (he : compile source (drawnStage stage) = .error (.compile e))

/-- The stage is shown, and the graph, if there is a place for it, is the only file that changed. -/
structure Delivers (fs : FileSystem) (file : String) (stage : Stage) (dot : Option String)
    (report : Report) (fs' : FileSystem) : Prop where
  exit : report.exit = 0
  output : ∃ source product shown, HoldsSource fs file source ∧
    compile source stage = .ok product ∧ product.Shows shown ∧ report.stdout = shown ++ "\n"
  untouched : dot = none → fs' = fs
  graph : ∀ path, dot = some path → ∃ source ss, HoldsSource fs file source ∧
    compile source (drawnStage stage) = .ok (.program ss) ∧
    fs.Saved path (Node.program ss).graph.toUTF8.toList fs'

/-- A file holds one text at most. -/
theorem HoldsSource.eq {source' : String} (h : HoldsSource fs file source)
    (h' : HoldsSource fs file source') : source = source' := by
  obtain ⟨text, hread, rfl⟩ := h
  obtain ⟨text', hread', rfl⟩ := h'
  have hbytes : text.toUTF8.toList = text'.toUTF8.toList :=
    Except.ok.inj (hread.symm.trans hread')
  have hdecode := congrArg Utf8.decode hbytes
  rw [Utf8.decode_toUTF8, Utf8.decode_toUTF8] at hdecode
  rw [Except.ok.inj hdecode]

theorem not_fails (h : HoldsSource fs file source) (hok : (compile source stage).toOption.isSome)
    (hdrawn : (compile source (drawnStage stage)).toOption.isSome) : ¬ Fails fs file stage dot := by
  intro hfails
  cases hfails with
  | unopened he =>
    obtain ⟨text, hread, -⟩ := h
    rw [hread] at he
    contradiction
  | output h' he =>
    rw [h.eq h', he] at hok
    contradiction
  | graph h' hdot he =>
    rw [h.eq h', he] at hdrawn
    contradiction

/-! ### Two compilations -/

/-- An error of the source for the drawn stage is one for the stage that is shown, unless that stage
comes before the names are resolved. -/
theorem compile_of_drawn_error (h : compile source (drawnStage stage) = .error (.compile e)) :
    compile source stage = .error (.compile e) ∨ ∃ product, compile source stage = .ok product := by
  obtain hp | ⟨tree, hp, ha⟩ := error_of_compile h
  · exact .inl (compile_of_parse_error hp stage)
  · by_cases hs : stage = .parsed
    · exact .inr ⟨_, hs ▸ compile_parsed hp⟩
    · exact .inl (compile_of_analyze_error hp ha hs)

/-- A text without overlong numbers has an error of its own or comes through. -/
theorem compile_cases (hshort : HasShortNumerals source) (stage : Stage) :
    (∃ e, compile source stage = .error (.compile e)) ∨
      ∃ product shown, compile source stage = .ok product ∧ product.Shows shown ∧
        (stage = .analyzed ∨ stage = .optimized → ∃ ss, product = .program ss) := by
  cases hp : parse source with
  | error e => exact .inl ⟨e, compile_of_parse_error hp stage⟩
  | ok tree =>
    cases ha : analyze tree with
    | error e =>
      obtain ⟨c, -, rfl⟩ | ⟨t, ht, hkind, hlong, -⟩ := isFlaw_of_analyze hp ha
      · by_cases hs : stage = .parsed
        · subst hs
          exact .inr ⟨_, _, compile_parsed hp, rfl, by simp⟩
        · exact .inl ⟨c, compile_of_analyze_error hp ha hs⟩
      · exact absurd hlong (hshort t ht hkind)
    | ok ss => exact .inr (compile_of_analyze hp ha stage)

theorem gives_products_error (h : compile source stage = .error (.compile e)) (wantsGraph : Bool) :
    Gives (products source stage wantsGraph) (.error (.compile e)) :=
  gives_bind_error (h ▸ gives_compile source stage)

theorem gives_products (h : compile source stage = .ok product) :
    Gives (products source stage false) (.ok (product, none)) :=
  gives_bind (h ▸ gives_compile source stage) (gives_pure _)

theorem gives_products_graph_error (h : compile source stage = .ok product)
    (he : compile source (drawnStage stage) = .error (.compile e)) :
    Gives (products source stage true) (.error (.compile e)) := by
  refine gives_bind (h ▸ gives_compile source stage) ?_
  rw [← graphStage_eq] at he
  exact gives_bind_error (he ▸ gives_compile source _)

theorem gives_products_graph {ss : List Node} (h : compile source stage = .ok product)
    (hss : compile source (drawnStage stage) = .ok (.program ss)) :
    Gives (products source stage true) (.ok (product, some (Node.program ss).graph)) := by
  refine gives_bind (h ▸ gives_compile source stage) ?_
  rw [← graphStage_eq] at hss
  exact gives_bind (hss ▸ gives_compile source _) (gives_pure _)

/-! ### From bytes to a report -/

theorem unlines_singleton (line : String) : unlines [line] = line ++ "\n" := by
  simp [unlines, String.join]

theorem compileSource_of_gives (hstage : r.stage = some stage)
    (h : Gives (products source stage r.dot.isSome) (.ok (product, graph))) :
    ∃ stderr, compileSource r source = .ok ⟨⟨0, product.text ++ "\n", stderr⟩, graph⟩ := by
  obtain ⟨records, hrun⟩ := h.exists_log []
  rw [compileSource, hstage, ← unlines_singleton]
  dsimp only
  rw [hrun]
  exact ⟨_, rfl⟩

theorem compileSource_of_gives_error (hstage : r.stage = some stage)
    (h : Gives (products source stage r.dot.isSome) (.error (.compile e))) :
    ∃ stderr, compileSource r source = .ok ⟨⟨1, "", stderr⟩, none⟩ := by
  obtain ⟨records, hrun⟩ := h.exists_log []
  rw [compileSource, hstage]
  dsimp only
  rw [hrun]
  exact ⟨_, rfl⟩

theorem compileFile_of_holdsSource (h : HoldsSource fs r.file source) :
    compileFile r (fs.read r.file) = compileSource r source := by
  obtain ⟨text, hread, rfl⟩ := h
  rw [hread, compileFile, Utf8.decode_toUTF8]

theorem compileFile_of_unopened {e : FileError} (he : e ≠ .nullInPath) :
    ∃ stderr, compileFile r (.error e) = .ok ⟨⟨1, "", stderr⟩, none⟩ := by
  cases e with
  | nullInPath => contradiction
  | _ => exact ⟨_, rfl⟩

/-! ### Whole runs -/

/-- A run without a graph leaves the files as they were. -/
theorem run_of_compileFile_none {report : Report} (hargs : readArgs args = .ok r)
    (h : compileFile r (fs.read r.file) = .ok ⟨report, none⟩) :
    run fs args = .exited report fs := by
  rw [run, hargs]
  dsimp only
  rw [h]
  cases r.dot <;> rfl

/-- A run with a graph writes it and nothing else. -/
theorem run_of_compileFile_some {report : Report} {path text : String} {p : List String}
    (hargs : readArgs args = .ok r)
    (h : compileFile r (fs.read r.file) = .ok ⟨report, some text⟩) (hdot : r.dot = some path)
    (hplace : fs.place? path = some p) :
    run fs args = .exited (savedReport r path report) (fs.put p text.toUTF8.toList) := by
  rw [run, hargs]
  dsimp only
  rw [h, hdot]
  dsimp only
  rw [FileSystem.write_of_place? hplace]

theorem exit_savedReport (r : Request) (path : String) (report : Report) :
    (savedReport r path report).exit = report.exit ∧
      (savedReport r path report).stdout = report.stdout := by
  unfold savedReport
  dsimp only
  split <;> exact ⟨rfl, rfl⟩

/-- A request that fails exits with one, prints nothing and leaves the files as they were. -/
theorem run_of_fails (hpath : IsPath r.file) (hstage : r.stage = some stage)
    (hargs : readArgs args = .ok r) (h : Fails fs r.file stage r.dot) :
    ∃ stderr, run fs args = .exited ⟨1, "", stderr⟩ fs := by
  suffices hfile : ∃ stderr, compileFile r (fs.read r.file) = .ok ⟨⟨1, "", stderr⟩, none⟩ by
    obtain ⟨stderr, hfile⟩ := hfile
    exact ⟨stderr, run_of_compileFile_none hargs hfile⟩
  cases h with
  | unopened h =>
    rw [h]
    refine compileFile_of_unopened ?_
    rintro rfl
    exact FileSystem.read_ne_nullInPath hpath h
  | output h he =>
    rw [compileFile_of_holdsSource h]
    exact compileSource_of_gives_error hstage (gives_products_error he _)
  | graph h hdot he =>
    rw [compileFile_of_holdsSource h]
    -- where only the syntax is to be shown, the first compilation may end well and the second not
    obtain he' | ⟨product, hok⟩ := compile_of_drawn_error he
    · exact compileSource_of_gives_error hstage (gives_products_error he' _)
    · have hgraph := gives_products_graph_error hok he
      rw [← Option.isSome_iff_ne_none.2 hdot] at hgraph
      exact compileSource_of_gives_error hstage hgraph

/-- A request that does not fail is delivered in full. -/
theorem run_of_not_fails (hstage : r.stage = some stage) (hargs : readArgs args = .ok r)
    (hsource : HoldsSource fs r.file source) (hshort : HasShortNumerals source)
    (h : ¬ Fails fs r.file stage r.dot)
    (hwrite : ∀ path, r.dot = some path → (fs.place? path).isSome) :
    ∃ report fs', run fs args = .exited report fs' ∧
      Delivers fs r.file stage r.dot report fs' := by
  obtain ⟨e, he⟩ | ⟨product, shown, hok, hshown, -⟩ := compile_cases hshort stage
  · exact absurd (.output hsource he) h
  have hfile := compileFile_of_holdsSource (r := r) hsource
  cases hdot : r.dot with
  | none =>
    obtain ⟨stderr, hreport⟩ := compileSource_of_gives (r := r) hstage
      (by rw [hdot]; exact gives_products hok)
    refine ⟨_, fs, run_of_compileFile_none hargs (hfile.trans hreport), rfl, ?_, fun _ => rfl, ?_⟩
    · exact ⟨source, product, shown, hsource, hok, hshown, by rw [hshown.text_eq]⟩
    · rintro path ⟨⟩
  | some path =>
    obtain ⟨e, he⟩ | ⟨program, _, hdrawn, -, hprogram⟩ := compile_cases hshort (drawnStage stage)
    · exact absurd (.graph hsource (by simp [hdot]) he) h
    obtain ⟨ss, rfl⟩ := hprogram (by unfold drawnStage; split <;> simp)
    obtain ⟨p, hp⟩ := Option.isSome_iff_exists.1 (hwrite path hdot)
    obtain ⟨stderr, hreport⟩ := compileSource_of_gives (r := r) hstage
      (by rw [hdot]; exact gives_products_graph hok hdrawn)
    obtain ⟨hexit, hstdout⟩ := exit_savedReport r path ⟨0, product.text ++ "\n", stderr⟩
    refine ⟨_, _, run_of_compileFile_some hargs (hfile.trans hreport) hdot hp, hexit, ?_,
      by simp, ?_⟩
    · exact ⟨source, product, shown, hsource, hok, hshown, by rw [hstdout, hshown.text_eq]⟩
    · rintro _ ⟨⟩
      exact ⟨source, ss, hsource, hdrawn, FileSystem.saved_put hp _⟩

/-- For every file system, source path, stage and place for a graph there is a command line (unless
the place is called `--`), and each ends cleanly: with exit code 1, no output and the files as they
were if the source cannot be opened or has an error that the stage or the graph runs into, and else
with the stage shown and the graph as the only file that changed, if it can be written at all. -/
theorem run_ends_cleanly (fs : FileSystem) (file : String) (stage : Stage) (dot : Option String)
    (verbose : Bool) (hpath : IsPath file) (hdot : dot ≠ some "")
    (hfile : (∃ e, fs.read file = .error e) ∨
      ∃ source, HoldsSource fs file source ∧ HasShortNumerals source) :
    (dot ≠ some "--" → ∃ args, readArgs args = .ok ⟨file, some stage, dot, verbose⟩) ∧
    ∀ args, readArgs args = .ok ⟨file, some stage, dot, verbose⟩ →
      (Fails fs file stage dot → ∃ stderr, run fs args = .exited ⟨1, "", stderr⟩ fs) ∧
      (¬ Fails fs file stage dot → (∀ path, dot = some path → (fs.place? path).isSome) →
        ∃ report fs', run fs args = .exited report fs' ∧
          Delivers fs file stage dot report fs') := by
  refine ⟨fun hdash => ⟨_, readArgs_commandLine file stage verbose hdot hdash⟩,
    fun args hargs => ⟨fun h => run_of_fails hpath rfl hargs h, fun h hwrite => ?_⟩⟩
  obtain ⟨e, he⟩ | ⟨source, hsource, hshort⟩ := hfile
  · exact absurd (.unopened he) h
  · exact run_of_not_fails rfl hargs hsource hshort h hwrite

/-- A program that has a tree but uses a name it does not declare, and one with a line that ends in
two characters, both to be drawn over an older file when only their syntax is asked for. The path of
the program starts at the root, and that of the graph in the working directory. -/
theorem run_ends_cleanly_drawn :
    let disk := fun text : String =>
      FileSystem.mk [(["home", "p.pys"], text.toUTF8.toList), (["home", "a.dot"], [])] [] ["home"]
    let args := ["/home/p.pys", "--stage", "parsed", "--dot", "a.dot"]
    IsPath "/home/p.pys" ∧ HoldsSource (disk "log(y)") "/home/p.pys" "log(y)" ∧
      HasShortNumerals "log(y)" ∧
      HoldsSource (disk "x = 5\r\nlog(x)") "/home/p.pys" "x = 5\nlog(x)" ∧
      HasShortNumerals "x = 5\nlog(x)" ∧
      (∃ stderr, run (disk "log(y)") args = .exited ⟨1, "", stderr⟩ (disk "log(y)")) ∧
      ∃ report fs', run (disk "x = 5\r\nlog(x)") args = .exited report fs' ∧
        Delivers (disk "x = 5\r\nlog(x)") "/home/p.pys" .parsed (some "a.dot") report fs' := by
  intro disk args
  have hargs : readArgs args = .ok ⟨"/home/p.pys", some .parsed, some "a.dot", false⟩ := rfl
  have hpath : IsPath "/home/p.pys" := by decide
  have hread (text : String) : (disk text).read "/home/p.pys" = .ok text.toUTF8.toList := by
    have hplace : (disk text).place? "/home/p.pys" = some ["home", "p.pys"] :=
      FileSystem.place?_of_follow ["home"] "p.pys" hpath (by decide) (by decide +kernel)
        (by decide +kernel) rfl
    exact FileSystem.read_eq_ok_iff.2 ⟨_, hplace, rfl⟩
  have hplace (text : String) : (disk text).place? "a.dot" = some ["home", "a.dot"] :=
    FileSystem.place?_of_follow ["home"] "a.dot" (by decide) (by decide) (by decide +kernel)
      (by decide +kernel) rfl
  have hwrong : HoldsSource (disk "log(y)") "/home/p.pys" "log(y)" :=
    ⟨_, hread _, by decide +kernel⟩
  have hright : HoldsSource (disk "x = 5\r\nlog(x)") "/home/p.pys" "x = 5\nlog(x)" :=
    ⟨_, hread _, by decide +kernel⟩
  have hshort {source : String}
      (h : ∀ t ∈ (lex source.toList).tokens, t.text.toList.length ≤ 4300) :
      HasShortNumerals source :=
    fun t ht _ hlong => absurd hlong.2 (Nat.not_lt.2 (h t ht))
  have hwrong' : HasShortNumerals "log(y)" := hshort (by decide +kernel)
  have hright' : HasShortNumerals "x = 5\nlog(x)" := hshort (by decide +kernel)
  have herror : compile "log(y)" .analyzed = .error (.compile ⟨.undeclared "y", some ⟨1, 5⟩⟩) :=
    compile_of_failsWith (by decide +kernel)
  have hfine : ¬ Fails (disk "x = 5\r\nlog(x)") "/home/p.pys" .parsed (some "a.dot") :=
    not_fails hright (by decide +kernel) (by decide +kernel)
  refine ⟨hpath, hwrong, hwrong', hright, hright', ?_, ?_⟩
  · obtain ⟨-, hrun⟩ := run_ends_cleanly (disk "log(y)") "/home/p.pys" .parsed (some "a.dot") false
      hpath (by decide) (.inr ⟨_, hwrong, hwrong'⟩)
    exact (hrun args hargs).1 (.graph hwrong (by decide) herror)
  · obtain ⟨-, hrun⟩ := run_ends_cleanly (disk "x = 5\r\nlog(x)") "/home/p.pys" .parsed
      (some "a.dot") false hpath (by decide) (.inr ⟨_, hright, hright'⟩)
    refine (hrun args hargs).2 hfine ?_
    rintro _ ⟨⟩
    rw [hplace, Option.isSome_some]

end Terse.Command
