import Terse.Proofs.Emit.Hygiene
import Terse.Proofs.JavaScript.Brackets

/-! The text of a program is laid out by its braces: a line that ends in one opens a level, and a
line that starts with one closes a level. -/
namespace Terse

open JavaScript (IsBalanced Spans nest)

/-! ### Indented texts -/

/-- The line ends in an opening brace. -/
def opensLevel (l : List Char) : Bool := l.getLast? = some '\x7b'

/-- The first character of the line that is no blank is a closing brace. -/
def closesLevel (l : List Char) : Bool := (l.dropWhile Char.isWhitespace).head? = some '\x7d'

/-- The level of a line that comes after others. A line that closes a level is no part of it. -/
def levelAfter (before : List (List Char)) (l : List Char) : Int :=
  before.countP opensLevel - before.countP closesLevel - (closesLevel l).toNat

/-- Each line is indented by two blanks to a level, and all levels are closed in the end. -/
structure IsIndented (ls : List (List Char)) : Prop where
  indent {before after : List (List Char)} {l : List Char} : ls = before ++ l :: after →
    0 ≤ levelAfter before l ∧
      l.takeWhile Char.isWhitespace = List.replicate (2 * (levelAfter before l).toNat) ' '
  closed : ls.countP opensLevel = ls.countP closesLevel

/-- A text whose brackets match and whose lines are indented by its braces. -/
structure IsLaidOut (text : String) : Prop where
  balanced : IsBalanced text.toList
  indented : IsIndented (text.toList.splitOn '\n')

theorem levelAfter_cons (m : List Char) (before : List (List Char)) (l : List Char) :
    levelAfter (m :: before) l =
      (opensLevel m).toNat - (closesLevel m).toNat + levelAfter before l := by
  have hopens : (m :: before).countP opensLevel =
      before.countP opensLevel + (opensLevel m).toNat := by
    rw [List.countP_cons]
    cases opensLevel m <;> rfl
  have hcloses :
      (m :: before).countP closesLevel = before.countP closesLevel + (closesLevel m).toNat := by
    rw [List.countP_cons]
    cases closesLevel m <;> rfl
  unfold levelAfter
  rw [hopens, hcloses]
  omega

/-! ### Lines -/

/-- The brace that a line takes at its start, or leaves to come at its end. -/
def braces (there : Bool) : List Char := if there then ['\x7d'] else []

/-- A text starts with something else than a blank, and with a closing brace just if it is to. -/
def Starts (text : String) (shuts : Bool) : Prop :=
  ∃ c ∈ text.toList.head?, c.isWhitespace = false ∧ (c = '\x7d' ↔ shuts)

theorem starts_iff (text : String) (shuts : Bool) :
    (text.toList.head?.any fun c => !c.isWhitespace && (c == '\x7d') == shuts) ↔
    Starts text shuts := by
  rw [Option.any_eq_true, Starts]
  refine exists_congr fun c => and_congr_right fun _ => ?_
  cases shuts <;> simp

instance (text : String) (shuts : Bool) : Decidable (Starts text shuts) :=
  decidable_of_iff _ (starts_iff text shuts)

variable {a b e text : String} {shuts opened : Bool} {es fs : List Char}

theorem Starts.append (h : Starts a shuts) (b : String) : Starts (a ++ b) shuts := by
  obtain ⟨c, hc, h⟩ := h
  refine ⟨c, ?_, h⟩
  rw [String.toList_append, List.head?_append, hc]
  rfl

/-- A line as far as it is written, with the brackets that are to come. -/
structure Begun (text : String) (shuts : Bool) (es : List Char) : Prop where
  spans : Spans text (braces shuts) es
  starts : Starts text shuts

/-- A whole line. -/
structure Shaped (text : String) (shuts opened : Bool) : Prop extends
    Begun text shuts (braces opened) where
  ends : opensLevel text.toList = opened

theorem Begun.fixed (h : Begun a shuts es) (hb : Spans b es fs) : Begun (a ++ b) shuts fs :=
  ⟨h.spans.append hb, h.starts.append b⟩

/-- A part whose brackets match. -/
theorem Begun.part (h : Begun a shuts es) (he : Spans e [] []) : Begun (a ++ e) shuts es :=
  h.fixed (he.frame es)

theorem Begun.close (h : Begun a shuts es) (hb : Spans b es (braces opened))
    (hend : b.toList.getLast? = some (if opened then '\x7b' else ';')) :
    Shaped (a ++ b) shuts opened := by
  refine ⟨h.fixed hb, ?_⟩
  rw [opensLevel, String.toList_append, List.getLast?_append, hend]
  cases opened <;> simp

/-- The end of a head with a parenthesis. -/
theorem Begun.opening (h : Begun a shuts [')']) : Shaped (a ++ ") \x7b") shuts true :=
  h.close (by decide) rfl

theorem toList_render (l : Line) :
    l.render.toList = List.replicate (2 * l.depth) ' ' ++ l.text.toList := by
  have hindent (n : Nat) : ("".pushn ' ' n).toList = List.replicate n ' ' := by
    induction n with
    | zero => rfl
    | succ n ih =>
      have hpush : ("".pushn ' ' (n + 1)).toList = ("".pushn ' ' n).toList ++ [' '] :=
        String.toList_push ' '
      rw [hpush, ih, List.replicate_succ']
  rw [Line.render, String.toList_append, hindent]

/-- A text is cut at its line ends into the lines that it was made of. -/
theorem splitOn_intercalate {ss : List String} (h : ∀ s ∈ ss, '\n' ∉ s.toList) (hne : ss ≠ []) :
    ("\n".intercalate ss).toList.splitOn '\n' = ss.map String.toList := by
  have hlines : ("\n".intercalate ss).toList = ['\n'].intercalate (ss.map String.toList) :=
    String.toList_intercalate
  rw [hlines]
  exact List.splitOn_intercalate _ (by simpa using h) (by simpa using hne)

theorem isWhitespace_indent (n : Nat) : ∀ c ∈ List.replicate n ' ', c.isWhitespace := by
  intro c hc
  rw [List.eq_of_mem_replicate hc]
  rfl

namespace Shaped

variable {l : Line}

theorem takeWhile_render (h : Shaped l.text shuts opened) :
    l.render.toList.takeWhile Char.isWhitespace = List.replicate (2 * l.depth) ' ' := by
  obtain ⟨c, hc, hblank, -⟩ := h.starts
  obtain ⟨cs, hcs⟩ := List.head?_eq_some_iff.1 hc
  rw [toList_render, hcs, List.takeWhile_append_of_pos (isWhitespace_indent _),
    List.takeWhile_cons_of_neg (by simp [hblank]), List.append_nil]

theorem closesLevel_render (h : Shaped l.text shuts opened) :
    closesLevel l.render.toList = shuts := by
  obtain ⟨c, hc, hblank, hbrace⟩ := h.starts
  obtain ⟨cs, hcs⟩ := List.head?_eq_some_iff.1 hc
  rw [closesLevel, toList_render, hcs, List.dropWhile_append_of_pos (isWhitespace_indent _),
    List.dropWhile_cons_of_neg (by simp [hblank]), List.head?_cons, Bool.eq_iff_iff,
    decide_eq_true_iff, Option.some.injEq]
  exact hbrace

theorem opensLevel_render (h : Shaped l.text shuts opened) :
    opensLevel l.render.toList = opened := by
  obtain ⟨c, hc, -⟩ := h.starts
  have hne : l.text.toList ≠ [] := by
    rintro he
    rw [he] at hc
    contradiction
  rw [← h.ends, opensLevel, opensLevel, toList_render, List.getLast?_append_of_ne_nil _ hne]

theorem unbroken_render (h : Shaped l.text shuts opened) : '\n' ∉ l.render.toList := by
  rw [toList_render]
  simp [h.spans.2]

end Shaped

/-- `Laid k ls k'`: the lines lead from level `k` to level `k'`, each at its own level. -/
inductive Laid : Nat → List Line → Nat → Prop
  | nil {k : Nat} : Laid k [] k
  | cons {l : Line} {ls : List Line} {shuts opened : Bool} {k : Nat} :
      Shaped l.text shuts opened → Laid (l.depth + opened.toNat) ls k →
      Laid (l.depth + shuts.toNat) (l :: ls) k

namespace Laid

variable {ls ms : List Line} {k k' k'' : Nat}

/-- Laid lines join where the level of the first ones ends. -/
theorem append (h : Laid k ls k') (h' : Laid k' ms k'') : Laid k (ls ++ ms) k'' := by
  induction h with
  | nil => exact h'
  | cons hl _ ih => exact .cons hl (ih h')

/-- A line of a laid out text is indented by its level, counted from the first line. -/
theorem indent (h : Laid k ls k') {before after : List (List Char)} {r : List Char}
    (hr : ls.map (·.render.toList) = before ++ r :: after) :
    ∃ d : Nat, (d : Int) = k + levelAfter before r ∧
      r.takeWhile Char.isWhitespace = List.replicate (2 * d) ' ' := by
  induction h generalizing before with
  | nil => simp at hr
  | @cons l ls shuts opened k hl _ ih =>
    cases before with
    | nil =>
      obtain ⟨rfl, -⟩ := List.cons.inj hr
      refine ⟨l.depth, ?_, hl.takeWhile_render⟩
      simp only [levelAfter, hl.closesLevel_render, List.countP_nil]
      omega
    | cons m before =>
      obtain ⟨rfl, hrest⟩ := List.cons.inj hr
      obtain ⟨d, hd, hindent⟩ := ih hrest
      refine ⟨d, ?_, hindent⟩
      rw [levelAfter_cons, hl.opensLevel_render, hl.closesLevel_render, hd]
      omega

/-- Levels opened and levels closed account for the level that the lines end at. -/
theorem count (h : Laid k ls k') :
    k + (ls.map (·.render.toList)).countP opensLevel =
      k' + (ls.map (·.render.toList)).countP closesLevel := by
  induction h with
  | nil => rfl
  | @cons l ls shuts opened k hl _ ih =>
    rw [List.map_cons, List.countP_cons, List.countP_cons, hl.opensLevel_render,
      hl.closesLevel_render]
    cases shuts <;> cases opened <;> simp at ih ⊢ <;> omega

theorem unbroken (h : Laid k ls k') : ∀ r ∈ ls.map (·.render.toList), '\n' ∉ r := by
  induction h with
  | nil => simp
  | cons hl _ ih => exact List.forall_mem_cons.2 ⟨hl.unbroken_render, ih⟩

/-- Between two lines just the braces of the levels are to come. -/
theorem nest_eq (h : Laid k ls k') :
    nest ⟨List.replicate k '\x7d', .outside⟩ (renderLines ls).toList =
      some ⟨List.replicate k' '\x7d', .outside⟩ := by
  have hindent (n : Nat) (ds : List Char) :
      nest ⟨ds, .outside⟩ (List.replicate n ' ') = some ⟨ds, .outside⟩ := by
    induction n with
    | zero => rfl
    | succ n ih => exact ih
  have hline {l : Line} {shuts opened : Bool} (h : Shaped l.text shuts opened) :
      nest ⟨List.replicate (l.depth + shuts.toNat) '\x7d', .outside⟩ l.render.toList =
        some ⟨List.replicate (l.depth + opened.toNat) '\x7d', .outside⟩ := by
    have hbraces (b : Bool) : List.replicate (l.depth + b.toNat) '\x7d' =
        braces b ++ List.replicate l.depth '\x7d' := by
      cases b <;> rfl
    rw [toList_render, JavaScript.nest_append (hindent _ _), hbraces, hbraces]
    exact JavaScript.nest_frame _ h.spans.1
  induction h with
  | nil => rfl
  | @cons l ls shuts opened k hl _ ih =>
    cases ls with
    | nil =>
      have hone : renderLines [l] = l.render := by simp [renderLines]
      rw [hone, hline hl]
      exact ih
    | cons m ms =>
      have hjoin : (renderLines (l :: m :: ms)).toList =
          l.render.toList ++ '\n' :: (renderLines (m :: ms)).toList := by
        simp [renderLines]
      rw [hjoin, JavaScript.nest_append (hline hl)]
      exact ih

theorem splitOn_renderLines (h : Laid k ls k') (hne : ls ≠ []) :
    (renderLines ls).toList.splitOn '\n' = ls.map (·.render.toList) := by
  have hlines : ∀ s ∈ ls.map Line.render, '\n' ∉ s.toList := by simpa using h.unbroken
  rw [renderLines, splitOn_intercalate hlines (by simpa using hne), List.map_map]
  rfl

/-- Lines that start and end at the outermost level are laid out. -/
theorem isLaidOut (h : Laid 0 ls 0) : IsLaidOut (renderLines ls) := by
  refine ⟨h.nest_eq, ?_⟩
  by_cases hne : ls = []
  · -- A program without statements has one line, and that is empty.
    subst hne
    refine ⟨?_, rfl⟩
    intro before after l hsplit
    cases before with
    | nil =>
      obtain ⟨rfl, -⟩ := List.cons.inj hsplit
      exact ⟨by decide, rfl⟩
    | cons m before =>
      have hnil := (List.cons.inj hsplit).2
      simp at hnil
  · rw [h.splitOn_renderLines hne]
    refine ⟨fun hsplit => ?_, ?_⟩
    · obtain ⟨d, hd, hindent⟩ := h.indent hsplit
      refine ⟨by omega, ?_⟩
      rw [hindent]
      congr 2
      omega
    · have hcount := h.count
      omega

/-- A line of its own. -/
theorem single {depth : Nat} (h : Shaped text false false) : Laid depth [⟨depth, text⟩] depth :=
  .cons (l := ⟨depth, text⟩) h .nil

/-- The line between two blocks, or before the first. -/
theorem head {depth : Nat} (h : Shaped text shuts true) (hb : Laid (depth + 1) ls k) :
    Laid (depth + shuts.toNat) (⟨depth, text⟩ :: ls) k :=
  .cons (l := ⟨depth, text⟩) h hb

/-- The brace after the last block. -/
theorem brace (depth : Nat) : Laid (depth + 1) [⟨depth, "\x7d"⟩] depth :=
  have hbrace : Shaped "\x7d" true false := ⟨⟨by decide, by decide⟩, by decide⟩
  .cons (l := ⟨depth, "\x7d"⟩) hbrace .nil

/-- A block between its head and the brace that ends it. -/
theorem enclosed {depth : Nat} (hb : Laid (depth + 1) ls (depth + 1)) (h : Shaped text shuts true) :
    Laid (depth + shuts.toNat) (⟨depth, text⟩ :: ls ++ [⟨depth, "\x7d"⟩]) depth :=
  (head h hb).append (brace depth)

end Laid

/-! ### Statements -/

namespace Node

variable {path : List Region}

/-- An expression starts with neither a blank nor a closing brace. -/
theorem starts_code {k : ExpSort} {e : Node} (h : IsExp k e) (hl : Everywhere Lexical path e) :
    Starts e.code false := by
  obtain ⟨cs, htext, ⟨⟨c, hc, hopening⟩, -⟩⟩ := h.spelled hl
  rw [Starts, htext]
  cases e.sign with
  | some s => cases s <;> exact ⟨_, rfl, by decide⟩
  | none =>
    refine ⟨c, hc, ?_, ?_⟩
    · by_contra hblank
      have hall : [' ', '\t', '\r', '\n'].all fun d => !JavaScript.isOpening d := by decide
      have hmem : c ∈ [' ', '\t', '\r', '\n'] := by
        simpa only [Char.isWhitespace, Bool.not_eq_false, Bool.or_eq_true, decide_eq_true_eq,
          or_assoc, List.mem_cons, List.not_mem_nil, or_false] using hblank
      have hshut := List.all_eq_true.1 hall c hmem
      rw [hopening] at hshut
      contradiction
    · simpa using JavaScript.ne_of_isOpening (d := '\x7d') hopening (by decide)

theorem begun_code {k : ExpSort} {e : Node} (h : IsExp k e) (hl : Everywhere Lexical path e) :
    Begun e.code false [] := ⟨h.spans hl, starts_code h hl⟩

theorem spans_symbols {ps : List Symbol} (hl : EverywhereIn Lexical path (ps.map symbol)) :
    Spans (commaJoin (codes (ps.map symbol))) [] [] := by
  refine spans_codes fun e he => ?_
  have hlexical := hl e he
  obtain ⟨p, -, rfl⟩ := List.mem_map.1 he
  exact (IsExp.symbol p).spans hlexical

theorem spans_counterName (n : Nat) : Spans (counterName n) [] [] := by
  refine JavaScript.spans_inert ?_
  rw [JavaScript.toList_counterName]
  refine List.forall_mem_cons.2 ⟨by decide, List.forall_mem_cons.2 ⟨by decide, ?_⟩⟩
  exact JavaScript.isInert_of_isDigits (isDigits_toDigits n)

theorem shaped_forHead {v start stop step : String} (hv : Spans v [] [])
    (hstart : Spans start [] []) (hstop : Spans stop [] []) (hstep : Spans step [] []) :
    Shaped (forHead v start stop step) false true := by
  have hlet : Begun "for (let " false [')'] := ⟨by decide, by decide⟩
  have hequal : Spans " = " [')'] [')'] := by decide
  have hthen : Spans "; " [')'] [')'] := by decide
  have hless : Spans " < " [')'] [')'] := by decide
  have hinit := (((hlet.part hv).fixed hequal).part hstart).fixed hthen
  have htest := (((hinit.part hv).fixed hless).part hstop).fixed hthen
  exact ((htest.part hv).part hstep).opening

theorem shaped_catchHead {ps : List Symbol} (hl : EverywhereIn Lexical path (ps.map symbol)) :
    Shaped (catchHead (ps.map symbol)) true true := by
  have hsymbols := spans_symbols hl
  match ps with
  | [] => exact ⟨⟨by decide, by decide⟩, rfl⟩
  | [p] =>
    have hopen : Begun "\x7d catch (" true [')'] := ⟨by decide, by decide⟩
    have hone : commaJoin (codes [symbol p]) = code (symbol p) := by simp [codes, commaJoin]
    rw [List.map_singleton, hone] at hsymbols
    exact (hopen.part hsymbols).opening
  | p :: q :: ps =>
    have hopen : Begun "\x7d catch ([" true [']', ')'] := ⟨by decide, by decide⟩
    exact (hopen.part hsymbols).close (by decide) rfl

/-- What stands before the `if` of a choice: the end of the block before it, if it continues a
chain. -/
def chainLead (shuts : Bool) : String := if shuts then "\x7d else " else ""

theorem shaped_if {test : Node} (shuts : Bool) (ht : IsExp .value test)
    (hl : Everywhere Lexical path test) :
    Shaped (chainLead shuts ++ "if (" ++ test.code ++ ") \x7b") shuts true := by
  have hif : Begun (chainLead shuts ++ "if (") shuts [')'] := by
    cases shuts <;> exact ⟨by decide, by decide⟩
  exact (hif.part (ht.spans hl)).opening

/-- Wherever a statement is written, its lines start and end at its own level; a choice that
continues a chain closes the block before it. -/
def WritesLaid (s : Node) : Prop :=
  ∀ {path : List Region}, Everywhere Lexical path s → ∀ (depth n : Nat) (shuts : Bool),
    (shuts → s.isChoice) →
    Laid (depth + shuts.toNat) (lines depth (chainLead shuts) s n).1 depth

theorem laid_block {ss : List Node} (h : ∀ s ∈ ss, WritesLaid s) (hl : EverywhereIn Lexical path ss)
    (depth n : Nat) : Laid depth (blockLines depth ss n).1 depth := by
  induction ss generalizing n with
  | nil => exact .nil
  | cons s ss ih =>
    obtain ⟨hfirst, hrest⟩ := List.forall_mem_cons.1 h
    obtain ⟨hl, hls⟩ := List.forall_mem_cons.1 hl
    exact (hfirst hl depth n false (by simp)).append (ih hrest hls _)

/-- Only a choice can follow on a closing brace. -/
theorem writesLaid_of_not_choice {s : Node} (hs : s.isChoice = false)
    (h : ∀ {path : List Region}, Everywhere Lexical path s → ∀ depth n : Nat,
      Laid depth (lines depth (chainLead false) s n).1 depth) : WritesLaid s := by
  intro path hl depth n shuts hshuts
  cases shuts with
  | false => exact h hl depth n
  | true =>
    rw [hshuts rfl] at hs
    contradiction

/-- A line of fixed text. -/
theorem laid_fixed {text : String} (depth : Nat) (h : Spans text [] []) (hstart : Starts text false)
    (hend : opensLevel text.toList = false) : Laid depth [⟨depth, text⟩] depth :=
  .single ⟨⟨h, hstart⟩, hend⟩

/-- A line that is an expression between fixed texts. -/
theorem laid_around {a b : String} {es : List Char} {e : Node} (depth : Nat) (ha : Begun a false es)
    (he : Spans e.code [] []) (hb : Spans b es []) (hend : b.toList.getLast? = some ';') :
    Laid depth [⟨depth, a ++ e.code ++ b⟩] depth := .single ((ha.part he).close hb hend)

/-- Every statement starts and ends at the same level. -/
theorem IsStmt.writesLaid {s : Node} (h : IsStmt s) : WritesLaid s := by
  induction h with
  | @declare v e _ he =>
    refine writesLaid_of_not_choice rfl fun hl depth n => ?_
    obtain ⟨-, hv, hl⟩ := everywhere_iff.1 hl
    have hlet : Begun "let " false [] := ⟨by decide, by decide⟩
    have hequal : Spans " = " [] [] := by decide
    exact .single ((((hlet.part ((IsExp.symbol v).spans hv)).fixed hequal).part (he.spans hl)).close
      (by decide) rfl)
  | assign _ ht he =>
    refine writesLaid_of_not_choice rfl fun hl depth n => ?_
    obtain ⟨-, htl, hel⟩ := everywhere_iff.1 hl
    have hequal : Spans " = " [] [] := by decide
    exact laid_around depth ((begun_code ht htl).fixed hequal) (he.spans hel) (by decide) rfl
  | print he =>
    refine writesLaid_of_not_choice rfl fun hl depth n => ?_
    have hlog : Begun "console.log(" false [')'] := ⟨by decide, by decide⟩
    exact laid_around depth hlog (he.spans (everywhere_iff.1 hl).2) (by decide) rfl
  | @ifElse test yes no ht _ _ ihy ihn =>
    intro path hl depth n shuts _
    obtain ⟨-, hlt, hln, hly⟩ := everywhere_iff.1 hl
    have hyes := Laid.head (shaped_if shuts ht hlt) (laid_block ihy hly (depth + 1) n)
    cases no with
    | nil => exact hyes.append (.brace depth)
    | cons s ss =>
      have helse : Shaped "\x7d else \x7b" true true := ⟨⟨by decide, by decide⟩, by decide⟩
      have hno (n : Nat) := laid_block ihn (everywhere_iff.1 hln).2 (depth + 1) n
      exact (hyes.append (.head helse (hno _))).append (.brace depth)
  | @ifChain test next yes ht _ hc _ ihy ihn =>
    intro path hl depth n shuts _
    obtain ⟨-, hlt, hln, hly⟩ := everywhere_iff.1 hl
    have hyes := Laid.head (shaped_if shuts ht hlt) (laid_block ihy hly (depth + 1) n)
    have hnext (n : Nat) := ihn hln depth n true fun _ => hc
    cases next with
    | ifElse | ifOnly => exact hyes.append (hnext _)
    | _ => contradiction
  | ifOnly ht _ ih =>
    intro path hl depth n shuts _
    obtain ⟨-, hlt, hlb⟩ := everywhere_iff.1 hl
    exact (laid_block ih hlb (depth + 1) n).enclosed (shaped_if shuts ht hlt)
  | whileLoop ht _ ih =>
    refine writesLaid_of_not_choice rfl fun hl depth n => ?_
    obtain ⟨-, hlt, hlb⟩ := everywhere_iff.1 hl
    have hwhile : Begun "while (" false [')'] := ⟨by decide, by decide⟩
    exact (laid_block ih hlb (depth + 1) n).enclosed (hwhile.part (ht.spans hlt)).opening
  | repeatLoop ht _ ih =>
    refine writesLaid_of_not_choice rfl fun hl depth n => ?_
    obtain ⟨-, hlt, hlb⟩ := everywhere_iff.1 hl
    have hzero : Spans "0" [] [] := by decide
    have hincrement : Spans "++" [] [] := by decide
    have hhead := shaped_forHead (spans_counterName (n + 1)) hzero (ht.spans hlt) hincrement
    exact (laid_block ih hlb (depth + 1) (n + 1)).enclosed hhead
  | @rangeLoop v low high step body _ hlow hhigh hs _ ih =>
    refine writesLaid_of_not_choice rfl fun hl depth n => ?_
    obtain ⟨-, hlv, hll, hlh, hls, hlb⟩ := everywhere_iff.1 hl
    have hplus : Spans " += " [] [] := by decide
    have hhead := shaped_forHead ((IsExp.symbol v).spans hlv) (hlow.spans hll) (hhigh.spans hlh)
      (hplus.append (hs.spans hls))
    exact (laid_block ih hlb (depth + 1) n).enclosed hhead
  | @eachLoop v collection body _ hc _ ih =>
    refine writesLaid_of_not_choice rfl fun hl depth n => ?_
    obtain ⟨-, hlv, hlc, hlb⟩ := everywhere_iff.1 hl
    have hfor : Begun "for (let " false [')'] := ⟨by decide, by decide⟩
    have hof : Spans " of " [')'] [')'] := by decide
    have hhead := ((hfor.part ((IsExp.symbol v).spans hlv)).fixed hof).part (hc.spans hlc)
    exact (laid_block ih hlb (depth + 1) n).enclosed hhead.opening
  | breakLoop | continueLoop | returnNone =>
    refine writesLaid_of_not_choice rfl fun hl depth n => ?_
    exact laid_fixed depth (by decide) (by decide) rfl
  | returnValue he =>
    refine writesLaid_of_not_choice rfl fun hl depth n => ?_
    have hreturn : Begun "return " false [] := ⟨by decide, by decide⟩
    exact laid_around depth hreturn (he.spans (everywhere_iff.1 hl).2) (by decide) rfl
  | throwValue he =>
    refine writesLaid_of_not_choice rfl fun hl depth n => ?_
    have hthrow : Begun "throw " false [] := ⟨by decide, by decide⟩
    exact laid_around depth hthrow (he.spans (everywhere_iff.1 hl).2) (by decide) rfl
  | @tryCatch ps body handler _ _ _ ihb ihh =>
    refine writesLaid_of_not_choice rfl fun hl depth n => ?_
    obtain ⟨-, hlb, hlp, hlh⟩ := everywhere_iff.1 hl
    have htry : Shaped "try \x7b" false true := ⟨⟨by decide, by decide⟩, by decide⟩
    have hbody := Laid.head htry (laid_block ihb hlb (depth + 1) n)
    have hhandler (n : Nat) := Laid.head (shaped_catchHead hlp) (laid_block ihh hlh (depth + 1) n)
    exact (hbody.append (hhandler _)).append (.brace depth)
  | @function f ps body _ _ _ _ ih =>
    refine writesLaid_of_not_choice rfl fun hl depth n => ?_
    obtain ⟨-, hlf, hlp, hlb⟩ := everywhere_iff.1 hl
    have hfunction : Begun "function " false [] := ⟨by decide, by decide⟩
    have hopen : Spans "(" [] [')'] := by decide
    have hname := (hfunction.part ((IsExp.symbol f).spans hlf)).fixed hopen
    exact (laid_block ih hlb (depth + 1) n).enclosed (hname.part (spans_symbols hlp)).opening
  | callAlone _ he =>
    refine writesLaid_of_not_choice rfl fun hl depth n => ?_
    exact .single ((begun_code he (everywhere_iff.1 hl).2).close (by decide) rfl)
  | incr he | decr he =>
    refine writesLaid_of_not_choice rfl fun hl depth n => ?_
    have hcode := begun_code (.unary (by decide) he) hl
    exact .single (hcode.close (b := ";") (by decide) rfl)

end Node

open Node (program)

theorem eq_of_emit {ss : List Node} {code : String} (h : (program ss).emit = .ok code) :
    code = renderLines (Node.blockLines 0 ss 0).1 := by
  rw [Node.emit] at h
  split at h
  · contradiction
  · exact (Except.ok.inj h).symm

theorem Resolved.isLaidOut {ss : List Node} {code : String} (h : Resolved ss)
    (he : (program ss).emit = .ok code) : IsLaidOut code := by
  rw [eq_of_emit he]
  exact (Node.laid_block (fun s hs => (h.formed s hs).writesLaid) h.lexical 0 0).isLaidOut

/-- Whatever source is compiled, and with or without simplification, the brackets of the text match
and its lines are indented by its braces. -/
theorem emitted_text_laid_out {source : String} {tree : Tree} {ss : List Node}
    (hp : parse source = .ok tree) (ha : analyze tree = .ok ss) :
    (∃ plain, (program ss).emit = .ok plain ∧ IsLaidOut plain) ∧
    ∃ ss' code, (program ss).optimize = .ok (program ss') ∧ (program ss').emit = .ok code ∧
      compile source .generated = .ok (.message code) ∧ IsLaidOut code := by
  have h := resolved_of_analyze hp ha
  obtain ⟨plain, hplain⟩ := Node.emit_program h.formed h.closed
  obtain ⟨code, hcode⟩ := Node.emit_program h.simplified.formed h.simplified.closed
  refine ⟨⟨plain, hplain, h.isLaidOut hplain⟩, _, code, Node.optimize_program h.formed, hcode, ?_,
    h.simplified.isLaidOut hcode⟩
  exact compile_generated hp ha (Node.blockFault?_block h.formed) hcode

/-- A chain of choices in a loop, a handler, and a string with braces, a quote and a line end in
it. -/
theorem emitted_text_laid_out_chain :
    ∃ tree ss plain code,
      parse ("x in [1, 2]: ? x < 2: log(\"\x7d \\\" (\\n\");! ? x > 2: d = \x7bk: x\x7d;" ++
        "! : t: th x; e(a, b): log(#a);;;") = .ok tree ∧ analyze tree = .ok ss ∧
      (Node.blockLines 0 ss 0).1.length = 13 ∧ (program ss).emit = .ok plain ∧ IsLaidOut plain ∧
      compile ("x in [1, 2]: ? x < 2: log(\"\x7d \\\" (\\n\");! ? x > 2: d = \x7bk: x\x7d;" ++
        "! : t: th x; e(a, b): log(#a);;;") .generated = .ok (.message code) ∧ IsLaidOut code := by
  obtain ⟨tree, ss, hp, ha, hlength⟩ := exists_of_resolvesTo
    (show resolvesTo
      ("x in [1, 2]: ? x < 2: log(\"\x7d \\\" (\\n\");! ? x > 2: d = \x7bk: x\x7d;" ++
        "! : t: th x; e(a, b): log(#a);;;")
      (fun ss => (Node.blockLines 0 ss 0).1.length == 13) from by decide +kernel)
  obtain ⟨⟨plain, hplain, hlaid⟩, ss', code, -, -, hcompile, hsimpler⟩ :=
    emitted_text_laid_out hp ha
  exact ⟨tree, ss, plain, code, hp, ha, beq_iff_eq.1 hlength, hplain, hlaid, hcompile, hsimpler⟩

end Terse
