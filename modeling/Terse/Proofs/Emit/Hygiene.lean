import Mathlib.Data.List.Nodup
import Terse.Proofs.Analysis.Numbered
import Terse.Proofs.JavaScript.Binding
import Terse.Proofs.Pipeline.Total

/-! The names that an emitted program binds are the names of its declarations and the counters of
its repetitions, each of them once, and the parameters of its factorials. -/
namespace Terse

open JavaScript (Binds BindsBefore Free Identifier Introduces arrowNames arrowParams bound)
open Node (Occurs declared declaredBlock factorialsIn program)

/-! ### Lines -/

/-- The names that lines bind together, in any order. -/
inductive LinesBind : List Line → List (List Char) → Prop
  | nil : LinesBind [] []
  | cons {l : Line} {ls : List Line} {xs ys : List (List Char)} :
      Binds l.text xs → LinesBind ls ys → LinesBind (l :: ls) (xs ++ ys)
  | perm {ls : List Line} {xs ys : List (List Char)} :
      LinesBind ls xs → xs.Perm ys → LinesBind ls ys

/-- Lines bind what each of them binds. -/
theorem LinesBind.append {ls ms : List Line} {xs ys : List (List Char)} (h : LinesBind ls xs)
    (h' : LinesBind ms ys) : LinesBind (ls ++ ms) (xs ++ ys) := by
  induction h with
  | nil => exact h'
  | cons hl _ ih =>
    rw [List.append_assoc]
    exact .cons hl ih
  | perm _ hp ih => exact .perm ih (hp.append_right ys)

/-- Indentation holds no tokens. -/
theorem lex_render (l : Line) (rest : List Char) :
    JavaScript.lex (l.render.toList ++ rest) = JavaScript.lex (l.text.toList ++ rest) := by
  have hindent (n : Nat) (cs : List Char) :
      JavaScript.lex (("".pushn ' ' n).toList ++ cs) = JavaScript.lex cs := by
    induction n generalizing cs with
    | zero => rfl
    | succ n ih =>
      have hpush : ("".pushn ' ' (n + 1)).toList = ("".pushn ' ' n).toList ++ [' '] :=
        String.toList_push ' '
      rw [hpush, List.append_assoc, ih]
      exact JavaScript.lex_space
  rw [Line.render, String.toList_append, List.append_assoc, hindent]

/-- The text of lines binds their names, whatever text comes after it. -/
theorem LinesBind.introduces {ls : List Line} {names : List (List Char)} {rest : List Char}
    (h : LinesBind ls names) (hrest : Free (JavaScript.lex rest)) :
    ∃ xs : List (List Char), xs.Perm names ∧
      Introduces xs (JavaScript.lex ((renderLines ls).toList ++ rest)) (JavaScript.lex rest) := by
  induction h with
  | nil => exact ⟨[], .refl _, .refl hrest⟩
  | @cons l ls xs ys hl _ ih =>
    obtain ⟨zs, hzs, htail⟩ := ih
    refine ⟨xs ++ zs, hzs.append_left xs, ?_⟩
    cases ls with
    | nil =>
      have hone : renderLines [l] = l.render := by simp [renderLines]
      rw [hone, lex_render]
      exact (hl rest hrest).trans htail
    | cons m ms =>
      have hjoin : (renderLines (l :: m :: ms)).toList ++ rest =
          l.render.toList ++ '\n' :: ((renderLines (m :: ms)).toList ++ rest) := by
        simp [renderLines]
      rw [← JavaScript.lex_blank (c := '\n') rfl] at htail
      rw [hjoin, lex_render]
      exact (hl _ htail.free).trans htail
  | perm _ hp ih =>
    obtain ⟨zs, hzs, hlines⟩ := ih
    exact ⟨zs, hzs.trans hp, hlines⟩

/-! ### Statements -/

/-- The counters of `m` repetitions after the first `n`. -/
def counters (n m : Nat) : List (List Char) :=
  (List.range' (n + 1) m).map fun i => (counterName i).toList

theorem counters_succ (n m : Nat) :
    counters n (m + 1) = (counterName (n + 1)).toList :: counters (n + 1) m := by
  rw [counters, List.range'_succ, List.map_cons, counters]

theorem counters_add (n m m' : Nat) :
    counters n (m + m') = counters n m ++ counters (n + m) m' := by
  rw [counters, ← List.range'_append_1, List.map_append, counters, counters, Nat.add_right_comm]

/-- Lines that were written after `n` repetitions bind these symbols, a counter for each repetition
in them, and the parameters of `k` factorials. -/
def Writes (out : List Line × Nat) (n : Nat) (ss : List Symbol) (k : Nat) : Prop :=
  ∃ m, out.2 = n + m ∧ LinesBind out.1 (ss.map (·.code.toList) ++ counters n m ++ arrowParams k)

variable {ss ts : List Symbol} {n depth j k : Nat} {text : String} {a b : List Line × Nat}

theorem writes_line (h : Binds text (ss.map (·.code.toList) ++ arrowParams k)) :
    Writes ([⟨depth, text⟩], n) n ss k := by
  have hnames : ss.map (·.code.toList) ++ counters n 0 ++ arrowParams k =
      ss.map (·.code.toList) ++ arrowParams k ++ [] := by simp [counters]
  exact ⟨0, rfl, hnames ▸ .cons h .nil⟩

theorem JavaScript.Binds.noParams {xs : List (List Char)} (h : Binds text xs) :
    Binds text (xs ++ arrowParams 0) := by
  rwa [show arrowParams 0 = [] from rfl, List.append_nil]

theorem writes_plain (h : Binds text []) : Writes ([⟨depth, text⟩], n) n [] 0 := writes_line h

/-- One part after the other, with the counters of the second after those of the first. -/
theorem Writes.append (ha : Writes a n ss j) (hb : Writes b a.2 ts k) :
    Writes (a.1 ++ b.1, b.2) n (ss ++ ts) (j + k) := by
  obtain ⟨m, hm, ha⟩ := ha
  obtain ⟨m', hm', hb⟩ := hb
  rw [hm] at hm' hb
  refine ⟨m + m', by dsimp only; omega, (ha.append hb).perm (List.perm_iff_count.2 fun w => ?_)⟩
  rw [List.map_append, counters_add, JavaScript.arrowParams_add]
  simp only [List.count_append]
  omega

theorem Writes.of_eq (h : Writes a n ss j) (he : j = k) : Writes a n ss k := he ▸ h

theorem binds_brace : Binds "\x7d" [] := JavaScript.binds_opener (by decide)

theorem Writes.closed (h : Writes a n ss k) (depth : Nat) :
    Writes (a.1 ++ [⟨depth, "\x7d"⟩], a.2) n ss k := by
  rw [← List.append_nil ss]
  exact h.append (writes_plain binds_brace)

/-- A block between its head and the brace that ends it. -/
theorem Writes.enclosed (hb : Writes b n ts k) (ss : List Symbol)
    (h : Binds text (ss.map (·.code.toList) ++ arrowParams j)) :
    Writes (⟨depth, text⟩ :: b.1 ++ [⟨depth, "\x7d"⟩], b.2) n (ss ++ ts) (j + k) := by
  have hhead : Writes ([⟨depth, text⟩], n) n ss j := writes_line h
  exact (hhead.append hb).closed depth

/-- The head of a repetition binds its counter, and the body goes on counting. -/
theorem Writes.repeated (hb : Writes b (n + 1) ts k)
    (h : Binds text ((counterName (n + 1)).toList :: arrowParams j)) :
    Writes (⟨depth, text⟩ :: b.1 ++ [⟨depth, "\x7d"⟩], b.2) n ts (j + k) := by
  obtain ⟨m, hm, hlines⟩ := hb
  have hclose : LinesBind [⟨depth, "\x7d"⟩] ([] ++ []) := .cons binds_brace .nil
  refine ⟨m + 1, by dsimp only; omega, ((LinesBind.cons h hlines).append hclose).perm
    (List.perm_iff_count.2 fun w => ?_)⟩
  rw [counters_succ, JavaScript.arrowParams_add]
  simp only [List.count_append, List.count_cons, List.count_nil]
  omega

namespace Node

open JavaScript (arrowParams_add binds_opener bindsBefore_code identifier_code identifier_counter)

variable {path : List Region}

theorem identifier_symbol {s : Symbol} (hl : Everywhere Lexical path (symbol s))
    (hs : s.isIntrinsic = false) : Identifier s.code.toList :=
  identifier_code (everywhere_iff.1 hl).1 hs

theorem identifier_symbols {ps : List Symbol} (hl : EverywhereIn Lexical path (ps.map symbol))
    (hps : ∀ p ∈ ps, p.isWritable) : ∀ p ∈ ps, Identifier p.code.toList := fun p hp =>
  identifier_symbol (hl _ (List.mem_map_of_mem hp)) (isIntrinsic_of_isWritable (hps p hp))

theorem binds_forHead {v start stop step : String} {xs ys zs : List (List Char)}
    (hv : Identifier v.toList) (hstart : BindsBefore start xs) (hstop : BindsBefore stop ys)
    (hstep : BindsBefore (v ++ step) zs) :
    Binds (forHead v start stop step) (v.toList :: (xs ++ (ys ++ zs))) := by
  have hinit : Binds ("for (let " ++ v ++ " = ") [v.toList] := hv.binds (.inr rfl) (by decide)
  have hlow := hinit.around hstart (b := "; ") (by decide)
  have htest := hlow.around hv.bindsBefore (b := " < ") (by decide)
  have hhigh := htest.around hstop (b := "; ") (by decide)
  have hall := hhigh.around hstep (b := ") \x7b") (by decide)
  rw [List.append_nil, List.append_assoc, List.append_assoc, ← String.append_assoc] at hall
  exact hall

theorem binds_empty : Binds "" [] := fun _ hrest => .refl hrest

theorem bindsBefore_zero : BindsBefore "0" [] := by
  have hlexical : Everywhere Lexical [] (number (.int 0)) := everywhere_iff.2 ⟨trivial, trivial⟩
  exact bindsBefore_code (.number (.int 0)) hlexical

/-- Wherever a statement is written, it binds what it declares and the parameters of its
factorials. -/
def WritesDeclared (s : Node) : Prop :=
  ∀ {path : List Region}, Everywhere Lexical path s → ∀ (depth : Nat) {lead : String},
    Binds lead [] → ∀ n, Writes (lines depth lead s n) n s.declared s.factorials

theorem writes_block {ss : List Node} (h : ∀ s ∈ ss, WritesDeclared s)
    (hl : EverywhereIn Lexical path ss) (depth n : Nat) :
    Writes (blockLines depth ss n) n (declaredBlock ss) (factorialsIn ss) := by
  induction ss generalizing n with
  | nil => exact ⟨0, rfl, .nil⟩
  | cons s ss ih =>
    obtain ⟨hfirst, hrest⟩ := List.forall_mem_cons.1 h
    obtain ⟨hl, hls⟩ := List.forall_mem_cons.1 hl
    rw [factorialsIn_cons]
    exact (hfirst hl depth binds_empty n).append (ih hrest hls _)

theorem binds_if {lead : String} {test : Node} (hlead : Binds lead []) (ht : IsExp .value test)
    (hl : Everywhere Lexical path test) :
    Binds (lead ++ "if (" ++ test.code ++ ") \x7b") (arrowParams test.factorials) :=
  (hlead.append (binds_opener (by decide))).around (bindsBefore_code ht hl) (by decide)

/-- A statement binds what it declares, a counter for each repetition in it, and four parameters for
each factorial. -/
theorem IsStmt.writesDeclared {s : Node} (h : IsStmt s) : WritesDeclared s := by
  induction h with
  | declare hw he =>
    intro path hl depth lead _ n
    obtain ⟨-, hv, hl⟩ := everywhere_iff.1 hl
    have hname := identifier_symbol hv (isIntrinsic_of_isWritable hw)
    have hinit := hname.binds (.inl rfl) (b := " = ") (by decide)
    exact writes_line (hinit.around (bindsBefore_code he hl) (by decide))
  | assign _ ht he =>
    intro path hl depth lead _ n
    obtain ⟨-, htl, hel⟩ := everywhere_iff.1 hl
    have htarget := (bindsBefore_code ht htl).binds (b := " = ") (by decide)
    have hline := htarget.around (bindsBefore_code he hel) (b := ";") (by decide)
    rw [← arrowParams_add, ← factorials_assign] at hline
    exact writes_line hline
  | print he =>
    intro path hl depth lead _ n
    exact writes_line (JavaScript.binds_print.around
      (bindsBefore_code he (everywhere_iff.1 hl).2) (by decide))
  | @ifElse test yes no ht _ _ ihy ihn =>
    intro path hl depth lead hlead n
    obtain ⟨-, hlt, hln, hly⟩ := everywhere_iff.1 hl
    have hhead : Writes ([⟨depth, _⟩], n) n [] _ := writes_line (binds_if hlead ht hlt)
    have hyes := hhead.append (writes_block ihy hly (depth + 1) n)
    rw [factorials_ifElse]
    cases no with
    | nil => exact hyes.append (writes_plain binds_brace)
    | cons s ss =>
      have helse (n : Nat) : Writes ([⟨depth, "\x7d else \x7b"⟩], n) n [] 0 :=
        writes_plain (binds_opener (by decide))
      have hno := writes_block ihn (everywhere_iff.1 hln).2 (depth + 1)
      have hall := (hyes.append ((helse _).append (hno _))).closed depth
      exact hall.of_eq (by rw [Nat.zero_add]; rfl)
  | @ifChain test next yes ht _ hc _ ihy ihn =>
    intro path hl depth lead hlead n
    obtain ⟨-, hlt, hln, hly⟩ := everywhere_iff.1 hl
    have hhead : Writes ([⟨depth, _⟩], n) n [] _ := writes_line (binds_if hlead ht hlt)
    have hyes := hhead.append (writes_block ihy hly (depth + 1) n)
    have hnext := ihn hln depth (binds_opener (b := "\x7d else ") (by decide))
    rw [factorials_ifElse]
    cases next with
    | ifElse | ifOnly => exact hyes.append (hnext _)
    | _ => contradiction
  | @ifOnly test body ht _ ih =>
    intro path hl depth lead hlead n
    obtain ⟨-, hlt, hlb⟩ := everywhere_iff.1 hl
    rw [factorials_guarded test body _ (by simp)]
    exact (writes_block ih hlb (depth + 1) n).enclosed [] (binds_if hlead ht hlt)
  | @whileLoop test body ht _ ih =>
    intro path hl depth lead _ n
    obtain ⟨-, hlt, hlb⟩ := everywhere_iff.1 hl
    have hwhile : Binds "while (" [] := binds_opener (by decide)
    have hhead := hwhile.around (bindsBefore_code ht hlt) (b := ") \x7b") (by decide)
    rw [factorials_guarded test body _ (by simp)]
    exact (writes_block ih hlb (depth + 1) n).enclosed [] hhead
  | @repeatLoop count body ht _ ih =>
    intro path hl depth lead _ n
    obtain ⟨-, hlt, hlb⟩ := everywhere_iff.1 hl
    have hv := identifier_counter (n + 1)
    have hhead := binds_forHead hv bindsBefore_zero (bindsBefore_code ht hlt) hv.increment
    rw [List.append_nil] at hhead
    rw [factorials_guarded count body _ (by simp)]
    exact (writes_block ih hlb (depth + 1) (n + 1)).repeated hhead
  | rangeLoop hw hlow hhigh hs _ ih =>
    intro path hl depth lead _ n
    obtain ⟨-, hlv, hll, hlh, hls, hlb⟩ := everywhere_iff.1 hl
    have hv := identifier_symbol hlv (isIntrinsic_of_isWritable hw)
    have hplus := hv.bindsBefore.binds (b := " += ") (by decide)
    have hstep := hplus.bindsBefore (bindsBefore_code hs hls)
    rw [String.append_assoc] at hstep
    have hhead := binds_forHead hv (bindsBefore_code hlow hll) (bindsBefore_code hhigh hlh) hstep
    rw [← arrowParams_add, ← arrowParams_add] at hhead
    rw [factorials_rangeLoop]
    exact (writes_block ih hlb (depth + 1) n).enclosed [_] hhead
  | eachLoop hw hc _ ih =>
    intro path hl depth lead _ n
    obtain ⟨-, hlv, hlc, hlb⟩ := everywhere_iff.1 hl
    have hv := identifier_symbol hlv (isIntrinsic_of_isWritable hw)
    have hinit := hv.binds (.inr rfl) (b := " of ") (by decide)
    have hhead := hinit.around (bindsBefore_code hc hlc) (b := ") \x7b") (by decide)
    rw [factorials_eachLoop]
    exact (writes_block ih hlb (depth + 1) n).enclosed [_] hhead
  | breakLoop | continueLoop | returnNone =>
    intro path hl depth lead _ n
    exact writes_plain (binds_opener (by decide))
  | returnValue he | throwValue he =>
    intro path hl depth lead _ n
    have hvalue := bindsBefore_code he (everywhere_iff.1 hl).2
    exact writes_line (Binds.around (binds_opener (by decide)) hvalue (by decide))
  | @tryCatch ps body handler hp _ _ ihb ihh =>
    intro path hl depth lead _ n
    obtain ⟨-, hlb, hlp, hlh⟩ := everywhere_iff.1 hl
    have htry (n : Nat) : Writes ([⟨depth, "try \x7b"⟩], n) n [] 0 :=
      writes_plain (binds_opener (by decide))
    have hcatch (n : Nat) : Writes ([⟨depth, catchHead (ps.map symbol)⟩], n) n ps 0 :=
      writes_line (JavaScript.binds_catchHead (identifier_symbols hlp hp)).noParams
    have hbody := (htry n).append (writes_block ihb hlb (depth + 1) n)
    have hhandler (n : Nat) := (hcatch n).append (writes_block ihh hlh (depth + 1) n)
    have hsymbols : declared (.tryCatch body (ps.map symbol) handler) =
        [] ++ declaredBlock body ++ (ps ++ declaredBlock handler) := by simp [declared]
    rw [hsymbols, factorials_tryCatch]
    exact ((hbody.append (hhandler _)).closed depth).of_eq (by simp)
  | @function f ps body _ hf hp _ ih =>
    intro path hl depth lead _ n
    obtain ⟨-, hlf, hlp, hlb⟩ := everywhere_iff.1 hl
    have hhead := JavaScript.binds_functionHead (identifier_symbol hlf hf)
      (identifier_symbols hlp hp)
    have hsymbols : declared (.function (symbol f) (ps.map symbol) body) =
        (f :: ps) ++ declaredBlock body := by simp [declared, symbols]
    rw [hsymbols, factorials_function, ← Nat.zero_add (factorialsIn body)]
    exact (writes_block ih hlb (depth + 1) n).enclosed (f :: ps) hhead.noParams
  | callAlone _ he =>
    intro path hl depth lead _ n
    exact writes_line ((bindsBefore_code he (everywhere_iff.1 hl).2).binds (by decide))
  | incr he | decr he =>
    intro path hl depth lead _ n
    have hvalue := bindsBefore_code (.unary (by decide) he) hl
    exact writes_line (hvalue.binds (b := ";") (by decide))

mutual

/-- How many repetitions a statement has in it. -/
def repetitions : Node → Nat
  | repeatLoop _ body => repetitionsIn body + 1
  | ifOnly _ body | whileLoop _ body | rangeLoop _ _ _ _ body | eachLoop _ _ body
  | function _ _ body | list body => repetitionsIn body
  | ifElse _ yes no => repetitionsIn yes + repetitions no
  | tryCatch body _ handler => repetitionsIn body + repetitionsIn handler
  | _ => 0
termination_by structural n => n

def repetitionsIn : List Node → Nat
  | [] => 0
  | s :: ss => repetitions s + repetitionsIn ss
termination_by structural ss => ss

end

/-- A block takes one counter for each repetition in it. -/
theorem snd_blockLines {ss : List Node}
    (h : ∀ s ∈ ss, ∀ depth lead n, (lines depth lead s n).2 = n + s.repetitions) (depth n : Nat) :
    (blockLines depth ss n).2 = n + repetitionsIn ss := by
  induction ss generalizing n with
  | nil => rfl
  | cons s ss ih =>
    obtain ⟨hs, hss⟩ := List.forall_mem_cons.1 h
    have hrest := ih hss (lines depth "" s n).2
    rw [hs] at hrest
    rw [repetitionsIn, ← Nat.add_assoc, ← hrest, ← hs depth "" n]
    rfl

/-- Repetitions are counted without a gap. -/
theorem IsStmt.snd_lines {s : Node} (h : IsStmt s) :
    ∀ depth lead n, (lines depth lead s n).2 = n + s.repetitions := by
  induction h with
  | declare | assign | print | breakLoop | continueLoop | returnValue | returnNone | throwValue
  | callAlone | incr | decr => exact fun _ _ _ => rfl
  | ifOnly _ _ ih | whileLoop _ _ ih | rangeLoop _ _ _ _ _ ih | eachLoop _ _ _ ih
  | function _ _ _ _ ih => exact fun depth _ n => snd_blockLines ih (depth + 1) n
  | @repeatLoop _ body _ _ ih =>
    intro depth _ n
    have hcount : n + 1 + repetitionsIn body = n + (repetitionsIn body + 1) := by omega
    exact (snd_blockLines ih (depth + 1) (n + 1)).trans hcount
  | tryCatch _ _ _ ihb ihh =>
    intro depth _ n
    refine (snd_blockLines ihh (depth + 1) _).trans ?_
    rw [snd_blockLines ihb, Nat.add_assoc]
    rfl
  | @ifElse _ _ no _ _ _ ihy ihn =>
    intro depth _ n
    cases no with
    | nil => exact snd_blockLines ihy (depth + 1) n
    | cons s ss =>
      refine (snd_blockLines ihn (depth + 1) _).trans ?_
      rw [snd_blockLines ihy, Nat.add_assoc]
      rfl
  | @ifChain _ next _ _ _ hc _ ihy ihn =>
    intro depth _ n
    cases next with
    | ifElse | ifOnly =>
      refine (ihn depth "\x7d else " _).trans ?_
      rw [snd_blockLines ihy, Nat.add_assoc]
      rfl
    | _ => contradiction

end Node

/-! ### Names -/

theorem eq_of_toDigits {m n : Nat} (h : Nat.toDigits 10 m = Nat.toDigits 10 n) : m = n := by
  have hvalue := congrArg (Nat.ofDigitChars 10 · 0) h
  simpa only [Nat.ofDigitChars_ten_toDigits] using hvalue

theorem notMem_toDigits {c : Char} (h : c.isDigit = false) (n : Nat) : c ∉ Nat.toDigits 10 n := by
  intro hc
  rw [(isDigits_toDigits n).2 c hc] at h
  contradiction

/-- The number of a symbol is what follows the last underscore of its name. -/
theorem uid_eq_of_code {s t : Symbol} (hs : s.isIntrinsic = false) (ht : t.isIntrinsic = false)
    (h : s.code = t.code) : s.uid = t.uid := by
  have hdigits {s : Symbol} (hs : s.isIntrinsic = false) :
      s.code.toList.reverse.takeWhile Char.isDigit = (Nat.toDigits 10 s.uid).reverse := by
    rw [JavaScript.toList_code hs, List.reverse_append, List.reverse_cons, List.append_assoc]
    refine JavaScript.takeWhile_of_apart (fun d hd => ?_) (by simp)
    exact (isDigits_toDigits s.uid).2 d (List.mem_reverse.1 hd)
  have hreverse : (Nat.toDigits 10 s.uid).reverse = (Nat.toDigits 10 t.uid).reverse := by
    rw [← hdigits hs, ← hdigits ht, h]
  exact eq_of_toDigits (List.reverse_injective hreverse)

theorem counterName_injective : Function.Injective counterName := by
  intro m n h
  have hchars := congrArg String.toList h
  rw [JavaScript.toList_counterName, JavaScript.toList_counterName] at hchars
  exact eq_of_toDigits (List.tail_eq_of_cons_eq (List.tail_eq_of_cons_eq hchars))

theorem exists_of_mem_freshNames {w : String} {m : Nat} (h : w ∈ freshNames "_i" m) :
    ∃ n, w = counterName n := by
  obtain ⟨i, -, rfl⟩ := List.mem_map.1 h
  exact ⟨i + 1, rfl⟩

/-- A counter starts with an underscore, and no name of a source text does. -/
theorem not_isName_counterName (n : Nat) : ¬ IsName (counterName n).toList := by
  rintro ⟨c, cs, hcs, hc, -⟩
  rw [JavaScript.toList_counterName] at hcs
  obtain ⟨rfl, -⟩ := List.cons.inj hcs
  contradiction

theorem dot_not_mem_of_isName {cs : List Char} (h : IsName cs) : '.' ∉ cs := by
  intro hdot
  have hword := JavaScript.isWordChar_of_isName h '.' hdot
  contradiction

theorem dot_not_mem_counterName (n : Nat) : '.' ∉ (counterName n).toList := by
  rw [JavaScript.toList_counterName]
  simp only [List.mem_cons, not_or]
  refine ⟨by decide, by decide, fun hdot => ?_⟩
  have hdigit := (isDigits_toDigits n).2 '.' hdot
  contradiction

theorem dot_mem_of_library {s : Symbol} (h : s ∈ Symbol.library) : '.' ∈ s.code.toList := by
  revert s
  decide

/-- The names that a text binds, the parameters of its arrow functions among them. -/
def boundNames (code : String) : List String := (bound code.toList).map String.ofList

/-- The text of a program binds a name for each of its declarations, a counter for each of its
repetitions, and the same four parameters for each of its factorials. All names but these parameters
are bound once, and none can be taken for another or for something of the language. -/
structure Hygienic (ss : List Node) (code : String) : Prop where
  bound : (boundNames code).Perm
    ((declaredBlock ss).map (·.code) ++ freshNames "_i" (Node.repetitionsIn ss) ++
      (List.replicate (factorialsIn ss) arrowNames).flatten)
  distinct : ((boundNames code).filter (· ∉ arrowNames)).Nodup
  not_arrow : ∀ w ∈ (declaredBlock ss).map (·.code) ++ freshNames "_i" (Node.repetitionsIn ss),
    w ∉ arrowNames
  undotted : ∀ w ∈ boundNames code, '.' ∉ w.toList
  not_library : ∀ w ∈ boundNames code, w ∉ intrinsicNames.map (·.2)
  counted_once : ∀ w ∈ freshNames "_i" (Node.repetitionsIn ss), (boundNames code).count w = 1
  not_counter : ∀ s ∈ declaredBlock ss, ∀ n, s.code ≠ counterName n
  injective {s t : Symbol} : Occurs s (program ss) → Occurs t (program ss) →
    s.target? = t.target? → s = t

/-- A closed program whose declarations can be written as names and have numbers of their own. -/
structure Resolved (ss : List Node) : Prop where
  formed : ∀ s ∈ ss, Node.IsStmt s
  closed : Node.WellScoped ss
  lexical : Node.EverywhereIn Node.Lexical [] ss
  numbered : ((declaredBlock ss).map (·.uid)).Nodup

namespace Resolved

variable {ss : List Node} {s t : Symbol}

theorem isIntrinsic_eq_false (h : Resolved ss) (hs : s ∈ declaredBlock ss) :
    s.isIntrinsic = false := by
  rw [Node.declaredBlock_eq, List.mem_flatMap] at hs
  obtain ⟨n, hn, hs⟩ := hs
  exact (h.formed n hn).isIntrinsic_of_declared s hs

/-- A declared symbol is written as a name of the language. -/
theorem isName_code (h : Resolved ss) (hs : s ∈ declaredBlock ss) : IsName s.code.toList := by
  obtain ⟨n, hn, hoccurs⟩ := Node.exists_of_mem_declaredBlock ss hs
  exact JavaScript.isName_of_lexical (Node.lexical_of_occurs (h.lexical n hn) hoccurs)
    (h.isIntrinsic_eq_false hs)

theorem code_ne_counterName (h : Resolved ss) (hs : s ∈ declaredBlock ss) (n : Nat) :
    s.code ≠ counterName n := by
  intro he
  exact not_isName_counterName n (he ▸ h.isName_code hs)

theorem eq_of_code (h : Resolved ss) (hs : s ∈ declaredBlock ss) (ht : t ∈ declaredBlock ss)
    (he : s.code = t.code) : s = t := by
  have huid := uid_eq_of_code (h.isIntrinsic_eq_false hs) (h.isIntrinsic_eq_false ht) he
  exact List.inj_on_of_nodup_map h.numbered hs ht huid

/-- Symbols that occur in the program and are written alike are the same. -/
theorem eq_of_target? (h : Resolved ss) (hs : Occurs s (program ss)) (ht : Occurs t (program ss))
    (he : s.target? = t.target?) : s = t := by
  have hcode : s.code = t.code := congrArg (·.getD "") he
  have hmixed {s t : Symbol} (hs : s ∈ Symbol.library) (ht : t ∈ declaredBlock ss) :
      s.code ≠ t.code := by
    intro he
    exact dot_not_mem_of_isName (h.isName_code ht) (he ▸ dot_mem_of_library hs)
  rcases Node.mem_of_occurs_program h.formed h.closed hs with hs | hs
  · rcases Node.mem_of_occurs_program h.formed h.closed ht with ht | ht
    · have hall : ∀ s ∈ Symbol.library, ∀ t ∈ Symbol.library, s.code = t.code → s = t := by decide
      exact hall s hs t ht hcode
    · exact absurd hcode (hmixed hs ht)
  · rcases Node.mem_of_occurs_program h.formed h.closed ht with ht | ht
    · exact absurd hcode.symm (hmixed ht hs)
    · exact h.eq_of_code hs ht hcode

/-- The names of the declarations and the counters are all different. -/
theorem nodup_names (h : Resolved ss) (n : Nat) :
    ((declaredBlock ss).map (·.code) ++ freshNames "_i" n).Nodup := by
  have hdeclared : ((declaredBlock ss).map (·.code)).Nodup := by
    refine List.Nodup.map_on (fun s hs t ht he => h.eq_of_code hs ht he) ?_
    exact List.Nodup.of_map _ h.numbered
  have hcounters : (freshNames "_i" n).Nodup := by
    refine List.Nodup.map (fun i j he => ?_) List.nodup_range
    exact Nat.succ.inj (counterName_injective he)
  refine List.nodup_append.2 ⟨hdeclared, hcounters, ?_⟩
  intro w hw v hv
  obtain ⟨s, hs, rfl⟩ := List.mem_map.1 hw
  obtain ⟨i, rfl⟩ := exists_of_mem_freshNames hv
  exact h.code_ne_counterName hs i

/-- The emitted text binds the declared symbols, the counters and the parameters of factorials, and
nothing else. -/
theorem perm_boundNames {code : String} (h : Resolved ss) (he : (program ss).emit = .ok code) :
    (boundNames code).Perm
      ((declaredBlock ss).map (·.code) ++ freshNames "_i" (Node.repetitionsIn ss) ++
        (List.replicate (factorialsIn ss) arrowNames).flatten) := by
  have hcode : code = renderLines (Node.blockLines 0 ss 0).1 := by
    rw [Node.emit] at he
    split at he
    · contradiction
    · exact (Except.ok.inj he).symm
  obtain ⟨n, hn, hlines⟩ :=
    Node.writes_block (fun s hs => (h.formed s hs).writesDeclared) h.lexical 0 0
  rw [Node.snd_blockLines fun s hs => (h.formed s hs).snd_lines] at hn
  obtain rfl : Node.repetitionsIn ss = n := Nat.add_left_cancel hn
  have hend : Free (JavaScript.lex []) := by
    rw [JavaScript.lex_nil]
    exact JavaScript.free_nil
  obtain ⟨xs, hperm, -, hbound⟩ := hlines.introduces hend
  have hnames : boundNames code = xs.map String.ofList := by
    rw [List.append_nil, ← hcode, JavaScript.lex_nil, JavaScript.bindings,
      List.append_nil] at hbound
    rw [boundNames, bound, hbound]
  have hcounters (n : Nat) : (counters 0 n).map String.ofList = freshNames "_i" n := by
    rw [counters, List.range'_eq_map_range, List.map_map, List.map_map, freshNames]
    refine List.map_congr_left fun i _ => ?_
    rw [Function.comp, Function.comp, String.ofList_toList, Nat.zero_add, Nat.add_comm]
    rfl
  have hparams (n : Nat) : (arrowParams n).map String.ofList =
      (List.replicate n arrowNames).flatten := by simp [arrowParams]
  rw [hnames]
  refine (hperm.map String.ofList).trans (.of_eq ?_)
  simp [hcounters, hparams]

theorem mem_arrowNames {w : String} {n : Nat}
    (h : w ∈ (List.replicate n arrowNames).flatten) : w ∈ arrowNames := by
  obtain ⟨names, hnames, hw⟩ := List.mem_flatten.1 h
  exact List.eq_of_mem_replicate hnames ▸ hw

/-- Each name is that of a declaration, a counter or a parameter of a factorial. -/
theorem exists_of_mem_boundNames {code w : String} (h : Resolved ss)
    (he : (program ss).emit = .ok code) (hw : w ∈ boundNames code) :
    (∃ s ∈ declaredBlock ss, w = s.code) ∨ (∃ n, w = counterName n) ∨ w ∈ arrowNames := by
  rcases List.mem_append.1 ((h.perm_boundNames he).mem_iff.1 hw) with hw | hw
  · rcases List.mem_append.1 hw with hw | hw
    · obtain ⟨s, hs, rfl⟩ := List.mem_map.1 hw
      exact .inl ⟨s, hs, rfl⟩
    · obtain ⟨i, rfl⟩ := exists_of_mem_freshNames hw
      exact .inr (.inl ⟨i, rfl⟩)
  · exact .inr (.inr (mem_arrowNames hw))

/-- No bound name holds a dot. -/
theorem dot_not_mem_boundNames {code w : String} (h : Resolved ss)
    (he : (program ss).emit = .ok code) (hw : w ∈ boundNames code) : '.' ∉ w.toList := by
  have harrow : ∀ w ∈ arrowNames, '.' ∉ w.toList := by decide
  obtain ⟨s, hs, rfl⟩ | ⟨n, rfl⟩ | hw := h.exists_of_mem_boundNames he hw
  · exact dot_not_mem_of_isName (h.isName_code hs)
  · exact dot_not_mem_counterName n
  · exact harrow w hw

/-- No declaration and no counter is called as a parameter of a factorial. -/
theorem not_mem_arrowNames {w : String} (h : Resolved ss) {n : Nat}
    (hw : w ∈ (declaredBlock ss).map (·.code) ++ freshNames "_i" n) : w ∉ arrowNames := by
  have hunderscore : ∀ w ∈ arrowNames, '_' ∈ w.toList → w.toList = ['_'] := by decide
  intro harrow
  rcases List.mem_append.1 hw with hw | hw
  · obtain ⟨s, hs, rfl⟩ := List.mem_map.1 hw
    have hcode := JavaScript.toList_code (h.isIntrinsic_eq_false hs)
    obtain ⟨c, cs, hcs, hc, -⟩ := h.isName_code hs
    rw [hunderscore _ harrow (by simp [hcode])] at hcs
    obtain ⟨rfl, -⟩ := List.cons.inj hcs
    contradiction
  · obtain ⟨n, rfl⟩ := exists_of_mem_freshNames hw
    have hchars := JavaScript.toList_counterName n
    rw [hunderscore _ harrow (by simp [hchars])] at hchars
    exact absurd (List.cons.inj hchars).2.symm (List.cons_ne_nil _ _)

/-- Without the parameters of factorials, each name is there once. -/
theorem nodup_boundNames {code : String} (h : Resolved ss) (he : (program ss).emit = .ok code) :
    ((boundNames code).filter (· ∉ arrowNames)).Nodup := by
  have hparams : ((List.replicate (factorialsIn ss) arrowNames).flatten).filter
      (· ∉ arrowNames) = [] := by
    refine List.filter_eq_nil_iff.2 fun w hw => ?_
    simpa using mem_arrowNames hw
  have hperm := (h.perm_boundNames he).filter (· ∉ arrowNames)
  rw [List.filter_append, hparams, List.append_nil] at hperm
  exact hperm.nodup_iff.2 ((h.nodup_names _).filter _)

/-- Every counter is bound once. -/
theorem count_counterName {code w : String} (h : Resolved ss) (he : (program ss).emit = .ok code)
    (hw : w ∈ freshNames "_i" (Node.repetitionsIn ss)) : (boundNames code).count w = 1 := by
  have harrow : w ∉ arrowNames := h.not_mem_arrowNames (List.mem_append_right _ hw)
  have hmem : w ∈ (boundNames code).filter (· ∉ arrowNames) := by
    refine List.mem_filter.2 ⟨(h.perm_boundNames he).mem_iff.2 ?_, by simpa using harrow⟩
    exact List.mem_append_left _ (List.mem_append_right _ hw)
  rw [← List.count_filter (p := (· ∉ arrowNames)) (by simpa using harrow)]
  exact List.count_eq_one_of_mem (h.nodup_boundNames he) hmem

theorem hygienic {code : String} (h : Resolved ss) (he : (program ss).emit = .ok code) :
    Hygienic ss code where
  bound := h.perm_boundNames he
  distinct := h.nodup_boundNames he
  not_arrow _ hw := h.not_mem_arrowNames hw
  undotted _ hw := h.dot_not_mem_boundNames he hw
  not_library w hw hlibrary := by
    have hall : ∀ w ∈ intrinsicNames.map (·.2), '.' ∈ w.toList := by decide
    exact h.dot_not_mem_boundNames he hw (hall w hlibrary)
  counted_once _ hw := h.count_counterName he hw
  not_counter _ hs n := h.code_ne_counterName hs n
  injective := h.eq_of_target?

/-- Simplification keeps a program resolved. -/
theorem simplified (h : Resolved ss) : Resolved (Node.simplifyBlock ss) where
  formed := Node.isStmt_simplified h.formed
  closed := Node.scopedBlock_simplifyBlock ss (Node.blockFault?_block h.formed) h.closed
  lexical := Node.everywhereIn_simplified Node.steady_lexical h.formed h.lexical
  numbered := by
    have hfewer := Node.declaredBlock_simplifyBlock ss (Node.blockFault?_block h.formed)
    exact (hfewer.map _).nodup h.numbered

end Resolved

/-- An accepted program is resolved. -/
theorem resolved_of_analyze {source : String} {tree : Tree} {ss : List Node}
    (hp : parse source = .ok tree) (ha : analyze tree = .ok ss) : Resolved ss where
  formed := isStmt_of_analyze hp ha
  closed := (wellScoped_of_analyze (isStmt_of_parse hp (spelled_lex _)) ha).1
  lexical := lexical_of_analyze hp ha
  numbered := by
    obtain ⟨n, hnumbered⟩ := numbered_of_analyze (isStmt_of_parse hp (spelled_lex _)) ha
    exact hnumbered.increasing.imp Nat.ne_of_lt

/-- Whatever source is compiled, and with or without simplification, the names in the text are
hygienic. -/
theorem emitted_names_hygienic {source : String} {tree : Tree} {ss : List Node}
    (hp : parse source = .ok tree) (ha : analyze tree = .ok ss) :
    (∃ plain, (program ss).emit = .ok plain ∧ Hygienic ss plain) ∧
    ∃ ss' code, (program ss).optimize = .ok (program ss') ∧ (program ss').emit = .ok code ∧
      compile source .generated = .ok (.message code) ∧ Hygienic ss' code := by
  have h := resolved_of_analyze hp ha
  obtain ⟨plain, hplain⟩ := Node.emit_program h.formed h.closed
  obtain ⟨code, hcode⟩ := Node.emit_program h.simplified.formed h.simplified.closed
  refine ⟨⟨plain, hplain, h.hygienic hplain⟩, _, code, Node.optimize_program h.formed, hcode, ?_,
    h.simplified.hygienic hcode⟩
  exact compile_generated hp ha (Node.blockFault?_block h.formed) hcode

/-- Names with underscores and numbers of their own, parameters that hide variables, two repetitions
and two factorials. -/
theorem emitted_names_hygienic_shadowed :
    ∃ tree ss plain code,
      parse ("x = 1 *. 3: x_1 = x F *. 2: y = x_1 F;; f g(x, y) => r x;" ++
        "t: th 1; e(a, b): log(a);") = .ok tree ∧ analyze tree = .ok ss ∧
      (program ss).emit = .ok plain ∧ (boundNames plain).Perm
        (["x_1", "x_1_2", "y_3", "g_4", "x_5", "y_6", "a_7", "b_8", "_i1", "_i2"] ++
          ["_", "i", "a", "b", "_", "i", "a", "b"]) ∧
      ((boundNames plain).filter (· ∉ arrowNames)).Nodup ∧
      compile ("x = 1 *. 3: x_1 = x F *. 2: y = x_1 F;; f g(x, y) => r x;" ++
        "t: th 1; e(a, b): log(a);") .generated = .ok (.message code) ∧
      ((boundNames code).filter (· ∉ arrowNames)).Nodup := by
  obtain ⟨tree, ss, hp, ha, hnames⟩ := exists_of_resolvesTo
    (show resolvesTo ("x = 1 *. 3: x_1 = x F *. 2: y = x_1 F;; f g(x, y) => r x;" ++
      "t: th 1; e(a, b): log(a);") (fun ss => (declaredBlock ss).map (·.code) ++
        freshNames "_i" (Node.repetitionsIn ss) ++
        (List.replicate (factorialsIn ss) arrowNames).flatten ==
        ["x_1", "x_1_2", "y_3", "g_4", "x_5", "y_6", "a_7", "b_8", "_i1", "_i2"] ++
          ["_", "i", "a", "b", "_", "i", "a", "b"]) from by
      decide +kernel)
  obtain ⟨⟨plain, hplain, hall⟩, ss', code, -, -, hcompile, hsimpler⟩ :=
    emitted_names_hygienic hp ha
  exact ⟨tree, ss, plain, code, hp, ha, hplain, beq_iff_eq.1 hnames ▸ hall.bound, hall.distinct,
    hcompile, hsimpler.distinct⟩

/-- Each factorial of a program calls its parameters the same. -/
theorem factorial_names_repeat :
    ∃ code, compile "log(3F) log(4F)" .generated = .ok (.message code) ∧
      (boundNames code).Perm ["_", "i", "a", "b", "_", "i", "a", "b"] ∧
      ¬ (boundNames code).Nodup := by
  obtain ⟨tree, ss, hp, ha, hnames⟩ := exists_of_resolvesTo
    (show resolvesTo "log(3F) log(4F)" (fun ss =>
        (declaredBlock (Node.simplifyBlock ss)).map (·.code) ++
        freshNames "_i" (Node.repetitionsIn (Node.simplifyBlock ss)) ++
        (List.replicate (factorialsIn (Node.simplifyBlock ss)) arrowNames).flatten ==
        ["_", "i", "a", "b", "_", "i", "a", "b"]) from by
      decide +kernel)
  have h := resolved_of_analyze hp ha
  obtain ⟨code, hcode⟩ := Node.emit_program h.simplified.formed h.simplified.closed
  have hbound : (boundNames code).Perm ["_", "i", "a", "b", "_", "i", "a", "b"] :=
    beq_iff_eq.1 hnames ▸ h.simplified.perm_boundNames hcode
  refine ⟨code, compile_generated hp ha (Node.blockFault?_block h.formed) hcode, hbound, ?_⟩
  rw [hbound.nodup_iff]
  decide

end Terse
