import Terse.Proofs.JavaScript.Literal
import Terse.Proofs.JavaScript.Tokens

/-! Brackets outside of string literals, and that those of an expression match. -/
namespace Terse

namespace JavaScript

/-- Outside of string literals, in one, or in one after a backslash. -/
inductive Quotation where
  | outside
  | inside
  | escaped
deriving DecidableEq

/-- What a text has come to: the brackets that are still to come, the next one first. -/
structure Nesting where
  awaited : List Char
  quotation : Quotation
deriving DecidableEq

def closing? : Char → Option Char
  | '(' => some ')'
  | '[' => some ']'
  | '\x7b' => some '\x7d'
  | _ => none

def isClosing (c : Char) : Bool := c = ')' || c = ']' || c = '\x7d'

/-- A closing bracket has to be the one that comes next. -/
def Nesting.step (s : Nesting) (c : Char) : Option Nesting :=
  match s.quotation with
  | .escaped => some ⟨s.awaited, .inside⟩
  | .inside =>
    some ⟨s.awaited, if c = '\\' then .escaped else if c = '"' then .outside else .inside⟩
  | .outside =>
    match closing? c with
    | some d => some ⟨d :: s.awaited, .outside⟩
    | none =>
      if isClosing c then
        if s.awaited.head? = some c then some ⟨s.awaited.tail, .outside⟩ else none
      else some ⟨s.awaited, if c = '"' then .inside else .outside⟩

def nest (s : Nesting) (cs : List Char) : Option Nesting := cs.foldlM Nesting.step s

/-- Outside of string literals all brackets match, and every literal is closed. -/
def IsBalanced (cs : List Char) : Prop := nest ⟨[], .outside⟩ cs = some ⟨[], .outside⟩

instance (cs : List Char) : Decidable (IsBalanced cs) := inferInstanceAs (Decidable (_ = _))

-- a bracket in a string literal is none, and brackets of two kinds do not match
example : IsBalanced "f(\")\")".toList ∧ ¬ IsBalanced "([)]".toList := by decide

variable {c : Char} {cs ds es fs : List Char} {s s' : Nesting} {q q' : Quotation}

theorem nest_cons (s : Nesting) (c : Char) (cs : List Char) :
    nest s (c :: cs) = (s.step c).bind (nest · cs) := List.foldlM_cons

theorem nest_append (h : nest s cs = some s') : nest s (cs ++ ds) = nest s' ds := by
  rw [nest, List.foldlM_append]
  change (nest s cs).bind _ = _
  rw [h]
  rfl

/-- Brackets that are awaited further out make no difference to one character. -/
theorem step_frame (rest : List Char) (h : Nesting.step ⟨ds, q⟩ c = some ⟨es, q'⟩) :
    Nesting.step ⟨ds ++ rest, q⟩ c = some ⟨es ++ rest, q'⟩ := by
  unfold Nesting.step at h ⊢
  cases q with
  | escaped | inside =>
    obtain ⟨rfl, rfl⟩ := Nesting.mk.inj (Option.some.inj h)
    rfl
  | outside =>
    dsimp only at h ⊢
    cases hopen : closing? c with
    | some d =>
      rw [hopen] at h
      obtain ⟨rfl, rfl⟩ := Nesting.mk.inj (Option.some.inj h)
      rfl
    | none =>
      rw [hopen] at h
      dsimp only at h ⊢
      by_cases hclose : isClosing c
      · rw [if_pos hclose] at h ⊢
        split at h
        · rename_i hhead
          obtain ⟨rfl, rfl⟩ := Nesting.mk.inj (Option.some.inj h)
          obtain ⟨ds, rfl⟩ := List.head?_eq_some_iff.1 hhead
          exact if_pos rfl
        · contradiction
      · rw [if_neg hclose] at h ⊢
        obtain ⟨rfl, rfl⟩ := Nesting.mk.inj (Option.some.inj h)
        rfl

/-- Brackets that are open around a text do not matter to it. -/
theorem nest_frame (rest : List Char) (h : nest ⟨ds, q⟩ cs = some ⟨es, q'⟩) :
    nest ⟨ds ++ rest, q⟩ cs = some ⟨es ++ rest, q'⟩ := by
  induction cs generalizing ds q with
  | nil =>
    obtain ⟨rfl, rfl⟩ := Nesting.mk.inj (Option.some.inj h)
    rfl
  | cons c cs ih =>
    rw [nest_cons] at h ⊢
    obtain ⟨⟨fs, q''⟩, hstep, h⟩ := Option.bind_eq_some_iff.1 h
    rw [step_frame rest hstep]
    exact ih h

/-! ### Texts on one line -/

/-- A text without a line end that starts and ends outside of string literals, takes the closing
brackets `ds` and leaves the closing brackets `es` to come. -/
def Spans (text : String) (ds es : List Char) : Prop :=
  nest ⟨ds, .outside⟩ text.toList = some ⟨es, .outside⟩ ∧ '\n' ∉ text.toList

instance (text : String) (ds es : List Char) : Decidable (Spans text ds es) :=
  inferInstanceAs (Decidable (_ ∧ _))

variable {a b e text : String}

/-- A text that ends with the brackets that the next one starts with. -/
theorem Spans.append (ha : Spans a ds es) (hb : Spans b es fs) : Spans (a ++ b) ds fs := by
  obtain ⟨ha, hna⟩ := ha
  obtain ⟨hb, hnb⟩ := hb
  refine ⟨?_, ?_⟩
  · rw [String.toList_append, nest_append ha, hb]
  · simp [hna, hnb]

theorem Spans.frame (h : Spans text ds es) (rest : List Char) :
    Spans text (ds ++ rest) (es ++ rest) := ⟨nest_frame rest h.1, h.2⟩

/-- A part whose brackets match, between fixed texts. -/
theorem Spans.around (ha : Spans a ds es) (he : Spans e [] []) (hb : Spans b es fs) :
    Spans (a ++ e ++ b) ds fs := (ha.append (he.frame es)).append hb

/-- Characters that stand for themselves wherever they are. -/
def isInert (c : Char) : Bool := !"()[]\x7b\x7d\"\n".toList.contains c

theorem step_inert (h : isInert c) : Nesting.step ⟨ds, .outside⟩ c = some ⟨ds, .outside⟩ := by
  simp only [isInert, Bool.not_eq_true', List.contains_eq_mem, decide_eq_false_iff_not] at h
  have hopen : closing? c = none := by
    unfold closing?
    split <;> first | rfl | (exfalso; exact h (by decide))
  have hclose : isClosing c = false := by
    by_contra hclose
    simp only [isClosing, Bool.not_eq_false, Bool.or_eq_true, decide_eq_true_eq] at hclose
    rcases hclose with (rfl | rfl) | rfl <;> exact h (by decide)
  have hquote : c ≠ '"' := by
    rintro rfl
    exact h (by decide)
  simp [Nesting.step, hopen, hclose, hquote]

/-- A text with neither brackets nor quotes. -/
theorem spans_inert (h : ∀ c ∈ text.toList, isInert c) : Spans text [] [] := by
  refine ⟨?_, fun hn => absurd (h '\n' hn) (by decide)⟩
  generalize text.toList = cs at h
  induction cs with
  | nil => rfl
  | cons c cs ih =>
    obtain ⟨hc, hcs⟩ := List.forall_mem_cons.1 h
    rw [nest_cons, step_inert hc]
    exact ih hcs

/-- In a string literal only a quote without a backslash counts. -/
theorem nest_body (hbare : hasBareQuote cs = false) (hquote : hasBareQuote (cs ++ ['"'])) :
    nest ⟨ds, .inside⟩ (cs ++ ['"']) = some ⟨ds, .outside⟩ := by
  fun_induction hasBareQuote cs with
  | case1 => rfl
  | case2 d cs ih => exact ih hbare hquote
  | case3 c cs hslash ih =>
    simp only [Bool.or_eq_false_iff, beq_eq_false_iff_ne] at hbare
    obtain ⟨hc, hbare⟩ := hbare
    by_cases hback : c = '\\'
    · subst hback
      cases cs with
      | nil => contradiction
      | cons d cs => exact absurd rfl (hslash d cs rfl)
    · rw [List.cons_append, hasBareQuote_cons hc hback] at hquote
      rw [List.cons_append, nest_cons]
      have hstep : Nesting.step ⟨ds, .inside⟩ c = some ⟨ds, .inside⟩ := by
        simp [Nesting.step, hc, hback]
      rw [hstep]
      exact ih hbare hquote

/-- A string literal closes what it opens, whatever it holds. -/
theorem Denotes.spans {us : List Nat} (h : Denotes cs us) :
    Spans (String.ofList ('"' :: cs ++ ['"'])) [] [] := by
  rw [Spans, String.toList_ofList]
  refine ⟨?_, ?_⟩
  · have hbare := h.bare_append []
    rw [List.append_nil] at hbare
    exact nest_body hbare (h.bare_append ['"'])
  · simp only [List.cons_append, List.mem_cons, List.mem_append, List.not_mem_nil, or_false, not_or]
    exact ⟨by decide, fun hn => (h.unbroken _ hn).1 rfl, by decide⟩

theorem spans_literal (t : Text) : Spans t.literal [] [] :=
  (denotes_flatMap fun p (_ : p ∈ t) => denotes_inLiteral p).spans

theorem spans_key (key : String) : Spans (keyLiteral key) [] [] :=
  (denotes_flatMap fun p (_ : p ∈ Text.ofString key) => denotes_inKey p).spans

theorem isInert_of_isWordChar (h : isWordChar c) : isInert c := by
  have hall : "()[]\x7b\x7d\"\n".toList.all fun d => !isWordChar d := by decide
  rw [isInert, Bool.not_eq_true', List.contains_eq_mem, decide_eq_false_iff_not]
  intro hc
  have hd := List.all_eq_true.1 hall c hc
  rw [h] at hd
  contradiction

theorem spans_name (h : IsName text.toList) : Spans text [] [] :=
  spans_inert fun c hc => isInert_of_isWordChar (isWordChar_of_isName h c hc)

theorem isInert_of_isDigits (h : IsDigits cs) : ∀ d ∈ cs, isInert d := fun d hd =>
  isInert_of_isWordChar (by simp [isWordChar, h.2 d hd])

theorem isInert_fraction (h : IsFraction cs) : ∀ c ∈ cs, isInert c := by
  obtain ⟨whole, places, expo, rfl, hwhole, hplaces, hexpo, -⟩ := h
  refine List.forall_mem_append.2 ⟨isInert_of_isDigits hwhole.1, List.forall_mem_append.2 ⟨?_, ?_⟩⟩
  · obtain rfl | ⟨ds, hds, rfl⟩ := hplaces
    · simp
    · exact List.forall_mem_cons.2 ⟨by decide, isInert_of_isDigits hds⟩
  · obtain rfl | ⟨sign, ds, hsign, hds, rfl⟩ := hexpo
    · simp
    · have hsign : isInert sign := by obtain rfl | rfl := hsign <;> decide
      exact List.forall_mem_cons.2 ⟨by decide,
        List.forall_mem_cons.2 ⟨hsign, isInert_of_isDigits hds⟩⟩

theorem isInert_sizeChars (a : Number) : ∀ c ∈ a.sizeChars, isInert c := by
  cases a with
  | int n => exact isInert_of_isDigits (Number.isWhole_sizeChars n).1
  | float x =>
    by_cases h : (Number.float x).isFinite
    · exact isInert_fraction (Number.isFraction_sizeChars h)
    · have hnone : Binary.ofFloat? x = none := by simpa [Number.isFinite] using h
      simp only [Number.sizeChars, hnone]
      split <;> exact List.all_eq_true.1 (by decide)

theorem spans_number (a : Number) : Spans a.text [] [] := by
  refine spans_inert ?_
  rw [Number.text, String.toList_ofList, Number.chars_eq]
  refine List.forall_mem_append.2 ⟨?_, isInert_sizeChars a⟩
  split <;> exact List.all_eq_true.1 (by decide)

theorem spans_symbol {s : Symbol} (h : s.Lexical) : Spans s.code [] [] := by
  obtain h | ⟨h, hname⟩ := h
  · have hall : ∀ s ∈ Symbol.library, Spans s.code [] [] := by decide
    exact hall s h
  · exact spans_name (isName_code h hname)

theorem spans_commaJoin {codes : List String} (h : ∀ e ∈ codes, Spans e [] []) :
    Spans (commaJoin codes) [] [] := by
  have hcomma : Spans ", " [] [] := by decide
  induction codes with
  | nil => exact spans_inert (by simp [commaJoin])
  | cons e codes ih =>
    obtain ⟨he, hcodes⟩ := List.forall_mem_cons.1 h
    cases codes with
    | nil => simpa [commaJoin] using he
    | cons f codes =>
      have hjoin : commaJoin (e :: f :: codes) = e ++ ", " ++ commaJoin (f :: codes) := by
        simp [commaJoin]
      rw [hjoin]
      exact (he.append hcomma).append (ih hcodes)

theorem spans_unary {op : UnOp} (hop : op ∈ UnOp.known) (he : Spans e [] []) :
    Spans (unaryCode op e) [] [] := by
  simp only [UnOp.known, List.mem_cons, List.not_mem_nil, or_false] at hop
  have happly (head : String) (hhead : Spans head [] [')']) : Spans (head ++ e ++ ")") [] [] :=
    hhead.around he (by decide)
  obtain rfl | rfl | rfl | rfl | rfl | rfl := hop
  · exact happly "-(" (by decide)
  · exact happly "!(" (by decide)
  · exact he.append (b := ".length") (by decide)
  · exact he.append (b := "++") (by decide)
  · exact he.append (b := "--") (by decide)
  · have hhead : Spans "Array.from(\x7b length: " [] ['\x7d', ')'] := by decide
    exact hhead.around he (by decide)

theorem spans_binary {op : BinOp} (hop : op ∈ BinOp.known) (ha : Spans a [] [])
    (hb : Spans b [] []) : Spans (binaryCode (respell op.word) a b) [] [] := by
  have hopen : Spans "(" [] [')'] := by decide
  have hclose : Spans ")" [')'] [] := by decide
  have hoperator : ∀ op ∈ BinOp.known, Spans (respell op.word) [] [] := by decide
  have hblank : Spans " " [')'] [')'] := by decide
  have hleft (left : String) (hleft : Spans left [] []) :
      Spans ("(" ++ left ++ " " ++ respell op.word ++ " " ++ b ++ ")") [] [] :=
    ((hopen.around hleft hblank).around (hoperator op hop) hblank).around hb hclose
  unfold binaryCode
  refine hleft _ ?_
  split
  · exact hopen.around ha hclose
  · exact ha

end JavaScript

namespace Node

open JavaScript

variable {path : List Region}

theorem spans_codes {es : List Node} (h : ∀ e ∈ es, Spans e.code [] []) :
    Spans (commaJoin (codes es)) [] [] := by
  refine spans_commaJoin ?_
  induction es with
  | nil => exact fun e he => absurd he List.not_mem_nil
  | cons e es ih =>
    obtain ⟨he, hes⟩ := List.forall_mem_cons.1 h
    exact List.forall_mem_cons.2 ⟨he, ih hes⟩

/-- An expression is written on one line, and its brackets match. -/
theorem IsExp.spans {k : ExpSort} {e : Node} (h : IsExp k e) (hl : Everywhere Lexical path e) :
    Spans e.code [] [] := by
  induction h with
  | number a => exact spans_number a
  | string t => exact spans_literal t
  | boolean b => cases b <;> decide
  | symbol s => exact spans_symbol (everywhere_iff.1 hl).1
  | conditional _ _ _ iht ihy ihn =>
    obtain ⟨-, ht, hy, hn⟩ := everywhere_iff.1 hl
    have htest : Spans "((" [] [')', ')'] := by decide
    have hyes : Spans ") ? (" [')', ')'] [')', ')'] := by decide
    have hno : Spans ") : (" [')', ')'] [')', ')'] := by decide
    exact ((htest.around (iht ht) hyes).around (ihy hy) hno).around (ihn hn) (by decide)
  | binary hop _ _ ihl ihr =>
    obtain ⟨-, hleft, hright⟩ := everywhere_iff.1 hl
    exact spans_binary hop (ihl hleft) (ihr hright)
  | unary hop _ ih => exact spans_unary hop (ih (everywhere_iff.1 hl).2)
  | array _ ih =>
    have hes := spans_codes fun e he => ih e he ((everywhere_iff.1 hl).2 e he)
    have hopen : Spans "[" [] [']'] := by decide
    exact hopen.around hes (by decide)
  | dict _ ih =>
    have hes := spans_codes fun e he => ih e he ((everywhere_iff.1 hl).2 e he)
    have hopen : Spans "\x7b" [] ['\x7d'] := by decide
    exact hopen.around hes (by decide)
  | dictItem _ ih =>
    have hcolon : Spans ": " [] [] := by decide
    exact ((spans_key _).append hcolon).append (ih (everywhere_iff.1 hl).2)
  | @member object access name haccess _ ih =>
    obtain ⟨hname, ho⟩ := everywhere_iff.1 hl
    have hdot : Spans access [] [] := by obtain rfl | rfl := haccess <;> decide
    exact ((ih ho).append hdot).append (spans_name hname)
  | subscript _ _ ihc ihi =>
    obtain ⟨-, hc, hi⟩ := everywhere_iff.1 hl
    have hopen : Spans "[" [] [']'] := by decide
    exact ((ihc hc).append hopen).around (ihi hi) (by decide)
  | call _ ih =>
    obtain ⟨-, hf, hargs⟩ := everywhere_iff.1 hl
    have hes := spans_codes fun e he => ih e he (hargs e he)
    have hopen : Spans "(" [] [')'] := by decide
    exact ((spans_symbol (everywhere_iff.1 hf).1).append hopen).around hes (by decide)

end Node

end Terse
