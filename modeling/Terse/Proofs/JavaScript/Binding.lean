import Terse.Proofs.JavaScript.Reader
import Terse.Proofs.JavaScript.Tokens
import Terse.Proofs.Node.Within

/-! Which names a text binds. They are found in the tokens alone: the name after a `let`, all names
in the head of a function or of a handler, and the names in brackets that an arrow follows. -/
namespace Terse

namespace JavaScript

/-- What the word that comes next is. -/
inductive Role where
  /-- Used, or a keyword. -/
  | use
  /-- The name of a field. -/
  | field
  /-- Bound alone. -/
  | single
  /-- Bound, like all words up to the next brace. -/
  | head
deriving DecidableEq

namespace Role

/-- What comes after a word, if that is no field and bound nowhere. -/
def after (w : List Char) : Role :=
  if w = "let".toList then single
  else if w = "function".toList ∨ w = "catch".toList then head
  else use

def next : Role → Token → Role
  | head, t => if t = .mark .lbrace then use else head
  | use, .word w => after w
  | use, .mark .dot | use, .mark .optionalDot => field
  | _, _ => use

/-- The names that a token binds. A bracket binds those in it if they are the head of an arrow
function, which only the tokens after it tell. -/
def binds : Role → Token → List Token → List (List Char)
  | single, .word w, _ | head, .word w, _ => [w]
  | use, .mark .lparen, ts => ((params? ts).map (·.1)).getD []
  | _, _, _ => []

end Role

def bindings : Role → List Token → List (List Char)
  | _, [] => []
  | r, t :: ts => r.binds t ts ++ bindings (r.next t) ts

/-- The names that a text binds, from left to right: variables, functions, and the parameters of
functions, of handlers and of arrow functions. -/
def bound (cs : List Char) : List (List Char) := bindings .use (lex cs)

variable {c : Char} {rest : List Char} {t : Token} {ts us vs : List Token}
  {xs ys : List (List Char)}

/-- A list of names goes on with these tokens, and an arrow follows its bracket. -/
def endsInArrow : List Token → Bool
  | .mark .rparen :: .mark .arrow :: _ => true
  | .word _ :: ts | .mark .comma :: ts => endsInArrow ts
  | _ => false

/-- Tokens that make no arrow function of what stands before them. -/
structure Free (ts : List Token) : Prop where
  head : ts.head? ≠ some (.mark .arrow)
  endsInArrow_eq : endsInArrow ts = false

/-- The tokens `ts` bind these names before what is left of them, which is `us`. -/
structure Introduces (names : List (List Char)) (ts us : List Token) : Prop where
  free : Free ts
  bindings_eq : bindings .use ts = names ++ bindings .use us

/-- A token that binds nothing, and leaves a word after it a use. -/
def Token.isIdle (t : Token) : Bool := Role.use.next t = .use && t ≠ .mark .arrow

theorem isIdle_word {w : List Char} (h : Role.after w = .use) : (Token.word w).isIdle := by
  simp [Token.isIdle, Role.next, h]

theorem free_nil : Free [] := ⟨by simp, rfl⟩

theorem Free.cons (h : Free ts) (ht : t ≠ .mark .arrow) : Free (t :: ts) where
  head := by simpa using ht
  endsInArrow_eq := by
    unfold endsInArrow
    split
    · rename_i he
      obtain ⟨-, rfl⟩ := List.cons.inj he
      exact absurd rfl h.head
    · rename_i he
      obtain ⟨-, rfl⟩ := List.cons.inj he
      exact h.endsInArrow_eq
    · rename_i he
      obtain ⟨-, rfl⟩ := List.cons.inj he
      exact h.endsInArrow_eq
    · rfl

theorem Free.params?_eq (h : Free ts) : params? ts = none := by
  have hends := h.endsInArrow_eq
  clear h
  fun_induction params? ts with
  | case1 => simp [endsInArrow] at hends
  | case2 p ts ih => rw [ih hends, Option.map_none]
  | case3 => rfl

theorem Introduces.refl (h : Free ts) : Introduces [] ts ts := ⟨h, rfl⟩

/-- Names introduced on the way from one rest to the next come together in order. -/
theorem Introduces.trans (h : Introduces xs ts us) (h' : Introduces ys us vs) :
    Introduces (xs ++ ys) ts vs :=
  ⟨h.free, by rw [h.bindings_eq, h'.bindings_eq, List.append_assoc]⟩

/-- An idle token introduces nothing, whatever comes after it. -/
theorem Introduces.idle (h : Introduces xs ts us) (ht : t.isIdle) : Introduces xs (t :: ts) us := by
  simp only [Token.isIdle, Bool.and_eq_true, decide_eq_true_eq] at ht
  obtain ⟨hnext, harrow⟩ := ht
  have hbinds : Role.use.binds t ts = [] := by
    by_cases hparen : t = .mark .lparen
    · rw [hparen, Role.binds, h.free.params?_eq, Option.map_none, Option.getD_none]
    · simp [Role.binds, hparen]
  refine ⟨h.free.cons harrow, ?_⟩
  rw [bindings, hbinds, hnext, List.nil_append, h.bindings_eq]

/-- The name of a field is no binding. -/
theorem Introduces.field (h : Introduces xs ts us) {m : Mark} (hm : m = .dot ∨ m = .optionalDot)
    (w : List Char) : Introduces xs (.mark m :: .word w :: ts) us := by
  have hfree := h.free.cons (t := .word w) (by simp)
  obtain rfl | rfl := hm
  · exact ⟨hfree.cons (by simp), h.bindings_eq⟩
  · exact ⟨hfree.cons (by simp), h.bindings_eq⟩

theorem bindings_head_word {w : List Char} :
    bindings .head (.word w :: ts) = w :: bindings .head ts := rfl

theorem bindings_head_mark {m : Mark} (h : m ≠ .lbrace) :
    bindings .head (.mark m :: ts) = bindings .head ts := by
  simp [bindings, Role.binds, Role.next, h]

/-! ### Expressions -/

/-- What the two arrow functions of a factorial call their parameters. -/
def arrowNames : List String := ["_", "i", "a", "b"]

/-- The parameters of the arrow functions of `n` factorials. -/
def arrowParams (n : Nat) : List (List Char) :=
  (List.replicate n (arrowNames.map String.toList)).flatten

theorem arrowParams_add (m n : Nat) : arrowParams (m + n) = arrowParams m ++ arrowParams n := by
  rw [arrowParams, List.replicate_add, List.flatten_append, arrowParams, arrowParams]

/-- Tokens that bind these names, and leave a word after them a use. -/
def Brings (ts : List Token) (names : List (List Char)) : Prop :=
  ∀ us, Free us → Introduces names (ts ++ us) us

/-- The tokens of two expressions bring the names of both. -/
theorem Brings.append (h : Brings ts xs) (h' : Brings us ys) : Brings (ts ++ us) (xs ++ ys) := by
  intro vs hvs
  have hus := h' vs hvs
  rw [List.append_assoc]
  exact (h _ hus.free).trans hus

theorem Brings.after (h : Brings us ys) (h' : Brings ts []) : Brings (ts ++ us) ys := h'.append h

theorem Brings.before (h : Brings ts xs) (h' : Brings us []) : Brings (ts ++ us) xs := by
  rw [← List.append_nil xs]
  exact h.append h'

theorem brings_token (ht : t.isIdle) : Brings [t] [] := fun _ hus => (Introduces.refl hus).idle ht

theorem brings_field {m : Mark} (hm : m = .dot ∨ m = .optionalDot) (w : List Char) :
    Brings [.mark m, .word w] [] :=
  fun _ hus => (Introduces.refl hus).field hm w

theorem Brings.signed (h : Brings ts xs) (sign : Option Sign) : Brings (signed sign ts) xs := by
  cases sign with
  | none => exact h
  | some s =>
    exact h.after (brings_token (by cases s <;> rfl))

/-- Parentheses around an expression bring nothing, since no arrow comes after them. -/
theorem Brings.grouped (h : Brings ts xs) : Brings (grouped ts) xs :=
  (h.before (brings_token rfl)).after (brings_token (t := .mark .lparen) rfl)

/-- The parameters of a factorial stand after its operand. -/
theorem Brings.factorial {n : Nat} (h : Brings ts (arrowParams n)) :
    Brings (factorialTokens ts) (arrowParams (n + 1)) := by
  rw [arrowParams_add]
  unfold factorialTokens
  refine (h.after ?_).append ?_
  · exact fun us _ => ⟨⟨by simp [word], rfl⟩, rfl⟩
  · exact fun us _ => ⟨⟨by simp, rfl⟩, rfl⟩

theorem brings_number (a : Number) : Brings [a.sizeToken] [] := by
  refine brings_token ?_
  unfold Number.sizeToken
  split
  · rfl
  · rename_i hfinite
    cases a with
    | int n => exact absurd rfl hfinite
    | float x =>
      have hnone : Binary.ofFloat? x = none := by simpa [Number.isFinite] using hfinite
      simp only [Number.sizeChars, hnone]
      split <;> decide

theorem brings_glued (whole name : List Char) : Brings [glued whole name] [] := by
  refine brings_token ?_
  unfold glued
  split <;> rfl

/-- A name with a number after it is no keyword. -/
theorem after_code {s : Symbol} (h : s.isIntrinsic = false) : Role.after s.code.toList = .use := by
  have hmem : '_' ∈ s.code.toList := by simp [toList_code h]
  have hne (w : String) (hw : '_' ∉ w.toList) : s.code.toList ≠ w.toList := by
    intro he
    exact hw (he ▸ hmem)
  rw [Role.after, if_neg (hne "let" (by decide)), if_neg]
  rintro (h | h)
  · exact hne "function" (by decide) h
  · exact hne "catch" (by decide) h

theorem brings_symbol {s : Symbol} (h : s.Lexical) : Brings (dotted s.path) [] := by
  obtain h | ⟨h, hname⟩ := h
  · obtain ⟨owner, field, howner, -, hpath, -⟩ := path_library h
    have hafter : ∀ owner ∈ ["Math", "console"], Role.after owner.toList = .use := by decide
    have hword : Brings [.word owner.toList] [] := brings_token (isIdle_word (hafter owner howner))
    rw [hpath]
    exact hword.append (brings_field (.inl rfl) _)
  · rw [path_code h hname]
    exact brings_token (isIdle_word (after_code h))

end JavaScript

namespace Node

open JavaScript

variable {path : List Region} {e : Node} {es : List Node}

def isFactorial : Node → Bool
  | unary .fact _ => true
  | _ => false

/-- How many factorials a node has in it. -/
def factorials (n : Node) : Nat := n.within.countP isFactorial

def factorialsIn (ns : List Node) : Nat := (withinAll ns).countP isFactorial

theorem factorialsIn_cons (n : Node) (ns : List Node) :
    factorialsIn (n :: ns) = n.factorials + factorialsIn ns := List.countP_append

theorem factorialsIn_symbols (ss : List Symbol) : factorialsIn (ss.map symbol) = 0 := by
  induction ss with
  | nil => rfl
  | cons s ss ih => rw [List.map_cons, factorialsIn_cons, ih, factorials, within]; rfl

/-! What a node has of factorials is in its expressions and its blocks. -/

theorem factorials_conditional (test yes no : Node) :
    (conditional test yes no).factorials =
      test.factorials + (yes.factorials + no.factorials) := by
  simp [factorials, within, isFactorial]

theorem factorials_binary (op : BinOp) (left right : Node) :
    (binary op left right).factorials = left.factorials + right.factorials := by
  simp [factorials, within, isFactorial]

theorem factorials_fact (e : Node) : (unary .fact e).factorials = e.factorials + 1 :=
  List.countP_cons_of_pos rfl

theorem factorials_subscript (collection index : Node) :
    (subscript collection index).factorials = collection.factorials + index.factorials := by
  simp [factorials, within, isFactorial]

theorem factorials_assign (target source : Node) :
    (assign target source).factorials = target.factorials + source.factorials := by
  simp [factorials, within, isFactorial]

theorem factorials_ifElse (test : Node) (yes : List Node) (no : Node) :
    (ifElse test yes no).factorials = test.factorials + factorialsIn yes + no.factorials := by
  simp [factorials, factorialsIn, within, isFactorial, Nat.add_assoc]

theorem factorials_guarded (test : Node) (body : List Node) :
    ∀ s ∈ [ifOnly test body, whileLoop test body, repeatLoop test body],
      s.factorials = test.factorials + factorialsIn body := by
  simp [factorials, factorialsIn, within, isFactorial]

theorem factorials_rangeLoop (s : Symbol) (low high step : Node) (body : List Node) :
    (rangeLoop (symbol s) low high step body).factorials =
      low.factorials + (high.factorials + step.factorials) + factorialsIn body := by
  simp [factorials, factorialsIn, within, isFactorial, Nat.add_assoc]

theorem factorials_eachLoop (s : Symbol) (collection : Node) (body : List Node) :
    (eachLoop (symbol s) collection body).factorials =
      collection.factorials + factorialsIn body := by
  simp [factorials, factorialsIn, within, isFactorial]

theorem factorials_tryCatch (body : List Node) (ps : List Symbol) (handler : List Node) :
    (tryCatch body (ps.map symbol) handler).factorials =
      factorialsIn body + factorialsIn handler := by
  have hparams := factorialsIn_symbols ps
  simp_all [factorials, factorialsIn, within, isFactorial]

theorem factorials_function (f : Symbol) (ps : List Symbol) (body : List Node) :
    (function (symbol f) (ps.map symbol) body).factorials = factorialsIn body := by
  have hparams := factorialsIn_symbols ps
  simp_all [factorials, factorialsIn, within, isFactorial]

/-- The tokens of an expression bind the parameters of its factorials. -/
def BringsParams (e : Node) : Prop := Brings e.unsigned (arrowParams e.factorials)

theorem brings_access (h : BringsParams e) (name : List Char) :
    Brings (accessTokens e e.unsigned name) (arrowParams e.factorials) := by
  unfold accessTokens
  split
  · exact brings_glued _ _
  · exact h.before (brings_field (.inl rfl) name)

/-- A list brings what its items bring. -/
theorem brings_commas (h : ∀ e ∈ es, BringsParams e) :
    Brings (commas (unsignedAll es)) (arrowParams (factorialsIn es)) := by
  induction es with
  | nil => exact fun _ hus => .refl hus
  | cons e es ih =>
    obtain ⟨he, hes⟩ := List.forall_mem_cons.1 h
    have he : Brings (signed e.sign e.unsigned) (arrowParams e.factorials) := he.signed e.sign
    rw [factorialsIn_cons, arrowParams_add]
    cases es with
    | nil =>
      rw [← List.append_nil (commas _)]
      exact he.append fun _ hus => .refl hus
    | cons => exact he.append ((ih hes).after (brings_token (t := .mark .comma) rfl))

/-- Of the unary operators only the factorial brings names. -/
theorem bringsParams_unary {op : UnOp} (hop : op ∈ UnOp.known) (he : BringsParams e) :
    BringsParams (unary op e) := by
  have hsigned : Brings (signed e.sign e.unsigned) (arrowParams e.factorials) := he.signed e.sign
  simp only [UnOp.known, List.mem_cons, List.not_mem_nil, or_false] at hop
  obtain rfl | rfl | rfl | rfl | rfl | rfl := hop
  · exact hsigned.grouped
  · exact hsigned.grouped
  · exact brings_access he _
  · exact he.before (brings_token rfl)
  · exact he.before (brings_token rfl)
  · rw [BringsParams, factorials_fact]
    exact hsigned.factorial

theorem isIdle_operator : ∀ op ∈ BinOp.known, (Token.mark op.mark).isIdle := by decide

/-- No word of an expression introduces a name, though one that is a field may look like it. -/
theorem IsExp.bringsParams {k : ExpSort} (h : IsExp k e) (hl : Everywhere Lexical path e) :
    BringsParams e := by
  have hmark (m : Mark) (hm : (Token.mark m).isIdle) : Brings [.mark m] [] := brings_token hm
  induction h with
  | number a => exact brings_number a
  | string t => exact brings_token rfl
  | boolean v => cases v <;> exact brings_token (by decide)
  | symbol s => exact brings_symbol (everywhere_iff.1 hl).1
  | conditional _ _ _ iht ihy ihn =>
    obtain ⟨-, ht, hy, hn⟩ := everywhere_iff.1 hl
    rw [BringsParams, factorials_conditional, arrowParams_add, arrowParams_add]
    refine Brings.grouped (Brings.append ((iht ht).signed _).grouped ?_)
    refine Brings.after (Brings.append ((ihy hy).signed _).grouped ?_) (hmark .question rfl)
    exact ((ihn hn).signed _).grouped.after (hmark .colon rfl)
  | @binary op left right hop _ _ ihl ihr =>
    obtain ⟨-, hleft, hright⟩ := everywhere_iff.1 hl
    have hbase := (ihl hleft).signed left.sign
    have hright := ((ihr hright).signed right.sign).after (hmark op.mark (isIdle_operator op hop))
    rw [BringsParams, factorials_binary, arrowParams_add]
    refine Brings.grouped (Brings.append ?_ hright)
    split
    · exact hbase.grouped
    · exact hbase
  | unary hop _ ih => exact bringsParams_unary hop (ih (everywhere_iff.1 hl).2)
  | array _ ih =>
    have hes := brings_commas fun e he => ih e he ((everywhere_iff.1 hl).2 e he)
    exact (hes.before (hmark .rbracket rfl)).after (hmark .lbracket rfl)
  | dict _ ih =>
    have hes := brings_commas fun e he => ih e he ((everywhere_iff.1 hl).2 e he)
    exact (hes.before (hmark .rbrace rfl)).after (hmark .lbrace rfl)
  | @dictItem key e _ ih =>
    have he : Brings (signed e.sign e.unsigned) (arrowParams e.factorials) :=
      (ih (everywhere_iff.1 hl).2).signed e.sign
    have hkey : Brings [.string (Text.ofString key).keyChars] [] := brings_token rfl
    exact (he.after (hmark .colon rfl)).after hkey
  | @member object access name haccessor _ ih =>
    have he := ih (everywhere_iff.1 hl).2
    obtain rfl | rfl := haccessor
    · exact brings_access he name.toList
    · exact he.before (brings_field (.inr rfl) name.toList)
  | subscript _ _ ihc ihi =>
    obtain ⟨-, hc, hi⟩ := everywhere_iff.1 hl
    rw [BringsParams, factorials_subscript, arrowParams_add]
    refine (ihc hc).append (Brings.after ?_ (hmark .lbracket rfl))
    exact ((ihi hi).signed _).before (hmark .rbracket rfl)
  | call _ ih =>
    obtain ⟨-, hf, hargs⟩ := everywhere_iff.1 hl
    have hes := brings_commas fun e he => ih e he (hargs e he)
    have hname := brings_symbol (everywhere_iff.1 hf).1
    exact ((hes.before (hmark .rparen rfl)).after (hmark .lparen rfl)).after hname

end Node

namespace JavaScript

/-! ### Texts -/

variable {a b e : String} {cs w : List Char}

theorem lex_blank (h : Lexer.isSpace c) : lex (c :: cs) = lex cs := by rw [lex, if_pos h]

/-- A token of a text that is written out binds nothing. -/
theorem Introduces.token {n : Nat} (h : Introduces xs (lex (cs.drop n)) us)
    (hspace : Lexer.isSpace c = false) (hnext : next c cs = (t, n)) (ht : t.isIdle) :
    Introduces xs (lex (c :: cs)) us := by
  rw [lex, if_neg (by simp [hspace]), hnext]
  exact h.idle ht

theorem Introduces.blank (h : Introduces xs (lex cs) us) (hspace : Lexer.isSpace c) :
    Introduces xs (lex (c :: cs)) us := by
  rwa [lex_blank hspace]

/-- A text that ends where no token goes on binds these names. -/
def Binds (text : String) (names : List (List Char)) : Prop :=
  ∀ rest, Free (lex rest) → Introduces names (lex (text.toList ++ rest)) (lex rest)

/-- A text that binds these names if its last token ends with it. -/
def BindsBefore (text : String) (names : List (List Char)) : Prop :=
  ∀ c rest, isStop c → Free (lex (c :: rest)) →
    Introduces names (lex (text.toList ++ c :: rest)) (lex (c :: rest))

/-- The fixed texts that stand after an expression. -/
def closers : List String := [
  " = ", ";", ");", ") \x7b", "; ", " < ", " += ", " of "]

/-- The fixed texts that start a line, as far as they bind nothing and are no path. -/
def openers : List String := [
  "if (", "while (", "\x7d", "\x7d else ", "\x7d else \x7b", "break;", "continue;", "return;",
  "return ", "throw ", "try \x7b"]

theorem binds_fixed : ∀ t ∈ closers ++ openers, Binds t [] := by
  intro t ht rest hrest
  simp only [closers, openers, List.cons_append, List.nil_append, List.mem_cons, List.not_mem_nil,
    or_false] at ht
  obtain rfl | rfl | rfl | rfl | rfl | rfl | rfl | rfl | rfl | rfl | rfl | rfl | rfl | rfl | rfl |
    rfl | rfl | rfl | rfl := ht
  -- all of these texts end in a blank, a bracket, a brace or a semicolon
  all_goals
    repeat first
      | refine Introduces.blank ?_ rfl
      | refine Introduces.token ?_ rfl rfl rfl
    exact .refl hrest

theorem binds_closer (h : b ∈ closers) : Binds b [] := binds_fixed b (List.mem_append_left _ h)

theorem binds_opener (h : b ∈ openers) : Binds b [] := binds_fixed b (List.mem_append_right _ h)

theorem exists_stop (hb : b ∈ closers) : ∃ c cs, b.toList = c :: cs ∧ isStop c := by
  have hall : ∀ b ∈ closers, b.toList.head?.any isStop := by decide
  obtain ⟨c, hc, hstop⟩ := (Option.any_eq_true _ _).1 (hall b hb)
  obtain ⟨cs, hcs⟩ := List.head?_eq_some_iff.1 hc
  exact ⟨c, cs, hcs, hstop⟩

theorem apart_of_isStop (h : isStop c) : Apart (c :: cs) := by
  simp only [isStop, Bool.and_eq_true, Bool.not_eq_true', decide_eq_true_eq] at h
  obtain ⟨⟨⟨hword, hplus⟩, hminus⟩, -⟩ := h
  exact apart_cons hword hplus hminus

theorem Binds.append (ha : Binds a xs) (hb : Binds b ys) : Binds (a ++ b) (xs ++ ys) := by
  intro rest hrest
  have htail := hb rest hrest
  rw [String.toList_append, List.append_assoc]
  exact (ha _ htail.free).trans htail

/-- An expression binds its names if a text that closes comes after it. -/
theorem BindsBefore.binds (he : BindsBefore e xs) (hb : b ∈ closers) : Binds (e ++ b) xs := by
  intro rest hrest
  obtain ⟨c, cs, hcs, hc⟩ := exists_stop hb
  have htail := binds_closer hb rest hrest
  rw [String.toList_append, List.append_assoc, ← List.append_nil xs]
  rw [hcs, List.cons_append] at htail ⊢
  exact (he c _ hc htail.free).trans htail

theorem Binds.around (ha : Binds a xs) (he : BindsBefore e ys) (hb : b ∈ closers) :
    Binds (a ++ e ++ b) (xs ++ ys) := by
  rw [String.append_assoc]
  exact ha.append (he.binds hb)

theorem Binds.bindsBefore (ha : Binds a []) (he : BindsBefore e xs) : BindsBefore (a ++ e) xs := by
  intro c rest hc hrest
  have htail := he c rest hc hrest
  rw [String.toList_append, List.append_assoc]
  exact (ha _ htail.free).trans htail

/-- The text of an expression binds the parameters of its factorials. -/
theorem bindsBefore_code {k : Node.ExpSort} {e : Node} {path : List Node.Region}
    (h : Node.IsExp k e) (hl : Node.Everywhere Node.Lexical path e) :
    BindsBefore e.code (arrowParams e.factorials) := by
  intro c rest hc hrest
  rw [(h.spelled hl).before c hc]
  exact (h.bringsParams hl).signed e.sign _ hrest

theorem binds_print : Binds "console.log(" [] := by
  intro rest hrest
  have hsplit : "console.log(".toList ++ rest =
      "console".toList ++ '.' :: ("log".toList ++ '(' :: rest) := rfl
  have hlog : IsName "log".toList := isName_of_all rfl
  rw [hsplit, lex_template "console" (by decide) '.' (by decide),
    lex_dot hlog (apart_of_isStop rfl), lex_lparen]
  have hparen : Introduces [] (.mark .lparen :: lex rest) (lex rest) :=
    (Introduces.refl hrest).idle rfl
  exact (hparen.field (.inl rfl) "log".toList).idle rfl

theorem lex_keyword (w : String) (hw : w.toList.head?.any isWordStart ∧ w.toList.all isWordChar)
    (rest : List Char) : lex (w.toList ++ ' ' :: rest) = word w :: lex rest := by
  rw [lex_template w hw ' ' (by decide), lex_space]

/-- A word that can be bound and is no keyword. -/
structure Identifier (w : List Char) : Prop where
  lex_append {rest : List Char} : Apart rest → lex (w ++ rest) = .word w :: lex rest
  after_eq : Role.after w = .use

theorem isName_of_lexical {s : Symbol} (h : s.Lexical) (hs : s.isIntrinsic = false) :
    IsName s.code.toList := by
  obtain h | ⟨-, hname⟩ := h
  · rw [Node.isIntrinsic_of_mem_library h] at hs
    contradiction
  · exact isName_code hs hname

theorem identifier_code {s : Symbol} (h : s.Lexical) (hs : s.isIntrinsic = false) :
    Identifier s.code.toList :=
  ⟨lex_name (isName_of_lexical h hs), after_code hs⟩

theorem toList_counterName (n : Nat) :
    (counterName n).toList = '_' :: 'i' :: Nat.toDigits 10 n := by
  simp [counterName, toString]

theorem identifier_counter (n : Nat) : Identifier (counterName n).toList := by
  rw [toList_counterName]
  refine ⟨fun hrest => lex_word rfl ?_ hrest, by simp [Role.after]⟩
  refine List.forall_mem_cons.2 ⟨rfl, fun d hd => ?_⟩
  simp [isWordChar, (isDigits_toDigits n).2 d hd]

theorem Identifier.bindsBefore {v : String} (h : Identifier v.toList) : BindsBefore v [] := by
  intro c rest hc hrest
  rw [h.lex_append (apart_of_isStop hc)]
  exact (Introduces.refl hrest).idle (isIdle_word h.after_eq)

theorem Identifier.increment {v : String} (h : Identifier v.toList) :
    BindsBefore (v ++ "++") [] := by
  intro c rest _ hrest
  have hsplit : (v ++ "++").toList ++ c :: rest = v.toList ++ '+' :: '+' :: c :: rest := by simp
  have hmark := (Introduces.refl hrest).idle (t := .mark .increment) rfl
  rw [hsplit, h.lex_append (apart_doubled rfl), lex_increment]
  exact hmark.idle (isIdle_word h.after_eq)

/-- A name that is bound alone, with what stands before and after it. -/
theorem Identifier.binds {v : String} (h : Identifier v.toList) (ha : a = "let " ∨ a = "for (let ")
    (hb : b ∈ closers) : Binds (a ++ v ++ b) [v.toList] := by
  intro rest hrest
  obtain ⟨c, cs, hcs, hc⟩ := exists_stop hb
  have hlet : Introduces [v.toList] (lex ("let ".toList ++ (v.toList ++ (b.toList ++ rest))))
      (lex rest) := by
    have hkeyword := lex_keyword "let" (by decide) (v.toList ++ (b.toList ++ rest))
    have htail := binds_closer hb rest hrest
    refine hkeyword ▸ ?_
    rw [hcs, List.cons_append] at htail ⊢
    rw [h.lex_append (apart_of_isStop hc)]
    have hfree := htail.free.cons (t := .word v.toList) (by simp)
    exact ⟨hfree.cons (by simp [word]), congrArg (v.toList :: ·) htail.bindings_eq⟩
  rw [String.toList_append, String.toList_append, List.append_assoc, List.append_assoc]
  obtain rfl | rfl := ha
  · exact hlet
  · exact (((hlet.token rfl rfl rfl).blank rfl).token rfl rfl rfl)

/-- A parameter list binds all its names. -/
theorem bindings_params {ps : List Symbol} (h : ∀ p ∈ ps, Identifier p.code.toList)
    (hc : isStop c) :
    bindings .head (lex ((commaJoin (Node.codes (ps.map .symbol))).toList ++ c :: rest)) =
      ps.map (·.code.toList) ++ bindings .head (lex (c :: rest)) := by
  induction ps with
  | nil => rfl
  | cons p ps ih =>
    obtain ⟨hp, hps⟩ := List.forall_mem_cons.1 h
    cases ps with
    | nil =>
      have hone : commaJoin (Node.codes ([p].map .symbol)) = p.code := by
        simp [Node.codes, Node.code, commaJoin]
      rw [hone, hp.lex_append (apart_of_isStop hc)]
      rfl
    | cons q qs =>
      have hjoin : (commaJoin (Node.codes ((p :: q :: qs).map .symbol))).toList ++ c :: rest =
          p.code.toList ++ ',' :: ' ' ::
            ((commaJoin (Node.codes ((q :: qs).map .symbol))).toList ++ c :: rest) := by
        simp [Node.codes, Node.code, commaJoin]
      rw [hjoin, hp.lex_append (apart_of_isStop rfl), bindings_head_word, lex_comma,
        bindings_head_mark (by decide), lex_space, ih hps]
      rfl

/-- The end of the head of a function or of a handler. -/
theorem bindings_head_end : bindings .head (lex (')' :: ' ' :: '\x7b' :: rest)) = bound rest := by
  rw [lex_rparen, lex_space, lex_lbrace]
  rfl

/-- The head of a function binds its name and its parameters. -/
theorem binds_functionHead {f : Symbol} {ps : List Symbol} (hf : Identifier f.code.toList)
    (hps : ∀ p ∈ ps, Identifier p.code.toList) :
    Binds ("function " ++ f.code ++ "(" ++ commaJoin (Node.codes (ps.map .symbol)) ++ ") \x7b")
      ((f :: ps).map (·.code.toList)) := by
  intro rest _
  have hsplit : ("function " ++ f.code ++ "(" ++ commaJoin (Node.codes (ps.map .symbol)) ++
      ") \x7b").toList ++ rest = "function".toList ++ ' ' :: (f.code.toList ++ '(' ::
      ((commaJoin (Node.codes (ps.map .symbol))).toList ++ ')' :: ' ' :: '\x7b' :: rest)) := by
    simp
  have hparams : bindings .head (lex ((commaJoin (Node.codes (ps.map .symbol))).toList ++
      ')' :: ' ' :: '\x7b' :: rest)) = ps.map (·.code.toList) ++ bound rest := by
    rw [bindings_params hps rfl, bindings_head_end]
  rw [hsplit, lex_keyword "function" (by decide), hf.lex_append (apart_of_isStop rfl), lex_lparen]
  exact ⟨⟨by simp [word], rfl⟩, congrArg (f.code.toList :: ·) hparams⟩

/-- What the head of a handler binds is told by the tokens after its keyword. -/
theorem introduces_catch (h : bindings .head (lex cs) = xs ++ bound rest) :
    Introduces xs (lex ("\x7d catch ".toList ++ cs)) (lex rest) := by
  have hkeyword : lex ("\x7d catch ".toList ++ cs) = .mark .rbrace :: word "catch" :: lex cs :=
    lex_rbrace.trans (congrArg _ (lex_space.trans (lex_keyword "catch" (by decide) cs)))
  rw [hkeyword]
  exact ⟨⟨by simp, rfl⟩, h⟩

/-- A handler takes no value, one, or one that it takes apart. -/
theorem binds_catchHead {ps : List Symbol} (hps : ∀ p ∈ ps, Identifier p.code.toList) :
    Binds (Node.catchHead (ps.map .symbol)) (ps.map (·.code.toList)) := by
  intro rest _
  match ps with
  | [] =>
    have hopen : Introduces [] (lex ("\x7d catch ".toList ++ '\x7b' :: rest)) (lex rest) := by
      refine introduces_catch ?_
      rw [lex_lbrace]
      rfl
    exact hopen
  | [p] =>
    have hsplit : (Node.catchHead [.symbol p]).toList ++ rest =
        "\x7d catch ".toList ++ '(' :: (p.code.toList ++ ')' :: ' ' :: '\x7b' :: rest) := by
      simp [Node.catchHead, Node.codes, Node.code]
    have hp := hps p List.mem_cons_self
    rw [List.map_singleton, List.map_singleton, hsplit]
    refine introduces_catch ?_
    rw [lex_lparen, bindings_head_mark (by decide), hp.lex_append (apart_of_isStop rfl),
      bindings_head_word, bindings_head_end]
    rfl
  | p :: q :: qs =>
    have hsplit : (Node.catchHead ((p :: q :: qs).map .symbol)).toList ++ rest =
        "\x7d catch ".toList ++ '(' :: '[' :: ((commaJoin (Node.codes
          ((p :: q :: qs).map .symbol))).toList ++ ']' :: ')' :: ' ' :: '\x7b' :: rest) := by
      simp [Node.catchHead, Node.codes]
    rw [hsplit]
    refine introduces_catch ?_
    rw [lex_lparen, bindings_head_mark (by decide), lex_lbracket, bindings_head_mark (by decide),
      bindings_params hps rfl, lex_rbracket, bindings_head_mark (by decide), bindings_head_end]

end JavaScript

end Terse
