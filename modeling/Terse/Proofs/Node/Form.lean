import Terse.Simplify

/-! Nodes put together as simplification expects them, and that it keeps them so. -/
namespace Terse.Node

/-- Entries stand in dictionaries only, and values everywhere else. -/
inductive ExpSort where
  | value
  | entry

/-- Expressions, whatever the operators and names in them. -/
inductive ExpForm : ExpSort → Node → Prop
  | number (a : Number) : ExpForm .value (number a)
  | string (t : Text) : ExpForm .value (string t)
  | boolean (b : Bool) : ExpForm .value (boolean b)
  | symbol (s : Symbol) : ExpForm .value (symbol s)
  | conditional {test yes no : Node} :
      ExpForm .value test → ExpForm .value yes → ExpForm .value no →
      ExpForm .value (conditional test yes no)
  | binary {op : BinOp} {left right : Node} :
      ExpForm .value left → ExpForm .value right → ExpForm .value (binary op left right)
  | unary {op : UnOp} {operand : Node} : ExpForm .value operand → ExpForm .value (unary op operand)
  | array {es : List Node} : (∀ e ∈ es, ExpForm .value e) → ExpForm .value (array es)
  | dict {es : List Node} : (∀ e ∈ es, ExpForm .entry e) → ExpForm .value (dict es)
  | dictItem {key : String} {e : Node} : ExpForm .value e → ExpForm .entry (dictItem key e)
  | member {object : Node} {access name : String} :
      ExpForm .value object → ExpForm .value (member object access name)
  | subscript {collection index : Node} :
      ExpForm .value collection → ExpForm .value index → ExpForm .value (subscript collection index)
  | call {f : Symbol} {args : List Node} :
      (∀ e ∈ args, ExpForm .value e) → ExpForm .value (call (symbol f) args)

/-- Statements, and increments that stand alone, whatever the names in them. -/
inductive StmtForm : Node → Prop
  | declare {s : Symbol} {e : Node} : ExpForm .value e → StmtForm (declare (symbol s) e)
  | assign {target source : Node} :
      ExpForm .value target → ExpForm .value source → StmtForm (assign target source)
  | print {e : Node} : ExpForm .value e → StmtForm (print e)
  | ifElse {test : Node} {yes no : List Node} :
      ExpForm .value test → (∀ s ∈ yes, StmtForm s) → (∀ s ∈ no, StmtForm s) →
      StmtForm (ifElse test yes (list no))
  | ifChain {test next : Node} {yes : List Node} :
      ExpForm .value test → (∀ s ∈ yes, StmtForm s) → next.isChoice → StmtForm next →
      StmtForm (ifElse test yes next)
  | ifOnly {test : Node} {yes : List Node} :
      ExpForm .value test → (∀ s ∈ yes, StmtForm s) → StmtForm (ifOnly test yes)
  | whileLoop {test : Node} {body : List Node} :
      ExpForm .value test → (∀ s ∈ body, StmtForm s) → StmtForm (whileLoop test body)
  | repeatLoop {count : Node} {body : List Node} :
      ExpForm .value count → (∀ s ∈ body, StmtForm s) → StmtForm (repeatLoop count body)
  | rangeLoop {v : Symbol} {low high step : Node} {body : List Node} :
      ExpForm .value low → ExpForm .value high → ExpForm .value step → (∀ s ∈ body, StmtForm s) →
      StmtForm (rangeLoop (symbol v) low high step body)
  | eachLoop {v : Symbol} {collection : Node} {body : List Node} :
      ExpForm .value collection → (∀ s ∈ body, StmtForm s) →
      StmtForm (eachLoop (symbol v) collection body)
  | breakLoop : StmtForm breakLoop
  | continueLoop : StmtForm continueLoop
  | returnValue {e : Node} : ExpForm .value e → StmtForm (returnValue e)
  | returnNone : StmtForm returnNone
  | throwValue {e : Node} : ExpForm .value e → StmtForm (throwValue e)
  | tryCatch {params : List Symbol} {body handler : List Node} :
      (∀ s ∈ body, StmtForm s) → (∀ s ∈ handler, StmtForm s) →
      StmtForm (tryCatch body (params.map symbol) handler)
  | function {f : Symbol} {params : List Symbol} {body : List Node} :
      (∀ s ∈ body, StmtForm s) → StmtForm (function (symbol f) (params.map symbol) body)
  | callAlone {c : Node} : ExpForm .value c → StmtForm (callAlone c)
  | incr {operand : Node} : ExpForm .value operand → StmtForm (unary .incr operand)
  | decr {operand : Node} : ExpForm .value operand → StmtForm (unary .decr operand)

/-- Whatever can be simplified on its own. -/
inductive WellFormed : Node → Prop
  | exp {k : ExpSort} {n : Node} : ExpForm k n → WellFormed n
  | stmt {n : Node} : StmtForm n → WellFormed n
  | block {ss : List Node} : (∀ s ∈ ss, StmtForm s) → WellFormed (list ss)
  | program {ss : List Node} : (∀ s ∈ ss, StmtForm s) → WellFormed (program ss)

section

attribute [local simp] simplify simplifyBlock simplifyAll fault? blockFault? anyFault?

/-- A block is simplified statement by statement, and what becomes of each is put in line. -/
theorem simplifyBlock_eq (ss : List Node) :
    simplifyBlock ss = ss.flatMap fun s => (simplify s).items := by
  induction ss with
  | nil => rfl
  | cons s ss ih => rw [simplifyBlock, ih, List.flatMap_cons]

theorem simplifyAll_eq (es : List Node) : simplifyAll es = es.map simplify := by
  induction es with
  | nil => rfl
  | cons e es ih => rw [simplifyAll, ih, List.map_cons]

theorem anyFault?_eq_none {es : List Node} (h : ∀ e ∈ es, fault? e = none) :
    anyFault? es = none := by
  induction es with
  | nil => rfl
  | cons e es ih =>
    rw [anyFault?, h e List.mem_cons_self, ih fun e he => h e (List.mem_cons_of_mem _ he)]
    rfl

/-- What a block may hold. -/
def standsAlone : Node → Bool
  | unary .. => true
  | s => s.isStatement

theorem blockFault?_cons (s : Node) (ss : List Node) :
    blockFault? (s :: ss) = none ↔ s.standsAlone ∧ s.fault? = none ∧ blockFault? ss = none := by
  cases s <;> simp [standsAlone, isStatement]

theorem blockFault?_eq_none {ss : List Node} (hs : ∀ s ∈ ss, s.standsAlone)
    (hf : ∀ s ∈ ss, s.fault? = none) : blockFault? ss = none := by
  induction ss with
  | nil => rfl
  | cons s ss ih =>
    rw [blockFault?_cons]
    exact ⟨hs s List.mem_cons_self, hf s List.mem_cons_self,
      ih (fun s h => hs s (List.mem_cons_of_mem _ h)) (fun s h => hf s (List.mem_cons_of_mem _ h))⟩

/-- Expressions have no faults. -/
theorem ExpForm.fault?_eq_none {k : ExpSort} {n : Node} (h : ExpForm k n) : n.fault? = none := by
  induction h with
  | number | string | boolean | symbol => rfl
  | conditional _ _ _ ht hy hn =>
    simp only [fault?, ht, hy, hn]
    split <;> rfl
  | binary _ _ hl hr => simp [hl, hr]
  | unary _ he => simpa using he
  | array _ hes => simpa using anyFault?_eq_none hes
  | dict _ hes => simpa using anyFault?_eq_none hes
  | dictItem _ he => simpa using he
  | member _ ho => simpa using ho
  | subscript _ _ hc hi => simp [hc, hi]
  | call _ hes => simpa using anyFault?_eq_none hes

/-- Statements stand alone in a block. -/
theorem StmtForm.standsAlone {s : Node} (h : StmtForm s) : s.standsAlone := by
  cases h <;> rfl

theorem isStatement_of_isChoice {n : Node} (h : n.isChoice) : n.isStatement := by
  cases n <;> simp_all [isChoice, isStatement]

theorem blockFault?_of_stmtForm {ss : List Node} (hs : ∀ s ∈ ss, StmtForm s)
    (hf : ∀ s ∈ ss, s.fault? = none) : blockFault? ss = none :=
  blockFault?_eq_none (fun s h => (hs s h).standsAlone) hf

/-- Statements have no faults. -/
theorem StmtForm.fault?_eq_none {s : Node} (h : StmtForm s) : s.fault? = none := by
  induction h with
  | declare he => simp [he.fault?_eq_none]
  | assign ht he => simp [ht.fault?_eq_none, he.fault?_eq_none]
  | print he | returnValue he | throwValue he | callAlone he | incr he | decr he =>
    simp [he.fault?_eq_none]
  | breakLoop | continueLoop | returnNone => rfl
  | ifElse ht hy hn ihy ihn =>
    simp [ht.fault?_eq_none, blockFault?_of_stmtForm hy ihy, blockFault?_of_stmtForm hn ihn]
  | @ifChain test next yes ht hy hc _ ihy ihn =>
    have hs := isStatement_of_isChoice hc
    have hb := blockFault?_of_stmtForm hy ihy
    cases next <;> simp_all [isChoice, ht.fault?_eq_none]
  | ifOnly ht hy ihy => simp [ht.fault?_eq_none, blockFault?_of_stmtForm hy ihy]
  | whileLoop ht hb ihb | repeatLoop ht hb ihb | eachLoop ht hb ihb =>
    simp [ht.fault?_eq_none, blockFault?_of_stmtForm hb ihb]
  | rangeLoop hl hh hs hb ihb =>
    simp [hl.fault?_eq_none, hh.fault?_eq_none, hs.fault?_eq_none,
      blockFault?_of_stmtForm hb ihb]
  | tryCatch hb hh ihb ihh =>
    simp [blockFault?_of_stmtForm hb ihb, blockFault?_of_stmtForm hh ihh]
  | function hb ihb => simp [blockFault?_of_stmtForm hb ihb]

theorem blockFault?_forms {ss : List Node} (h : ∀ s ∈ ss, StmtForm s) : blockFault? ss = none :=
  blockFault?_of_stmtForm h fun s hs => (h s hs).fault?_eq_none

/-- Nothing that is well-formed holds a node without a rule. -/
theorem WellFormed.optimize_eq {n : Node} (h : WellFormed n) : n.optimize = .ok n.simplify := by
  have hfault : n.fault? = none := by
    cases h with
    | exp h => exact h.fault?_eq_none
    | stmt h => exact h.fault?_eq_none
    | block h => simpa using blockFault?_forms h
    | program h => simpa using blockFault?_forms h
  rw [optimize, hfault]

end

/-- All that an operation can become. -/
theorem simplifyBinary_cases (op : BinOp) (left right : Node) :
    (∃ c, simplifyBinary op left right = ofConstant c) ∨
    simplifyBinary op left right = left ∨ simplifyBinary op left right = right ∨
    (op = .sub ∧ simplifyBinary op left right = unary .neg right) ∨
    (folded? op left right = none ∧ identity? op left right = none ∧
      simplifyBinary op left right = binary op left right) := by
  cases hf : folded? op left right with
  | some n =>
    left
    cases left <;> cases right <;> simp_all [folded?, simplifyBinary]
    obtain ⟨c, hc, rfl⟩ := hf
    exact ⟨c, by simp [hc]⟩
  | none =>
    have hs : simplifyBinary op left right =
        (identity? op left right).getD (binary op left right) := by
      simp [simplifyBinary, hf]
    rw [hs]
    cases hi : identity? op left right with
    | none => simp
    | some n =>
      simp only [Option.getD_some]
      have hz : ∃ c, zero = ofConstant c := ⟨.number (.int 0), rfl⟩
      have ho : ∃ c, one = ofConstant c := ⟨.number (.int 1), rfl⟩
      cases op <;> simp only [identity?] at hi <;> grind

/-- All that a unary operation can become. -/
theorem simplifyUnary_cases (op : UnOp) (operand : Node) :
    (∃ c, simplifyUnary op operand = ofConstant c) ∨
    simplifyUnary op operand = unary op operand := by
  unfold simplifyUnary
  split
  · exact .inl ⟨.number _, rfl⟩
  · exact .inl ⟨.number _, rfl⟩
  · exact .inl ⟨.boolean _, rfl⟩
  · exact .inr rfl

theorem expForm_ofConstant (c : Constant) : ExpForm .value (ofConstant c) := by
  cases c with
  | number a => exact .number a
  | boolean b => exact .boolean b

theorem ExpForm.simplifyBinary {op : BinOp} {left right : Node} (hl : ExpForm .value left)
    (hr : ExpForm .value right) : ExpForm .value (simplifyBinary op left right) := by
  obtain ⟨c, h⟩ | h | h | ⟨_, h⟩ | ⟨_, _, h⟩ := simplifyBinary_cases op left right <;> rw [h]
  · exact expForm_ofConstant c
  · exact hl
  · exact hr
  · exact .unary hr
  · exact .binary hl hr

theorem ExpForm.simplifyUnary {op : UnOp} {operand : Node} (h : ExpForm .value operand) :
    ExpForm .value (simplifyUnary op operand) := by
  obtain ⟨c, hc⟩ | hk := simplifyUnary_cases op operand
  · rw [hc]
    exact expForm_ofConstant c
  · rw [hk]
    exact .unary h

/-- Expressions are simplified to expressions of the same sort. -/
theorem ExpForm.simplify {k : ExpSort} {n : Node} (h : ExpForm k n) : ExpForm k n.simplify := by
  induction h with
  | number a => exact .number a
  | string t => exact .string t
  | boolean b => exact .boolean b
  | symbol s => exact .symbol s
  | conditional _ _ _ ht hy hn =>
    simp only [Node.simplify]
    split
    · exact hy
    · exact hn
    · exact .conditional ht hy hn
  | binary _ _ hl hr => exact .simplifyBinary hl hr
  | unary _ he => exact .simplifyUnary he
  | array _ hes =>
    simp only [Node.simplify, simplifyAll_eq]
    exact .array (by simpa using hes)
  | dict _ hes =>
    simp only [Node.simplify, simplifyAll_eq]
    exact .dict (by simpa using hes)
  | dictItem _ he => exact .dictItem he
  | member _ ho => exact .member ho
  | subscript _ _ hc hi => exact .subscript hc hi
  | call _ hes =>
    simp only [Node.simplify, simplifyAll_eq]
    exact .call (by simpa using hes)

/-- A statement becomes a list. -/
theorem simplify_statement {n : Node} (h : n.isStatement) : n.simplify = list n.simplify.items := by
  cases n with
  | assign | ifElse | ifOnly | whileLoop | repeatLoop | rangeLoop | eachLoop =>
    simp only [Node.simplify, chosen]
    split <;> rfl
  | declare | print | breakLoop | continueLoop | returnValue | returnNone | throwValue | tryCatch
  | function | callAlone => rfl
  | _ => simp [isStatement] at h

/-- The alternative of a choice becomes a block, unless a single choice is left of it. -/
theorem linked_statement {n : Node} (h : n.isStatement) :
    (∃ m, n.simplify.items = [m] ∧ m.isChoice ∧ linked n n.simplify = m) ∨
    linked n n.simplify = list n.simplify.items := by
  have hl : linked n n.simplify = chained (list n.simplify.items) := by
    rw [← simplify_statement h]
    cases n <;> simp_all [isStatement, linked]
  rw [hl]
  unfold chained
  split
  · rename_i m he
    rw [list.injEq] at he
    by_cases hm : m.isChoice
    · exact .inl ⟨m, he, hm, by simp [hm]⟩
    · exact .inr (by simp [hm, he])
  · exact .inr rfl

section

variable {P : Node → Prop}

/-- What follows a test that fails: a block, or the next choice of a chain. -/
def AlternativeOf (P : Node → Prop) (n : Node) : Prop :=
  (∃ ss, n = list ss ∧ ∀ s ∈ ss, P s) ∨ n.isChoice ∧ P n

theorem AlternativeOf.items {n m : Node} (h : AlternativeOf P n) (hm : m ∈ n.items) : P m := by
  obtain ⟨ss, rfl, hs⟩ | ⟨hc, hn⟩ := h
  · exact hs m hm
  · have he : n.items = [n] := by cases n <;> simp_all [isChoice, Node.items]
    rw [he, List.mem_singleton] at hm
    rwa [hm]

/-- What a choice becomes is an alternative again. -/
theorem alternativeOf_linked {n : Node} (h : n.isChoice) (hn : ∀ m ∈ n.simplify.items, P m) :
    AlternativeOf P (linked n n.simplify) := by
  obtain ⟨m, hm, hc, he⟩ | he := linked_statement (isStatement_of_isChoice h)
  · rw [he]
    exact .inr ⟨hc, hn m (by simp [hm])⟩
  · rw [he]
    exact .inl ⟨_, rfl, hn⟩

/-- What holds of a choice and of its branches holds of what is left of it. -/
theorem forall_chosen {test no : Node} {yes : List Node} (hc : P (ifElse test yes no))
    (hy : ∀ s ∈ yes, P s) (hn : AlternativeOf P no) : ∀ m ∈ (chosen test yes no).items, P m := by
  intro m hm
  unfold chosen at hm
  split at hm
  · exact hy m hm
  · exact hn.items hm
  · rw [Node.items, List.mem_singleton] at hm
    rwa [hm]

/-- What holds of all that the statements become holds of the block. -/
theorem forall_simplifyBlock {ss : List Node} (h : ∀ s ∈ ss, ∀ m ∈ s.simplify.items, P m) :
    ∀ m ∈ simplifyBlock ss, P m := by
  intro m hm
  rw [simplifyBlock_eq, List.mem_flatMap] at hm
  obtain ⟨s, hs, hm⟩ := hm
  exact h s hs m hm

theorem forall_items_nil : ∀ m ∈ (list []).items, P m := by simp [Node.items]

theorem forall_items_singleton {s : Node} (h : P s) : ∀ m ∈ (list [s]).items, P m := by
  simpa [Node.items] using h

end

theorem StmtForm.ofAlternative {test no : Node} {yes : List Node} (ht : ExpForm .value test)
    (hy : ∀ s ∈ yes, StmtForm s) (hn : AlternativeOf StmtForm no) :
    StmtForm (Node.ifElse test yes no) := by
  obtain ⟨ss, rfl, hs⟩ | ⟨hc, hn⟩ := hn
  · exact .ifElse ht hy hs
  · exact .ifChain ht hy hc hn

/-- Whatever a statement becomes is made of statements. -/
theorem StmtForm.simplify {s : Node} (h : StmtForm s) : ∀ m ∈ s.simplify.items, StmtForm m := by
  induction h with
  | declare he => exact forall_items_singleton (.declare he.simplify)
  | assign ht hs =>
    simp only [Node.simplify]
    split
    · exact forall_items_nil
    · exact forall_items_singleton (.assign ht.simplify hs.simplify)
  | print he => exact forall_items_singleton (.print he.simplify)
  | ifElse ht _ _ hy hn =>
    have hyes := forall_simplifyBlock hy
    have hno := forall_simplifyBlock hn
    exact forall_chosen (.ifElse ht.simplify hyes hno) hyes (.inl ⟨_, rfl, hno⟩)
  | ifChain ht _ hc _ hy hn =>
    have hyes := forall_simplifyBlock hy
    have hno := alternativeOf_linked hc hn
    exact forall_chosen (.ofAlternative ht.simplify hyes hno) hyes hno
  | ifOnly ht _ hy =>
    simp only [Node.simplify]
    split
    · exact forall_simplifyBlock hy
    · exact forall_items_nil
    · exact forall_items_singleton (.ifOnly ht.simplify (forall_simplifyBlock hy))
  | whileLoop ht _ hb =>
    simp only [Node.simplify]
    split
    · exact forall_items_nil
    · exact forall_items_singleton (.whileLoop ht.simplify (forall_simplifyBlock hb))
  | repeatLoop hc _ hb =>
    simp only [Node.simplify]
    split
    · exact forall_items_nil
    · exact forall_items_singleton (.repeatLoop hc.simplify (forall_simplifyBlock hb))
  | rangeLoop hl hh hs _ hb =>
    simp only [Node.simplify]
    split
    · exact forall_items_nil
    · exact forall_items_singleton
        (.rangeLoop hl.simplify hh.simplify hs.simplify (forall_simplifyBlock hb))
  | eachLoop hc _ hb =>
    simp only [Node.simplify]
    split
    · exact forall_items_nil
    · exact forall_items_singleton (.eachLoop hc.simplify (forall_simplifyBlock hb))
  | breakLoop => exact forall_items_singleton .breakLoop
  | continueLoop => exact forall_items_singleton .continueLoop
  | returnValue he => exact forall_items_singleton (.returnValue he.simplify)
  | returnNone => exact forall_items_singleton .returnNone
  | throwValue he => exact forall_items_singleton (.throwValue he.simplify)
  | tryCatch _ _ hb hh =>
    exact forall_items_singleton (.tryCatch (forall_simplifyBlock hb) (forall_simplifyBlock hh))
  | function _ hb => exact forall_items_singleton (.function (forall_simplifyBlock hb))
  | callAlone he => exact forall_items_singleton (.callAlone he.simplify)
  | incr he => exact forall_items_singleton (.incr he.simplify)
  | decr he => exact forall_items_singleton (.decr he.simplify)

theorem StmtForm.isStatement_or_expForm {s : Node} (h : StmtForm s) :
    s.isStatement ∨ ExpForm .value s := by
  cases h with
  | incr he => exact .inr (.unary he)
  | decr he => exact .inr (.unary he)
  | _ => exact .inl rfl

/-- What is well-formed stays so. A statement becomes a block. -/
theorem WellFormed.simplify {n : Node} (h : WellFormed n) : WellFormed n.simplify := by
  cases h with
  | exp h => exact .exp h.simplify
  | stmt h =>
    obtain hs | he := h.isStatement_or_expForm
    · rw [simplify_statement hs]
      exact .block h.simplify
    · exact .exp he.simplify
  | block h => exact .block (forall_simplifyBlock fun s hs => (h s hs).simplify)
  | program h => exact .program (forall_simplifyBlock fun s hs => (h s hs).simplify)

end Terse.Node
