import Terse.Proofs.Node.Form

/-! Programs as name resolution builds them, and that simplification keeps them so. -/
namespace Terse.Node

inductive IsExp : ExpSort → Node → Prop
  | number (a : Number) : IsExp .value (number a)
  | string (t : Text) : IsExp .value (string t)
  | boolean (b : Bool) : IsExp .value (boolean b)
  | symbol (s : Symbol) : IsExp .value (symbol s)
  | conditional {test yes no : Node} :
      IsExp .value test → IsExp .value yes → IsExp .value no →
      IsExp .value (conditional test yes no)
  | binary {op : BinOp} {left right : Node} :
      op ∈ BinOp.known → IsExp .value left → IsExp .value right →
      IsExp .value (binary op left right)
  | unary {op : UnOp} {operand : Node} :
      op ∈ UnOp.known → IsExp .value operand → IsExp .value (unary op operand)
  | array {es : List Node} : (∀ e ∈ es, IsExp .value e) → IsExp .value (array es)
  | dict {es : List Node} : (∀ e ∈ es, IsExp .entry e) → IsExp .value (dict es)
  | dictItem {key : String} {e : Node} : IsExp .value e → IsExp .entry (dictItem key e)
  | member {object : Node} {access name : String} :
      access = "." ∨ access = "?." → IsExp .value object →
      IsExp .value (member object access name)
  | subscript {collection index : Node} :
      IsExp .value collection → IsExp .value index → IsExp .value (subscript collection index)
  | call {f : Symbol} {args : List Node} :
      (∀ e ∈ args, IsExp .value e) → IsExp .value (call (symbol f) args)

/-- What may stand on the left of an assignment. -/
def isTarget : Node → Bool
  | symbol s => !s.isFunction
  | subscript .. | member .. => true
  | _ => false

def symbol? : Node → Option Symbol
  | symbol s => some s
  | _ => none

def isCall : Node → Bool
  | call .. => true
  | _ => false

/-- Statements, and increments that stand alone. Whatever is declared is no part of the library. -/
inductive IsStmt : Node → Prop
  | declare {s : Symbol} {e : Node} : s.isWritable → IsExp .value e → IsStmt (declare (symbol s) e)
  | assign {target source : Node} :
      target.isTarget → IsExp .value target → IsExp .value source → IsStmt (assign target source)
  | print {e : Node} : IsExp .value e → IsStmt (print e)
  | ifElse {test : Node} {yes no : List Node} :
      IsExp .value test → (∀ s ∈ yes, IsStmt s) → (∀ s ∈ no, IsStmt s) →
      IsStmt (ifElse test yes (list no))
  | ifChain {test next : Node} {yes : List Node} :
      IsExp .value test → (∀ s ∈ yes, IsStmt s) → next.isChoice → IsStmt next →
      IsStmt (ifElse test yes next)
  | ifOnly {test : Node} {yes : List Node} :
      IsExp .value test → (∀ s ∈ yes, IsStmt s) → IsStmt (ifOnly test yes)
  | whileLoop {test : Node} {body : List Node} :
      IsExp .value test → (∀ s ∈ body, IsStmt s) → IsStmt (whileLoop test body)
  | repeatLoop {count : Node} {body : List Node} :
      IsExp .value count → (∀ s ∈ body, IsStmt s) → IsStmt (repeatLoop count body)
  | rangeLoop {v : Symbol} {low high step : Node} {body : List Node} :
      v.isWritable → IsExp .value low → IsExp .value high → IsExp .value step →
      (∀ s ∈ body, IsStmt s) → IsStmt (rangeLoop (symbol v) low high step body)
  | eachLoop {v : Symbol} {collection : Node} {body : List Node} :
      v.isWritable → IsExp .value collection → (∀ s ∈ body, IsStmt s) →
      IsStmt (eachLoop (symbol v) collection body)
  | breakLoop : IsStmt breakLoop
  | continueLoop : IsStmt continueLoop
  | returnValue {e : Node} : IsExp .value e → IsStmt (returnValue e)
  | returnNone : IsStmt returnNone
  | throwValue {e : Node} : IsExp .value e → IsStmt (throwValue e)
  | tryCatch {params : List Symbol} {body handler : List Node} :
      (∀ p ∈ params, p.isWritable) → (∀ s ∈ body, IsStmt s) → (∀ s ∈ handler, IsStmt s) →
      IsStmt (tryCatch body (params.map symbol) handler)
  | function {f : Symbol} {params : List Symbol} {body : List Node} :
      f.isFunction → f.isIntrinsic = false → (∀ p ∈ params, p.isWritable) →
      (∀ s ∈ body, IsStmt s) → IsStmt (function (symbol f) (params.map symbol) body)
  | callAlone {c : Node} : c.isCall → IsExp .value c → IsStmt (callAlone c)
  | incr {operand : Node} : IsExp .value operand → IsStmt (unary .incr operand)
  | decr {operand : Node} : IsExp .value operand → IsStmt (unary .decr operand)

/-- An expression over known operators has the form of one. -/
theorem IsExp.form {k : ExpSort} {n : Node} (h : IsExp k n) : ExpForm k n := by
  induction h with
  | number a => exact .number a
  | string t => exact .string t
  | boolean b => exact .boolean b
  | symbol s => exact .symbol s
  | conditional _ _ _ ht hy hn => exact .conditional ht hy hn
  | binary _ _ _ hl hr => exact .binary hl hr
  | unary _ _ he => exact .unary he
  | array _ hes => exact .array hes
  | dict _ hes => exact .dict hes
  | dictItem _ he => exact .dictItem he
  | member _ _ ho => exact .member ho
  | subscript _ _ hc hi => exact .subscript hc hi
  | call _ hes => exact .call hes

theorem IsStmt.form {s : Node} (h : IsStmt s) : StmtForm s := by
  induction h with
  | declare _ he => exact .declare he.form
  | assign _ ht he => exact .assign ht.form he.form
  | print he => exact .print he.form
  | ifElse ht _ _ hy hn => exact .ifElse ht.form hy hn
  | ifChain ht _ hc _ hy hn => exact .ifChain ht.form hy hc hn
  | ifOnly ht _ hy => exact .ifOnly ht.form hy
  | whileLoop ht _ hb => exact .whileLoop ht.form hb
  | repeatLoop hc _ hb => exact .repeatLoop hc.form hb
  | rangeLoop _ hl hh hs _ hb => exact .rangeLoop hl.form hh.form hs.form hb
  | eachLoop _ hc _ hb => exact .eachLoop hc.form hb
  | breakLoop => exact .breakLoop
  | continueLoop => exact .continueLoop
  | returnValue he => exact .returnValue he.form
  | returnNone => exact .returnNone
  | throwValue he => exact .throwValue he.form
  | tryCatch _ _ _ hb hh => exact .tryCatch hb hh
  | function _ _ _ _ hb => exact .function hb
  | callAlone _ he => exact .callAlone he.form
  | incr he => exact .incr he.form
  | decr he => exact .decr he.form

theorem IsExp.fault?_eq_none {k : ExpSort} {n : Node} (h : IsExp k n) : n.fault? = none :=
  h.form.fault?_eq_none

theorem IsStmt.fault?_eq_none {s : Node} (h : IsStmt s) : s.fault? = none :=
  h.form.fault?_eq_none

/-- A block of a resolved program can always be simplified. -/
theorem blockFault?_block {ss : List Node} (h : ∀ s ∈ ss, IsStmt s) : blockFault? ss = none :=
  blockFault?_forms fun s hs => (h s hs).form

/-- Statements are optimized as a block. -/
theorem optimize_program {ss : List Node} (h : ∀ s ∈ ss, IsStmt s) :
    (program ss).optimize = .ok (program (simplifyBlock ss)) :=
  (WellFormed.program fun s hs => (h s hs).form).optimize_eq

theorem isExp_ofConstant (c : Constant) : IsExp .value (ofConstant c) := by
  cases c with
  | number a => exact .number a
  | boolean b => exact .boolean b

theorem IsExp.simplifyBinary {op : BinOp} {left right : Node} (ho : op ∈ BinOp.known)
    (hl : IsExp .value left) (hr : IsExp .value right) :
    IsExp .value (simplifyBinary op left right) := by
  obtain ⟨c, h⟩ | h | h | ⟨_, h⟩ | ⟨_, _, h⟩ := simplifyBinary_cases op left right <;> rw [h]
  · exact isExp_ofConstant c
  · exact hl
  · exact hr
  · exact .unary (by decide) hr
  · exact .binary ho hl hr

theorem IsExp.simplifyUnary {op : UnOp} {operand : Node} (ho : op ∈ UnOp.known)
    (h : IsExp .value operand) : IsExp .value (simplifyUnary op operand) := by
  obtain ⟨c, hc⟩ | hk := simplifyUnary_cases op operand
  · rw [hc]
    exact isExp_ofConstant c
  · rw [hk]
    exact .unary ho h

/-- Simplification leads from expressions to expressions, with known operators. -/
theorem IsExp.simplify {k : ExpSort} {n : Node} (h : IsExp k n) : IsExp k n.simplify := by
  induction h with
  | number a => exact .number a
  | string t => exact .string t
  | boolean b => exact .boolean b
  | symbol s => exact .symbol s
  | conditional _ _ _ ht hy hn =>
    simp only [Node.simplify]
    split
    · exact hy
    · exact hn
    · exact .conditional ht hy hn
  | binary ho _ _ hl hr => exact .simplifyBinary ho hl hr
  | unary ho _ he => exact .simplifyUnary ho he
  | array _ hes =>
    simp only [Node.simplify, simplifyAll_eq]
    exact .array (by simpa using hes)
  | dict _ hes =>
    simp only [Node.simplify, simplifyAll_eq]
    exact .dict (by simpa using hes)
  | dictItem _ he => exact .dictItem he
  | member ha _ ho => exact .member ha ho
  | subscript _ _ hc hi => exact .subscript hc hi
  | call _ hes =>
    simp only [Node.simplify, simplifyAll_eq]
    exact .call (by simpa using hes)

theorem simplify_target {target : Node} (h : target.isTarget) : target.simplify.isTarget := by
  cases target <;> simp_all [isTarget, Node.simplify]

theorem simplify_call {c : Node} (h : c.isCall) : c.simplify.isCall := by
  cases c <;> simp_all [isCall, Node.simplify]

/-- What follows a test that fails: a block, or the next choice of a chain. -/
def IsAlternative (n : Node) : Prop :=
  (∃ ss, n = list ss ∧ ∀ s ∈ ss, IsStmt s) ∨ n.isChoice ∧ IsStmt n

theorem IsStmt.ofAlternative {test no : Node} {yes : List Node} (ht : IsExp .value test)
    (hy : ∀ s ∈ yes, IsStmt s) (hn : IsAlternative no) : IsStmt (Node.ifElse test yes no) := by
  obtain ⟨ss, rfl, hs⟩ | ⟨hc, hn⟩ := hn
  · exact .ifElse ht hy hs
  · exact .ifChain ht hy hc hn

theorem isAlternative_linked {n : Node} (h : n.isChoice)
    (hn : ∀ m ∈ n.simplify.items, IsStmt m) : IsAlternative (linked n n.simplify) :=
  alternativeOf_linked h hn

/-- Whatever a statement becomes is made of statements. -/
theorem IsStmt.simplify {s : Node} (h : IsStmt s) : ∀ m ∈ s.simplify.items, IsStmt m := by
  induction h with
  | declare hs he => exact forall_items_singleton (.declare hs he.simplify)
  | assign ht htarget hsource =>
    simp only [Node.simplify]
    split
    · exact forall_items_nil
    · exact forall_items_singleton
        (.assign (simplify_target ht) htarget.simplify hsource.simplify)
  | print he => exact forall_items_singleton (.print he.simplify)
  | ifElse ht _ _ hy hn =>
    have hyes := forall_simplifyBlock hy
    have hno := forall_simplifyBlock hn
    exact forall_chosen (.ifElse ht.simplify hyes hno) hyes (.inl ⟨_, rfl, hno⟩)
  | ifChain ht _ hc _ hy hn =>
    have hyes := forall_simplifyBlock hy
    have hno := isAlternative_linked hc hn
    exact forall_chosen (.ofAlternative ht.simplify hyes hno) hyes hno
  | ifOnly ht _ hy =>
    simp only [Node.simplify]
    split
    · exact forall_simplifyBlock hy
    · exact forall_items_nil
    · exact forall_items_singleton (.ifOnly ht.simplify (forall_simplifyBlock hy))
  | whileLoop ht _ hb =>
    simp only [Node.simplify]
    split
    · exact forall_items_nil
    · exact forall_items_singleton (.whileLoop ht.simplify (forall_simplifyBlock hb))
  | repeatLoop hc _ hb =>
    simp only [Node.simplify]
    split
    · exact forall_items_nil
    · exact forall_items_singleton (.repeatLoop hc.simplify (forall_simplifyBlock hb))
  | rangeLoop hv hl hh hs _ hb =>
    simp only [Node.simplify]
    split
    · exact forall_items_nil
    · exact forall_items_singleton
        (.rangeLoop hv hl.simplify hh.simplify hs.simplify (forall_simplifyBlock hb))
  | eachLoop hv hc _ hb =>
    simp only [Node.simplify]
    split
    · exact forall_items_nil
    · exact forall_items_singleton (.eachLoop hv hc.simplify (forall_simplifyBlock hb))
  | breakLoop => exact forall_items_singleton .breakLoop
  | continueLoop => exact forall_items_singleton .continueLoop
  | returnValue he => exact forall_items_singleton (.returnValue he.simplify)
  | returnNone => exact forall_items_singleton .returnNone
  | throwValue he => exact forall_items_singleton (.throwValue he.simplify)
  | tryCatch hp _ _ hb hh =>
    exact forall_items_singleton
      (.tryCatch hp (forall_simplifyBlock hb) (forall_simplifyBlock hh))
  | function hf hi hp _ hb =>
    exact forall_items_singleton (.function hf hi hp (forall_simplifyBlock hb))
  | callAlone hc he => exact forall_items_singleton (.callAlone (simplify_call hc) he.simplify)
  | incr he => exact forall_items_singleton (.incr he.simplify)
  | decr he => exact forall_items_singleton (.decr he.simplify)

/-- Simplification leads from statements to statements. -/
theorem isStmt_simplified {ss : List Node} (h : ∀ s ∈ ss, IsStmt s) :
    ∀ m ∈ simplifyBlock ss, IsStmt m :=
  forall_simplifyBlock fun s hs => (h s hs).simplify

end Terse.Node
