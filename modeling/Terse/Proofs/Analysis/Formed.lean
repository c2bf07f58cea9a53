import Terse.Proofs.Analysis.Resolved
import Terse.Proofs.Grammar.Parsed
import Terse.Proofs.Node.Everywhere

/-! A text that is resolved becomes a well-formed program. -/
namespace Terse

variable {t : Token}

theorem Token.Is.spelled {kind : TokenKind} (h : t.Is Token.Spelled kind) :
    Token.Spelled ⟨kind, t.text, t.loc⟩ := h.kind_eq ▸ h.holds

theorem ofWord_arith (h : t.Is Token.Spelled .arith) : BinOp.ofWord t.text ∈ BinOp.known := by
  have hall : ∀ w ∈ ["+", "-", "*", "/", "%"], BinOp.ofWord w ∈ BinOp.known := by decide
  exact hall _ h.spelled

theorem ofWord_relop (h : t.Is Token.Spelled .relop) : BinOp.ofWord t.text ∈ BinOp.known := by
  have hall : ∀ w ∈ ["<=", ">=", "==", "~=", "<", ">"], BinOp.ofWord w ∈ BinOp.known := by decide
  exact hall _ h.spelled

theorem compoundOp_known (h : t.Is Token.Spelled .mathAssign) :
    Analysis.compoundOp (.token t) ∈ BinOp.known := by
  have hall : ∀ w ∈ ["+=", "-=", "*=", "/="],
      BinOp.ofWord (String.ofList (w.toList.take 1)) ∈ BinOp.known := by decide
  exact hall _ h.spelled

theorem ofWord_incDec (h : t.Is Token.Spelled .incDec) :
    UnOp.ofWord t.text = .incr ∨ UnOp.ofWord t.text = .decr := by
  have hall : ∀ w ∈ ["++", "--"], UnOp.ofWord w = .incr ∨ UnOp.ofWord w = .decr := by decide
  exact hall _ h.spelled

theorem ofWord_unary (h : t.Is Token.Spelled .unary) : UnOp.ofWord t.text ∈ UnOp.known := by
  have hall : ∀ w ∈ ["_", "~", "#"], UnOp.ofWord w ∈ UnOp.known := by decide
  exact hall _ h.spelled

theorem ofWord_factorial (h : t.Is Token.Spelled .factorial) : UnOp.ofWord t.text ∈ UnOp.known := by
  have htext : t.text = "F" := h.spelled
  rw [htext]
  decide

namespace Analysis

open Node (ExpSort)

variable {sc : Scope} {ts : List Tree} {ns : List Node}

/-- What is known of all pairs of a tree and its node holds of all nodes. -/
theorem forall_mem_of_zip {Q : Node → Prop} (hl : ts.length = ns.length)
    (h : ∀ p ∈ ts.zip ns, Q p.2) : ∀ n ∈ ns, Q n := by
  intro n hn
  rw [← List.map_snd_zip (Nat.le_of_eq hl.symm)] at hn
  obtain ⟨p, hp, rfl⟩ := List.mem_map.1 hn
  exact h p hp

/-- An expression resolves to an expression. -/
theorem ExpTo.isExp {k : ExpSort} {t : Tree} {n : Node} (h : ExpTo Token.Spelled sc k t n) :
    Node.IsExp k n := by
  induction h with
  | number _ _ => exact .number _
  | string _ _ => exact .string _
  | trueLit | falseLit => exact .boolean _
  | var _ _ => exact .symbol _
  | call _ _ _ hl _ ih => exact .call (forall_mem_of_zip hl ih)
  | array hl _ ih => exact .array (forall_mem_of_zip hl ih)
  | dict hl _ ih => exact .dict (forall_mem_of_zip hl ih)
  | dictItem _ _ ih => exact .dictItem ih
  | member _ _ ih => exact .member (.inl rfl) ih
  | optionalMember _ _ ih => exact .member (.inr rfl) ih
  | subscript _ _ ihc ihi => exact .subscript ihc ihi
  | postfixUnary _ ht ih =>
    obtain ht | ht := ht
    · obtain hop | hop := ofWord_incDec ht <;> rw [hop] <;> exact .unary (by decide) ih
    · exact .unary (ofWord_factorial ht) ih
  | unary ht _ ih => exact .unary (ofWord_unary ht) ih
  | power _ _ ihl ihr => exact .binary (by decide) ihl ihr
  | binary ht _ _ ihl ihr => exact .binary (ofWord_arith ht) ihl ihr
  | relational _ ht _ ihl ihr => exact .binary (ofWord_relop ht) ihl ihr
  | andExp _ _ ihl ihr | orExp _ _ ihl ihr => exact .binary (by decide) ihl ihr
  | conditional _ _ _ iht ihy ihn => exact .conditional iht ihy ihn

/-- What stands alone is a call that prints, or is kept. -/
theorem callStatement_eq (n : Node) :
    (∃ arg args, n = .call (.symbol .log) (arg :: args) ∧ callStatement n = .print arg) ∨
      callStatement n = .callAlone n := by
  unfold callStatement
  split
  · split
    · rename_i f arg args hlog
      exact .inl ⟨arg, args, by rw [hlog], rfl⟩
    · exact .inr rfl
  · exact .inr rfl

/-- A call on its own is a print of one of its arguments, or stays a call. -/
theorem callStatement_cases (f : Symbol) (args : List Node) :
    (∃ arg ∈ args, callStatement (.call (.symbol f) args) = .print arg) ∨
      callStatement (.call (.symbol f) args) = .callAlone (.call (.symbol f) args) := by
  obtain ⟨arg, rest, hcall, he⟩ | he := callStatement_eq (.call (.symbol f) args)
  · obtain ⟨-, rfl⟩ := Node.call.inj hcall
    exact .inl ⟨arg, List.mem_cons_self, he⟩
  · exact .inr he

/-- A call that stands alone has what the call has, if nothing is asked of the statement itself. -/
theorem everywhere_callStatement {S : List Node.Region → Node → Prop} {path : List Node.Region}
    {f : Symbol} {args : List Node} (hprint : ∀ e, S path (.print e))
    (halone : ∀ e, S path (.callAlone e)) (h : Node.Everywhere S path (.call (.symbol f) args)) :
    Node.Everywhere S path (callStatement (.call (.symbol f) args)) := by
  obtain ⟨-, -, hargs⟩ := Node.everywhere_iff.1 h
  obtain ⟨arg, harg, he⟩ | he := callStatement_cases f args <;> rw [he]
  · exact Node.everywhere_iff.2 ⟨hprint arg, hargs arg harg⟩
  · exact Node.everywhere_iff.2 ⟨halone _, h⟩

theorem ExpTo.eq_call {P : Token → Prop} {t : Token} {args : List Tree} {l : Option Loc} {n : Node}
    (h : ExpTo P sc .value (.node .call (.token t :: args) l) n) :
    ∃ f ns, n = .call (.symbol f) ns := by
  cases h with
  | call => exact ⟨_, _, rfl⟩

theorem isStmt_callStatement {n : Node} {t : Token} {args : List Tree} {l : Option Loc}
    (h : ExpTo Token.Spelled sc .value (.node .call (.token t :: args) l) n) :
    Node.IsStmt (callStatement n) := by
  have hn := h.isExp
  obtain ⟨f, ns, rfl⟩ := h.eq_call
  obtain ⟨arg, harg, he⟩ | he := callStatement_cases f ns
  · rw [he]
    cases hn with
    | call hargs => exact .print (hargs arg harg)
  · rw [he]
    exact .callAlone rfl hn

theorem Introduced.isWritable {ps : List Token} {f f' : Frame} {u u' : Nat} {vs : List Symbol}
    (h : Introduced ps f u vs f' u') : ∀ v ∈ vs, v.isWritable := by
  induction h with
  | nil => simp
  | cons _ _ ih => exact List.forall_mem_cons.2 ⟨rfl, ih⟩

/-- The node of a choice is a choice. -/
theorem isChoice_of_ifStmt {P : Token → Prop} {kids : List Tree} {l : Option Loc} {n : Node}
    {outer : Scope} {f f' : Frame} {u u' : Nat}
    (h : StmtTo P (.stmt (.node .ifStmt kids l) n) outer f u f' u') :
    n.isChoice := by
  cases h <;> rfl

theorem isFunction_of_isWritable {s : Symbol} (h : s.isWritable) : s.isFunction = false := by
  unfold Symbol.isWritable at h
  unfold Symbol.isFunction
  split at h <;> simp_all

def Code.Formed : Code → Prop
  | .stmt _ n => Node.IsStmt n
  | .row _ ns => ∀ n ∈ ns, Node.IsStmt n

/-- Statements resolve to statements, and choices to choices. -/
theorem StmtTo.formed {c : Code} {outer : Scope} {f f' : Frame} {u u' : Nat}
    (h : StmtTo Token.Spelled c outer f u f' u') : c.Formed := by
  induction h with
  | assign _ hn _ hs =>
    exact .assign (by simp [Node.isTarget, isFunction_of_isWritable hs]) (.symbol _) hn.isExp
  | declare _ hn _ _ => exact .declare rfl hn.isExp
  | indexAssign _ _ hi hn => exact .assign rfl (.subscript (.symbol _) hi.isExp) hn.isExp
  | memberAssign _ _ _ hn => exact .assign rfl (.member (.inl rfl) (.symbol _)) hn.isExp
  | mathAssign _ hop _ hs hn =>
    exact .assign (by simp [Node.isTarget, hs]) (.symbol _)
      (.binary (compoundOp_known hop) (.symbol _) hn.isExp)
  | incDecStmt hn hop =>
    unfold Code.Formed
    obtain hop | hop := ofWord_incDec hop <;> rw [hop]
    · exact .incr hn.isExp
    · exact .decr hn.isExp
  | callStmt hn => exact isStmt_callStatement hn
  | function _ _ hvs _ ih => exact .function rfl rfl hvs.isWritable ih
  | ifOnly hc _ ih => exact .ifOnly hc.isExp ih
  | ifChain hc _ hn ih ihn => exact .ifChain hc.isExp ih (isChoice_of_ifStmt hn) ihn
  | ifElse hc _ _ ihy ihn => exact .ifElse hc.isExp ihy ihn
  | whileStmt hc _ ih => exact .whileLoop hc.isExp ih
  | repeatNumber _ _ _ ih => exact .repeatLoop (.number _) ih
  | repeatName _ _ _ _ ih => exact .repeatLoop (.symbol _) ih
  | rangeStmt _ ha hb _ _ ih => exact .rangeLoop rfl ha.isExp hb.isExp (.number _) ih
  | steppedStmt _ ha hb hc _ _ ih => exact .rangeLoop rfl ha.isExp hb.isExp hc.isExp ih
  | forStmt _ hc _ _ ih => exact .eachLoop rfl hc.isExp ih
  | breakStmt _ => exact .breakLoop
  | continueStmt _ => exact .continueLoop
  | returnStmt _ hn => exact .returnValue hn.isExp
  | shortReturnStmt _ => exact .returnNone
  | throwStmt hn => exact .throwValue hn.isExp
  | tryStmt _ hvs _ ihb ihh => exact .tryCatch hvs.isWritable ihb ihh
  | nil => exact fun n hn => absurd hn List.not_mem_nil
  | cons _ _ ihn ihns => exact List.forall_mem_cons.2 ⟨ihn, ihns⟩

end Analysis

/-- An accepted program is a list of statements. -/
theorem isStmt_of_analyze {source : String} {tree : Tree} {ss : List Node}
    (hp : parse source = .ok tree) (ha : analyze tree = .ok ss) : ∀ s ∈ ss, Node.IsStmt s := by
  obtain ⟨f, u, h⟩ := stmtTo_of_analyze (isStmt_of_parse hp (spelled_lex _)) ha
  exact h.formed

/-- The program of a text passes a test. -/
def resolvesTo (source : String) (test : List Node → Bool) : Bool :=
  match parse source with
  | .error _ => false
  | .ok tree =>
    match analyze tree with
    | .error _ => false
    | .ok ss => test ss

/-- A text whose statements pass a test is parsed and accepted. -/
theorem exists_of_resolvesTo {source : String} {test : List Node → Bool}
    (h : resolvesTo source test) :
    ∃ tree ss, parse source = .ok tree ∧ analyze tree = .ok ss ∧ test ss := by
  unfold resolvesTo at h
  split at h
  · contradiction
  · rename_i tree hp
    split at h
    · contradiction
    · rename_i ss ha
      exact ⟨tree, ss, hp, ha, h⟩

end Terse
