import Terse.Proofs.Node.Idempotent
import Terse.Proofs.Node.Redex

/-! One simplification leaves no redexes behind. -/
namespace Terse.Node

/-- No redexes among nodes. -/
def Irreducible (ns : List Node) : Prop := ∀ m ∈ ns, ¬ IsRedex m

variable {n : Node} {ms ns : List Node}

theorem Irreducible.cons (hn : ¬ IsRedex n) (h : Irreducible ns) : Irreducible (n :: ns) :=
  List.forall_mem_cons.2 ⟨hn, h⟩

theorem Irreducible.append (h : Irreducible ns) (h' : Irreducible ms) : Irreducible (ns ++ ms) :=
  List.forall_mem_append.2 ⟨h, h'⟩

theorem irreducible_nil : Irreducible [] := fun _ h => absurd h List.not_mem_nil

/-- Operations, choices, loops and assignments: the nodes that have rules. -/
def hasRules : Node → Bool
  | binary .. | unary .. | conditional .. | ifElse .. | ifOnly .. | whileLoop .. | repeatLoop ..
  | rangeLoop .. | eachLoop .. | assign .. => true
  | _ => false

theorem IsRedex.hasRules (h : IsRedex n) : n.hasRules := by
  cases h <;> rfl

theorem not_isRedex (h : n.hasRules = false) : ¬ IsRedex n := by
  intro hn
  rw [hn.hasRules] at h
  contradiction

theorem not_isRedex_binary {op : BinOp} {l r : Node} (hfold : folded? op l r = none)
    (hidentity : identity? op l r = none) : ¬ IsRedex (binary op l r) := by
  obtain ⟨hleft, hright, htruth⟩ := identity?_eq_none_iff.1 hidentity
  intro h
  cases h with
  | fold hc =>
    rw [folded?_eq_none_iff.1 hfold _ _ rfl rfl] at hc
    contradiction
  | idleLeft hv ha => exact Bool.false_ne_true ((hleft _ hv).symm.trans ha)
  | idleRight hv ha => exact Bool.false_ne_true ((hright _ hv).symm.trans ha)
  | truthLeft hb => simpa [isBoolean] using (htruth _ hb).1
  | truthRight hb => simpa [isBoolean] using (htruth _ hb).2

theorem not_isRedex_unary {op : UnOp} {e : Node} (h : simplifyUnary op e = unary op e) :
    ¬ IsRedex (unary op e) := by
  intro hn
  cases hn <;> contradiction

section

variable {test count low high step collection target source v no : Node} {body yes : List Node}

theorem not_isRedex_conditional {yes : Node} (ht : test ≠ boolean true)
    (hf : test ≠ boolean false) : ¬ IsRedex (conditional test yes no) := by
  intro h
  cases h with
  | conditional b => cases b <;> contradiction

theorem not_isRedex_ifElse (ht : test ≠ boolean true) (hf : test ≠ boolean false) :
    ¬ IsRedex (ifElse test yes no) := by
  intro h
  cases h with
  | ifElse b => cases b <;> contradiction

theorem not_isRedex_ifOnly (ht : test ≠ boolean true) (hf : test ≠ boolean false) :
    ¬ IsRedex (ifOnly test yes) := by
  intro h
  cases h with
  | ifOnly b => cases b <;> contradiction

theorem not_isRedex_whileLoop (hf : test ≠ boolean false) : ¬ IsRedex (whileLoop test body) := by
  intro h
  cases h
  contradiction

theorem not_isRedex_repeatLoop (hn : ¬ count.isNoCount) : ¬ IsRedex (repeatLoop count body) := by
  intro h
  cases h with
  | repeatLoop _ ha => simp [isNoCount, ha] at hn

theorem not_isRedex_rangeLoop (hn : ¬ isEmptyRange low high) :
    ¬ IsRedex (rangeLoop v low high step body) := by
  intro h
  cases h with
  | rangeLoop _ _ _ hab => simp [isEmptyRange, hab] at hn

theorem not_isRedex_eachLoop (hn : ¬ collection.isEmptyArray) :
    ¬ IsRedex (eachLoop v collection body) := by
  intro h
  cases h
  contradiction

theorem not_isRedex_assign (hn : ¬ sameSymbol source target) :
    ¬ IsRedex (assign target source) := by
  intro h
  cases h
  simp [sameSymbol] at hn

end

theorem irreducible_ofConstant (c : Constant) : Irreducible (within (ofConstant c)) := by
  rw [within_ofConstant]
  refine irreducible_nil.cons (not_isRedex ?_)
  cases c <;> rfl

theorem irreducible_symbol (s : Symbol) : Irreducible (within (symbol s)) :=
  irreducible_nil.cons (not_isRedex rfl)

theorem irreducible_params (ps : List Symbol) : Irreducible (withinAll (ps.map symbol)) := by
  induction ps with
  | nil => exact irreducible_nil
  | cons p ps ih => exact (irreducible_symbol p).append ih

theorem irreducible_simplifyBinary {op : BinOp} {l r : Node} (hl : Irreducible (within l))
    (hr : Irreducible (within r)) : Irreducible (within (simplifyBinary op l r)) := by
  obtain ⟨c, h⟩ | h | h | ⟨-, h⟩ | ⟨hfold, hidentity, h⟩ := simplifyBinary_cases op l r <;> rw [h]
  · exact irreducible_ofConstant c
  · exact hl
  · exact hr
  · refine hr.cons fun hneg => ?_
    cases hneg
  · exact (hl.append hr).cons (not_isRedex_binary hfold hidentity)

theorem irreducible_simplifyUnary {op : UnOp} {e : Node} (he : Irreducible (within e)) :
    Irreducible (within (simplifyUnary op e)) := by
  obtain ⟨c, h⟩ | h := simplifyUnary_cases op e
  · rw [h]
    exact irreducible_ofConstant c
  · rw [h]
    exact he.cons (not_isRedex_unary h)

theorem irreducible_simplifyAll {es : List Node} (h : ∀ e ∈ es, Irreducible (within e.simplify)) :
    Irreducible (withinAll (simplifyAll es)) := by
  induction es with
  | nil => exact irreducible_nil
  | cons e es ih =>
    obtain ⟨he, hes⟩ := List.forall_mem_cons.1 h
    exact he.append (ih hes)

/-- A simplified expression holds no redexes. -/
theorem ExpForm.irreducible_simplify {k : ExpSort} (h : ExpForm k n) :
    Irreducible (within n.simplify) := by
  induction h with
  | number | string | boolean | symbol => exact irreducible_nil.cons (not_isRedex rfl)
  | conditional _ _ _ ht hy hn =>
    simp only [Node.simplify]
    split
    · exact hy
    · exact hn
    · rename_i hnt hnf
      exact ((ht.append hy).append hn).cons (not_isRedex_conditional hnt hnf)
  | binary _ _ hl hr => exact irreducible_simplifyBinary hl hr
  | unary _ he => exact irreducible_simplifyUnary he
  | array _ hes | dict _ hes => exact (irreducible_simplifyAll hes).cons (not_isRedex rfl)
  | dictItem _ he | member _ he => exact he.cons (not_isRedex rfl)
  | subscript _ _ hc hi => exact (hc.append hi).cons (not_isRedex rfl)
  | call _ hes =>
    exact ((irreducible_symbol _).append (irreducible_simplifyAll hes)).cons (not_isRedex rfl)

theorem irreducible_simplifyBlock {ss : List Node}
    (h : ∀ s ∈ ss, Irreducible (within s.simplify)) :
    Irreducible (withinAll (simplifyBlock ss)) := by
  induction ss with
  | nil => exact irreducible_nil
  | cons s ss ih =>
    obtain ⟨hs, hss⟩ := List.forall_mem_cons.1 h
    rw [simplifyBlock, withinAll_append, withinAll_items]
    exact hs.append (ih hss)

theorem irreducible_singleton (h : Irreducible (within n)) : Irreducible (within (list [n])) :=
  h.append irreducible_nil

theorem irreducible_chosen {test no : Node} {yes : List Node} (ht : Irreducible (within test))
    (hy : Irreducible (withinAll yes)) (hn : Irreducible (within no)) :
    Irreducible (within (chosen test yes no)) := by
  unfold chosen
  split
  · exact hy
  · have hitems : within (list no.items) = within no := withinAll_items no
    rwa [hitems]
  · rename_i hnt hnf
    exact irreducible_singleton (((ht.append hy).append hn).cons (not_isRedex_ifElse hnt hnf))

/-- A simplified statement holds no redexes. -/
theorem StmtForm.irreducible_simplify {s : Node} (h : StmtForm s) :
    Irreducible (within s.simplify) := by
  induction h with
  | declare he =>
    exact irreducible_singleton
      (((irreducible_symbol _).append he.irreducible_simplify).cons (not_isRedex rfl))
  | assign ht he =>
    simp only [Node.simplify]
    split
    · exact irreducible_nil
    · rename_i hne
      exact irreducible_singleton ((ht.irreducible_simplify.append he.irreducible_simplify).cons
        (not_isRedex_assign hne))
  | print he | returnValue he | throwValue he | callAlone he =>
    exact irreducible_singleton (he.irreducible_simplify.cons (not_isRedex rfl))
  | ifElse ht _ _ hy hn =>
    rw [Node.simplify]
    refine irreducible_chosen ht.irreducible_simplify (irreducible_simplifyBlock hy) ?_
    rw [within_linked]
    exact irreducible_simplifyBlock hn
  | ifChain ht _ _ _ hy hn =>
    rw [Node.simplify]
    refine irreducible_chosen ht.irreducible_simplify (irreducible_simplifyBlock hy) ?_
    rw [within_linked]
    exact hn
  | ifOnly ht _ hy =>
    simp only [Node.simplify]
    split
    · exact irreducible_simplifyBlock hy
    · exact irreducible_nil
    · rename_i hnt hnf
      exact irreducible_singleton ((ht.irreducible_simplify.append
        (irreducible_simplifyBlock hy)).cons (not_isRedex_ifOnly hnt hnf))
  | whileLoop ht _ hb =>
    simp only [Node.simplify]
    split
    · exact irreducible_nil
    · rename_i hnf
      exact irreducible_singleton ((ht.irreducible_simplify.append
        (irreducible_simplifyBlock hb)).cons (not_isRedex_whileLoop hnf))
  | repeatLoop hc _ hb =>
    simp only [Node.simplify]
    split
    · exact irreducible_nil
    · rename_i hn
      exact irreducible_singleton ((hc.irreducible_simplify.append
        (irreducible_simplifyBlock hb)).cons (not_isRedex_repeatLoop hn))
  | rangeLoop hl hh hs _ hb =>
    simp only [Node.simplify]
    split
    · exact irreducible_nil
    · rename_i hn
      exact irreducible_singleton ((((((irreducible_symbol _).append hl.irreducible_simplify).append
        hh.irreducible_simplify).append hs.irreducible_simplify).append
        (irreducible_simplifyBlock hb)).cons (not_isRedex_rangeLoop hn))
  | eachLoop hc _ hb =>
    simp only [Node.simplify]
    split
    · exact irreducible_nil
    · rename_i hn
      exact irreducible_singleton ((((irreducible_symbol _).append hc.irreducible_simplify).append
        (irreducible_simplifyBlock hb)).cons (not_isRedex_eachLoop hn))
  | breakLoop | continueLoop | returnNone =>
    exact irreducible_singleton (irreducible_nil.cons (not_isRedex rfl))
  | tryCatch _ _ hb hh =>
    exact irreducible_singleton
      ((((irreducible_simplifyBlock hb).append (irreducible_params _)).append
        (irreducible_simplifyBlock hh)).cons (not_isRedex rfl))
  | function _ hb =>
    exact irreducible_singleton ((((irreducible_symbol _).append (irreducible_params _)).append
      (irreducible_simplifyBlock hb)).cons (not_isRedex rfl))
  | incr he | decr he => exact (ExpForm.unary he).irreducible_simplify

/-- Whatever has been simplified holds no redexes. -/
theorem WellFormed.irreducible_simplify (h : WellFormed n) : Irreducible (within n.simplify) := by
  cases h with
  | exp h => exact h.irreducible_simplify
  | stmt h => exact h.irreducible_simplify
  | block h => exact irreducible_simplifyBlock fun s hs => (h s hs).irreducible_simplify
  | program h =>
    exact (irreducible_simplifyBlock fun s hs => (h s hs).irreducible_simplify).cons
      (not_isRedex rfl)

/-- One simplification leaves no redexes, and a second one changes nothing unless a number literal
is left under a minus sign. -/
theorem optimize_irreducible (h : WellFormed n) :
    ∃ n', n.optimize = .ok n' ∧ (∀ m ∈ n'.within, ¬ IsRedex m) ∧
      (n'.optimize = .ok n' ↔ ∀ m ∈ n'.within, m.isNegated = false) := by
  refine ⟨n.simplify, h.optimize_eq, h.irreducible_simplify, ?_⟩
  rw [h.simplify.optimize_eq, Except.ok.injEq]
  exact h.simplify_twice_iff

/-- A chain of choices whose first test is false, with an assignment that does nothing in the
next. -/
def deadLink (x : Symbol) : Node :=
  ifElse (binary .lt one zero) [print one]
    (ifElse (symbol x) [assign (symbol x) (symbol x)] (list [unary .incr (symbol x)]))

theorem optimize_irreducible_deadLink :
    ∃ x : Symbol, WellFormed (deadLink x) ∧
      ∃ n', (deadLink x).optimize = .ok n' ∧ (∀ m ∈ n'.within, ¬ IsRedex m) ∧
        (n'.optimize = .ok n' ↔ ∀ m ∈ n'.within, m.isNegated = false) := by
  let x : Symbol := ⟨"x", 1, .var false, .declared 1⟩
  have hx : ExpForm .value (symbol x) := .symbol x
  have hnext : StmtForm (ifElse (symbol x) [assign (symbol x) (symbol x)]
      (list [unary .incr (symbol x)])) :=
    .ifElse hx (List.forall_mem_singleton.2 (.assign hx hx))
      (List.forall_mem_singleton.2 (.incr hx))
  have h : WellFormed (deadLink x) :=
    .stmt (.ifChain (.binary (.number _) (.number _))
      (List.forall_mem_singleton.2 (.print (.number _))) rfl hnext)
  exact ⟨x, h, optimize_irreducible h⟩

end Terse.Node
