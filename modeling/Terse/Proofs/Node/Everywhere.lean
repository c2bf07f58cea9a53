import Terse.Proofs.Node.Formed

/-! What holds of all nodes of a program, each seen with the loops and functions around it, and what
simplification keeps of it. -/
namespace Terse.Node

/-- A body that statements in it can leave, a loop by a jump and a function by a return. -/
inductive Region where
  | loop
  | function
deriving DecidableEq

/-- The parts of a node, those in the body of a loop or of a function marked as such. -/
def parts : Node → List (Option Region × Node)
  | program ss | list ss => ss.map (none, ·)
  | declare v e => [(none, v), (none, e)]
  | assign target source => [(none, target), (none, source)]
  | print e | returnValue e | throwValue e | callAlone e | unary _ e | dictItem _ e
  | member e _ _ => [(none, e)]
  | ifElse test yes no => (none, test) :: (none, no) :: yes.map (none, ·)
  | ifOnly test yes => (none, test) :: yes.map (none, ·)
  | whileLoop test body | repeatLoop test body => (none, test) :: body.map (some .loop, ·)
  | rangeLoop v low high step body =>
    (none, v) :: (none, low) :: (none, high) :: (none, step) :: body.map (some .loop, ·)
  | eachLoop v collection body => (none, v) :: (none, collection) :: body.map (some .loop, ·)
  | tryCatch body params handler => (body ++ params ++ handler).map (none, ·)
  | function f params body =>
    (none, f) :: (params.map (none, ·) ++ body.map (some .function, ·))
  | conditional test yes no => [(none, test), (none, yes), (none, no)]
  | binary _ left right => [(none, left), (none, right)]
  | array es | dict es => es.map (none, ·)
  | subscript collection index => [(none, collection), (none, index)]
  | call f args => (none, f) :: args.map (none, ·)
  | breakLoop | continueLoop | returnNone | number _ | string _ | boolean _ | symbol _
  | foreign _ => []

/-- `Lies n path m`: `m` is `n` or somewhere in it, and `path` are the bodies of loops and functions
of `n` around it, innermost first. -/
inductive Lies : Node → List Region → Node → Prop
  | here {n : Node} : Lies n [] n
  | part {n p m : Node} {r : Option Region} {path : List Region} :
      (r, p) ∈ n.parts → Lies p path m → Lies n (path ++ r.toList) m

/-- `S` holds of all that lies in a node, where the node itself lies in the bodies `path`. -/
def Everywhere (S : List Region → Node → Prop) (path : List Region) (n : Node) : Prop :=
  ∀ inner m, Lies n inner m → S (inner ++ path) m

def EverywhereIn (S : List Region → Node → Prop) (path : List Region) (ss : List Node) : Prop :=
  ∀ s ∈ ss, Everywhere S path s

/-- `S` holds everywhere in the parts of a node. -/
def InParts (S : List Region → Node → Prop) (path : List Region) : Node → Prop
  | program ss | list ss | array ss | dict ss => EverywhereIn S path ss
  | declare m n | assign m n | binary _ m n | subscript m n =>
    Everywhere S path m ∧ Everywhere S path n
  | print e | throwValue e | callAlone e | unary _ e | dictItem _ e | member e _ _
  | returnValue e => Everywhere S path e
  | ifElse test yes no => Everywhere S path test ∧ Everywhere S path no ∧ EverywhereIn S path yes
  | ifOnly test yes => Everywhere S path test ∧ EverywhereIn S path yes
  | whileLoop test body | repeatLoop test body =>
    Everywhere S path test ∧ EverywhereIn S (.loop :: path) body
  | rangeLoop v low high step body =>
    Everywhere S path v ∧ Everywhere S path low ∧ Everywhere S path high ∧ Everywhere S path step ∧
      EverywhereIn S (.loop :: path) body
  | eachLoop v collection body =>
    Everywhere S path v ∧ Everywhere S path collection ∧ EverywhereIn S (.loop :: path) body
  | tryCatch body params handler =>
    EverywhereIn S path body ∧ EverywhereIn S path params ∧ EverywhereIn S path handler
  | function f params body =>
    Everywhere S path f ∧ EverywhereIn S path params ∧ EverywhereIn S (.function :: path) body
  | conditional test yes no =>
    Everywhere S path test ∧ Everywhere S path yes ∧ Everywhere S path no
  | call f args => Everywhere S path f ∧ EverywhereIn S path args
  | breakLoop | continueLoop | returnNone | number _ | string _ | boolean _ | symbol _
  | foreign _ => True

variable {S : List Region → Node → Prop} {path : List Region} {n : Node} {ss : List Node}

theorem everywhere_iff_parts : Everywhere S path n ↔
    S path n ∧ ∀ p ∈ n.parts, Everywhere S (p.1.toList ++ path) p.2 := by
  constructor
  · intro h
    refine ⟨h [] n .here, fun p hp inner m hm => ?_⟩
    rw [← List.append_assoc]
    exact h (inner ++ p.1.toList) m (.part hp hm)
  · rintro ⟨hn, hparts⟩ inner m hm
    cases hm with
    | here => exact hn
    | @part _ p _ r inner hp hm =>
      rw [List.append_assoc]
      exact hparts (r, p) hp inner m hm

/-- What holds all over a node holds of the node and all over each of its parts. -/
theorem everywhere_iff : Everywhere S path n ↔ S path n ∧ InParts S path n := by
  rw [everywhere_iff_parts]
  refine and_congr_right fun _ => ?_
  cases n <;> simp [parts, InParts, EverywhereIn, or_imp, forall_and]

theorem Everywhere.of_lies {inner : List Region} {m : Node} (h : Everywhere S [] n)
    (hm : Lies n inner m) : S inner m := by
  have hs := h inner m hm
  rwa [List.append_nil] at hs

/-- A node with all parts left out that simplification works on; that there are so many stays. -/
def shell : Node → Node
  | declare v _ => declare v (list [])
  | assign _ _ => assign (list []) (list [])
  | print _ => print (list [])
  | ifElse _ _ _ => ifElse (list []) [] (list [])
  | ifOnly _ _ => ifOnly (list []) []
  | whileLoop _ _ => whileLoop (list []) []
  | repeatLoop _ _ => repeatLoop (list []) []
  | rangeLoop v _ _ _ _ => rangeLoop v (list []) (list []) (list []) []
  | eachLoop v _ _ => eachLoop v (list []) []
  | returnValue _ => returnValue (list [])
  | throwValue _ => throwValue (list [])
  | tryCatch _ params _ => tryCatch [] params []
  | function f params _ => function f params []
  | callAlone _ => callAlone (list [])
  | conditional _ _ _ => conditional (list []) (list []) (list [])
  | binary op _ _ => binary op (list []) (list [])
  | unary op _ => unary op (list [])
  | array es => array (es.map fun _ => list [])
  | dict es => dict (es.map fun _ => list [])
  | dictItem key _ => dictItem key (list [])
  | member _ access name => member (list []) access name
  | subscript _ _ => subscript (list []) (list [])
  | call f args => call f (args.map fun _ => list [])
  | program _ => program []
  | list _ => list []
  | n => n

/-- What simplification keeps: the shell of a node says it all, and what it makes itself has it. -/
structure Steady (S : List Region → Node → Prop) : Prop where
  shell {path : List Region} {n : Node} : S path n ↔ S path n.shell
  constant {path : List Region} (c : Constant) : S path (ofConstant c)
  negation {path : List Region} (e : Node) : S path (unary .neg e)
  list {path : List Region} (ss : List Node) : S path (list ss)

theorem Steady.of_shell (hS : Steady S) {m : Node} (hm : S path m) (h : n.shell = m.shell) :
    S path n := by
  rw [hS.shell, h, ← hS.shell]
  exact hm

theorem everywhere_ofConstant (hS : Steady S) (c : Constant) :
    Everywhere S path (ofConstant c) := by
  refine everywhere_iff.2 ⟨hS.constant c, ?_⟩
  cases c <;> trivial

theorem everywhere_simplifyBinary (hS : Steady S) {op : BinOp} {left right left' right' : Node}
    (hn : S path (binary op left right)) (hl : Everywhere S path left')
    (hr : Everywhere S path right') : Everywhere S path (simplifyBinary op left' right') := by
  obtain ⟨c, h⟩ | h | h | ⟨_, h⟩ | ⟨_, _, h⟩ := simplifyBinary_cases op left' right' <;> rw [h]
  · exact everywhere_ofConstant hS c
  · exact hl
  · exact hr
  · exact everywhere_iff.2 ⟨hS.negation right', hr⟩
  · exact everywhere_iff.2 ⟨hS.of_shell hn rfl, hl, hr⟩

theorem everywhere_simplifyUnary (hS : Steady S) {op : UnOp} {operand operand' : Node}
    (hn : S path (unary op operand)) (h : Everywhere S path operand') :
    Everywhere S path (simplifyUnary op operand') := by
  obtain ⟨c, hc⟩ | hu := simplifyUnary_cases op operand'
  · rw [hc]
    exact everywhere_ofConstant hS c
  · rw [hu]
    exact everywhere_iff.2 ⟨hS.of_shell hn rfl, h⟩

theorem everywhereIn_simplifyAll {es : List Node}
    (ih : ∀ e ∈ es, Everywhere S path e → Everywhere S path e.simplify)
    (h : EverywhereIn S path es) : EverywhereIn S path (simplifyAll es) := by
  rw [simplifyAll_eq]
  intro n hn
  obtain ⟨e, he, rfl⟩ := List.mem_map.1 hn
  exact ih e he (h e he)

theorem map_simplifyAll {α : Type} (x : α) (es : List Node) :
    (simplifyAll es).map (fun _ => x) = es.map fun _ => x := by
  rw [simplifyAll_eq, List.map_map]
  rfl

/-- Simplification of an expression keeps what is steady. -/
theorem IsExp.everywhere_simplify (hS : Steady S) {k : ExpSort} (h : IsExp k n)
    (he : Everywhere S path n) : Everywhere S path n.simplify := by
  induction h with
  | number | string | boolean | symbol => exact he
  | conditional _ _ _ iht ihy ihn =>
    obtain ⟨hs, ht, hy, hn⟩ := everywhere_iff.1 he
    simp only [Node.simplify]
    split
    · exact ihy hy
    · exact ihn hn
    · exact everywhere_iff.2 ⟨hS.of_shell hs rfl, iht ht, ihy hy, ihn hn⟩
  | binary _ _ _ ihl ihr =>
    obtain ⟨hs, hl, hr⟩ := everywhere_iff.1 he
    exact everywhere_simplifyBinary hS hs (ihl hl) (ihr hr)
  | unary _ _ ih =>
    obtain ⟨hs, ho⟩ := everywhere_iff.1 he
    exact everywhere_simplifyUnary hS hs (ih ho)
  | array _ ih | dict _ ih =>
    obtain ⟨hs, hes⟩ := everywhere_iff.1 he
    exact everywhere_iff.2 ⟨hS.of_shell hs (by simp only [Node.simplify, shell, map_simplifyAll]),
      everywhereIn_simplifyAll ih hes⟩
  | dictItem _ ih | member _ _ ih =>
    obtain ⟨hs, ho⟩ := everywhere_iff.1 he
    exact everywhere_iff.2 ⟨hS.of_shell hs rfl, ih ho⟩
  | subscript _ _ ihc ihi =>
    obtain ⟨hs, hc, hi⟩ := everywhere_iff.1 he
    exact everywhere_iff.2 ⟨hS.of_shell hs rfl, ihc hc, ihi hi⟩
  | call _ ih =>
    obtain ⟨hs, hf, hargs⟩ := everywhere_iff.1 he
    exact everywhere_iff.2 ⟨hS.of_shell hs (by simp only [Node.simplify, shell, map_simplifyAll]),
      hf, everywhereIn_simplifyAll ih hargs⟩

theorem everywhereIn_singleton (h : Everywhere S path n) : EverywhereIn S path (list [n]).items :=
  List.forall_mem_singleton.2 h

theorem everywhereIn_nil : EverywhereIn S path (list []).items := fun _ h =>
  absurd h List.not_mem_nil

theorem everywhereIn_items (h : Everywhere S path n) : EverywhereIn S path n.items := by
  cases n with
  | list => exact (everywhere_iff.1 h).2
  | _ => exact List.forall_mem_singleton.2 h

/-- What a statement becomes has `S` everywhere if the statement has. -/
def Stays (S : List Region → Node → Prop) (s : Node) : Prop :=
  ∀ path, Everywhere S path s → EverywhereIn S path s.simplify.items

theorem everywhereIn_simplifyBlock (ih : ∀ s ∈ ss, Stays S s) (h : EverywhereIn S path ss) :
    EverywhereIn S path (simplifyBlock ss) := by
  rw [simplifyBlock_eq]
  intro m hm
  obtain ⟨s, hs, hm⟩ := List.mem_flatMap.1 hm
  exact ih s hs path (h s hs) m hm

theorem everywhere_linked (hS : Steady S) (hc : n.isChoice)
    (h : EverywhereIn S path n.simplify.items) : Everywhere S path (linked n n.simplify) := by
  obtain ⟨m, hm, -, he⟩ | he := linked_statement (isStatement_of_isChoice hc) <;> rw [he]
  · exact h m (hm ▸ List.mem_singleton_self m)
  · exact everywhere_iff.2 ⟨hS.list _, h⟩

theorem everywhereIn_chosen (hS : Steady S) {test test' no no' : Node} {yes yes' : List Node}
    (hn : S path (ifElse test yes no)) (ht : Everywhere S path test')
    (hy : EverywhereIn S path yes') (hno : Everywhere S path no') :
    EverywhereIn S path (chosen test' yes' no').items := by
  unfold chosen
  split
  · exact hy
  · have hitems := everywhereIn_items hno
    exact hitems
  · exact everywhereIn_singleton (everywhere_iff.2 ⟨hS.of_shell hn rfl, ht, hno, hy⟩)

/-- Simplification of a statement keeps what is steady. -/
theorem IsStmt.stays (hS : Steady S) {s : Node} (h : IsStmt s) : Stays S s := by
  induction h with
  | declare _ he =>
    intro path h
    obtain ⟨hs, hv, hi⟩ := everywhere_iff.1 h
    exact everywhereIn_singleton
      (everywhere_iff.2 ⟨hS.of_shell hs rfl, hv, he.everywhere_simplify hS hi⟩)
  | assign _ ht he =>
    intro path h
    obtain ⟨hs, htarget, hsource⟩ := everywhere_iff.1 h
    simp only [Node.simplify]
    split
    · exact everywhereIn_nil
    · exact everywhereIn_singleton (everywhere_iff.2 ⟨hS.of_shell hs rfl,
        ht.everywhere_simplify hS htarget, he.everywhere_simplify hS hsource⟩)
  | print he | throwValue he | callAlone _ he | returnValue he =>
    intro path h
    obtain ⟨hs, hx⟩ := everywhere_iff.1 h
    exact everywhereIn_singleton
      (everywhere_iff.2 ⟨hS.of_shell hs rfl, he.everywhere_simplify hS hx⟩)
  | breakLoop | continueLoop | returnNone => exact fun path h => everywhereIn_singleton h
  | ifElse ht _ _ ihy ihn =>
    intro path h
    obtain ⟨hs, htest, hno, hyes⟩ := everywhere_iff.1 h
    have hno' := everywhereIn_simplifyBlock ihn (everywhere_iff.1 hno).2
    exact everywhereIn_chosen hS hs (ht.everywhere_simplify hS htest)
      (everywhereIn_simplifyBlock ihy hyes) (everywhere_iff.2 ⟨hS.list _, hno'⟩)
  | ifChain ht _ hc _ ihy ihn =>
    intro path h
    obtain ⟨hs, htest, hno, hyes⟩ := everywhere_iff.1 h
    exact everywhereIn_chosen hS hs (ht.everywhere_simplify hS htest)
      (everywhereIn_simplifyBlock ihy hyes) (everywhere_linked hS hc (ihn path hno))
  | ifOnly ht _ ihy =>
    intro path h
    obtain ⟨hs, htest, hyes⟩ := everywhere_iff.1 h
    have hyes' := everywhereIn_simplifyBlock ihy hyes
    simp only [Node.simplify]
    split
    · exact hyes'
    · exact everywhereIn_nil
    · exact everywhereIn_singleton
        (everywhere_iff.2 ⟨hS.of_shell hs rfl, ht.everywhere_simplify hS htest, hyes'⟩)
  | whileLoop ht _ ihb | repeatLoop ht _ ihb =>
    intro path h
    obtain ⟨hs, htest, hbody⟩ := everywhere_iff.1 h
    simp only [Node.simplify]
    split
    · exact everywhereIn_nil
    · exact everywhereIn_singleton (everywhere_iff.2 ⟨hS.of_shell hs rfl,
        ht.everywhere_simplify hS htest, everywhereIn_simplifyBlock ihb hbody⟩)
  | rangeLoop _ hl hh hst _ ihb =>
    intro path h
    obtain ⟨hs, hv, hlow, hhigh, hstep, hbody⟩ := everywhere_iff.1 h
    simp only [Node.simplify]
    split
    · exact everywhereIn_nil
    · exact everywhereIn_singleton (everywhere_iff.2 ⟨hS.of_shell hs rfl, hv,
        hl.everywhere_simplify hS hlow, hh.everywhere_simplify hS hhigh,
        hst.everywhere_simplify hS hstep, everywhereIn_simplifyBlock ihb hbody⟩)
  | eachLoop _ hc _ ihb =>
    intro path h
    obtain ⟨hs, hv, hcollection, hbody⟩ := everywhere_iff.1 h
    simp only [Node.simplify]
    split
    · exact everywhereIn_nil
    · exact everywhereIn_singleton (everywhere_iff.2 ⟨hS.of_shell hs rfl, hv,
        hc.everywhere_simplify hS hcollection, everywhereIn_simplifyBlock ihb hbody⟩)
  | tryCatch _ _ _ ihb ihh =>
    intro path h
    obtain ⟨hs, hbody, hparams, hhandler⟩ := everywhere_iff.1 h
    exact everywhereIn_singleton (everywhere_iff.2 ⟨hS.of_shell hs rfl,
      everywhereIn_simplifyBlock ihb hbody, hparams, everywhereIn_simplifyBlock ihh hhandler⟩)
  | function _ _ _ _ ihb =>
    intro path h
    obtain ⟨hs, hf, hparams, hbody⟩ := everywhere_iff.1 h
    exact everywhereIn_singleton (everywhere_iff.2 ⟨hS.of_shell hs rfl, hf, hparams,
      everywhereIn_simplifyBlock ihb hbody⟩)
  | incr he | decr he =>
    intro path h
    obtain ⟨hs, ho⟩ := everywhere_iff.1 h
    exact everywhereIn_items (everywhere_simplifyUnary hS hs (he.everywhere_simplify hS ho))

/-- Simplification of a block keeps what is steady. -/
theorem everywhereIn_simplified (hS : Steady S) (hs : ∀ s ∈ ss, IsStmt s)
    (h : EverywhereIn S path ss) : EverywhereIn S path (simplifyBlock ss) :=
  everywhereIn_simplifyBlock (fun s hmem => (hs s hmem).stays hS) h

end Terse.Node
