import Terse.Proofs.Analysis.Scoped
import Terse.Proofs.Node.Occurs

/-! Which symbols a resolved program writes. An assignment that names a constant declares a variable
in its place, but a compound assignment and an increment write whatever variable is in sight. -/
namespace Terse

/-- The two ways to write a symbol. -/
inductive Write where
  | assigned (s : Symbol)
  /-- By an increment or a decrement. -/
  | bumped (s : Symbol)
deriving DecidableEq

def Write.symbol : Write → Symbol
  | assigned s | bumped s => s

namespace Node

/-- What a node itself writes. -/
def write? : Node → Option Write
  | assign target _ => target.symbol?.map .assigned
  | unary .incr operand | unary .decr operand => operand.symbol?.map .bumped
  | _ => none

mutual

/-- All that is written in a node. -/
def writes : Node → List Write
  | program ss | list ss | array ss | dict ss => writesAll ss
  | declare v e => writes v ++ writes e
  | assign target source =>
    (write? (assign target source)).toList ++ (writes target ++ writes source)
  | print e | returnValue e | throwValue e | callAlone e | dictItem _ e | member e _ _ => writes e
  | unary op e => (write? (unary op e)).toList ++ writes e
  | ifElse test yes no => writes test ++ (writesAll yes ++ writes no)
  | ifOnly test body | whileLoop test body | repeatLoop test body => writes test ++ writesAll body
  | rangeLoop v low high step body =>
    writes v ++ (writes low ++ (writes high ++ (writes step ++ writesAll body)))
  | eachLoop v collection body => writes v ++ (writes collection ++ writesAll body)
  | tryCatch body params handler => writesAll body ++ (writesAll params ++ writesAll handler)
  | function f params body => writes f ++ (writesAll params ++ writesAll body)
  | conditional test yes no => writes test ++ (writes yes ++ writes no)
  | binary _ left right => writes left ++ writes right
  | subscript collection index => writes collection ++ writes index
  | call f args => writes f ++ writesAll args
  | breakLoop | continueLoop | returnNone | number _ | string _ | boolean _ | symbol _
  | foreign _ => []
termination_by structural n => n

def writesAll : List Node → List Write
  | [] => []
  | n :: ns => writes n ++ writesAll ns
termination_by structural ns => ns

end

@[simp]
theorem write?_assign (target source : Node) :
    write? (assign target source) = target.symbol?.map .assigned := rfl

variable {n : Node} {w : Write}

theorem mem_writesAll {ns : List Node} : w ∈ writesAll ns ↔ ∃ n ∈ ns, w ∈ n.writes := by
  induction ns with
  | nil => simp [writesAll]
  | cons n ns ih => simp [writesAll, ih]

@[simp]
theorem writesAll_symbols (ss : List Symbol) : writesAll (ss.map symbol) = [] := by
  induction ss with
  | nil => rfl
  | cons s ss ih => rw [List.map_cons, writesAll, writes, ih, List.nil_append]

/-- What a node writes is written by the node itself or by one of its parts. -/
theorem mem_writes_iff_parts :
    w ∈ n.writes ↔ n.write? = some w ∨ ∃ p ∈ n.parts, w ∈ p.2.writes := by
  cases n <;> simp [writes, write?, parts, mem_writesAll, or_and_right, exists_or, or_assoc,
    or_comm]

theorem sizeOf_part {p : Option Region × Node} (h : p ∈ n.parts) : sizeOf p.2 < sizeOf n := by
  have hlt {ns : List Node} {m : Node} (hm : m ∈ ns) : sizeOf m < sizeOf ns :=
    List.sizeOf_lt_of_mem hm
  cases n <;>
    simp only [parts, List.mem_cons, List.mem_map, List.mem_append, List.not_mem_nil] at h <;> grind

theorem mem_writes_of_lies {path : List Region} {m : Node} (h : Lies n path m)
    (hw : m.write? = some w) : w ∈ n.writes := by
  induction h with
  | here => exact mem_writes_iff_parts.2 (.inl hw)
  | part hp _ ih => exact mem_writes_iff_parts.2 (.inr ⟨_, hp, ih hw⟩)

/-- Every write of a node is made by a node that lies in it. -/
theorem exists_lies_of_mem_writes (n : Node) (h : w ∈ n.writes) :
    ∃ path m, Lies n path m ∧ m.write? = some w := by
  obtain hw | ⟨p, hp, hw⟩ := mem_writes_iff_parts.1 h
  · exact ⟨[], n, .here, hw⟩
  · have := sizeOf_part hp
    obtain ⟨path, m, hm, hw⟩ := exists_lies_of_mem_writes p.2 hw
    exact ⟨_, m, .part hp hm, hw⟩
termination_by sizeOf n

end Node

namespace Tree

/-- The name of a variable that stands alone. -/
def named? : Tree → Option String
  | node .var (name :: _) _ => some name.word
  | _ => none

/-- The name that a rule changes in place, if it does. -/
def update? : Rule → List Tree → Option String
  | .mathAssign, name :: _ => some name.word
  | .incDecStmt, operand :: _ => operand.named?
  | .postfixUnary, [operand, token op] => if op.kind = .incDec then operand.named? else none
  | _, _ => none

mutual

/-- The names that a text changes in place: on the left of a compound assignment, or in front of an
increment or a decrement. -/
def updates : Tree → List String
  | token _ => []
  | node rule kids _ => (update? rule kids).toList ++ updatesAll kids
termination_by structural t => t

def updatesAll : List Tree → List String
  | [] => []
  | t :: ts => updates t ++ updatesAll ts
termination_by structural ts => ts

end

@[simp]
theorem updatesAll_tokens (ts : List Token) : updatesAll (ts.map token) = [] := by
  induction ts with
  | nil => rfl
  | cons t ts ih => rw [List.map_cons, updatesAll, updates, ih, List.nil_append]

end Tree

/-- What is written, against the names that are changed in place. -/
structure Traced (ws : List Write) (names : List String) : Prop where
  assigned : ∀ s, .assigned s ∈ ws → s.isFunction = false
  constants : ∀ w ∈ ws, w.symbol.kind = .var true → w.symbol.name ∈ names
  written : ∀ x ∈ names, ∃ w ∈ ws, w.symbol.name = x

theorem Traced.nil : Traced [] [] := ⟨by simp, by simp, by simp⟩

theorem Traced.append {ws vs : List Write} {xs ys : List String} (h : Traced ws xs)
    (h' : Traced vs ys) : Traced (ws ++ vs) (xs ++ ys) where
  assigned s hs := (List.mem_append.1 hs).elim (h.assigned s) (h'.assigned s)
  constants w hw hk := by
    rcases List.mem_append.1 hw with hw | hw
    · exact List.mem_append_left _ (h.constants w hw hk)
    · exact List.mem_append_right _ (h'.constants w hw hk)
  written x hx := by
    rcases List.mem_append.1 hx with hx | hx
    · obtain ⟨w, hw, hn⟩ := h.written x hx
      exact ⟨w, List.mem_append_left _ hw, hn⟩
    · obtain ⟨w, hw, hn⟩ := h'.written x hx
      exact ⟨w, List.mem_append_right _ hw, hn⟩

/-- Every symbol is known by its own name. -/
def Scope.Labelled (sc : Scope) : Prop := ∀ f ∈ sc, ∀ p ∈ f.locals, p.2.name = p.1

variable {sc : Scope} {f f' : Frame} {s : Symbol} {name : String}

theorem Scope.Labelled.name_eq (h : sc.Labelled) (hs : sc.lookup name = some s) :
    s.name = name := by
  obtain ⟨f, hf, hs⟩ := List.exists_of_findSome?_eq_some hs
  obtain ⟨front, back, he, -⟩ := List.lookup_eq_some_iff.1 hs
  exact h f hf (name, s) (he ▸ by simp)

theorem Scope.Labelled.extend {ss : List Symbol} (h : Labelled (f :: sc)) :
    Labelled (f.extend ss :: sc) := by
  obtain ⟨hf, hsc⟩ := List.forall_mem_cons.1 h
  refine List.forall_mem_cons.2 ⟨fun p hp => ?_, hsc⟩
  rcases List.mem_append.1 hp with hp | hp
  · exact hf p hp
  · obtain ⟨s, -, rfl⟩ := List.mem_map.1 hp
    rfl

theorem Scope.Labelled.declare {loc : Option Loc} (h : Labelled (f :: sc))
    (hf : f.declare s loc = .ok f') : Labelled (f' :: sc) := by
  rw [Frame.eq_extend hf]
  exact h.extend

theorem Scope.Labelled.child (h : sc.Labelled) (hf : f.locals = []) : Labelled (f :: sc) :=
  List.forall_mem_cons.2 ⟨by simp [hf], h⟩

theorem labelled_root : Scope.Labelled [Frame.root] := by
  intro f hf p hp
  obtain rfl := List.mem_singleton.1 hf
  obtain ⟨s, -, rfl⟩ := List.mem_map.1 hp
  rfl

namespace Analysis

open Node (ExpSort writes writesAll write?)
open Terse.Tree (updates updatesAll update?)

attribute [local simp] writes writesAll updates updatesAll update? Node.symbol?

theorem traced_row {ts : List Tree} {ns : List Node} (hl : ts.length = ns.length)
    (h : ∀ p ∈ ts.zip ns, Traced p.2.writes p.1.updates) :
    Traced (writesAll ns) (updatesAll ts) := by
  induction ts generalizing ns with
  | nil =>
    obtain rfl := List.length_eq_zero_iff.1 hl.symm
    exact .nil
  | cons t ts ih =>
    obtain ⟨n, ns, rfl⟩ := List.exists_cons_of_length_eq_add_one hl.symm
    obtain ⟨hn, hns⟩ := List.forall_mem_cons.1 h
    exact hn.append (ih (Nat.succ.inj hl) hns)

/-- An increment writes a variable that stands in front of it, and nothing else. -/
theorem traced_increment {t : Tree} {n : Node} {op : UnOp} (hsc : sc.Labelled)
    (h : ExpTo Token.Spelled sc .value t n) (hop : op = .incr ∨ op = .decr) :
    Traced (write? (.unary op n)).toList t.named?.toList := by
  have hwrite : write? (.unary op n) = n.symbol?.map .bumped := by
    rcases hop with rfl | rfl <;> rfl
  rw [hwrite]
  cases h with
  | var ht hs =>
    have hname := hsc.name_eq hs
    constructor <;> simp [Tree.named?, Tree.word, Write.symbol, hname]
  | _ => exact .nil

theorem write?_unary {t : Token} (h : t.Is Token.Spelled .factorial ∨ t.Is Token.Spelled .unary)
    (n : Node) : write? (.unary (.ofWord t.text) n) = none := by
  have hall : ∀ w ∈ ["F", "_", "~", "#"], UnOp.ofWord w ≠ .incr ∧ UnOp.ofWord w ≠ .decr := by decide
  have hword : t.text ∈ ["F", "_", "~", "#"] := by
    rcases h with h | h
    · exact List.mem_cons.2 (.inl h.spelled)
    · exact List.mem_cons_of_mem _ h.spelled
  obtain ⟨hi, hd⟩ := hall _ hword
  cases hop : UnOp.ofWord t.text <;> simp_all [write?]

/-- An expression writes through increments alone, and each is an update in the tree. -/
theorem ExpTo.traced {k : ExpSort} {t : Tree} {n : Node} (h : ExpTo Token.Spelled sc k t n)
    (hsc : sc.Labelled) : Traced n.writes t.updates := by
  induction h with
  | number | string | trueLit | falseLit | var => exact .nil
  | call _ _ _ hl _ ih => simpa using traced_row hl ih
  | array hl _ ih | dict hl _ ih => exact traced_row hl ih
  | dictItem _ _ ih | member _ _ ih | optionalMember _ _ ih =>
    simpa using ih
  | postfixUnary hn ht ih =>
    rcases ht with ht | ht
    · have hown := traced_increment hsc hn (ofWord_incDec ht)
      simpa [ht.kind_eq] using hown.append ih
    · simpa [ht.kind_eq, write?_unary (.inl ht)] using ih
  | unary ht _ ih =>
    simpa [write?_unary (.inr ht)] using ih
  | subscript _ _ ihl ihr | power _ _ ihl ihr | binary _ _ _ ihl ihr | relational _ _ _ ihl ihr
  | andExp _ _ ihl ihr | orExp _ _ ihl ihr =>
    simpa using ihl.append ihr
  | conditional _ _ _ iht ihy ihn =>
    simpa using iht.append (ihy.append ihn)

/-- A call that stands alone writes what the call does. -/
theorem writes_callStatement {P : Token → Prop} {t : Token} {args : List Tree} {l : Option Loc}
    {n : Node} (h : ExpTo P sc .value (.node .call (.token t :: args) l) n) :
    (callStatement n).writes = n.writes := by
  cases h with
  | @call _ g intrinsic _ ns _ _ _ hkind hl _ =>
    obtain ⟨arg, rest, hcall, he⟩ | he := callStatement_eq (.call (.symbol g) ns) <;> rw [he]
    · obtain ⟨hg, rfl⟩ := Node.call.inj hcall
      obtain rfl := Node.symbol.inj hg
      -- what prints takes one argument
      obtain rfl : rest = [] := by
        have hone : 1 = args.length := (SymbolKind.fn.inj hkind).1
        rw [hl, List.length_cons] at hone
        exact List.length_eq_zero_iff.1 (by omega)
      simp
    · rfl

theorem traced_assigned (h : s.isWritable) : Traced [.assigned s] [] := by
  obtain ⟨name, uid, kind, origin⟩ := s
  cases kind <;> constructor <;> simp_all [Symbol.isWritable, Symbol.isFunction, Write.symbol]

theorem traced_updated (h : s.isFunction = false) : Traced [.assigned s] [s.name] := by
  constructor <;> simp_all [Write.symbol]

def Code.Traced : Code → Prop
  | .stmt t n => Terse.Traced n.writes t.updates
  | .row ts ns => Terse.Traced (writesAll ns) (updatesAll ts)

/-- Each write of code that resolves is an assignment to a variable or an update in the tree. -/
theorem StmtTo.traced {c : Code} {outer : Scope} {u u' : Nat}
    (h : StmtTo Token.Spelled c outer f u f' u') (hsc : Scope.Labelled (f :: outer)) :
    c.Traced := by
  induction h with
  | assign _ hn _ hw => simpa [Code.Traced] using (traced_assigned hw).append (hn.traced hsc)
  | declare _ hn _ _ => simpa [Code.Traced] using hn.traced hsc
  | indexAssign _ hs hi hn =>
    simpa [Code.Traced] using (hi.traced hsc).append (hn.traced hsc)
  | memberAssign _ _ hs hn =>
    simpa [Code.Traced] using (hn.traced hsc)
  | mathAssign _ _ hs hv hn =>
    have hown := hsc.name_eq hs ▸ traced_updated hv
    simpa [Code.Traced, Tree.word] using hown.append (hn.traced hsc)
  | incDecStmt hn hop =>
    have hown := traced_increment hsc hn (ofWord_incDec hop)
    simpa [Code.Traced] using hown.append (hn.traced hsc)
  | callStmt hn =>
    simpa [Code.Traced, writes_callStatement hn] using hn.traced hsc
  | function _ hf hvs _ ih =>
    have hbody := ih (hvs.frame_eq ▸ ((hsc.declare hf).child rfl).extend)
    simpa [Code.Traced] using hbody
  | ifOnly hc _ ih =>
    simpa [Code.Traced] using (hc.traced hsc).append (ih (hsc.child rfl))
  | ifChain hc _ _ ih ihn =>
    have hbranches := (ih (hsc.child rfl)).append (ihn hsc)
    simpa [Code.Traced] using (hc.traced hsc).append hbranches
  | ifElse hc _ _ ihy ihn =>
    have hbranches := (ihy (hsc.child rfl)).append (ihn (hsc.child rfl))
    simpa [Code.Traced] using (hc.traced hsc).append hbranches
  | whileStmt hc _ ih =>
    simpa [Code.Traced] using (hc.traced hsc).append (ih (hsc.child rfl))
  | repeatNumber _ _ _ ih | repeatName _ _ _ _ ih =>
    simpa [Code.Traced] using ih (hsc.child rfl)
  | rangeStmt _ ha hb hg _ ih =>
    have hbody := ih ((hsc.child rfl).declare hg)
    simpa [Code.Traced] using (ha.traced hsc).append ((hb.traced hsc).append hbody)
  | steppedStmt _ ha hb hc hg _ ih =>
    have hbody := (hc.traced hsc).append (ih ((hsc.child rfl).declare hg))
    simpa [Code.Traced] using (ha.traced hsc).append ((hb.traced hsc).append hbody)
  | forStmt _ hc hg _ ih =>
    have hbody := ih ((hsc.child rfl).declare hg)
    simpa [Code.Traced] using (hc.traced hsc).append hbody
  | breakStmt _ | continueStmt _ | shortReturnStmt _ | nil => exact .nil
  | returnStmt _ hn | throwStmt hn =>
    simpa [Code.Traced] using hn.traced hsc
  | tryStmt _ hvs _ ihb ihh =>
    have hhandler := ihh (hvs.frame_eq ▸ (hsc.child rfl).extend)
    simpa [Code.Traced] using (ihb (hsc.child rfl)).append hhandler
  | cons hn _ ihn ihns =>
    have hrest := ihns (hn.frame_eq ▸ hsc.extend)
    exact (ihn hsc).append hrest

end Analysis

open Node (Lies Occurs WellScoped declaredBlock program)

/-- What is written stands in what writes it. -/
theorem occurs_of_write {root n : Node} {path : List Node.Region} {w : Write} (h : Lies root path n)
    (hw : n.write? = some w) : Occurs w.symbol root := by
  have hpart {target : Node} {kind : Symbol → Write} (hk : ∀ s, (kind s).symbol = s)
      (htarget : (none, target) ∈ n.parts) (hs : target.symbol?.map kind = some w) :
      Occurs w.symbol root := by
    cases target with
    | symbol s =>
      obtain rfl := Option.some.inj hs
      rw [hk]
      exact ⟨_, h.trans (.part htarget .here)⟩
    | _ => contradiction
  cases n with
  | assign target source => exact hpart (fun _ => rfl) List.mem_cons_self hw
  | unary op operand =>
    cases op with
    | incr | decr => exact hpart (fun _ => rfl) List.mem_cons_self hw
    | _ => contradiction
  | _ => contradiction

theorem traced_program {ts : List Token} {tree : Tree} {ss : List Node}
    (hd : Derives language .program ts [tree]) (hspelled : ∀ t ∈ ts, t.Spelled)
    (ha : analyze tree = .ok ss) : Traced (program ss).writes tree.updates := by
  obtain ⟨f, u, hrow⟩ := stmtTo_of_analyze (isStmt_of_derives hd hspelled) ha
  obtain ⟨kids, loc, he, -⟩ := Phrase.fits_of_derives hd hspelled
  obtain rfl := List.singleton_inj.1 he
  exact hrow.traced labelled_root

/-- The only constant that can be named is a symbol of the library. -/
theorem constant_of_occurs {ss : List Node} {s : Symbol} (hss : ∀ m ∈ ss, Node.IsStmt m)
    (hscoped : WellScoped ss) (hs : Occurs s (program ss)) (hk : s.kind = .var true) :
    s.name = "pi" := by
  have hlibrary : ∀ s ∈ Symbol.library, s.kind = .var true → s.name = "pi" := by decide
  rcases Node.mem_of_occurs_program hss hscoped hs with hl | hd
  · exact hlibrary s hl hk
  · rw [Node.declaredBlock_eq, List.mem_flatMap] at hd
    obtain ⟨m, hm, hd⟩ := hd
    have hdeclared := (hss m hm).isIntrinsic_of_declared s hd
    simp [Symbol.isIntrinsic, hk] at hdeclared

/-- What is assigned to is never a function. A constant that is written is `pi`, and only where the
text changes that name in place, by a compound assignment, an increment or a decrement; and where no
declaration hides the constant, every such change writes it. -/
theorem written_symbols {ts : List Token} {tree : Tree} {ss : List Node}
    (hd : Derives language .program ts [tree]) (hspelled : ∀ t ∈ ts, t.Spelled)
    (ha : analyze tree = .ok ss) :
    (∀ path n s, Lies (program ss) path n → n.write? = some (.assigned s) → s.isFunction = false) ∧
    (∀ path n w, Lies (program ss) path n → n.write? = some w → w.symbol.kind = .var true →
      w.symbol.name = "pi" ∧ "pi" ∈ tree.updates) ∧
    ((∀ d ∈ declaredBlock ss, d.name ≠ "pi") → "pi" ∈ tree.updates →
      ∃ path n w, Lies (program ss) path n ∧ n.write? = some w ∧ w.symbol.kind = .var true) := by
  have htraced := traced_program hd hspelled ha
  obtain ⟨f, u, hrow⟩ := stmtTo_of_analyze (isStmt_of_derives hd hspelled) ha
  have hss : ∀ m ∈ ss, Node.IsStmt m := hrow.formed
  have hscoped : WellScoped ss := hrow.scoped visible_root
  refine ⟨fun path n s hn hw => ?_, fun path n w hn hw hk => ?_, fun hfree hpi => ?_⟩
  · exact htraced.assigned s (Node.mem_writes_of_lies hn hw)
  · have hname := constant_of_occurs hss hscoped (occurs_of_write hn hw) hk
    exact ⟨hname, hname ▸ htraced.constants w (Node.mem_writes_of_lies hn hw) hk⟩
  · obtain ⟨w, hw, hname⟩ := htraced.written "pi" hpi
    obtain ⟨path, n, hn, hw⟩ := Node.exists_lies_of_mem_writes _ hw
    refine ⟨path, n, w, hn, hw, ?_⟩
    have hlibrary : ∀ s ∈ Symbol.library, s.name = "pi" → s.kind = .var true := by decide
    rcases Node.mem_of_occurs_program hss hscoped (occurs_of_write hn hw) with hl | hd
    · exact hlibrary _ hl hname
    · exact absurd hname (hfree _ hd)

/-- A function has a variable of that name of its own, and a loop outside it changes the
constant. -/
theorem written_symbols_shadowed :
    ∃ ts tree ss, Derives language .program ts [tree] ∧ (∀ t ∈ ts, t.Spelled) ∧
      analyze tree = .ok ss ∧ (declaredBlock ss).length = 4 ∧
      (∀ path n s, Lies (program ss) path n → n.write? = some (.assigned s) →
        s.isFunction = false) ∧
      ∀ path n w, Lies (program ss) path n → n.write? = some w → w.symbol.kind = .var true →
        w.symbol.name = "pi" ∧ "pi" ∈ tree.updates := by
  obtain ⟨tree, ss, hp, ha, hlength⟩ := exists_of_resolvesTo
    (show resolvesTo "f g(a) => pi = a pi += 1 r pi; i in 0,3: pi *= g(i);"
      (fun ss => (declaredBlock ss).length == 4) from by decide +kernel)
  obtain ⟨ts, rest, hts, hd⟩ := derives_of_parse hp
  have hspelled : ∀ t ∈ ts, t.Spelled := by
    intro t ht
    exact spelled_lex _ t (hts ▸ List.mem_append_left rest ht)
  obtain ⟨hassigned, hconstants, -⟩ := written_symbols hd hspelled ha
  exact ⟨ts, tree, ss, hd, hspelled, ha, beq_iff_eq.1 hlength, hassigned, hconstants⟩

/-- A compound assignment and an increment write the constant. -/
theorem constant_written :
    ∃ tree ss, parse "pi += 1 pi++" = .ok tree ∧ analyze tree = .ok ss ∧
      (∃ path n s, Lies (program ss) path n ∧ n.write? = some (.assigned s) ∧ s.kind = .var true) ∧
      ∃ path n s, Lies (program ss) path n ∧ n.write? = some (.bumped s) ∧ s.kind = .var true := by
  let pi : Symbol := ⟨"pi", 0, .var true, .library⟩
  obtain ⟨tree, ss, hp, ha, hwrites⟩ := exists_of_resolvesTo
    (show resolvesTo "pi += 1 pi++"
      (fun ss => (program ss).writes == [.assigned pi, .bumped pi]) from by decide +kernel)
  have hwrites := beq_iff_eq.1 hwrites
  obtain ⟨path, n, hn, hassigned⟩ := Node.exists_lies_of_mem_writes (w := .assigned pi)
    (program ss) (hwrites ▸ by simp)
  obtain ⟨path', m, hm, hbumped⟩ := Node.exists_lies_of_mem_writes (w := .bumped pi)
    (program ss) (hwrites ▸ by simp)
  exact ⟨tree, ss, hp, ha, ⟨path, n, pi, hn, hassigned, rfl⟩, path', m, pi, hm, hbumped, rfl⟩

end Terse
