import Terse.Outline
import Terse.Proofs.Node.Within

/-! Nodes as trees: the parts of a node by name, and its outline in terms of them. -/
namespace Terse

namespace Outline

/-- What a dump shows of an outline on its own line. -/
def heading : Outline → String
  | entry heading _ _ => heading
  | list _ => "[]"
  | foreign c => c

/-- What a graph shows of an outline in its own vertex. -/
def label : Outline → String
  | entry _ label _ => label
  | list _ => "list"
  | foreign c => c

end Outline

namespace Node

/-- The parts of a node with their names. A part of many nodes is a list. -/
def fields : Node → List (String × Node)
  | program ss => [("statements", list ss)]
  | declare v e => [("variable", v), ("initializer", e)]
  | assign target source => [("target", target), ("source", source)]
  | print e | returnValue e | throwValue e => [("expr", e)]
  | ifElse test yes no => [("test", test), ("consequent", list yes), ("alternate", no)]
  | ifOnly test yes => [("test", test), ("consequent", list yes)]
  | whileLoop test body => [("test", test), ("body", list body)]
  | repeatLoop count body => [("count", count), ("body", list body)]
  | rangeLoop v low high step body =>
    [("variable", v), ("low", low), ("high", high), ("step", step), ("body", list body)]
  | eachLoop v collection body =>
    [("iterator", v), ("collection", collection), ("body", list body)]
  | tryCatch body params handler =>
    [("body", list body), ("exception_params", list params), ("except_body", list handler)]
  | function f params body => [("function", f), ("params", list params), ("body", list body)]
  | callAlone c => [("call", c)]
  | conditional test yes no => [("test", test), ("consequent", yes), ("alternate", no)]
  | binary _ left right => [("left", left), ("right", right)]
  | unary _ operand => [("operand", operand)]
  | array es => [("elements", list es)]
  | dict es => [("items", list es)]
  | dictItem _ e => [("value", e)]
  | member object _ _ => [("object", object)]
  | subscript collection index => [("collection", collection), ("index", index)]
  | call f args => [("callee", f), ("args", list args)]
  | breakLoop | continueLoop | returnNone | number _ | string _ | boolean _ | symbol _
  | list _ | foreign _ => []

/-- The nodes right below a node, each with the name of the part that it belongs to. -/
def children (n : Node) : List (String × Node) :=
  n.fields.flatMap fun f => f.2.items.map (f.1, ·)

/-- Nodes of the language. A list is no node, and an operator has to be one of the language. -/
def isKnown : Node → Bool
  | binary op _ _ => op ∈ BinOp.known
  | unary op _ => op ∈ UnOp.known
  | list _ | foreign _ => false
  | _ => true

/-- A node of the language with such nodes below it. In particular no list has a list in it. -/
inductive IsTree : Node → Prop
  | mk {n : Node} : n.isKnown → (∀ c ∈ n.children, IsTree c.2) → IsTree n

/-- What may be a part of a tree: a tree, or a list of trees. -/
def IsBranch (n : Node) : Prop := ∀ m ∈ n.items, IsTree m

variable {n : Node} {k : ExpSort}

theorem items_of_isKnown (h : n.isKnown) : n.items = [n] := by
  cases n <;> first | rfl | contradiction

theorem list_or_isKnown (h : ∀ m ∈ n.items, m.isKnown) : (∃ ns, n = list ns) ∨ n.isKnown := by
  cases n with
  | list ns => exact .inl ⟨ns, rfl⟩
  | _ => exact .inr (h _ (by simp [items]))

theorem IsTree.isKnown (h : IsTree n) : n.isKnown := by
  cases h
  assumption

theorem IsTree.isBranch (h : IsTree n) : IsBranch n := by
  rw [IsBranch, items_of_isKnown h.isKnown]
  simpa using h

theorem isBranch_list {ns : List Node} : IsBranch (list ns) ↔ ∀ n ∈ ns, IsTree n := Iff.rfl

theorem isTree_iff : IsTree n ↔ n.isKnown ∧ ∀ f ∈ n.fields, IsBranch f.2 := by
  have hchildren : (∀ c ∈ n.children, IsTree c.2) ↔ ∀ f ∈ n.fields, IsBranch f.2 := by
    simp only [children, List.forall_mem_flatMap, List.forall_mem_map, IsBranch]
  rw [← hchildren]
  exact ⟨fun ⟨hn, hc⟩ => ⟨hn, hc⟩, fun ⟨hn, hc⟩ => ⟨hn, hc⟩⟩

theorem isTree_symbol (s : Symbol) : IsTree (symbol s) := isTree_iff.2 ⟨rfl, by simp [fields]⟩

/-- Every expression is a tree. -/
theorem IsExp.isTree (h : IsExp k n) : IsTree n := by
  induction h with
  | number | string | boolean | symbol => exact isTree_iff.2 ⟨rfl, by simp [fields]⟩
  | conditional _ _ _ ht hy hn =>
    exact isTree_iff.2 ⟨rfl, by simp [fields, ht.isBranch, hy.isBranch, hn.isBranch]⟩
  | binary ho _ _ hl hr =>
    exact isTree_iff.2 ⟨by simpa [isKnown] using ho, by simp [fields, hl.isBranch, hr.isBranch]⟩
  | unary ho _ he => exact isTree_iff.2 ⟨by simpa [isKnown] using ho, by simp [fields, he.isBranch]⟩
  | array _ hes | dict _ hes => exact isTree_iff.2 ⟨rfl, by simpa [fields, isBranch_list] using hes⟩
  | dictItem _ he => exact isTree_iff.2 ⟨rfl, by simp [fields, he.isBranch]⟩
  | member _ _ ho => exact isTree_iff.2 ⟨rfl, by simp [fields, ho.isBranch]⟩
  | subscript _ _ hc hi => exact isTree_iff.2 ⟨rfl, by simp [fields, hc.isBranch, hi.isBranch]⟩
  | @call f _ _ hes =>
    exact isTree_iff.2 ⟨rfl, by simpa [fields, (isTree_symbol f).isBranch, isBranch_list] using hes⟩

/-- Every statement is a tree. -/
theorem IsStmt.isTree (h : IsStmt n) : IsTree n := by
  induction h with
  | @declare s _ _ he =>
    exact isTree_iff.2 ⟨rfl, by simp [fields, (isTree_symbol s).isBranch, he.isTree.isBranch]⟩
  | assign _ ht he =>
    exact isTree_iff.2 ⟨rfl, by simp [fields, ht.isTree.isBranch, he.isTree.isBranch]⟩
  | print he | returnValue he | throwValue he | callAlone _ he | incr he | decr he =>
    exact isTree_iff.2 ⟨rfl, by simp [fields, he.isTree.isBranch]⟩
  | ifElse ht _ _ hy hn =>
    refine isTree_iff.2 ⟨rfl, ?_⟩
    simpa [fields, ht.isTree.isBranch, isBranch_list] using And.intro hy hn
  | ifChain ht _ _ _ hy hn =>
    refine isTree_iff.2 ⟨rfl, ?_⟩
    simpa [fields, ht.isTree.isBranch, hn.isBranch, isBranch_list] using hy
  | ifOnly ht _ hb | whileLoop ht _ hb | repeatLoop ht _ hb =>
    exact isTree_iff.2 ⟨rfl, by simpa [fields, ht.isTree.isBranch, isBranch_list] using hb⟩
  | @rangeLoop v _ _ _ _ _ hl hh hs _ hb =>
    refine isTree_iff.2 ⟨rfl, ?_⟩
    simpa [fields, (isTree_symbol v).isBranch, hl.isTree.isBranch, hh.isTree.isBranch,
      hs.isTree.isBranch, isBranch_list] using hb
  | @eachLoop v _ _ _ hc _ hb =>
    refine isTree_iff.2 ⟨rfl, ?_⟩
    simpa [fields, (isTree_symbol v).isBranch, hc.isTree.isBranch, isBranch_list] using hb
  | breakLoop | continueLoop | returnNone => exact isTree_iff.2 ⟨rfl, by simp [fields]⟩
  | @tryCatch params _ _ _ _ _ hb hh =>
    refine isTree_iff.2 ⟨rfl, ?_⟩
    simpa [fields, isTree_symbol, isBranch_list] using And.intro hb hh
  | @function f params _ _ _ _ _ hb =>
    refine isTree_iff.2 ⟨rfl, ?_⟩
    simpa [fields, (isTree_symbol f).isBranch, isTree_symbol, isBranch_list] using hb

theorem isTree_program {ss : List Node} (h : ∀ s ∈ ss, IsStmt s) : IsTree (program ss) := by
  refine isTree_iff.2 ⟨rfl, ?_⟩
  simpa [fields, isBranch_list] using fun s hs => (h s hs).isTree

theorem withinAll_eq (ns : List Node) : withinAll ns = ns.flatMap within := by
  induction ns with
  | nil => rfl
  | cons n ns ih => rw [withinAll, ih, List.flatMap_cons]

/-- All nodes of a node are it and those of its children. -/
theorem within_eq (h : n.isKnown) : n.within = n :: n.children.flatMap fun c => c.2.within := by
  have hchildren :
      n.children.flatMap (fun c => c.2.within) = n.fields.flatMap (fun f => f.2.within) := by
    simp only [children, List.flatMap_assoc, List.flatMap_map, ← withinAll_eq, withinAll_items]
  rw [hchildren]
  cases n <;> first | contradiction | simp [within, fields]

theorem outlines_eq (ns : List Node) : outlines ns = ns.map outline := by
  induction ns with
  | nil => rfl
  | cons n ns ih => rw [outlines, ih, List.map_cons]

theorem outline_list (ns : List Node) : (list ns).outline = .list (ns.map outline) := by
  rw [outline, outlines_eq]

/-- The outline of a node is its heading, its label and the outlines of its parts. -/
theorem outline_eq (h : n.isKnown) : n.outline =
    .entry n.outline.heading n.outline.label (n.fields.map fun f => ⟨f.1, f.2.outline⟩) := by
  cases n with
  | symbol s =>
    simp only [outline, Symbol.outline]
    split <;> rfl
  | list | foreign => contradiction
  | _ =>
    simp only [outline, outlines_eq, Outline.plain, Outline.titled, Outline.literal,
      Outline.heading, Outline.label, fields, List.map_cons, List.map_nil]

end Node

end Terse
