import Terse.Proofs.Node.Everywhere
import Terse.Proofs.Node.Scoping

/-! Where symbols and expressions stand in a program. -/
namespace Terse.Node

variable {S : List Region → Node → Prop} {path inner : List Region} {s : Symbol} {m n : Node}

/-- What lies in a node that lies in another lies in the other. -/
theorem Lies.trans {outer : List Region} {p : Node} (h : Lies n outer m) (hp : Lies m inner p) :
    Lies n (inner ++ outer) p := by
  induction h with
  | here => rwa [List.append_nil]
  | part hpart _ ih =>
    rw [← List.append_assoc]
    exact .part hpart (ih hp)

/-- What holds all over a node holds all over what lies in it. -/
theorem Everywhere.inside (h : Everywhere S [] n) (hm : Lies n path m) : Everywhere S path m := by
  intro inner p hp
  have hs := h (inner ++ path) p (hm.trans hp)
  rwa [List.append_nil] at hs

/-- A symbol stands somewhere in a node. -/
def Occurs (s : Symbol) (n : Node) : Prop := ∃ path, Lies n path (symbol s)

theorem occurs_symbol (s : Symbol) : Occurs s (symbol s) := ⟨[], .here⟩

theorem Occurs.part {n p : Node} {r : Option Region} (h : Occurs s p) (hp : (r, p) ∈ n.parts) :
    Occurs s n :=
  have ⟨_, hs⟩ := h
  ⟨_, .part hp hs⟩

mutual

/-- The symbols of an expression occur in it. -/
theorem occurs_of_mem_symbols : ∀ n : Node, s ∈ n.symbols → Occurs s n
  | symbol t, h => List.mem_singleton.1 h ▸ occurs_symbol t
  | conditional test yes no, h => by
    simp only [symbols, List.mem_append] at h
    obtain (h | h) | h := h
    · exact (occurs_of_mem_symbols test h).part (r := none) (by simp [parts])
    · exact (occurs_of_mem_symbols yes h).part (r := none) (by simp [parts])
    · exact (occurs_of_mem_symbols no h).part (r := none) (by simp [parts])
  | binary op left right, h => by
    simp only [symbols, List.mem_append] at h
    obtain h | h := h
    · exact (occurs_of_mem_symbols left h).part (r := none) (by simp [parts])
    · exact (occurs_of_mem_symbols right h).part (r := none) (by simp [parts])
  | subscript collection index, h => by
    simp only [symbols, List.mem_append] at h
    obtain h | h := h
    · exact (occurs_of_mem_symbols collection h).part (r := none) (by simp [parts])
    · exact (occurs_of_mem_symbols index h).part (r := none) (by simp [parts])
  | unary op e, h | dictItem key e, h | member e access name, h =>
    (occurs_of_mem_symbols e h).part (r := none) (by simp [parts])
  | array es, h | dict es, h => by
    obtain ⟨e, he, hs⟩ := occurs_of_mem_symbolsAll es h
    exact hs.part (r := none) (by simp [parts, he])
  | call f args, h => by
    simp only [symbols, List.mem_append] at h
    obtain h | h := h
    · exact (occurs_of_mem_symbols f h).part (r := none) (by simp [parts])
    · obtain ⟨e, he, hs⟩ := occurs_of_mem_symbolsAll args h
      exact hs.part (r := none) (by simp [parts, he])

theorem occurs_of_mem_symbolsAll : ∀ es : List Node, s ∈ symbolsAll es → ∃ e ∈ es, Occurs s e
  | e :: es, h => by
    obtain h | h := List.mem_append.1 h
    · exact ⟨e, List.mem_cons_self, occurs_of_mem_symbols e h⟩
    · obtain ⟨e', he, hs⟩ := occurs_of_mem_symbolsAll es h
      exact ⟨e', List.mem_cons_of_mem _ he, hs⟩

end

mutual

/-- What is declared in a statement occurs in it. -/
theorem occurs_of_mem_declared : ∀ n : Node, s ∈ n.declared → Occurs s n
  | declare v e, h => (occurs_of_mem_symbols v h).part (r := none) (by simp [parts])
  | ifElse test yes no, h => by
    obtain h | h := List.mem_append.1 h
    · obtain ⟨n, hn, hs⟩ := exists_of_mem_declaredBlock yes h
      exact hs.part (r := none) (by simp [parts, hn])
    · exact (occurs_of_mem_declared no h).part (r := none) (by simp [parts])
  | ifOnly test body, h | program body, h | list body, h => by
    obtain ⟨n, hn, hs⟩ := exists_of_mem_declaredBlock body h
    exact hs.part (r := none) (by simp [parts, hn])
  | whileLoop test body, h | repeatLoop test body, h => by
    obtain ⟨n, hn, hs⟩ := exists_of_mem_declaredBlock body h
    exact hs.part (r := some .loop) (by simp [parts, hn])
  | rangeLoop v low high step body, h => by
    obtain h | h := List.mem_append.1 h
    · exact (occurs_of_mem_symbols v h).part (r := none) (by simp [parts])
    · obtain ⟨n, hn, hs⟩ := exists_of_mem_declaredBlock body h
      exact hs.part (r := some .loop) (by simp [parts, hn])
  | eachLoop v collection body, h => by
    obtain h | h := List.mem_append.1 h
    · exact (occurs_of_mem_symbols v h).part (r := none) (by simp [parts])
    · obtain ⟨n, hn, hs⟩ := exists_of_mem_declaredBlock body h
      exact hs.part (r := some .loop) (by simp [parts, hn])
  | tryCatch body params handler, h => by
    simp only [declared, List.mem_append] at h
    obtain (h | h) | h := h
    · obtain ⟨n, hn, hs⟩ := exists_of_mem_declaredBlock body h
      exact hs.part (r := none) (by simp [parts, hn])
    · obtain ⟨n, hn, hs⟩ := occurs_of_mem_symbolsAll params h
      exact hs.part (r := none) (by simp [parts, hn])
    · obtain ⟨n, hn, hs⟩ := exists_of_mem_declaredBlock handler h
      exact hs.part (r := none) (by simp [parts, hn])
  | function f params body, h => by
    simp only [declared, List.mem_append] at h
    obtain (h | h) | h := h
    · exact (occurs_of_mem_symbols f h).part (r := none) (by simp [parts])
    · obtain ⟨n, hn, hs⟩ := occurs_of_mem_symbolsAll params h
      exact hs.part (r := none) (by simp [parts, hn])
    · obtain ⟨n, hn, hs⟩ := exists_of_mem_declaredBlock body h
      exact hs.part (r := some .function) (by simp [parts, hn])

theorem exists_of_mem_declaredBlock :
    ∀ ss : List Node, s ∈ declaredBlock ss → ∃ n ∈ ss, Occurs s n
  | n :: ss, h => by
    obtain h | h := List.mem_append.1 h
    · exact ⟨n, List.mem_cons_self, occurs_of_mem_declared n h⟩
    · obtain ⟨m, hm, hs⟩ := exists_of_mem_declaredBlock ss h
      exact ⟨m, List.mem_cons_of_mem _ hm, hs⟩

end

/-- What has a value. An entry of a dictionary has none of its own. -/
def isExpression : Node → Bool
  | conditional .. | binary .. | unary .. | array .. | dict .. | member .. | subscript .. | call ..
  | number _ | string _ | boolean _ | symbol _ => true
  | _ => false

/-- Nodes that look like expressions are well-formed expressions. -/
def Meant (_ : List Region) (n : Node) : Prop := n.isExpression → IsExp .value n

theorem meant_symbol (s : Symbol) : Everywhere Meant path (symbol s) :=
  everywhere_iff.2 ⟨fun _ => .symbol s, trivial⟩

theorem meant_symbols (ss : List Symbol) : EverywhereIn Meant path (ss.map symbol) :=
  List.forall_mem_map.2 fun s _ => meant_symbol s

/-- All nodes in an expression that look like expressions are well formed. -/
theorem IsExp.meant {k : ExpSort} (h : IsExp k n) : Everywhere Meant path n := by
  have hself {k : ExpSort} {n : Node} (h : IsExp k n) : Meant path n := by
    cases k with
    | value => exact fun _ => h
    | entry =>
      cases h
      exact fun hn => absurd hn Bool.false_ne_true
  induction h with
  | number a => exact everywhere_iff.2 ⟨fun _ => .number a, trivial⟩
  | string t => exact everywhere_iff.2 ⟨fun _ => .string t, trivial⟩
  | boolean b => exact everywhere_iff.2 ⟨fun _ => .boolean b, trivial⟩
  | symbol s => exact meant_symbol s
  | conditional ht hy hn iht ihy ihn =>
    exact everywhere_iff.2 ⟨hself (.conditional ht hy hn), iht, ihy, ihn⟩
  | binary ho hl hr ihl ihr => exact everywhere_iff.2 ⟨hself (.binary ho hl hr), ihl, ihr⟩
  | unary ho he ih => exact everywhere_iff.2 ⟨hself (.unary ho he), ih⟩
  | array hes ih => exact everywhere_iff.2 ⟨hself (.array hes), ih⟩
  | dict hes ih => exact everywhere_iff.2 ⟨hself (.dict hes), ih⟩
  | dictItem he ih => exact everywhere_iff.2 ⟨hself (.dictItem he), ih⟩
  | member ha he ih => exact everywhere_iff.2 ⟨hself (.member ha he), ih⟩
  | subscript hc hi ihc ihi => exact everywhere_iff.2 ⟨hself (.subscript hc hi), ihc, ihi⟩
  | call hargs ih => exact everywhere_iff.2 ⟨hself (.call hargs), meant_symbol _, ih⟩

theorem meant_statement (h : n.isExpression = false) : Meant path n := fun hn =>
  absurd (h.symm.trans hn) Bool.false_ne_true

/-- All that looks like an expression in a statement is one. -/
theorem IsStmt.meant (h : IsStmt n) : Everywhere Meant path n := by
  induction h generalizing path with
  | declare _ he => exact everywhere_iff.2 ⟨meant_statement rfl, meant_symbol _, he.meant⟩
  | assign _ ht he => exact everywhere_iff.2 ⟨meant_statement rfl, ht.meant, he.meant⟩
  | print he | returnValue he | throwValue he | callAlone _ he =>
    exact everywhere_iff.2 ⟨meant_statement rfl, he.meant⟩
  | ifElse ht _ _ ihy ihn =>
    exact everywhere_iff.2 ⟨meant_statement rfl, ht.meant,
      everywhere_iff.2 ⟨meant_statement rfl, fun s hs => ihn s hs⟩, fun s hs => ihy s hs⟩
  | ifChain ht _ _ _ ihy ihn =>
    exact everywhere_iff.2 ⟨meant_statement rfl, ht.meant, ihn, fun s hs => ihy s hs⟩
  | ifOnly ht _ ih | whileLoop ht _ ih | repeatLoop ht _ ih =>
    exact everywhere_iff.2 ⟨meant_statement rfl, ht.meant, fun s hs => ih s hs⟩
  | rangeLoop _ hl hh hs _ ih =>
    exact everywhere_iff.2 ⟨meant_statement rfl, meant_symbol _, hl.meant, hh.meant, hs.meant,
      fun s hs => ih s hs⟩
  | eachLoop _ hc _ ih =>
    exact everywhere_iff.2 ⟨meant_statement rfl, meant_symbol _, hc.meant, fun s hs => ih s hs⟩
  | breakLoop | continueLoop | returnNone => exact everywhere_iff.2 ⟨meant_statement rfl, trivial⟩
  | tryCatch _ _ _ ihb ihh =>
    exact everywhere_iff.2 ⟨meant_statement rfl, fun s hs => ihb s hs, meant_symbols _,
      fun s hs => ihh s hs⟩
  | function _ _ _ _ ih =>
    exact everywhere_iff.2 ⟨meant_statement rfl, meant_symbol _, meant_symbols _,
      fun s hs => ih s hs⟩
  | incr he => exact (IsExp.unary (show .incr ∈ UnOp.known by decide) he).meant
  | decr he => exact (IsExp.unary (show .decr ∈ UnOp.known by decide) he).meant

/-- A symbol that stands here is one of these. -/
def Uses (symbols : List Symbol) (_ : List Region) : Node → Prop
  | symbol s => s ∈ symbols
  | _ => True

theorem mem_of_occurs {all : List Symbol} (h : Everywhere (Uses all) path n) (hs : Occurs s n) :
    s ∈ all := by
  obtain ⟨inner, hs⟩ := hs
  exact h inner (symbol s) hs

variable {all Γ : List Symbol} {ss : List Node}

theorem uses_symbol (h : s ∈ all) : Everywhere (Uses all) path (symbol s) :=
  everywhere_iff.2 ⟨h, trivial⟩

theorem uses_symbols {vs : List Symbol} (h : vs ⊆ all) :
    EverywhereIn (Uses all) path (vs.map symbol) :=
  List.forall_mem_map.2 fun _ hv => uses_symbol (h hv)

/-- An expression uses only the symbols in it. -/
theorem IsExp.uses {k : ExpSort} (h : IsExp k n) (hn : n.symbols ⊆ all) :
    Everywhere (Uses all) path n := by
  have hall {es : List Node} (hes : symbolsAll es ⊆ all)
      (ih : ∀ e ∈ es, e.symbols ⊆ all → Everywhere (Uses all) path e) :
      EverywhereIn (Uses all) path es := by
    intro e he
    refine ih e he fun s hs => hes ?_
    rw [symbolsAll_eq]
    exact List.mem_flatMap.2 ⟨e, he, hs⟩
  induction h with
  | number | string | boolean => exact everywhere_iff.2 ⟨trivial, trivial⟩
  | symbol s => exact uses_symbol (hn List.mem_cons_self)
  | conditional _ _ _ iht ihy ihn =>
    simp only [symbols, List.append_subset] at hn
    exact everywhere_iff.2 ⟨trivial, iht hn.1.1, ihy hn.1.2, ihn hn.2⟩
  | binary _ _ _ ihl ihr | subscript _ _ ihl ihr =>
    simp only [symbols, List.append_subset] at hn
    exact everywhere_iff.2 ⟨trivial, ihl hn.1, ihr hn.2⟩
  | unary _ _ ih | dictItem _ ih | member _ _ ih => exact everywhere_iff.2 ⟨trivial, ih hn⟩
  | array _ ih | dict _ ih => exact everywhere_iff.2 ⟨trivial, hall hn ih⟩
  | call _ ih =>
    simp only [symbols, List.append_subset] at hn
    exact everywhere_iff.2 ⟨trivial, uses_symbol (hn.1 List.mem_cons_self), hall hn.2 ih⟩

/-- Each statement of a block sees what is in sight before the block and what the block declares. -/
theorem exists_scoped (hs : ScopedBlock ss Γ) (hΓ : Γ ⊆ all) (hd : declaredBlock ss ⊆ all)
    (hn : n ∈ ss) : ∃ Δ, Δ ⊆ all ∧ Scoped n Δ ∧ n.declared ⊆ all := by
  induction ss generalizing Γ with
  | nil => exact absurd hn List.not_mem_nil
  | cons s ss ih =>
    obtain ⟨hfirst, hrest⟩ := List.append_subset.1 hd
    rcases List.mem_cons.1 hn with rfl | hn
    · exact ⟨Γ, hΓ, hs.1, hfirst⟩
    · refine ih hs.2 (List.append_subset.2 ⟨?_, hΓ⟩) hrest hn
      exact List.Subset.trans (declares_sublist_declared s).subset hfirst

/-- Whatever stands in a statement is in sight of it or declared in it. -/
theorem IsStmt.uses (h : IsStmt n) (hn : Scoped n Γ) (hΓ : Γ ⊆ all) (hd : n.declared ⊆ all) :
    Everywhere (Uses all) path n := by
  have hexp {e : Node} {Γ : List Symbol} {path : List Region} (he : IsExp .value e)
      (hs : e.symbols ⊆ Γ) (hΓ : Γ ⊆ all) : Everywhere (Uses all) path e :=
    he.uses (List.Subset.trans hs hΓ)
  have hblock {ss : List Node} {Γ : List Symbol} {path : List Region}
      (ih : ∀ s ∈ ss, ∀ {path : List Region} {Γ : List Symbol}, Scoped s Γ → Γ ⊆ all →
        s.declared ⊆ all → Everywhere (Uses all) path s)
      (hs : ScopedBlock ss Γ) (hΓ : Γ ⊆ all) (hd : declaredBlock ss ⊆ all) :
      EverywhereIn (Uses all) path ss := by
    intro s hmem
    obtain ⟨Δ, hΔ, hscoped, hdeclared⟩ := exists_scoped hs hΓ hd hmem
    exact ih s hmem hscoped hΔ hdeclared
  induction h generalizing Γ path with
  | declare _ he =>
    exact everywhere_iff.2 ⟨trivial, uses_symbol (hd List.mem_cons_self), hexp he hn hΓ⟩
  | assign _ ht he => exact everywhere_iff.2 ⟨trivial, hexp ht hn.1 hΓ, hexp he hn.2 hΓ⟩
  | print he | returnValue he | throwValue he | callAlone _ he | incr he | decr he =>
    exact everywhere_iff.2 ⟨trivial, hexp he hn hΓ⟩
  | ifElse ht _ _ ihy ihn =>
    obtain ⟨htest, hyes, hno⟩ := hn
    obtain ⟨hdy, hdn⟩ := List.append_subset.1 hd
    exact everywhere_iff.2 ⟨trivial, hexp ht htest hΓ,
      everywhere_iff.2 ⟨trivial, hblock ihn hno hΓ hdn⟩, hblock ihy hyes hΓ hdy⟩
  | ifChain ht _ _ _ ihy ihn =>
    obtain ⟨htest, hyes, hno⟩ := hn
    obtain ⟨hdy, hdn⟩ := List.append_subset.1 hd
    exact everywhere_iff.2
      ⟨trivial, hexp ht htest hΓ, ihn hno hΓ hdn, hblock ihy hyes hΓ hdy⟩
  | ifOnly ht _ ih | whileLoop ht _ ih | repeatLoop ht _ ih =>
    exact everywhere_iff.2 ⟨trivial, hexp ht hn.1 hΓ, hblock ih hn.2 hΓ hd⟩
  | rangeLoop _ hl hh hs _ ih =>
    obtain ⟨hlow, hhigh, hstep, hbody⟩ := hn
    obtain ⟨hv, hrest⟩ := List.append_subset.1 hd
    exact everywhere_iff.2 ⟨trivial, uses_symbol (hv List.mem_cons_self), hexp hl hlow hΓ,
      hexp hh hhigh hΓ, hexp hs hstep hΓ,
      hblock ih hbody (List.append_subset.2 ⟨hv, hΓ⟩) hrest⟩
  | eachLoop _ hc _ ih =>
    obtain ⟨hcollection, hbody⟩ := hn
    obtain ⟨hv, hrest⟩ := List.append_subset.1 hd
    exact everywhere_iff.2 ⟨trivial, uses_symbol (hv List.mem_cons_self),
      hexp hc hcollection hΓ, hblock ih hbody (List.append_subset.2 ⟨hv, hΓ⟩) hrest⟩
  | breakLoop | continueLoop | returnNone => exact everywhere_iff.2 ⟨trivial, trivial⟩
  | tryCatch _ _ _ ihb ihh =>
    obtain ⟨hbody, hhandler⟩ := hn
    simp only [declared, symbolsAll_symbols, List.append_subset] at hd hhandler
    obtain ⟨⟨hdb, hdp⟩, hdh⟩ := hd
    exact everywhere_iff.2 ⟨trivial, hblock ihb hbody hΓ hdb, uses_symbols hdp,
      hblock ihh hhandler (List.append_subset.2 ⟨hdp, hΓ⟩) hdh⟩
  | function _ _ _ _ ih =>
    simp only [Scoped, declared, symbols, symbolsAll_symbols, List.append_subset] at hn hd
    obtain ⟨⟨hdf, hdp⟩, hdb⟩ := hd
    exact everywhere_iff.2 ⟨trivial, uses_symbol (hdf List.mem_cons_self), uses_symbols hdp,
      hblock ih hn (List.append_subset.2 ⟨List.append_subset.2 ⟨hdp, hdf⟩, hΓ⟩) hdb⟩

/-- A closed program uses the library and what it declares itself, and nothing else. -/
theorem mem_of_occurs_program (hss : ∀ n ∈ ss, IsStmt n) (hs : WellScoped ss)
    (h : Occurs s (program ss)) : s ∈ Symbol.library ∨ s ∈ declaredBlock ss := by
  have huses : EverywhereIn (Uses (Symbol.library ++ declaredBlock ss)) [] ss := by
    intro n hn
    obtain ⟨Δ, hΔ, hscoped, hdeclared⟩ := exists_scoped hs (List.subset_append_left _ _)
      (List.subset_append_right _ _) hn
    exact (hss n hn).uses hscoped hΔ hdeclared
  have hprogram : Everywhere (Uses (Symbol.library ++ declaredBlock ss)) [] (program ss) :=
    everywhere_iff.2 ⟨trivial, huses⟩
  exact List.mem_append.1 (mem_of_occurs hprogram h)

end Terse.Node
