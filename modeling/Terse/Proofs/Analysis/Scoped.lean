import Terse.Proofs.Analysis.Formed
import Terse.Proofs.Node.Scoping

/-! Name resolution declares every symbol before it is used, and numbers the symbols in order. -/
namespace Terse

/-- A scope with further declarations. -/
def Frame.extend (f : Frame) (ss : List Symbol) : Frame :=
  { f with locals := f.locals ++ ss.map fun s => (s.name, s) }

theorem Frame.extend_nil (f : Frame) : f.extend [] = f := by simp [extend]

theorem Frame.extend_append (f : Frame) (ss us : List Symbol) :
    (f.extend ss).extend us = f.extend (ss ++ us) := by simp [extend]

/-- A declaration adds its symbol at the end of the frame and changes nothing else. -/
theorem Frame.eq_extend {f f' : Frame} {s : Symbol} {loc : Option Loc}
    (h : f.declare s loc = .ok f') : f' = f.extend [s] := by
  unfold Frame.declare at h
  split at h
  · contradiction
  · exact (Except.ok.inj h).symm

/-- All that can be named in some scopes. -/
def Scope.visible (sc : Scope) : List Symbol := sc.flatMap fun f => f.locals.map (·.2)

variable {s : Symbol} {ss : List Symbol} {sc : Scope} {f : Frame}

theorem Scope.visible_extend : Scope.visible (f.extend ss :: sc) =
    (f.locals.map (·.2) ++ ss) ++ sc.visible := by
  simp [visible, Frame.extend, Function.comp_def]

theorem Scope.mem_visible {name : String} (h : sc.lookup name = some s) : s ∈ sc.visible := by
  obtain ⟨f, hf, hs⟩ := List.exists_of_findSome?_eq_some h
  obtain ⟨front, back, he, -⟩ := List.lookup_eq_some_iff.1 hs
  exact List.mem_flatMap.2 ⟨f, hf, List.mem_map.2 ⟨(name, s), he ▸ by simp, rfl⟩⟩

namespace Analysis

open Node (ExpSort symbols symbolsAll declares declaresBlock)

variable {P : Token → Prop}

theorem symbolsAll_subset {Γ : List Symbol} {es : List Node} (h : ∀ e ∈ es, symbols e ⊆ Γ) :
    symbolsAll es ⊆ Γ := by
  rw [Node.symbolsAll_eq]
  intro s hs
  obtain ⟨e, he, hs⟩ := List.mem_flatMap.1 hs
  exact h e he hs

/-- An expression uses only what is visible. -/
theorem ExpTo.symbols_subset {k : ExpSort} {t : Tree} {n : Node} (h : ExpTo P sc k t n) :
    n.symbols ⊆ sc.visible := by
  have hall {ts : List Tree} {ns : List Node} (hl : ts.length = ns.length)
      (h : ∀ p ∈ ts.zip ns, symbols p.2 ⊆ sc.visible) : symbolsAll ns ⊆ sc.visible :=
    symbolsAll_subset (forall_mem_of_zip hl h)
  induction h with
  | number | string | trueLit | falseLit => exact List.nil_subset _
  | var _ hs => exact List.cons_subset.2 ⟨Scope.mem_visible hs, List.nil_subset _⟩
  | call _ hf _ hl _ ih => exact List.cons_subset.2 ⟨Scope.mem_visible hf, hall hl ih⟩
  | array hl _ ih | dict hl _ ih => exact hall hl ih
  | dictItem _ _ ih | member _ _ ih | optionalMember _ _ ih | postfixUnary _ _ ih
  | unary _ _ ih => exact ih
  | subscript _ _ ihl ihr | power _ _ ihl ihr | binary _ _ _ ihl ihr | relational _ _ _ ihl ihr
  | andExp _ _ ihl ihr | orExp _ _ ihl ihr => exact List.append_subset.2 ⟨ihl, ihr⟩
  | conditional _ _ _ iht ihy ihn =>
    exact List.append_subset.2 ⟨List.append_subset.2 ⟨iht, ihy⟩, ihn⟩

/-- Parameters extend the frame by themselves. -/
theorem Introduced.frame_eq {ps : List Token} {f f' : Frame} {u u' : Nat} {vs : List Symbol}
    (h : Introduced ps f u vs f' u') : f' = f.extend vs := by
  induction h with
  | nil => exact (Frame.extend_nil _).symm
  | cons hf _ ih => rw [ih, Frame.eq_extend hf, Frame.extend_append, List.singleton_append]

/-- What is declared for the statements after. -/
def Code.declares : Code → List Symbol
  | .stmt _ n => n.declares
  | .row _ ns => declaresBlock ns

theorem declares_callStatement (n : Node) : (callStatement n).declares = [] := by
  obtain ⟨_, _, -, he⟩ | he := callStatement_eq n <;> rw [he] <;> rfl

theorem declares_of_isChoice {n : Node} (h : n.isChoice) : n.declares = [] := by
  cases n <;> simp_all [Node.isChoice, declares]

/-- A statement leaves its scope as it was, but for its own declaration. -/
theorem StmtTo.frame_eq {c : Code} {outer : Scope} {f f' : Frame} {u u' : Nat}
    (h : StmtTo P c outer f u f' u') : f' = f.extend c.declares := by
  induction h with
  | declare _ _ _ hf | function _ hf _ _ _ => exact Frame.eq_extend hf
  | callStmt _ => rw [Code.declares, declares_callStatement, Frame.extend_nil]
  | ifChain _ _ hn _ ih =>
    rw [ih, Code.declares, declares_of_isChoice (isChoice_of_ifStmt hn)]
    rfl
  | cons _ _ ihn ihns =>
    rw [ihns, ihn, Frame.extend_append]
    rfl
  | _ => exact (Frame.extend_nil _).symm

variable {Γ : List Symbol} {outer : Scope} {f f' g : Frame} {vs : List Symbol}

/-- What a frame is extended by becomes visible. -/
theorem visible_extend_subset (h : Scope.visible (f :: sc) ⊆ Γ) :
    Scope.visible (f.extend ss :: sc) ⊆ ss ++ Γ := by
  rw [Scope.visible_extend]
  intro s hs
  simp only [Scope.visible, List.flatMap_cons, List.append_subset] at h
  simp only [List.mem_append] at hs ⊢
  obtain (hs | hs) | hs := hs
  · exact .inr (h.1 hs)
  · exact .inl hs
  · exact .inr (h.2 hs)

/-- A new scope sees all that encloses it. -/
theorem visible_child (h : sc.visible ⊆ Γ) (hf : f.locals = []) : Scope.visible (f :: sc) ⊆ Γ := by
  simpa [Scope.visible, hf] using h

/-- The code uses only what is in sight. -/
def Code.Scoped : Code → List Symbol → Prop
  | .stmt _ n, Γ => n.Scoped Γ
  | .row _ ns, Γ => Node.ScopedBlock ns Γ

theorem scoped_callStatement {f : Symbol} {args : List Node}
    (h : (Node.call (.symbol f) args).symbols ⊆ Γ) :
    (callStatement (.call (.symbol f) args)).Scoped Γ := by
  obtain ⟨arg, harg, he⟩ | he := callStatement_cases f args
  · rw [he]
    have hargs : symbolsAll args ⊆ Γ := (List.cons_subset.1 h).2
    rw [Node.symbolsAll_eq] at hargs
    exact fun s hs => hargs (List.mem_flatMap.2 ⟨arg, harg, hs⟩)
  · rw [he]
    exact h

/-- Code that resolves uses only symbols that were visible before it or that it has declared. -/
theorem StmtTo.scoped {c : Code} {u u' : Nat} (h : StmtTo P c outer f u f' u')
    (hΓ : Scope.visible (f :: outer) ⊆ Γ) : c.Scoped Γ := by
  have hexp {k : ExpSort} {sc : Scope} {t : Tree} {n : Node} {Γ : List Symbol}
      (hΓ : sc.visible ⊆ Γ) (hn : ExpTo P sc k t n) : n.symbols ⊆ Γ :=
    List.Subset.trans hn.symbols_subset hΓ
  have hvar {sc : Scope} {name : String} {s : Symbol} {Γ : List Symbol} (hΓ : sc.visible ⊆ Γ)
      (hs : sc.lookup name = some s) : s ∈ Γ := hΓ (Scope.mem_visible hs)
  induction h generalizing Γ with
  | assign _ hn hs _ => exact ⟨List.cons_subset.2 ⟨hvar hΓ hs, List.nil_subset _⟩, hexp hΓ hn⟩
  | declare _ hn _ _ => exact hexp hΓ hn
  | indexAssign _ hs hi hn =>
    exact ⟨List.cons_subset.2 ⟨hvar hΓ hs, hexp hΓ hi⟩, hexp hΓ hn⟩
  | memberAssign _ _ hs hn =>
    exact ⟨List.cons_subset.2 ⟨hvar hΓ hs, List.nil_subset _⟩, hexp hΓ hn⟩
  | mathAssign _ _ hs _ hn =>
    exact ⟨List.cons_subset.2 ⟨hvar hΓ hs, List.nil_subset _⟩,
      List.cons_subset.2 ⟨hvar hΓ hs, hexp hΓ hn⟩⟩
  | incDecStmt hn _ => exact hexp hΓ hn
  | callStmt hn =>
    have hsymbols := hexp hΓ hn
    obtain ⟨f, ns, rfl⟩ := hn.eq_call
    exact scoped_callStatement hsymbols
  | @function t params vs body ns l loc outer f f' g g' u v u' _ hf hvs _ ih =>
    refine ih ?_
    rw [hvs.frame_eq, Frame.eq_extend hf, Node.symbolsAll_symbols, List.append_assoc]
    exact visible_extend_subset (visible_child (visible_extend_subset hΓ) rfl)
  | ifOnly hc _ ih => exact ⟨hexp hΓ hc, ih (visible_child hΓ rfl)⟩
  | ifChain hc _ _ ih ihn => exact ⟨hexp hΓ hc, ih (visible_child hΓ rfl), ihn hΓ⟩
  | ifElse hc _ _ ihy ihn =>
    exact ⟨hexp hΓ hc, ihy (visible_child hΓ rfl), ihn (visible_child hΓ rfl)⟩
  | whileStmt hc _ ih => exact ⟨hexp hΓ hc, ih (visible_child hΓ rfl)⟩
  | repeatNumber _ _ _ ih => exact ⟨List.nil_subset _, ih (visible_child hΓ rfl)⟩
  | repeatName _ hs _ _ ih =>
    exact ⟨List.cons_subset.2 ⟨hvar hΓ hs, List.nil_subset _⟩, ih (visible_child hΓ rfl)⟩
  | rangeStmt _ ha hb hg _ ih =>
    refine ⟨hexp hΓ ha, hexp hΓ hb, List.nil_subset _, ih ?_⟩
    rw [Frame.eq_extend hg]
    exact visible_extend_subset (visible_child hΓ rfl)
  | steppedStmt _ ha hb hc hg _ ih =>
    refine ⟨hexp hΓ ha, hexp hΓ hb, hexp hΓ hc, ih ?_⟩
    rw [Frame.eq_extend hg]
    exact visible_extend_subset (visible_child hΓ rfl)
  | forStmt _ hc hg _ ih =>
    refine ⟨hexp hΓ hc, ih ?_⟩
    rw [Frame.eq_extend hg]
    exact visible_extend_subset (visible_child hΓ rfl)
  | breakStmt _ | continueStmt _ | shortReturnStmt _ | nil => trivial
  | returnStmt _ hn | throwStmt hn => exact hexp hΓ hn
  | tryStmt _ hvs _ ihb ihh =>
    refine ⟨ihb (visible_child hΓ rfl), ihh ?_⟩
    rw [hvs.frame_eq, Node.symbolsAll_symbols]
    exact visible_extend_subset (visible_child hΓ rfl)
  | cons hn _ ihn ihns =>
    refine ⟨ihn hΓ, ihns ?_⟩
    rw [hn.frame_eq]
    exact visible_extend_subset hΓ

/-- The symbols have the numbers from `u` up to but not including `u'`, in order. -/
def Numbered (ss : List Symbol) (u u' : Nat) : Prop :=
  u ≤ u' ∧ ss.map (·.uid) = List.range' u (u' - u)

theorem numbered_nil (u : Nat) : Numbered [] u u := ⟨Nat.le_refl u, by simp⟩

/-- Numbered lists join where the first one ends. -/
theorem Numbered.append {ss us : List Symbol} {u v w : Nat} (hs : Numbered ss u v)
    (hu : Numbered us v w) : Numbered (ss ++ us) u w := by
  refine ⟨Nat.le_trans hs.1 hu.1, ?_⟩
  obtain ⟨i, rfl⟩ := Nat.exists_eq_add_of_le hs.1
  obtain ⟨j, rfl⟩ := Nat.exists_eq_add_of_le hu.1
  rw [List.map_append, hs.2, hu.2, Nat.add_assoc, Nat.add_sub_cancel_left, Nat.add_sub_cancel_left,
    Nat.add_sub_add_left, Nat.add_sub_cancel_left, List.range'_append_1]

theorem Numbered.cons {ss : List Symbol} {t : Token} {u v : Nat} {kind : SymbolKind}
    (h : Numbered ss (u + 1) v) : Numbered (fresh t u kind :: ss) u v :=
  have hone : Numbered [fresh t u kind] u (u + 1) := ⟨Nat.le_succ u, by simp [fresh]⟩
  hone.append h

/-- Parameters are numbered in their order. -/
theorem Introduced.numbered {ps : List Token} {f f' : Frame} {u u' : Nat} {vs : List Symbol}
    (h : Introduced ps f u vs f' u') : Numbered vs u u' := by
  induction h with
  | nil => exact numbered_nil _
  | cons _ _ ih => exact ih.cons

def Code.declared : Code → List Symbol
  | .stmt _ n => n.declared
  | .row _ ns => Node.declaredBlock ns

theorem declared_callStatement (n : Node) : (callStatement n).declared = [] := by
  obtain ⟨_, _, -, he⟩ | he := callStatement_eq n <;> rw [he] <;> rfl

/-- All declarations of code that resolves, nested ones too, are numbered in their order. -/
theorem StmtTo.numbered {c : Code} {u u' : Nat} (h : StmtTo P c outer f u f' u') :
    Numbered c.declared u u' := by
  induction h with
  | declare _ _ _ _ => exact (numbered_nil _).cons
  | callStmt _ =>
    rw [Code.declared, declared_callStatement]
    exact numbered_nil _
  | function _ _ hvs _ ih =>
    simp only [Code.declared, Node.declared, Node.symbols, Node.symbolsAll_symbols]
    exact (hvs.numbered.append ih).cons
  | ifOnly _ _ ih | whileStmt _ _ ih | repeatNumber _ _ _ ih | repeatName _ _ _ _ ih => exact ih
  | ifChain _ _ _ ih ihn => exact ih.append ihn
  | ifElse _ _ _ ihy ihn => exact ihy.append ihn
  | rangeStmt _ _ _ _ _ ih | steppedStmt _ _ _ _ _ _ ih | forStmt _ _ _ _ ih => exact ih.cons
  | tryStmt _ hvs _ ihb ihh =>
    simp only [Code.declared, Node.declared, Node.symbolsAll_symbols]
    exact (ihb.append hvs.numbered).append ihh
  | cons _ _ ihn ihns => exact ihn.append ihns
  | _ => exact numbered_nil _

/-- No symbol is numbered twice. -/
theorem Numbered.nodup {ss : List Symbol} {u u' : Nat} (h : Numbered ss u u') : ss.Nodup := by
  have huids : (ss.map (·.uid)).Nodup := h.2 ▸ List.nodup_range'
  exact List.Pairwise.of_map _ (fun s t hne he => hne (he ▸ rfl)) huids

end Analysis

open Node (WellScoped declaredBlock program)

theorem visible_root : Scope.visible [Frame.root] ⊆ Symbol.library := by decide

/-- Name resolution closes a program: what it uses is of the library or declared before, and no two
declarations are alike. -/
theorem wellScoped_of_analyze {P : Token → Prop} {tree : Tree} {ss : List Node}
    (h : ∀ t ∈ tree.kids, Tree.IsStmt P t) (ha : analyze tree = .ok ss) :
    WellScoped ss ∧ (declaredBlock ss).Nodup := by
  obtain ⟨f, u, hrow⟩ := stmtTo_of_analyze h ha
  exact ⟨hrow.scoped visible_root, hrow.numbered.nodup⟩

theorem optimize_program_eq {ss : List Node} {p : Node} (h : (program ss).optimize = .ok p) :
    Node.blockFault? ss = none ∧ p = program (Node.simplifyBlock ss) := by
  unfold Node.optimize at h
  split at h
  · contradiction
  · rename_i hf
    exact ⟨hf, (Except.ok.inj h).symm⟩

/-- Programs are closed and declare before use, once their names are resolved and after
simplification. -/
theorem declared_before_use :
    (∀ (ts : List Token) (tree : Tree) (ss : List Node), Derives language .program ts [tree] →
      analyze tree = .ok ss → WellScoped ss ∧ (declaredBlock ss).Nodup) ∧
    (∀ (ss : List Node) (p : Node), WellScoped ss → (program ss).optimize = .ok p →
      ∃ ss', p = program ss' ∧ WellScoped ss' ∧
        ((declaredBlock ss).Nodup → (declaredBlock ss').Nodup)) ∧
    ∀ ss : List Node, (∀ s ∈ ss, Node.IsStmt s) → ∃ p, (program ss).optimize = .ok p := by
  refine ⟨fun ts tree ss hd ha => ?_, fun ss p hg ho => ?_, fun ss hs => ?_⟩
  · have hparts : ∀ t ∈ tree.kids, Tree.IsStmt (fun _ => True) t :=
      isStmt_of_derives hd fun _ _ => trivial
    exact wellScoped_of_analyze hparts ha
  · obtain ⟨hf, rfl⟩ := optimize_program_eq ho
    exact ⟨_, rfl, Node.scopedBlock_simplifyBlock ss hf hg,
      (Node.declaredBlock_simplifyBlock ss hf).nodup⟩
  · exact ⟨_, Node.optimize_program hs⟩

/-- A function with a loop, a guarded block with its handler, and a choice that dissolves. -/
theorem declared_before_use_nested :
    ∃ ts tree ss ss', Derives language .program ts [tree] ∧ analyze tree = .ok ss ∧
      (declaredBlock ss).length = 7 ∧ WellScoped ss ∧ (declaredBlock ss).Nodup ∧
      (program ss).optimize = .ok (program ss') ∧ WellScoped ss' ∧ (declaredBlock ss').Nodup := by
  obtain ⟨tree, ss, hp, ha, hlength⟩ := exists_of_resolvesTo
    (show resolvesTo ("f g(a) => i in 0,#a: t: y = a[i] th g(y); e(err): log(err);;;" ++
      "? 1 < 2: z = 1 log(z);! : z = 2;")
      (fun ss => (declaredBlock ss).length == 7) from by decide +kernel)
  obtain ⟨ts, rest, -, hd⟩ := derives_of_parse hp
  obtain ⟨hscoped, hnodup⟩ := declared_before_use.1 ts tree ss hd ha
  obtain ⟨p, ho⟩ := declared_before_use.2.2 ss (isStmt_of_analyze hp ha)
  obtain ⟨ss', rfl, hscoped', hnodup'⟩ := declared_before_use.2.1 ss p hscoped ho
  exact ⟨ts, tree, ss, ss', hd, ha, beq_iff_eq.1 hlength, hscoped, hnodup, ho, hscoped',
    hnodup' hnodup⟩

end Terse
