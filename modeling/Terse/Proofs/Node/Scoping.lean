import Terse.Proofs.Node.Formed

/-! Which symbols a program declares, and where it may use them. -/
namespace Terse.Node

mutual

/-- The symbols that occur in an expression, from left to right. -/
def symbols : Node → List Symbol
  | symbol s => [s]
  | conditional test yes no => symbols test ++ symbols yes ++ symbols no
  | binary _ left right => symbols left ++ symbols right
  | unary _ operand => symbols operand
  | array es | dict es => symbolsAll es
  | dictItem _ e => symbols e
  | member object _ _ => symbols object
  | subscript collection index => symbols collection ++ symbols index
  | call f args => symbols f ++ symbolsAll args
  | _ => []
termination_by structural n => n

def symbolsAll : List Node → List Symbol
  | [] => []
  | e :: es => symbols e ++ symbolsAll es
termination_by structural es => es

end

/-- What a statement declares for the statements after it. -/
def declares : Node → List Symbol
  | declare v _ => symbols v
  | function f _ _ => symbols f
  | _ => []

mutual

/-- All that is declared in a statement, in the order of the text. -/
def declared : Node → List Symbol
  | declare v _ => symbols v
  | ifElse _ yes no => declaredBlock yes ++ declared no
  | ifOnly _ yes => declaredBlock yes
  | whileLoop _ body | repeatLoop _ body => declaredBlock body
  | rangeLoop v _ _ _ body | eachLoop v _ body => symbols v ++ declaredBlock body
  | tryCatch body params handler => declaredBlock body ++ symbolsAll params ++ declaredBlock handler
  | function f params body => symbols f ++ symbolsAll params ++ declaredBlock body
  | list ss | program ss => declaredBlock ss
  | _ => []
termination_by structural n => n

def declaredBlock : List Node → List Symbol
  | [] => []
  | s :: ss => declared s ++ declaredBlock ss
termination_by structural ss => ss

end

mutual

/-- `Scoped n Γ`: all that `n` uses is in `Γ` or declared before its use. The head of a loop does
not see the variable of the loop, nor a guarded block the parameters of its handler. -/
def Scoped : Node → List Symbol → Prop
  | declare _ e, Γ | print e, Γ | returnValue e, Γ | throwValue e, Γ | callAlone e, Γ
  | unary _ e, Γ => symbols e ⊆ Γ
  | assign target source, Γ => symbols target ⊆ Γ ∧ symbols source ⊆ Γ
  | ifElse test yes no, Γ => symbols test ⊆ Γ ∧ ScopedBlock yes Γ ∧ Scoped no Γ
  | ifOnly test body, Γ | whileLoop test body, Γ | repeatLoop test body, Γ =>
    symbols test ⊆ Γ ∧ ScopedBlock body Γ
  | rangeLoop v low high step body, Γ =>
    symbols low ⊆ Γ ∧ symbols high ⊆ Γ ∧ symbols step ⊆ Γ ∧ ScopedBlock body (symbols v ++ Γ)
  | eachLoop v collection body, Γ => symbols collection ⊆ Γ ∧ ScopedBlock body (symbols v ++ Γ)
  | tryCatch body params handler, Γ =>
    ScopedBlock body Γ ∧ ScopedBlock handler (symbolsAll params ++ Γ)
  | function f params body, Γ => ScopedBlock body (symbolsAll params ++ symbols f ++ Γ)
  | list ss, Γ | program ss, Γ => ScopedBlock ss Γ
  | breakLoop, _ | continueLoop, _ | returnNone, _ => True
  | e, Γ => symbols e ⊆ Γ
termination_by structural n => n

def ScopedBlock : List Node → List Symbol → Prop
  | [], _ => True
  | s :: ss, Γ => Scoped s Γ ∧ ScopedBlock ss (declares s ++ Γ)
termination_by structural ss => ss

end

/-- A program that uses the library and what it has declared itself. -/
def WellScoped (ss : List Node) : Prop := ScopedBlock ss Symbol.library

theorem symbolsAll_eq (es : List Node) : symbolsAll es = es.flatMap symbols := by
  induction es with
  | nil => rfl
  | cons e es ih => rw [symbolsAll, ih, List.flatMap_cons]

theorem declaredBlock_eq (ss : List Node) : declaredBlock ss = ss.flatMap declared := by
  induction ss with
  | nil => rfl
  | cons s ss ih => rw [declaredBlock, ih, List.flatMap_cons]

@[simp]
theorem symbolsAll_symbols (params : List Symbol) : symbolsAll (params.map symbol) = params := by
  induction params with
  | nil => rfl
  | cons p params ih => rw [List.map_cons, symbolsAll, symbols, ih, List.singleton_append]

@[simp]
theorem symbols_ofConstant (c : Constant) : symbols (ofConstant c) = [] := by cases c <;> rfl

theorem symbols_simplifyBinary (op : BinOp) (left right : Node) :
    (simplifyBinary op left right).symbols.Sublist (left.symbols ++ right.symbols) := by
  obtain ⟨c, h⟩ | h | h | ⟨_, h⟩ | ⟨_, _, h⟩ := simplifyBinary_cases op left right <;> rw [h]
  · simp
  · exact List.sublist_append_left _ _
  · exact List.sublist_append_right _ _
  · exact List.sublist_append_right _ _
  · exact List.Sublist.refl _

theorem symbols_simplifyUnary (op : UnOp) (operand : Node) :
    (simplifyUnary op operand).symbols.Sublist operand.symbols := by
  obtain ⟨c, h⟩ | h := simplifyUnary_cases op operand <;> rw [h]
  · simp
  · exact List.Sublist.refl _

mutual

/-- Simplification drops occurrences and adds none. -/
theorem symbols_simplify : ∀ n : Node, n.simplify.symbols.Sublist n.symbols
  | conditional test yes no => by
    have hy : yes.simplify.symbols.Sublist yes.symbols := symbols_simplify yes
    have hn : no.simplify.symbols.Sublist no.symbols := symbols_simplify no
    simp only [simplify, symbols]
    split
    · exact hy.trans ((List.sublist_append_right _ _).trans (List.sublist_append_left _ _))
    · exact hn.trans (List.sublist_append_right _ _)
    · exact ((symbols_simplify test).append hy).append hn
  | binary _ left right =>
    (symbols_simplifyBinary _ _ _).trans ((symbols_simplify left).append (symbols_simplify right))
  | unary _ operand => (symbols_simplifyUnary _ _).trans (symbols_simplify operand)
  | array es | dict es => symbolsAll_simplifyAll es
  | dictItem _ e | member e _ _ => symbols_simplify e
  | subscript collection index => (symbols_simplify collection).append (symbols_simplify index)
  | call _ args => (List.Sublist.refl _).append (symbolsAll_simplifyAll args)
  | number _ | string _ | boolean _ | symbol _ | foreign _ | list _ | program _ =>
    List.Sublist.refl _
  | declare .. | assign .. | print .. | ifElse .. | ifOnly .. | whileLoop .. | repeatLoop ..
  | rangeLoop .. | eachLoop .. | breakLoop | continueLoop | returnValue .. | returnNone
  | throwValue .. | tryCatch .. | function .. | callAlone .. => by
    rw [simplify_statement rfl]
    exact List.nil_sublist _
termination_by structural n => n

theorem symbolsAll_simplifyAll :
    ∀ es : List Node, (symbolsAll (simplifyAll es)).Sublist (symbolsAll es)
  | [] => List.Sublist.refl _
  | e :: es => (symbols_simplify e).append (symbolsAll_simplifyAll es)
termination_by structural es => es

end

variable {Γ Δ : List Symbol} {s n : Node} {ss ts : List Node}

theorem append_subset_append (xs : List Symbol) (h : Γ ⊆ Δ) : xs ++ Γ ⊆ xs ++ Δ := by simp [h]

mutual

/-- More in sight does no harm. -/
theorem scoped_mono : ∀ (s : Node) {Γ Δ : List Symbol}, Γ ⊆ Δ → Scoped s Γ → Scoped s Δ
  | ifElse _ yes no, _, _, h, hg =>
    ⟨List.Subset.trans hg.1 h, scopedBlock_mono yes h hg.2.1, scoped_mono no h hg.2.2⟩
  | ifOnly _ body, _, _, h, hg | whileLoop _ body, _, _, h, hg | repeatLoop _ body, _, _, h, hg =>
    ⟨List.Subset.trans hg.1 h, scopedBlock_mono body h hg.2⟩
  | rangeLoop _ _ _ _ body, _, _, h, hg =>
    ⟨List.Subset.trans hg.1 h, List.Subset.trans hg.2.1 h, List.Subset.trans hg.2.2.1 h,
      scopedBlock_mono body (append_subset_append _ h) hg.2.2.2⟩
  | eachLoop _ _ body, _, _, h, hg =>
    ⟨List.Subset.trans hg.1 h, scopedBlock_mono body (append_subset_append _ h) hg.2⟩
  | tryCatch body _ handler, _, _, h, hg =>
    ⟨scopedBlock_mono body h hg.1, scopedBlock_mono handler (append_subset_append _ h) hg.2⟩
  | function _ _ body, _, _, h, hg => scopedBlock_mono body (append_subset_append _ h) hg
  | list ss, _, _, h, hg | program ss, _, _, h, hg => scopedBlock_mono ss h hg
  | assign .., _, _, h, hg => ⟨List.Subset.trans hg.1 h, List.Subset.trans hg.2 h⟩
  | breakLoop, _, _, _, _ | continueLoop, _, _, _, _ | returnNone, _, _, _, _ => trivial
  | declare .., _, _, h, hg | print .., _, _, h, hg | returnValue .., _, _, h, hg
  | throwValue .., _, _, h, hg | callAlone .., _, _, h, hg | unary .., _, _, h, hg
  | conditional .., _, _, h, hg | binary .., _, _, h, hg | array .., _, _, h, hg
  | dict .., _, _, h, hg | dictItem .., _, _, h, hg | member .., _, _, h, hg
  | subscript .., _, _, h, hg | call .., _, _, h, hg | number .., _, _, h, hg
  | string .., _, _, h, hg | boolean .., _, _, h, hg | symbol .., _, _, h, hg
  | foreign .., _, _, h, hg => List.Subset.trans hg h
termination_by structural s => s

theorem scopedBlock_mono :
    ∀ (ss : List Node) {Γ Δ : List Symbol}, Γ ⊆ Δ → ScopedBlock ss Γ → ScopedBlock ss Δ
  | [], _, _, _, _ => trivial
  | s :: ss, _, _, h, hb =>
    ⟨scoped_mono s h hb.1, scopedBlock_mono ss (append_subset_append _ h) hb.2⟩
termination_by structural ss => ss

end

/-- What a block declares for what follows it, if it were not closed. -/
def declaresBlock (ss : List Node) : List Symbol := ss.flatMap declares

theorem scopedBlock_append (hs : ScopedBlock ss Γ) (h : ScopedBlock ts (declaresBlock ss ++ Γ)) :
    ScopedBlock (ss ++ ts) Γ := by
  induction ss generalizing Γ with
  | nil => exact h
  | cons s ss ih =>
    refine ⟨hs.1, ih hs.2 (scopedBlock_mono ts ?_ h)⟩
    intro x hx
    simp only [declaresBlock, List.flatMap_cons, List.mem_append] at hx ⊢
    rwa [or_assoc, or_left_comm] at hx

/-- Whatever a statement declares is declared by what it becomes. -/
theorem declares_simplify (s : Node) : declares s ⊆ declaresBlock s.simplify.items := by
  cases s <;> simp [declares, declaresBlock, simplify, items]

theorem scopedBlock_singleton (h : Scoped s Γ) : ScopedBlock [s] Γ := ⟨h, trivial⟩

theorem scopedBlock_items (h : Scoped n Γ) : ScopedBlock n.items Γ := by
  cases n with
  | list => exact h
  | _ => exact scopedBlock_singleton h

/-- What may follow a test that fails. -/
def isBranch : Node → Bool
  | list _ => true
  | s => s.isStatement

theorem isBranch_of_isChoice (h : n.isChoice) : n.isBranch := by
  cases n <;> simp_all [isChoice, isBranch, isStatement]

theorem isBranch_or_unary (h : s.standsAlone) : s.isBranch ∨ ∃ op e, s = unary op e := by
  cases s <;> simp_all [standsAlone, isStatement, isBranch]

theorem fault?_ifElse {test no : Node} {yes : List Node} :
    (ifElse test yes no).fault? = none ↔
      test.fault? = none ∧ blockFault? yes = none ∧ no.isBranch ∧ no.fault? = none := by
  cases no <;> simp [fault?, isBranch, isStatement]

theorem fault?_ifOnly {test : Node} {body : List Node} :
    (ifOnly test body).fault? = none ↔ test.fault? = none ∧ blockFault? body = none := by
  simp [fault?]

theorem fault?_tryCatch {body params handler : List Node} :
    (tryCatch body params handler).fault? = none ↔
      blockFault? body = none ∧ blockFault? handler = none := by
  simp [fault?]

/-- A loop is dropped unseen, or its body has no fault either. -/
theorem whileLoop_cases {test : Node} {body : List Node} (h : (whileLoop test body).fault? = none) :
    (whileLoop test body).simplify = list [] ∨ blockFault? body = none ∧
      (whileLoop test body).simplify = list [whileLoop test.simplify (simplifyBlock body)] := by
  simp only [fault?] at h
  simp only [simplify]
  split
  · exact .inl rfl
  · rename_i hkept
    have hb : test.simplify.isBoolean false = false := by
      cases hs : test.simplify <;> simp_all [isBoolean]
    simp only [hb] at h
    exact .inr ⟨by simp_all, rfl⟩

theorem repeatLoop_cases {count : Node} {body : List Node}
    (h : (repeatLoop count body).fault? = none) :
    (repeatLoop count body).simplify = list [] ∨ blockFault? body = none ∧
      (repeatLoop count body).simplify = list [repeatLoop count.simplify (simplifyBlock body)] := by
  simp only [fault?] at h
  simp only [simplify]
  split
  · exact .inl rfl
  · exact .inr ⟨by simp_all, rfl⟩

theorem rangeLoop_cases {v low high step : Node} {body : List Node}
    (h : (rangeLoop v low high step body).fault? = none) :
    (rangeLoop v low high step body).simplify = list [] ∨ blockFault? body = none ∧
      (rangeLoop v low high step body).simplify =
        list [rangeLoop v low.simplify high.simplify step.simplify (simplifyBlock body)] := by
  simp only [fault?] at h
  simp only [simplify]
  split
  · exact .inl rfl
  · exact .inr ⟨by simp_all, rfl⟩

theorem eachLoop_cases {v collection : Node} {body : List Node}
    (h : (eachLoop v collection body).fault? = none) :
    (eachLoop v collection body).simplify = list [] ∨ blockFault? body = none ∧
      (eachLoop v collection body).simplify =
        list [eachLoop v collection.simplify (simplifyBlock body)] := by
  simp only [fault?] at h
  simp only [simplify]
  split
  · exact .inl rfl
  · exact .inr ⟨by simp_all, rfl⟩

/-- An alternative becomes a block, unless a single choice is left of it. -/
theorem linked_branch (h : n.isBranch) :
    (∃ m, n.simplify.items = [m] ∧ m.isChoice ∧ linked n n.simplify = m) ∨
    linked n n.simplify = list n.simplify.items := by
  cases n with
  | list => exact .inr rfl
  | _ => exact linked_statement h

theorem scoped_linked (h : n.isBranch) (hg : ScopedBlock n.simplify.items Γ) :
    Scoped (linked n n.simplify) Γ := by
  obtain ⟨m, hm, _, he⟩ | he := linked_branch h <;> rw [he]
  · rw [hm] at hg
    exact hg.1
  · exact hg

theorem scopedBlock_chosen {test no : Node} {yes : List Node} (ht : test.symbols ⊆ Γ)
    (hy : ScopedBlock yes Γ) (hn : Scoped no Γ) : ScopedBlock (chosen test yes no).items Γ := by
  unfold chosen
  split
  · exact hy
  · have hi := scopedBlock_items hn
    exact hi
  · exact scopedBlock_singleton ⟨ht, hy, hn⟩

theorem symbols_simplify_subset {e : Node} (h : e.symbols ⊆ Γ) : e.simplify.symbols ⊆ Γ :=
  List.Subset.trans (symbols_simplify e).subset h

theorem scopedBlock_unary {op : UnOp} {e : Node} (h : e.symbols ⊆ Γ) :
    ScopedBlock (unary op e).simplify.items Γ := by
  obtain ⟨c, hc⟩ | hu := simplifyUnary_cases op e.simplify
  · rw [simplify, hc]
    cases c <;> exact scopedBlock_singleton (List.nil_subset _)
  · rw [simplify, hu]
    exact scopedBlock_singleton (symbols_simplify_subset h)

mutual

/-- Simplification declares all that is still used. -/
theorem scopedBlock_simplify : ∀ (s : Node) {Γ : List Symbol}, s.isBranch → s.fault? = none →
    Scoped s Γ → ScopedBlock s.simplify.items Γ
  | list ss, _, _, hf, hg => scopedBlock_simplifyBlock ss hf hg
  | assign .., _, _, _, hg => by
    simp only [simplify]
    split
    · trivial
    · exact scopedBlock_singleton ⟨symbols_simplify_subset hg.1, symbols_simplify_subset hg.2⟩
  | ifElse _ yes no, _, _, hf, hg => by
    obtain ⟨_, hyes, hb, hno⟩ := fault?_ifElse.1 hf
    exact scopedBlock_chosen (symbols_simplify_subset hg.1)
      (scopedBlock_simplifyBlock yes hyes hg.2.1)
      (scoped_linked hb (scopedBlock_simplify no hb hno hg.2.2))
  | ifOnly _ body, _, _, hf, hg => by
    have hb := scopedBlock_simplifyBlock body (fault?_ifOnly.1 hf).2 hg.2
    simp only [simplify]
    split
    · exact hb
    · trivial
    · exact scopedBlock_singleton ⟨symbols_simplify_subset hg.1, hb⟩
  | whileLoop _ body, _, _, hf, hg => by
    obtain he | ⟨hb, he⟩ := whileLoop_cases hf <;> rw [he]
    · trivial
    · exact scopedBlock_singleton
        ⟨symbols_simplify_subset hg.1, scopedBlock_simplifyBlock body hb hg.2⟩
  | repeatLoop _ body, _, _, hf, hg => by
    obtain he | ⟨hb, he⟩ := repeatLoop_cases hf <;> rw [he]
    · trivial
    · exact scopedBlock_singleton
        ⟨symbols_simplify_subset hg.1, scopedBlock_simplifyBlock body hb hg.2⟩
  | rangeLoop _ _ _ _ body, _, _, hf, hg => by
    obtain he | ⟨hb, he⟩ := rangeLoop_cases hf <;> rw [he]
    · trivial
    · exact scopedBlock_singleton ⟨symbols_simplify_subset hg.1, symbols_simplify_subset hg.2.1,
        symbols_simplify_subset hg.2.2.1, scopedBlock_simplifyBlock body hb hg.2.2.2⟩
  | eachLoop _ _ body, _, _, hf, hg => by
    obtain he | ⟨hb, he⟩ := eachLoop_cases hf <;> rw [he]
    · trivial
    · exact scopedBlock_singleton
        ⟨symbols_simplify_subset hg.1, scopedBlock_simplifyBlock body hb hg.2⟩
  | tryCatch body _ handler, _, _, hf, hg => by
    obtain ⟨hb, hh⟩ := fault?_tryCatch.1 hf
    exact scopedBlock_singleton
      ⟨scopedBlock_simplifyBlock body hb hg.1, scopedBlock_simplifyBlock handler hh hg.2⟩
  | function _ _ body, _, _, hf, hg =>
    scopedBlock_singleton (scopedBlock_simplifyBlock body hf hg)
  | breakLoop, _, _, _, _ | continueLoop, _, _, _, _ | returnNone, _, _, _, _ =>
    scopedBlock_singleton trivial
  | declare .., _, _, _, hg | print .., _, _, _, hg | returnValue .., _, _, _, hg
  | throwValue .., _, _, _, hg | callAlone .., _, _, _, hg =>
    scopedBlock_singleton (symbols_simplify_subset hg)
termination_by structural s => s

/-- A simplified block uses only what is declared before its use. -/
theorem scopedBlock_simplifyBlock : ∀ (ss : List Node) {Γ : List Symbol}, blockFault? ss = none →
    ScopedBlock ss Γ → ScopedBlock (simplifyBlock ss) Γ
  | [], _, _, _ => trivial
  | s :: ss, Γ, hf, h => by
    obtain ⟨hs, hf, hfs⟩ := (blockFault?_cons s ss).1 hf
    -- an increment is the one expression that may stand in a block
    have hhead : ScopedBlock s.simplify.items Γ := by
      obtain hb | ⟨op, e, he⟩ := isBranch_or_unary hs
      · exact scopedBlock_simplify s hb hf h.1
      · rw [he]
        exact scopedBlock_unary (by simpa [he, Scoped] using h.1)
    refine scopedBlock_append hhead
      (scopedBlock_mono _ ?_ (scopedBlock_simplifyBlock ss hfs h.2))
    exact List.append_subset.2 ⟨List.subset_append_of_subset_left _ (declares_simplify s),
      List.subset_append_right _ _⟩
termination_by structural ss => ss

end

theorem declares_sublist_declared (s : Node) : (declares s).Sublist (declared s) := by
  cases s <;> simp [declares, declared]

theorem declaresBlock_subset (ss : List Node) : declaresBlock ss ⊆ declaredBlock ss := by
  intro x hx
  rw [declaresBlock, List.mem_flatMap] at hx
  obtain ⟨s, hs, hx⟩ := hx
  rw [declaredBlock_eq, List.mem_flatMap]
  exact ⟨s, hs, (declares_sublist_declared s).subset hx⟩

theorem declaredBlock_append (ss ts : List Node) :
    declaredBlock (ss ++ ts) = declaredBlock ss ++ declaredBlock ts := by
  simp [declaredBlock_eq]

theorem declaredBlock_singleton (s : Node) : declaredBlock [s] = declared s := by
  simp [declaredBlock]

theorem declaredBlock_items (n : Node) : declaredBlock n.items = declared n := by
  cases n with
  | list => rfl
  | _ => exact declaredBlock_singleton _

theorem declared_linked (h : n.isBranch) :
    declared (linked n n.simplify) = declaredBlock n.simplify.items := by
  obtain ⟨m, hm, _, he⟩ | he := linked_branch h <;> rw [he]
  · rw [hm, declaredBlock_singleton]
  · rw [declared]

theorem declaredBlock_chosen (test : Node) (yes : List Node) (no : Node) :
    (declaredBlock (chosen test yes no).items).Sublist (declaredBlock yes ++ declared no) := by
  unfold chosen
  split
  · exact List.sublist_append_left _ _
  · rw [items, declaredBlock_items]
    exact List.sublist_append_right _ _
  · rw [items, declaredBlock_singleton]
    exact List.Sublist.refl _

theorem declaredBlock_unary (op : UnOp) (e : Node) :
    declaredBlock (unary op e).simplify.items = [] := by
  obtain ⟨c, hc⟩ | hu := simplifyUnary_cases op e.simplify
  · rw [simplify, hc]
    cases c <;> rfl
  · rw [simplify, hu]
    rfl

mutual

/-- Declarations may go, and those that stay keep their order. -/
theorem declaredBlock_simplify : ∀ s : Node, s.isBranch → s.fault? = none →
    (declaredBlock s.simplify.items).Sublist (declared s)
  | list ss, _, hf => declaredBlock_simplifyBlock ss hf
  | ifElse _ yes no, _, hf => by
    obtain ⟨_, hyes, hb, hno⟩ := fault?_ifElse.1 hf
    refine (declaredBlock_chosen _ _ _).trans ?_
    rw [declared_linked hb]
    exact (declaredBlock_simplifyBlock yes hyes).append (declaredBlock_simplify no hb hno)
  | ifOnly _ body, _, hf => by
    have hb := declaredBlock_simplifyBlock body (fault?_ifOnly.1 hf).2
    simp only [simplify]
    split
    · exact hb
    · exact List.nil_sublist _
    · rw [items, declaredBlock_singleton]
      exact hb
  | whileLoop _ body, _, hf => by
    obtain he | ⟨hb, he⟩ := whileLoop_cases hf <;> rw [he]
    · exact List.nil_sublist _
    · rw [items, declaredBlock_singleton]
      exact declaredBlock_simplifyBlock body hb
  | repeatLoop _ body, _, hf => by
    obtain he | ⟨hb, he⟩ := repeatLoop_cases hf <;> rw [he]
    · exact List.nil_sublist _
    · rw [items, declaredBlock_singleton]
      exact declaredBlock_simplifyBlock body hb
  | rangeLoop _ _ _ _ body, _, hf => by
    obtain he | ⟨hb, he⟩ := rangeLoop_cases hf <;> rw [he]
    · exact List.nil_sublist _
    · rw [items, declaredBlock_singleton]
      exact (List.Sublist.refl _).append (declaredBlock_simplifyBlock body hb)
  | eachLoop _ _ body, _, hf => by
    obtain he | ⟨hb, he⟩ := eachLoop_cases hf <;> rw [he]
    · exact List.nil_sublist _
    · rw [items, declaredBlock_singleton]
      exact (List.Sublist.refl _).append (declaredBlock_simplifyBlock body hb)
  | tryCatch body _ handler, _, hf => by
    obtain ⟨hb, hh⟩ := fault?_tryCatch.1 hf
    rw [simplify, items, declaredBlock_singleton]
    exact ((declaredBlock_simplifyBlock body hb).append (List.Sublist.refl _)).append
      (declaredBlock_simplifyBlock handler hh)
  | function _ _ body, _, hf => by
    rw [simplify, items, declaredBlock_singleton]
    exact (List.Sublist.refl _).append (declaredBlock_simplifyBlock body hf)
  | assign .., _, _ => by
    simp only [simplify]
    split <;> exact List.Sublist.refl _
  | declare .., _, _ | print .., _, _ | breakLoop, _, _ | continueLoop, _, _ | returnValue .., _, _
  | returnNone, _, _ | throwValue .., _, _ | callAlone .., _, _ =>
    (declaredBlock_singleton _) ▸ List.Sublist.refl _
termination_by structural s => s

/-- A simplified block declares no more than the block did, in the same order. -/
theorem declaredBlock_simplifyBlock : ∀ ss : List Node, blockFault? ss = none →
    (declaredBlock (simplifyBlock ss)).Sublist (declaredBlock ss)
  | [], _ => List.Sublist.refl _
  | s :: ss, hf => by
    obtain ⟨hs, hf, hfs⟩ := (blockFault?_cons s ss).1 hf
    have hhead : (declaredBlock s.simplify.items).Sublist (declared s) := by
      obtain hb | ⟨op, e, he⟩ := isBranch_or_unary hs
      · exact declaredBlock_simplify s hb hf
      · rw [he, declaredBlock_unary]
        exact List.nil_sublist _
    rw [simplifyBlock, declaredBlock_append, declaredBlock]
    exact hhead.append (declaredBlock_simplifyBlock ss hfs)
termination_by structural ss => ss

end

theorem isIntrinsic_of_isWritable {s : Symbol} (h : s.isWritable) : s.isIntrinsic = false := by
  obtain ⟨_, _, kind, _⟩ := s
  cases kind <;> simp_all [Symbol.isWritable, Symbol.isIntrinsic]

theorem isIntrinsic_of_mem_library {s : Symbol} (h : s ∈ Symbol.library) : s.isIntrinsic := by
  revert s
  decide

/-- A program declares nothing of the library anew. -/
theorem IsStmt.isIntrinsic_of_declared (h : IsStmt s) :
    ∀ x ∈ declared s, x.isIntrinsic = false := by
  have hblock {ss : List Node} (ih : ∀ s ∈ ss, ∀ x ∈ declared s, x.isIntrinsic = false) :
      ∀ x ∈ declaredBlock ss, x.isIntrinsic = false := by
    intro x hx
    rw [declaredBlock_eq, List.mem_flatMap] at hx
    obtain ⟨s, hs, hx⟩ := hx
    exact ih s hs x hx
  induction h with
  | declare hw => simpa [declared, symbols] using isIntrinsic_of_isWritable hw
  | assign | print | breakLoop | continueLoop | returnValue | returnNone | throwValue | callAlone
  | incr | decr => simp [declared]
  | ifElse _ _ _ ihy ihn =>
    intro x hx
    rcases List.mem_append.mp hx with hx | hx
    · exact hblock ihy x hx
    · exact hblock ihn x hx
  | ifChain _ _ _ _ ihy ihn =>
    intro x hx
    rcases List.mem_append.mp hx with hx | hx
    · exact hblock ihy x hx
    · exact ihn x hx
  | ifOnly _ _ ihb | whileLoop _ _ ihb | repeatLoop _ _ ihb => exact hblock ihb
  | rangeLoop hw _ _ _ _ ihb | eachLoop hw _ _ ihb =>
    intro x hx
    rcases List.mem_append.mp hx with hx | hx
    · rw [symbols, List.mem_singleton] at hx
      exact hx ▸ isIntrinsic_of_isWritable hw
    · exact hblock ihb x hx
  | tryCatch hp _ _ ihb ihh =>
    intro x hx
    simp only [declared, symbolsAll_symbols, List.mem_append] at hx
    rcases hx with (hx | hx) | hx
    · exact hblock ihb x hx
    · exact isIntrinsic_of_isWritable (hp x hx)
    · exact hblock ihh x hx
  | function _ hi hp _ ihb =>
    intro x hx
    simp only [declared, symbols, symbolsAll_symbols, List.mem_append, List.mem_singleton] at hx
    rcases hx with (hx | hx) | hx
    · exact hx ▸ hi
    · exact isIntrinsic_of_isWritable (hp x hx)
    · exact hblock ihb x hx

/-- Statements declare nothing of the library. -/
theorem not_mem_library_of_declared {x : Symbol} (hs : ∀ s ∈ ss, IsStmt s)
    (hx : x ∈ declaredBlock ss) : x ∉ Symbol.library := by
  intro hl
  rw [declaredBlock_eq, List.mem_flatMap] at hx
  obtain ⟨s, hm, hx⟩ := hx
  have hi := (hs s hm).isIntrinsic_of_declared x hx
  rw [isIntrinsic_of_mem_library hl] at hi
  contradiction

end Terse.Node
