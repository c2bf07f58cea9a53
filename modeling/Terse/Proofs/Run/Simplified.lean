import Terse.Proofs.Run.Basic

/-! A simplified program does what the program does. The stores of the two runs differ: the
variables of a block that was dissolved live on. They agree on what is in sight. -/
namespace Terse

open Node

variable {V : Type} {Γ Δ ds : List Symbol} {σ τ σ' τ' : Store V} {E : Evaluation V}

namespace Store

theorem Agree.mono (h : Agree Δ σ τ) (hs : Γ ⊆ Δ) : Agree Γ σ τ := fun s hm => h s (hs hm)

/-- Stores that agree still do after the same assignment to both. -/
theorem Agree.set (h : Agree Γ σ τ) (s : Symbol) (v : V) :
    Agree (s :: Γ) (σ.set s v) (τ.set s v) := by
  intro t ht
  by_cases he : t = s
  · simp [Store.set, he]
  · simpa [Store.set, he] using h t ((List.mem_cons.mp ht).resolve_left he)

/-- Stores that agree still do after the same arguments are bound in both. -/
theorem Agree.setAll {ss : List Symbol} {vs : List V} (h : Agree Γ σ τ)
    (hv : vs.length = ss.length) : Agree (ss ++ Γ) (σ.setAll ss vs) (τ.setAll ss vs) := by
  induction ss generalizing Γ σ τ vs with
  | nil => cases vs <;> exact h
  | cons s ss ih =>
    cases vs with
    | nil => simp at hv
    | cons v vs =>
      have ha := ih (h.set s v) (Nat.succ.inj hv)
      exact ha.mono (by simp)

/-- What is in sight before a block is not what the block declares. -/
theorem leave_agree (σ τ : Store V) (hd : ∀ s ∈ ds, s ∉ Γ) : Agree Γ (σ.leave ds τ) σ := by
  intro s hs
  have hn : s ∉ ds := fun hm => hd s hm hs
  simp [leave, hn]

theorem Agree.symm (h : Agree Γ σ τ) : Agree Γ τ σ := fun s hs => (h s hs).symm

theorem Agree.trans {υ : Store V} (h : Agree Γ σ τ) (h' : Agree Γ τ υ) : Agree Γ σ υ :=
  fun s hs => (h s hs).trans (h' s hs)

end Store

/-- Declarations that are told apart from each other and from all in sight. -/
structure Fresh (ds Γ : List Symbol) : Prop where
  nodup : ds.Nodup
  unseen : ∀ s ∈ ds, s ∉ Γ

namespace Fresh

theorem left {xs ys : List Symbol} (h : Fresh (xs ++ ys) Γ) : Fresh xs Γ where
  nodup := (List.nodup_append.mp h.nodup).1
  unseen s hs := h.unseen s (List.mem_append_left _ hs)

/-- What comes later is fresh even if all that came before is in sight. -/
theorem right {xs ys : List Symbol} (h : Fresh (xs ++ ys) Γ) : Fresh ys (xs ++ Γ) where
  nodup := (List.nodup_append.mp h.nodup).2.1
  unseen s hs hm := by
    rcases List.mem_append.mp hm with hx | hg
    · exact (List.nodup_append.mp h.nodup).2.2 s hx s hs rfl
    · exact h.unseen s (List.mem_append_right _ hs) hg

theorem mono (h : Fresh ds Δ) (hs : Γ ⊆ Δ) : Fresh ds Γ where
  nodup := h.nodup
  unseen s hm hg := h.unseen s hm (hs hg)

end Fresh

theorem Evaluation.eval_simplified {e : Node} {v : V} (he : e.IsExp .value) (hg : e.symbols ⊆ Γ)
    (ha : Store.Agree Γ σ τ) (h : E.eval e σ = some v) : E.eval e.simplify τ = some v := by
  have ho : e.optimize = .ok e.simplify := by simp [optimize, he.fault?_eq_none]
  have hs := E.eval_optimize he ho h
  rw [← hs]
  exact E.eval_congr (ha.symm.mono (symbols_simplify_subset hg))

namespace Control

def simplify : Control V → Control V
  | test e => test e.simplify
  | count bound i => count bound.simplify i
  | range v high step => range v high.simplify step.simplify
  | each v left => each v left

/-- The expressions of a control use what is in sight. -/
def Scoped (Γ : List Symbol) : Control V → Prop
  | test e | count e _ => e.IsExp .value ∧ e.symbols ⊆ Γ
  | range v high step =>
    v ∈ Γ ∧ (high.IsExp .value ∧ high.symbols ⊆ Γ) ∧ step.IsExp .value ∧ step.symbols ⊆ Γ
  | each _ _ => True

/-- What a round sees. The variable of a loop over elements gets its value at the start of each
round, and the stores need not agree on it before. -/
def inside (Γ : List Symbol) : Control V → List Symbol
  | each v _ => v :: Γ
  | _ => Γ

theorem subset_inside (c : Control V) (Γ : List Symbol) : Γ ⊆ c.inside Γ := by
  cases c with
  | each v left => exact List.subset_cons_self _ _
  | _ => exact List.Subset.refl _

/-- A simplified loop goes on where the loop does. -/
theorem goesOn_simplify {c : Control V} {b : Bool} (hc : c.Scoped Γ) (ha : Store.Agree Γ σ τ)
    (h : c.goesOn E σ = some b) : c.simplify.goesOn E τ = some b := by
  cases c with
  | test e =>
    obtain ⟨v, hv, hb⟩ := Option.map_eq_some_iff.mp h
    simp [simplify, goesOn, E.eval_simplified hc.1 hc.2 ha hv, hb]
  | count bound i =>
    obtain ⟨v, hv, hb⟩ := Option.bind_eq_some_iff.mp h
    simp [simplify, goesOn, E.eval_simplified hc.1 hc.2 ha hv, hb]
  | range v high step =>
    obtain ⟨hm, hh, _⟩ := hc
    obtain ⟨a, hv, h⟩ := Option.bind_eq_some_iff.mp h
    obtain ⟨c, hc, hb⟩ := Option.bind_eq_some_iff.mp h
    rw [ha v hm] at hv
    simp [simplify, goesOn, hv, E.eval_simplified hh.1 hh.2 ha hc, hb]
  | each v left => exact h

theorem start_simplify {c : Control V} (ha : Store.Agree Γ σ τ) (h : c.goesOn E σ = some true) :
    Store.Agree (c.inside Γ) (c.start σ) (c.simplify.start τ) := by
  cases c with
  | each v left =>
    cases left with
    | nil => simp [goesOn] at h
    | cons a left => exact ha.set v a
  | _ => exact ha

/-- Stores agree after a round, and the controls still belong together. -/
theorem next_simplify {c c' : Control V} (hc : c.Scoped Γ) (ha : Store.Agree Γ σ τ)
    (h : c.next E σ = some (c', σ')) :
    c'.Scoped Γ ∧ c'.inside Γ = c.inside Γ ∧
      ∃ τ', c.simplify.next E τ = some (c'.simplify, τ') ∧ Store.Agree Γ σ' τ' := by
  cases c with
  | test e =>
    cases h
    exact ⟨hc, rfl, τ, rfl, ha⟩
  | count bound i =>
    obtain ⟨j, hj, h⟩ := Option.bind_eq_some_iff.mp h
    cases h
    exact ⟨hc, rfl, τ, by simp [simplify, next, hj], ha⟩
  | range v high step =>
    have ⟨hm, hh, hs⟩ := hc
    obtain ⟨a, hv, h⟩ := Option.bind_eq_some_iff.mp h
    obtain ⟨b, hb, h⟩ := Option.bind_eq_some_iff.mp h
    obtain ⟨d, hd, h⟩ := Option.bind_eq_some_iff.mp h
    cases h
    rw [ha v hm] at hv
    refine ⟨hc, rfl, τ.set v d, ?_, (ha.set v d).mono (List.subset_cons_self _ _)⟩
    simp [simplify, next, hv, E.eval_simplified hs.1 hs.2 ha hb, hd]
  | each v left =>
    cases h
    exact ⟨hc, rfl, τ, rfl, ha⟩

end Control

/-- A row that ends normally goes on with what stands after it. -/
theorem Runs.append {xs ys : List Node} {T U : List V} {O : Outcome V}
    (hx : Runs E (.row xs) σ T .normal σ') (hy : Runs E (.row ys) σ' U O τ) :
    Runs E (.row (xs ++ ys)) σ (T ++ U) O τ := by
  induction xs generalizing σ T with
  | nil =>
    cases hx
    exact hy
  | cons x xs ih =>
    cases hx with
    | cons h hrest =>
      rw [List.cons_append, List.append_assoc]
      exact .cons h (ih hrest)
    | stop _ hne => exact absurd rfl hne

/-- A row that ends early never comes to what stands after it. -/
theorem Runs.append_of_ne {xs : List Node} (ys : List Node) {T : List V} {O : Outcome V}
    (h : Runs E (.row xs) σ T O τ) (hO : O ≠ .normal) : Runs E (.row (xs ++ ys)) σ T O τ := by
  induction xs generalizing σ T with
  | nil =>
    cases h
    exact absurd rfl hO
  | cons x xs ih =>
    cases h with
    | cons h hrest => exact .cons h (ih hrest)
    | stop h hne => exact .stop h hne

theorem Runs.row_singleton {s : Node} {T : List V} {O : Outcome V} (h : Runs E (.stmt s) σ T O τ) :
    Runs E (.row [s]) σ T O τ := by
  cases O with
  | normal => simpa using Runs.cons h .nil
  | _ => exact .stop h (by simp)

theorem Runs.of_row_singleton {s : Node} {T : List V} {O : Outcome V}
    (h : Runs E (.row [s]) σ T O τ) : Runs E (.stmt s) σ T O τ := by
  cases h with
  | cons h hnil =>
    cases hnil
    simpa using h
  | stop h _ => exact h

/-- A row can be closed to a block where nothing it declares is in sight. -/
theorem Runs.close {ss : List Node} {T : List V} {O : Outcome V} (h : Runs E (.row ss) τ T O τ')
    (hd : ∀ s ∈ declaresBlock ss, s ∉ Γ) (ha : Store.Agree Γ σ' τ') :
    ∃ υ, Runs E (.block ss) τ T O υ ∧ Store.Agree Γ σ' υ :=
  ⟨_, .block h, ha.trans (Store.leave_agree τ' τ hd).symm⟩

/-- What is in sight after code that declares `ds`: only code that ends normally has declared
them. -/
def Outcome.sight : Outcome V → List Symbol → List Symbol → List Symbol
  | normal, ds, Γ => ds ++ Γ
  | _, _, Γ => Γ

theorem Outcome.sight_nil (O : Outcome V) (Γ : List Symbol) : O.sight [] Γ = Γ := by cases O <;> rfl

theorem Outcome.subset_sight (O : Outcome V) (ds Γ : List Symbol) : Γ ⊆ O.sight ds Γ := by
  cases O with
  | normal => exact List.subset_append_right _ _
  | _ => exact List.Subset.refl _

theorem Outcome.sight_of_ne {O : Outcome V} (h : O ≠ .normal) (ds Γ : List Symbol) :
    O.sight ds Γ = Γ := by
  cases O with
  | normal => exact absurd rfl h
  | _ => rfl

theorem Fresh.unseen_simplified {ss : List Node} (h : Fresh (declaredBlock ss) Γ)
    (hs : ∀ s ∈ ss, IsStmt s) : ∀ s ∈ declaresBlock (simplifyBlock ss), s ∉ Γ := fun s hm =>
  have hsub := (declaredBlock_simplifyBlock _ (blockFault?_block hs)).subset
  h.unseen s (hsub (declaresBlock_subset _ hm))

section Cases

variable {test no : Node} {yes body : List Node} {v : V} {T : List V} {O : Outcome V}

/-- A literal has no other value than its own. -/
theorem Evaluation.truthy_literal {b : Bool} (h : E.eval (.boolean b) τ = some v) :
    E.truthy v = b := by
  rw [E.eval_boolean, Option.some.injEq] at h
  rw [← h, E.truthy_boolean]

theorem Runs.chosen_yes (he : E.eval test τ = some v) (hv : E.truthy v = true)
    (h : Runs E (.row yes) τ T O τ') (hd : ∀ s ∈ declaresBlock yes, s ∉ Γ)
    (ha : Store.Agree Γ σ' τ') :
    ∃ υ, Runs E (.row (chosen test yes no).items) τ T O υ ∧ Store.Agree Γ σ' υ := by
  unfold chosen
  split
  · exact ⟨τ', h, ha⟩
  · rw [E.truthy_literal he] at hv
    contradiction
  · obtain ⟨υ, hb, hυ⟩ := h.close hd ha
    exact ⟨υ, .row_singleton (.ifElse_yes he hv hb), hυ⟩

/-- What is left of a choice runs as its alternative if the test fails. -/
theorem Runs.chosen_no (hn : IsAlternative no) (he : E.eval test τ = some v)
    (hv : E.truthy v = false) (h : Runs E (.row no.items) τ T O τ')
    (hd : ∀ s ∈ declaresBlock no.items, s ∉ Γ) (ha : Store.Agree Γ σ' τ') :
    ∃ υ, Runs E (.row (chosen test yes no).items) τ T O υ ∧ Store.Agree Γ σ' υ := by
  unfold chosen
  split
  · rw [E.truthy_literal he] at hv
    contradiction
  · exact ⟨τ', h, ha⟩
  · obtain ⟨ss, rfl, _⟩ | ⟨hc, _⟩ := hn
    · obtain ⟨υ, hb, hυ⟩ := h.close hd ha
      exact ⟨υ, .row_singleton (.ifElse_no he hv hb), hυ⟩
    · have hi : no.items = [no] := by cases no <;> simp_all [isChoice, Node.items]
      rw [hi] at h
      exact ⟨τ', .row_singleton (.ifElse_next he hv hc h.of_row_singleton), ha⟩

/-- A loop that has no round does nothing. -/
theorem Runs.loop_over {c : Control V} (h : Runs E (.loop c body) σ T O σ')
    (hc : c.goesOn E σ ≠ some true) : T = [] ∧ O = .normal ∧ σ' = σ := by
  cases h with
  | ended => exact ⟨rfl, rfl, rfl⟩
  | round ht | broken ht | thrown ht => exact absurd ht hc

theorem Number.compare?_zero (a : Number) :
    (Number.int 0).compare? a = (a.compare? (.int 0)).map Ordering.swap := by
  cases a with
  | int n => simp [Number.compare?, Int.compare_swap]
  | float x => rfl

theorem Store.Agree.refl (Γ : List Symbol) (σ : Store V) : Store.Agree Γ σ σ := fun _ _ => rfl

theorem Evaluation.eval_simplify {e : Node} (he : e.IsExp .value) (h : E.eval e σ = some v) :
    E.eval e.simplify σ = some v :=
  E.eval_simplified he (List.Subset.refl _) (.refl _ σ) h

/-- A loop whose test is the literal `false` has no round. -/
theorem not_goesOn_test {e : Node} (he : e.IsExp .value) (h : e.simplify = .boolean false) :
    (Control.test e).goesOn E σ ≠ some true := by
  intro hg
  obtain ⟨v, hv, ht⟩ := Option.map_eq_some_iff.mp hg
  have hs := E.eval_simplify he hv
  rw [h] at hs
  rw [E.truthy_literal hs] at ht
  contradiction

/-- Nor has one that counts up to a literal that is not above zero. -/
theorem not_goesOn_count {e : Node} (he : e.IsExp .value) (h : e.simplify.isNoCount) :
    (Control.count e (E.number (.int 0))).goesOn E σ ≠ some true := by
  intro hg
  obtain ⟨v, hv, ht⟩ := Option.bind_eq_some_iff.mp hg
  have hs := E.eval_simplify he hv
  generalize e.simplify = n at h hs
  cases n with
  | number a =>
    rw [E.eval_number, Option.some.injEq] at hs
    rw [← hs] at ht
    have hc := E.less_number ht
    rw [Number.compare?_zero] at hc
    simp only [isNoCount] at h
    cases ha : a.compare? (.int 0) <;> simp_all
  | _ => simp [isNoCount] at h

/-- Nor one whose literal bounds are the wrong way round. -/
theorem not_goesOn_range {low high step : Node} {s : Symbol} (hl : low.IsExp .value)
    (hh : high.IsExp .value) (h : isEmptyRange low.simplify high.simplify)
    (he : E.eval low σ = some v) :
    (Control.range s high step).goesOn E (σ.set s v) ≠ some true := by
  intro hg
  obtain ⟨a, ha, hg⟩ := Option.bind_eq_some_iff.mp hg
  obtain ⟨b, hb, ht⟩ := Option.bind_eq_some_iff.mp hg
  simp only [Store.set, if_true, Option.some.injEq] at ha
  subst a
  have hls := E.eval_simplify hl he
  have hhs := E.eval_simplify hh hb
  generalize low.simplify = m at h hls
  generalize high.simplify = n at h hhs
  cases m <;> cases n <;> simp only [isEmptyRange, Bool.false_eq_true] at h
  rw [E.eval_number, Option.some.injEq] at hls hhs
  rw [← hls, ← hhs] at ht
  rw [E.less_number ht] at h
  contradiction

theorem leave_set (σ : Store V) (s : Symbol) (v : V) : (σ.set s v).leave [s] σ = σ := by
  funext t
  by_cases h : t = s <;> simp [Store.leave, Store.set, h]

theorem leave_self (σ : Store V) (ds : List Symbol) : σ.leave ds σ = σ := by
  funext t
  simp [Store.leave]

end Cases

/-- What is shown of the code `c` when it is known to print `T`, to end with `O` and to take the
store `σ` to `σ'`: from a store that agrees with `σ` its simplified form does the same, up to
agreement. -/
def Simulated (E : Evaluation V) (σ : Store V) (T : List V) (O : Outcome V) (σ' : Store V) :
    Code V → Prop
  | .stmt s => ∀ {Γ : List Symbol} {τ : Store V}, IsStmt s → Node.Scoped s Γ →
      Fresh (declared s) Γ → Store.Agree Γ σ τ →
      ∃ τ', Runs E (.row s.simplify.items) τ T O τ' ∧ Store.Agree (O.sight (declares s) Γ) σ' τ'
  | .row ss => ∀ {Γ : List Symbol} {τ : Store V}, (∀ s ∈ ss, IsStmt s) → ScopedBlock ss Γ →
      Fresh (declaredBlock ss) Γ → Store.Agree Γ σ τ →
      ∃ τ', Runs E (.row (simplifyBlock ss)) τ T O τ' ∧
        Store.Agree (O.sight (declaresBlock ss) Γ) σ' τ'
  | .block ss => ∀ {Γ : List Symbol} {τ : Store V}, (∀ s ∈ ss, IsStmt s) → ScopedBlock ss Γ →
      Fresh (declaredBlock ss) Γ → Store.Agree Γ σ τ →
      ∃ τ', Runs E (.row (simplifyBlock ss)) τ T O τ' ∧ Store.Agree Γ σ' τ'
  | .loop c body => ∀ {Γ : List Symbol} {τ : Store V}, c.Scoped Γ → (∀ s ∈ body, IsStmt s) →
      ScopedBlock body (c.inside Γ) → Fresh (declaredBlock body) (c.inside Γ) → Store.Agree Γ σ τ →
      ∃ τ', Runs E (.loop c.simplify (simplifyBlock body)) τ T O τ' ∧ Store.Agree Γ σ' τ'

section Statements

variable {test next count low high step collection e : Node} {yes no body handler : List Node}
  {params : List Symbol} {s : Symbol} {a v : V} {T U vs : List V} {O : Outcome V}

theorem follows_of_declares_nil {s : Node} (hd : declares s = [])
    (h : ∃ τ', Runs E (.row s.simplify.items) τ T O τ' ∧ Store.Agree Γ σ' τ') :
    ∃ τ', Runs E (.row s.simplify.items) τ T O τ' ∧
      Store.Agree (O.sight (declares s) Γ) σ' τ' := by
  rwa [hd, O.sight_nil]

/-- An assignment of a variable to itself may be dropped; any other stays. -/
theorem simulated_assign (he : E.eval e σ = some v) :
    Simulated E σ [] .normal (σ.set s v) (.stmt (.assign (.symbol s) e)) := by
  intro Γ τ hs hg _ ha
  cases hs with
  | assign ht _ hexp =>
    have hv := E.eval_simplified hexp hg.2 ha he
    by_cases hsame : e.simplify.sameSymbol (.symbol s)
    · -- the variable is assigned its own value
      have hi : (Node.simplify (.assign (.symbol s) e)).items = [] := by
        simp [Node.simplify, hsame, Node.items]
      have hsym : e.simplify = .symbol s := by
        generalize e.simplify = n at hsame
        cases n <;> simp_all [sameSymbol]
      rw [hsym, E.eval_symbol s τ (by simpa [isTarget] using ht)] at hv
      rw [hi]
      refine ⟨τ, .nil, fun t htΓ => ?_⟩
      by_cases hts : t = s
      · simp [Store.set, hts, hv]
      · simpa [Store.set, hts] using ha t htΓ
    · have hi : (Node.simplify (.assign (.symbol s) e)).items =
          [.assign (.symbol s) e.simplify] := by
        simp [Node.simplify, hsame, Node.items]
      rw [hi]
      exact ⟨_, .row_singleton (.assign hv), (ha.set s v).mono (List.subset_cons_self _ _)⟩

theorem simulated_ifElse_yes {no : Node} (he : E.eval test σ = some v) (hv : E.truthy v = true)
    (ih : Simulated E σ T O σ' (.block yes)) :
    Simulated E σ T O σ' (.stmt (.ifElse test yes no)) := by
  intro Γ τ hs hg hf ha
  have hparts : test.IsExp .value ∧ ∀ s ∈ yes, IsStmt s := by
    cases hs with
    | ifElse ht hy _ | ifChain ht hy _ _ => exact ⟨ht, hy⟩
  have hfy : Fresh (declaredBlock yes) Γ := hf.left
  obtain ⟨τ', hr, ha'⟩ := ih hparts.2 hg.2.1 hfy ha
  have htest := E.eval_simplified hparts.1 hg.1 ha he
  refine follows_of_declares_nil rfl ?_
  exact Runs.chosen_yes htest hv hr (hfy.unseen_simplified hparts.2) ha'

theorem simulated_ifElse_no (he : E.eval test σ = some v) (hv : E.truthy v = false)
    (ih : Simulated E σ T O σ' (.block no)) :
    Simulated E σ T O σ' (.stmt (.ifElse test yes (.list no))) := by
  intro Γ τ hs hg hf ha
  cases hs with
  | ifElse ht _ hn =>
    have hfn : Fresh (declaredBlock no) Γ := hf.right.mono (List.subset_append_right _ _)
    obtain ⟨τ', hr, ha'⟩ := ih hn hg.2.2 hfn ha
    have htest := E.eval_simplified ht hg.1 ha he
    refine follows_of_declares_nil rfl ?_
    exact Runs.chosen_no (.inl ⟨_, rfl, isStmt_simplified hn⟩) htest hv hr
      (hfn.unseen_simplified hn) ha'
  | ifChain _ _ hc => simp [isChoice] at hc

/-- A chain goes on with its next choice, or with what that has become. -/
theorem simulated_ifElse_next (he : E.eval test σ = some v) (hv : E.truthy v = false)
    (hc : next.isChoice) (ih : Simulated E σ T O σ' (.stmt next)) :
    Simulated E σ T O σ' (.stmt (.ifElse test yes next)) := by
  intro Γ τ hs hg hf ha
  cases hs with
  | ifElse => simp [isChoice] at hc
  | ifChain ht _ _ hn =>
    have hfn : Fresh (declared next) Γ := hf.right.mono (List.subset_append_right _ _)
    obtain ⟨τ', hr, ha'⟩ := ih hn hg.2.2 hfn ha
    have htest := E.eval_simplified ht hg.1 ha he
    have hi : (linked next next.simplify).items = next.simplify.items := by
      obtain ⟨m, hm, hmc, hl⟩ | hl := linked_statement (isStatement_of_isChoice hc)
      · rw [hl, hm]
        cases m <;> simp_all [isChoice, Node.items]
      · rw [hl, Node.items]
    have hd : ∀ s ∈ declaresBlock next.simplify.items, s ∉ Γ := fun s hs =>
      hfn.unseen s ((declaredBlock_simplify next (isBranch_of_isChoice hc) hn.fault?_eq_none).subset
        (declaresBlock_subset _ hs))
    refine follows_of_declares_nil rfl ?_
    exact Runs.chosen_no (isAlternative_linked hc hn.simplify) htest hv (hi ▸ hr) (hi ▸ hd)
      (ha'.mono (O.subset_sight _ _))

theorem simulated_ifOnly_yes (he : E.eval test σ = some v) (hv : E.truthy v = true)
    (ih : Simulated E σ T O σ' (.block yes)) :
    Simulated E σ T O σ' (.stmt (.ifOnly test yes)) := by
  intro Γ τ hs hg hf ha
  cases hs with
  | ifOnly ht hy =>
    obtain ⟨τ', hr, ha'⟩ := ih hy hg.2 hf ha
    have htest := E.eval_simplified ht hg.1 ha he
    refine follows_of_declares_nil rfl ?_
    generalize hss : (Node.simplify (.ifOnly test yes)).items = ss
    simp only [Node.simplify] at hss
    split at hss <;> subst hss
    · exact ⟨τ', hr, ha'⟩
    · rename_i hb
      rw [hb] at htest
      rw [E.truthy_literal htest] at hv
      contradiction
    · obtain ⟨υ, hblock, hυ⟩ := hr.close (hf.unseen_simplified hy) ha'
      exact ⟨υ, .row_singleton (.ifOnly_yes htest hv hblock), hυ⟩

theorem simulated_ifOnly_no (he : E.eval test σ = some v) (hv : E.truthy v = false) :
    Simulated E σ [] .normal σ (.stmt (.ifOnly test yes)) := by
  intro Γ τ hs hg _ ha
  cases hs with
  | ifOnly ht _ =>
    have htest := E.eval_simplified ht hg.1 ha he
    generalize hss : (Node.simplify (.ifOnly test yes)).items = ss
    simp only [Node.simplify] at hss
    split at hss <;> subst hss
    · rename_i hb
      rw [hb] at htest
      rw [E.truthy_literal htest] at hv
      contradiction
    · exact ⟨τ, .nil, ha⟩
    · exact ⟨τ, .row_singleton (.ifOnly_no htest hv), ha⟩

/-- A loop that never starts may be dropped; any other stays. -/
theorem simulated_whileLoop (h : Runs E (.loop (.test test) body) σ T O σ')
    (ih : Simulated E σ T O σ' (.loop (.test test) body)) :
    Simulated E σ T O σ' (.stmt (.whileLoop test body)) := by
  intro Γ τ hs hg hf ha
  cases hs with
  | whileLoop ht hb =>
    obtain ⟨τ', hr, ha'⟩ := ih ⟨ht, hg.1⟩ hb hg.2 hf ha
    refine follows_of_declares_nil rfl ?_
    generalize hss : (Node.simplify (.whileLoop test body)).items = ss
    simp only [Node.simplify] at hss
    split at hss <;> subst hss
    · rename_i hfalse
      obtain ⟨rfl, rfl, rfl⟩ := h.loop_over (not_goesOn_test ht hfalse)
      exact ⟨τ, .nil, ha⟩
    · exact ⟨τ', .row_singleton (.whileLoop hr), ha'⟩

theorem simulated_repeatLoop
    (h : Runs E (.loop (.count count (E.number (.int 0))) body) σ T O σ')
    (ih : Simulated E σ T O σ' (.loop (.count count (E.number (.int 0))) body)) :
    Simulated E σ T O σ' (.stmt (.repeatLoop count body)) := by
  intro Γ τ hs hg hf ha
  cases hs with
  | repeatLoop hc hb =>
    obtain ⟨τ', hr, ha'⟩ := ih ⟨hc, hg.1⟩ hb hg.2 hf ha
    refine follows_of_declares_nil rfl ?_
    generalize hss : (Node.simplify (.repeatLoop count body)).items = ss
    simp only [Node.simplify] at hss
    split at hss <;> subst hss
    · rename_i hno
      obtain ⟨rfl, rfl, rfl⟩ := h.loop_over (not_goesOn_count hc hno)
      exact ⟨τ, .nil, ha⟩
    · exact ⟨τ', .row_singleton (.repeatLoop hr), ha'⟩

theorem simulated_rangeLoop (he : E.eval low σ = some a)
    (h : Runs E (.loop (.range s high step) body) (σ.set s a) T O σ')
    (ih : Simulated E (σ.set s a) T O σ' (.loop (.range s high step) body)) :
    Simulated E σ T O (σ'.leave [s] σ) (.stmt (.rangeLoop (.symbol s) low high step body)) := by
  intro Γ τ hs hg hf ha
  cases hs with
  | rangeLoop _ hl hh hstep hb =>
    obtain ⟨hgl, hgh, hgs, hgb⟩ := hg
    have hsub : Γ ⊆ s :: Γ := List.subset_cons_self _ _
    have hc : (Control.range s high step : Control V).Scoped (s :: Γ) :=
      ⟨List.mem_cons_self, ⟨hh, List.Subset.trans hgh hsub⟩, hstep, List.Subset.trans hgs hsub⟩
    have hunseen : ∀ t ∈ [s], t ∉ Γ := fun t ht => hf.left.unseen t ht
    obtain ⟨τ', hr, ha'⟩ := ih hc hb hgb hf.right (ha.set s a)
    refine follows_of_declares_nil rfl ?_
    generalize hss : (Node.simplify (.rangeLoop (.symbol s) low high step body)).items = ss
    simp only [Node.simplify] at hss
    split at hss <;> subst hss
    · rename_i hempty
      obtain ⟨rfl, rfl, rfl⟩ := h.loop_over (not_goesOn_range hl hh hempty he)
      rw [leave_set]
      exact ⟨τ, .nil, ha⟩
    · refine ⟨_, .row_singleton (.rangeLoop (E.eval_simplified hl hgl ha he) hr), ?_⟩
      exact (Store.leave_agree σ' σ hunseen).trans
        ((ha'.mono hsub).trans (Store.leave_agree τ' τ hunseen).symm)

/-- A loop over an empty array may be dropped; any other stays. -/
theorem simulated_eachLoop (he : E.eval collection σ = some a) (hvs : E.elements a = some vs)
    (h : Runs E (.loop (.each s vs) body) σ T O σ')
    (ih : Simulated E σ T O σ' (.loop (.each s vs) body)) :
    Simulated E σ T O (σ'.leave [s] σ) (.stmt (.eachLoop (.symbol s) collection body)) := by
  intro Γ τ hs hg hf ha
  cases hs with
  | eachLoop _ hcol hb =>
    have hsub : Γ ⊆ s :: Γ := List.subset_cons_self _ _
    have hunseen : ∀ t ∈ [s], t ∉ Γ := fun t ht => hf.left.unseen t ht
    have hcol' := E.eval_simplified hcol hg.1 ha he
    refine follows_of_declares_nil rfl ?_
    by_cases hempty : collection.simplify.isEmptyArray
    · have hi : (Node.simplify (.eachLoop (.symbol s) collection body)).items = [] := by
        simp [Node.simplify, hempty, Node.items]
      have hnil : vs = [] := by
        generalize collection.simplify = n at hempty hcol'
        cases n with
        | array es =>
          cases es with
          | nil =>
            rw [E.eval_emptyArray, Option.some.injEq] at hcol'
            rw [← hcol', E.elements_emptyArray, Option.some.injEq] at hvs
            exact hvs.symm
          | cons => simp [isEmptyArray] at hempty
        | _ => simp [isEmptyArray] at hempty
      subst hnil
      obtain ⟨rfl, rfl, rfl⟩ := h.loop_over (by simp [Control.goesOn])
      rw [hi, leave_self]
      exact ⟨τ, .nil, ha⟩
    · have hi : (Node.simplify (.eachLoop (.symbol s) collection body)).items =
          [.eachLoop (.symbol s) collection.simplify (simplifyBlock body)] := by
        simp [Node.simplify, hempty, Node.items]
      obtain ⟨τ', hr, ha'⟩ := ih trivial hb hg.2 hf.right ha
      rw [hi]
      refine ⟨_, .row_singleton (.eachLoop hcol' hvs hr), ?_⟩
      exact (Store.leave_agree σ' σ hunseen).trans
        (ha'.trans (Store.leave_agree τ' τ hunseen).symm)

theorem simulated_tryCatch_through (hO : ∀ v, O ≠ .threw v)
    (ih : Simulated E σ T O σ' (.block body)) :
    Simulated E σ T O σ' (.stmt (.tryCatch body (params.map .symbol) handler)) := by
  intro Γ τ hs hg hf ha
  have hb : ∀ s ∈ body, IsStmt s := by
    generalize hp : params.map Node.symbol = ps at hs
    cases hs with
    | tryCatch _ hb _ => exact hb
  have hfb : Fresh (declaredBlock body) Γ := hf.left.left
  obtain ⟨τ', hr, ha'⟩ := ih hb hg.1 hfb ha
  obtain ⟨υ, hblock, hυ⟩ := hr.close (hfb.unseen_simplified hb) ha'
  refine follows_of_declares_nil rfl ⟨υ, .row_singleton (.tryCatch_through hblock hO), hυ⟩

/-- A value that is thrown is caught by the same handler, with the same parameters. -/
theorem simulated_tryCatch_caught {σ₁ : Store V} (hvs : E.caught params.length v = some vs)
    (hlen : vs.length = params.length) (ihb : Simulated E σ T (.threw v) σ₁ (.block body))
    (ihh : Simulated E (σ₁.setAll params vs) U O σ' (.block handler)) :
    Simulated E σ (T ++ U) O (σ'.leave params σ₁)
      (.stmt (.tryCatch body (params.map .symbol) handler)) := by
  intro Γ τ hs hg hf ha
  have hstmts : (∀ s ∈ body, IsStmt s) ∧ ∀ s ∈ handler, IsStmt s := by
    generalize hp : params.map Node.symbol = ps at hs
    cases hs with
    | tryCatch _ hb hh => exact ⟨hb, hh⟩
  simp only [Node.Scoped, declared, symbolsAll_symbols] at hg hf
  have hfb : Fresh (declaredBlock body) Γ := hf.left.left
  have hfp : ∀ s ∈ params, s ∉ Γ := fun s hs => hf.left.unseen s (List.mem_append_right _ hs)
  have hfh : Fresh (declaredBlock handler) (params ++ Γ) := hf.right.mono (by simp)
  obtain ⟨τ₁, hr, ha₁⟩ := ihb hstmts.1 hg.1 hfb ha
  obtain ⟨υ₁, hblock, hυ₁⟩ := hr.close (hfb.unseen_simplified hstmts.1) ha₁
  obtain ⟨τ₂, hr₂, ha₂⟩ := ihh hstmts.2 hg.2 hfh (hυ₁.setAll hlen)
  obtain ⟨υ₂, hblock₂, hυ₂⟩ := hr₂.close (hfh.unseen_simplified hstmts.2) ha₂
  refine follows_of_declares_nil rfl
    ⟨_, .row_singleton (.tryCatch_caught hblock hvs hlen hblock₂), ?_⟩
  exact (Store.leave_agree σ' σ₁ hfp).trans
    ((hυ₂.mono (List.subset_append_right _ _)).trans (Store.leave_agree υ₂ υ₁ hfp).symm)

end Statements

/-- By induction on the run. The blocks that simplification dissolves are rows on the other side,
and the loops that it drops have no round. -/
theorem Runs.simulated {c : Code V} {T : List V} {O : Outcome V} (h : Runs E c σ T O σ') :
    Simulated E σ T O σ' c := by
  induction h with
  | declare he =>
    intro Γ τ hs hg _ ha
    cases hs with
    | declare _ hexp =>
      exact ⟨_, .row_singleton (.declare (E.eval_simplified hexp hg ha he)), ha.set _ _⟩
  | assign he => exact simulated_assign he
  | @incr σ s a b hs hb =>
    intro Γ τ _ hg _ ha
    rw [ha s (hg (List.mem_singleton.mpr rfl))] at hs
    exact ⟨_, .row_singleton (.incr hs hb), (ha.set s b).mono (List.subset_cons_self _ _)⟩
  | @decr σ s a b hs hb =>
    intro Γ τ _ hg _ ha
    rw [ha s (hg (List.mem_singleton.mpr rfl))] at hs
    exact ⟨_, .row_singleton (.decr hs hb), (ha.set s b).mono (List.subset_cons_self _ _)⟩
  | print he =>
    intro Γ τ hs hg _ ha
    cases hs with
    | print hexp => exact ⟨_, .row_singleton (.print (E.eval_simplified hexp hg ha he)), ha⟩
  | breakLoop =>
    intro Γ τ _ _ _ ha
    exact ⟨_, .row_singleton .breakLoop, ha⟩
  | continueLoop =>
    intro Γ τ _ _ _ ha
    exact ⟨_, .row_singleton .continueLoop, ha⟩
  | throwValue he =>
    intro Γ τ hs hg _ ha
    cases hs with
    | throwValue hexp =>
      exact ⟨_, .row_singleton (.throwValue (E.eval_simplified hexp hg ha he)), ha⟩
  | ifElse_yes he hv _ ih => exact simulated_ifElse_yes he hv ih
  | ifElse_no he hv _ ih => exact simulated_ifElse_no he hv ih
  | ifElse_next he hv hc _ ih => exact simulated_ifElse_next he hv hc ih
  | ifOnly_yes he hv _ ih => exact simulated_ifOnly_yes he hv ih
  | ifOnly_no he hv => exact simulated_ifOnly_no he hv
  | whileLoop h ih => exact simulated_whileLoop h ih
  | repeatLoop h ih => exact simulated_repeatLoop h ih
  | rangeLoop he h ih => exact simulated_rangeLoop he h ih
  | eachLoop he hvs h ih => exact simulated_eachLoop he hvs h ih
  | tryCatch_through _ hO ih => exact simulated_tryCatch_through hO ih
  | tryCatch_caught _ hvs hlen _ ihb ihh => exact simulated_tryCatch_caught hvs hlen ihb ihh
  | nil =>
    intro Γ τ _ _ _ ha
    exact ⟨τ, .nil, ha⟩
  | @cons σ σ₁ σ₂ s ss T U O _ _ ihs ihss =>
    intro Γ τ hs hg hf ha
    have hfs : Fresh (declared s) Γ := hf.left
    have hfss : Fresh (declaredBlock ss) (declares s ++ Γ) :=
      hf.right.mono (List.append_subset.mpr
        ⟨List.subset_append_of_subset_left _ (declares_sublist_declared s).subset,
          List.subset_append_right _ _⟩)
    obtain ⟨τ₁, hr₁, ha₁⟩ := ihs (hs s List.mem_cons_self) hg.1 hfs ha
    obtain ⟨τ₂, hr₂, ha₂⟩ := ihss (fun s hm => hs s (List.mem_cons_of_mem _ hm)) hg.2 hfss ha₁
    refine ⟨τ₂, hr₁.append hr₂, ha₂.mono ?_⟩
    cases O with
    | normal =>
      intro x hx
      simp only [Outcome.sight, declaresBlock, List.flatMap_cons, List.mem_append] at hx ⊢
      rwa [or_assoc, or_left_comm] at hx
    | _ => exact List.subset_append_right _ _
  | @stop σ σ₁ s ss T O _ hO ih =>
    intro Γ τ hs hg hf ha
    obtain ⟨τ₁, hr₁, ha₁⟩ := ih (hs s List.mem_cons_self) hg.1 hf.left ha
    rw [Outcome.sight_of_ne hO] at ha₁ ⊢
    exact ⟨τ₁, hr₁.append_of_ne _ hO, ha₁⟩
  | @block σ σ₁ ss T O _ ih =>
    intro Γ τ hs hg hf ha
    obtain ⟨τ₁, hr, ha₁⟩ := ih hs hg hf ha
    have hd : ∀ s ∈ declaresBlock ss, s ∉ Γ := fun s hm =>
      hf.unseen s (declaresBlock_subset _ hm)
    exact ⟨τ₁, hr, (Store.leave_agree σ₁ σ hd).trans (ha₁.mono (O.subset_sight _ _))⟩
  | ended hc =>
    intro Γ τ hscoped _ _ _ ha
    exact ⟨τ, .ended (Control.goesOn_simplify hscoped ha hc), ha⟩
  | @round σ σ₁ σ₂ σ₃ c c' body T U O O' hc _ hO hn _ ihb ihl =>
    intro Γ τ hscoped hs hg hf ha
    obtain ⟨τ₁, hr, ha₁⟩ := ihb hs hg hf (Control.start_simplify ha hc)
    obtain ⟨υ₁, hblock, hυ₁⟩ := hr.close (hf.unseen_simplified hs) ha₁
    obtain ⟨hscoped', hin, υ₂, hn', hυ₂⟩ :=
      Control.next_simplify hscoped (hυ₁.mono (c.subset_inside Γ)) hn
    rw [← hin] at hg hf
    obtain ⟨τ₃, hr₃, ha₃⟩ := ihl hscoped' hs hg hf hυ₂
    exact ⟨τ₃, .round (Control.goesOn_simplify hscoped ha hc) hblock hO hn' hr₃, ha₃⟩
  | @broken σ σ₁ c body T hc _ ih =>
    intro Γ τ hscoped hs hg hf ha
    obtain ⟨τ₁, hr, ha₁⟩ := ih hs hg hf (Control.start_simplify ha hc)
    obtain ⟨υ₁, hblock, hυ₁⟩ := hr.close (hf.unseen_simplified hs) ha₁
    exact ⟨υ₁, .broken (Control.goesOn_simplify hscoped ha hc) hblock,
      hυ₁.mono (c.subset_inside Γ)⟩
  | @thrown σ σ₁ c body v T hc _ ih =>
    intro Γ τ hscoped hs hg hf ha
    obtain ⟨τ₁, hr, ha₁⟩ := ih hs hg hf (Control.start_simplify ha hc)
    obtain ⟨υ₁, hblock, hυ₁⟩ := hr.close (hf.unseen_simplified hs) ha₁
    exact ⟨υ₁, .thrown (Control.goesOn_simplify hscoped ha hc) hblock,
      hυ₁.mono (c.subset_inside Γ)⟩

/-- A well-scoped program and its simplified form print the same, end the same way, and agree in the
end on the library and, unless they were stopped, on all variables of the outermost block. -/
theorem optimize_preserves_run {ss : List Node} {T : List V} {O : Outcome V}
    (hs : ∀ s ∈ ss, IsStmt s) (hg : WellScoped ss) (hd : (declaredBlock ss).Nodup)
    (h : Runs E (.row ss) σ T O σ') :
    ∃ ss' τ', (program ss).optimize = .ok (program ss') ∧ Runs E (.row ss') σ T O τ' ∧
      Store.Agree (O.sight (declaresBlock ss) Symbol.library) σ' τ' := by
  have hf : Fresh (declaredBlock ss) Symbol.library :=
    ⟨hd, fun _ hx => not_mem_library_of_declared hs hx⟩
  obtain ⟨τ', hr, ha⟩ := h.simulated hs hg hf (.refl _ σ)
  exact ⟨simplifyBlock ss, τ', optimize_program hs, hr, ha⟩

/-- Values where only literals and variables have any. -/
inductive Plain where
  | number (a : Number)
  | boolean (b : Bool)
  | empty

namespace Plain

def eval : Node → Store Plain → Option Plain
  | .number a, _ => some (.number a)
  | .boolean b, _ => some (.boolean b)
  | .array [], _ => some .empty
  | .symbol s, σ => σ s
  | _, _ => none

theorem eval_congr {e : Node} {σ τ : Store Plain} (h : Store.Agree e.symbols σ τ) :
    eval e σ = eval e τ := by
  unfold eval
  split
  · rfl
  · rfl
  · rfl
  · exact h _ (List.mem_singleton.mpr rfl)
  · rfl

/-- An expression that has a value is simplified to itself. -/
theorem simplify_of_eval {e : Node} {σ : Store Plain} {v : Plain} (h : eval e σ = some v) :
    e.simplify = e := by
  unfold eval at h
  split at h
  · rfl
  · rfl
  · rfl
  · rfl
  · contradiction

def evaluation : Evaluation Plain where
  eval := eval
  number := .number
  boolean := .boolean
  emptyArray := .empty
  truthy v := match v with
    | .boolean b => b
    | _ => true
  less a b := match a, b with
    | .number a, .number b => some (a.compare? b == some .lt)
    | _, _ => none
  add _ _ := none
  succ _ := none
  pred _ := none
  elements v := match v with
    | .empty => some []
    | _ => none
  parts _ _ := none
  eval_congr := eval_congr
  eval_number _ _ := rfl
  eval_boolean _ _ := rfl
  eval_emptyArray _ := rfl
  eval_symbol _ _ _ := rfl
  eval_optimize he ho h := by
    rw [optimize, he.fault?_eq_none, simplify_of_eval h, Except.ok.injEq] at ho
    exact ho ▸ h
  truthy_boolean _ := rfl
  less_number h := by simpa using h
  elements_emptyArray := rfl

def x : Symbol := ⟨"x", 1, .var false, .declared 1⟩

def y : Symbol := ⟨"y", 2, .var false, .declared 2⟩

def i : Symbol := ⟨"i", 3, .var false, .declared 3⟩

def e : Symbol := ⟨"e", 4, .var false, .declared 4⟩

/-- A block that is dissolved, an assignment and a loop that are dropped, and a handler that is
kept. -/
def sample : List Node := [
  .declare (.symbol x) (.number (.int 1)),
  .ifElse (.boolean true) [.declare (.symbol y) (.number (.int 2)), .assign (.symbol x) (.symbol y)]
    (.list []),
  .assign (.symbol x) (.symbol x),
  .rangeLoop (.symbol i) (.number (.int 5)) (.number (.int 3)) (.number (.int 1))
    [.print (.symbol i)],
  .tryCatch [.throwValue (.symbol x)] ([e].map .symbol) [.print (.symbol e)]]

theorem sample_isStmt : ∀ s ∈ sample, IsStmt s := by
  have hx : IsExp .value (.symbol x) := .symbol x
  simp only [sample, List.forall_mem_cons, List.not_mem_nil, false_implies, implies_true, and_true]
  refine ⟨.declare rfl (.number _), .ifElse (.boolean _) ?_ (by simp), .assign rfl hx hx,
    .rangeLoop rfl (.number _) (.number _) (.number _) ?_, .tryCatch (by decide) ?_ ?_⟩
  all_goals simp only [List.forall_mem_cons, List.not_mem_nil, false_implies, implies_true,
    and_true]
  · exact ⟨.declare rfl (.number _), .assign rfl hx (.symbol y)⟩
  · exact .print (.symbol i)
  · exact .throwValue hx
  · exact .print (.symbol e)

theorem sample_wellScoped : WellScoped sample := by
  simp [WellScoped, sample, ScopedBlock, Scoped, symbols, symbolsAll, declares]

/-- The value that the handler prints was assigned inside the dissolved block. -/
theorem sample_runs :
    ∃ σ', Runs evaluation (.row sample) (fun _ => none) [.number (.int 2)] .normal σ' := by
  obtain ⟨σ₁, hrow, hx⟩ : ∃ σ₁,
      Runs evaluation (.row (sample.take 4)) (fun _ => none) [] .normal σ₁ ∧
      σ₁ x = some (.number (.int 2)) :=
    ⟨_, .cons (T := []) (.declare rfl) (.cons (T := []) (.ifElse_yes rfl rfl (.block
      (.cons (T := []) (.declare rfl) (.row_singleton (.assign rfl)))))
      (.cons (T := []) (.assign rfl) (.row_singleton (.rangeLoop rfl (.ended rfl))))), rfl⟩
  have hcaught {T : List Plain} {τ τ' : Store Plain} (hb : Runs evaluation
        (.block [.throwValue (.symbol x)]) σ₁ T (.threw (.number (.int 2))) τ)
      (hh : Runs evaluation (.block [.print (.symbol e)]) (τ.set e (.number (.int 2)))
        [.number (.int 2)] .normal τ') :
      Runs evaluation
        (.stmt (.tryCatch [.throwValue (.symbol x)] ([e].map .symbol) [.print (.symbol e)])) σ₁
        (T ++ [.number (.int 2)]) .normal (τ'.leave [e] τ) :=
    .tryCatch_caught hb rfl rfl hh
  exact ⟨_, hrow.append (.row_singleton (hcaught (.block (.stop (.throwValue hx) (by simp)))
    (.block (.row_singleton (.print rfl)))))⟩

end Plain

/-- The sample is made of statements, is well scoped, and prints the same once it is simplified. -/
theorem optimize_preserves_run_sample :
    (∀ s ∈ Plain.sample, IsStmt s) ∧ WellScoped Plain.sample ∧ (declaredBlock Plain.sample).Nodup ∧
    ∃ ss' τ', (program Plain.sample).optimize = .ok (program ss') ∧
      Runs Plain.evaluation (.row ss') (fun _ => none) [.number (.int 2)] .normal τ' := by
  have hd : (declaredBlock Plain.sample).Nodup := by decide
  obtain ⟨σ', h⟩ := Plain.sample_runs
  obtain ⟨ss', τ', ho, hr, _⟩ :=
    optimize_preserves_run Plain.sample_isStmt Plain.sample_wellScoped hd h
  exact ⟨Plain.sample_isStmt, Plain.sample_wellScoped, hd, ss', τ', ho, hr⟩

end Terse
