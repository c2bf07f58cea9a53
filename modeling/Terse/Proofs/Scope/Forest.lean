import Mathlib.Data.List.Basic
import Terse.Scope

/-! Scopes that share their enclosing ones, through any sequence of openings and declarations: a
name is looked up from the inside outwards, and a declaration is seen from just those scopes inside
it that find no other one first. -/
namespace Terse.ScopeForest

/-- What can be done to the scopes of a forest. -/
inductive Operation where
  | root
  | empty
  | child (of : Nat) (inLoop : Option Bool) (function : Option Symbol)
  | functionChild (of : Nat) (function : Symbol)
  | declare (of : Nat) (s : Symbol) (loc : Option Loc)

/-- The scope that an operation is done to. -/
def Operation.target? : Operation → Option Nat
  | root | empty => none
  | child of _ _ | functionChild of _ | declare of _ _ => some of

/-- A declaration that fails changes nothing. -/
def apply (F : ScopeForest) : Operation → ScopeForest
  | .root => F.add .root none
  | .empty => F.add .empty none
  | .child of inLoop function => F.child of inLoop function
  | .functionChild of function => F.functionChild of function
  | .declare of s loc => (F.declare of s loc).toOption.getD F

/-- `Steps F ops F'`: the operations, each on a scope that has been opened before, lead from `F` to
`F'`. -/
inductive Steps : ScopeForest → List Operation → ScopeForest → Prop
  | nil {F : ScopeForest} : Steps F [] F
  | cons {F F' : ScopeForest} {op : Operation} {ops : List Operation} :
      (∀ i ∈ op.target?, i < F.scopes.size) → Steps (F.apply op) ops F' → Steps F (op :: ops) F'

/-- A scope, the one around it, and so on to one that is in no other. -/
inductive IsChain (F : ScopeForest) : Nat → List Nat → Prop
  | outermost {i : Nat} : F.parent? i = none → IsChain F i [i]
  | inside {i p : Nat} {chain : List Nat} :
      F.parent? i = some p → IsChain F p chain → IsChain F i (i :: chain)

/-- From `d` outwards one comes to `c`, and to no declaration of the name before. -/
def Reaches (F : ScopeForest) (name : String) (d c : Nat) : Prop :=
  ∃ near far, F.IsChain d (near ++ c :: far) ∧ ∀ e ∈ near, F.lookupHere e name = none

/-- The scope that is in no other and has `d` in it. -/
def Outermost (F : ScopeForest) (d r : Nat) : Prop := ∃ front, F.IsChain d (front ++ [r])

variable {F F' : ScopeForest} {op : Operation} {ops : List Operation} {c d i p : Nat}
  {name : String} {s : Symbol} {loc : Option Loc} {chain chain' : List Nat}

/-! ### Chains -/

/-- The scopes around a scope are determined. -/
theorem IsChain.unique (h : F.IsChain d chain) (h' : F.IsChain d chain') : chain = chain' := by
  induction h generalizing chain' with
  | outermost hp =>
    cases h' with
    | outermost => rfl
    | inside hp' => simp [hp] at hp'
  | inside hp _ ih =>
    cases h' with
    | outermost hp' => simp [hp] at hp'
    | inside hp' hchain' =>
      obtain rfl := Option.some.inj (hp.symm.trans hp')
      rw [ih hchain']

/-- Each scope of a chain has the rest of the chain around it. -/
theorem IsChain.suffix {near far : List Nat} (h : F.IsChain d (near ++ c :: far)) :
    F.IsChain c (c :: far) := by
  induction near generalizing d with
  | nil => cases h with
    | outermost hp => exact .outermost hp
    | inside hp hchain => exact .inside hp hchain
  | cons e near ih =>
    rw [List.cons_append] at h
    generalize htail : near ++ c :: far = tail at h
    cases h with
    | outermost => simp at htail
    | inside _ hchain => exact ih (htail ▸ hchain)

/-- Scopes on one chain are in the same outermost scope. -/
theorem Outermost.of_mem {r : Nat} (h : F.Outermost d r) (hchain : F.IsChain d chain)
    (hc : c ∈ chain) : F.Outermost c r := by
  obtain ⟨front, hfront⟩ := h
  obtain rfl := hchain.unique hfront
  obtain ⟨near, far, he⟩ := List.append_of_mem hc
  rw [he] at hchain
  have hc := hchain.suffix
  obtain ⟨back, hback⟩ : ∃ back, c :: far = back ++ [r] := by
    refine ⟨(c :: far).dropLast, ?_⟩
    have hlast : (near ++ c :: far).getLast? = some r := by rw [← he]; simp
    rw [List.getLast?_append_of_ne_nil _ (List.cons_ne_nil c far)] at hlast
    exact (List.dropLast_append_getLast? r hlast).symm
  exact ⟨back, hback ▸ hc⟩

/-- Enclosing scopes were opened before. -/
def IsOrdered (F : ScopeForest) : Prop := ∀ i p, F.parent? i = some p → p < i

/-- Every scope has a chain of scopes around it, since each was opened before the next. -/
theorem IsOrdered.exists_chain (h : F.IsOrdered) (d : Nat) : ∃ chain, F.IsChain d chain := by
  induction d using Nat.strongRecOn with
  | ind d ih =>
    cases hp : F.parent? d with
    | none => exact ⟨[d], .outermost hp⟩
    | some p =>
      obtain ⟨chain, hchain⟩ := ih p (h d p hp)
      exact ⟨d :: chain, .inside hp hchain⟩

theorem IsChain.le (h : F.IsChain d chain) (hF : F.IsOrdered) : ∀ e ∈ chain, e ≤ d := by
  induction h with
  | outermost => simp
  | @inside i p chain hp _ ih =>
    refine List.forall_mem_cons.2 ⟨Nat.le_refl i, fun e he => ?_⟩
    exact Nat.le_trans (ih e he) (Nat.le_of_lt (hF i p hp))

/-- A chain depends only on the parents of its scopes. -/
theorem IsChain.congr (h : F.IsChain d chain) (hp : ∀ e ∈ chain, F'.parent? e = F.parent? e) :
    F'.IsChain d chain := by
  induction h with
  | outermost hnone => exact .outermost ((hp _ List.mem_cons_self).trans hnone)
  | inside hsome _ ih =>
    obtain ⟨hi, hrest⟩ := List.forall_mem_cons.1 hp
    exact .inside (hi.trans hsome) (ih hrest)

/-! ### Looking up -/

theorem scope_eq (h : F.IsOrdered) (d : Nat) :
    F.scope d = (F.frame? d).toList ++ ((F.parent? d).map F.scope).getD [] := by
  rw [scope]
  unfold frame? parent?
  split
  · rename_i hd
    simp [hd]
  · rename_i f hd
    simp [hd]
  · rename_i f p hd
    have hlt : p < d := h d p (by simp [parent?, hd])
    simp [hd, hlt]

/-- A name is looked up here, and then in the scope around. -/
theorem lookup_eq (h : F.IsOrdered) (d : Nat) (name : String) : F.lookup d name =
    (F.lookupHere d name).or ((F.parent? d).bind (F.lookup · name)) := by
  unfold lookup lookupHere
  rw [scope_eq h, Scope.lookup, List.findSome?_append]
  congr 1
  · cases F.frame? d <;> simp
  · cases F.parent? d <;> simp [Scope.lookup]

/-- The first declaration on the way outwards counts. -/
theorem lookup_chain (h : F.IsOrdered) (hchain : F.IsChain d chain) (name : String) :
    F.lookup d name = chain.findSome? (F.lookupHere · name) := by
  induction hchain with
  | outermost hp =>
    rw [lookup_eq h, hp, List.findSome?_cons]
    cases F.lookupHere _ name <;> rfl
  | inside hp _ ih =>
    rw [lookup_eq h, hp, List.findSome?_cons, Option.bind_some, ih]
    cases F.lookupHere _ name <;> rfl

theorem findSome?_lookupHere (h : ∀ e ∈ chain, F'.lookupHere e name = F.lookupHere e name) :
    chain.findSome? (F'.lookupHere · name) = chain.findSome? (F.lookupHere · name) := by
  rw [← List.head?_filterMap, ← List.head?_filterMap, List.filterMap_congr h]

theorem lookup_congr (hF : F.IsOrdered) (hF' : F'.IsOrdered) (h : F.IsChain d chain)
    (h' : F'.IsChain d chain)
    (hhere : ∀ e ∈ chain, F'.lookupHere e name = F.lookupHere e name) :
    F'.lookup d name = F.lookup d name := by
  rw [lookup_chain hF h, lookup_chain hF' h']
  exact findSome?_lookupHere hhere

/-! ### One operation -/

/-- `F'` is `F` with one more declaration in the scope `c`. -/
structure Declares (F : ScopeForest) (c : Nat) (s : Symbol) (F' : ScopeForest) : Prop where
  size_eq : F'.scopes.size = F.scopes.size
  parent?_eq (d : Nat) : F'.parent? d = F.parent? d
  lookupHere_self : F'.lookupHere c s.name = some s
  lookupHere_of_ne {d : Nat} {name : String} :
    d ≠ c ∨ name ≠ s.name → F'.lookupHere d name = F.lookupHere d name

/-- `F'` is `F` with one more scope. -/
structure Opens (F : ScopeForest) (parent : Option Nat) (F' : ScopeForest) : Prop where
  size_eq : F'.scopes.size = F.scopes.size + 1
  parent?_new : F'.parent? F.scopes.size = parent
  parent?_of_lt {d : Nat} : d < F.scopes.size → F'.parent? d = F.parent? d
  lookupHere_of_lt {d : Nat} (name : String) :
    d < F.scopes.size → F'.lookupHere d name = F.lookupHere d name

theorem opens_add (F : ScopeForest) (f : Frame) (parent : Option Nat) :
    F.Opens parent (F.add f parent) where
  size_eq := Array.size_push _
  parent?_new := by simp [parent?, add]
  parent?_of_lt h := by simp [parent?, add, Array.getElem?_push_lt h, h]
  lookupHere_of_lt name h := by
    simp [lookupHere, frame?, add, Array.getElem?_push_lt h, h]

theorem declare_of_bound {t : Symbol} (h : F.lookupHere c s.name = some t) :
    F.declare c s loc = .error ⟨.duplicate s.name, loc⟩ := by
  unfold lookupHere frame? at h
  cases hc : F.scopes[c]? with
  | none => simp [hc] at h
  | some fp =>
    rw [hc, Option.map_some, Option.bind_some] at h
    rw [declare, hc]
    simp only [Frame.declare, h]
    rfl

/-- A name that is free here can be declared. -/
theorem declare_of_free (hc : c < F.scopes.size) (h : F.lookupHere c s.name = none)
    (loc : Option Loc) :
    ∃ F', F.declare c s loc = .ok F' ∧ F.Declares c s F' := by
  obtain ⟨⟨f, p⟩, hfp⟩ : ∃ fp, F.scopes[c] = fp := ⟨_, rfl⟩
  have hget : F.scopes[c]? = some (f, p) := hfp ▸ Array.getElem?_eq_getElem hc
  have hfree : f.locals.lookup s.name = none := by
    simpa [lookupHere, frame?, hget, Frame.lookup] using h
  have hok : F.declare c s loc =
      .ok ⟨F.scopes.setIfInBounds c ({ f with locals := f.locals ++ [(s.name, s)] }, p)⟩ := by
    rw [declare, hget]
    simp only [Frame.declare, Frame.lookup, hfree]
    rfl
  refine ⟨_, hok, Array.size_setIfInBounds, fun d => ?_, ?_, fun {d name} hne => ?_⟩
  · by_cases hd : c = d
    · subst hd
      simp [parent?, hfp, hc]
    · simp [parent?, Array.getElem?_setIfInBounds_ne hd]
  · simp [lookupHere, frame?, hc, Frame.lookup, List.lookup_append, hfree]
  · by_cases hd : c = d
    · subst hd
      have hname : (name == s.name) = false := by simpa using hne
      simp [lookupHere, frame?, hfp, hc, Frame.lookup, List.lookup_append, List.lookup_cons, hname]
    · simp [lookupHere, frame?, Array.getElem?_setIfInBounds_ne hd]

theorem apply_of_bound {t : Symbol} (h : F.lookupHere c s.name = some t) :
    F.apply (.declare c s loc) = F := by
  rw [apply, declare_of_bound h]
  rfl

theorem apply_of_ok (h : F.declare c s loc = .ok F') : F.apply (.declare c s loc) = F' := by
  rw [apply, h]
  rfl

/-- What an operation can do: a declaration fails or adds one name, and any other operation opens a
scope in an older one or in none. -/
theorem apply_cases (h : ∀ i ∈ op.target?, i < F.scopes.size) :
    F.apply op = F ∨
      (∃ c s loc, op = .declare c s loc ∧ F.lookupHere c s.name = none ∧
        F.Declares c s (F.apply op)) ∨
      ∃ parent, (∀ p ∈ parent, p < F.scopes.size) ∧ F.Opens parent (F.apply op) := by
  cases op with
  | root | empty => exact .inr (.inr ⟨none, by simp, F.opens_add _ _⟩)
  | child of | functionChild of => exact .inr (.inr ⟨some of, h, F.opens_add _ _⟩)
  | declare c s loc =>
    cases hhere : F.lookupHere c s.name with
    | some t => exact .inl (apply_of_bound hhere)
    | none =>
      obtain ⟨F', hok, hF'⟩ := declare_of_free (h c rfl) hhere loc
      exact .inr (.inl ⟨c, s, loc, rfl, hhere, apply_of_ok hok ▸ hF'⟩)

/-- One operation keeps scopes in the order in which they were opened. -/
theorem IsOrdered.apply (hF : F.IsOrdered) (h : ∀ i ∈ op.target?, i < F.scopes.size) :
    (F.apply op).IsOrdered := by
  obtain he | ⟨c, s, loc, -, -, hd⟩ | ⟨parent, hparent, ho⟩ := apply_cases h
  · rwa [he]
  · intro i p hp
    exact hF i p (hd.parent?_eq i ▸ hp)
  · intro i p hp
    rcases Nat.lt_trichotomy i F.scopes.size with hi | rfl | hi
    · exact hF i p (ho.parent?_of_lt hi ▸ hp)
    · exact hparent p (ho.parent?_new ▸ hp)
    · have hnone : (F.apply op).scopes[i]? = none :=
        Array.getElem?_eq_none (by rw [ho.size_eq]; omega)
      simp [parent?, hnone] at hp

/-- A history of operations keeps scopes in the order in which they were opened. -/
theorem IsOrdered.steps (hF : F.IsOrdered) (h : Steps F ops F') : F'.IsOrdered := by
  induction h with
  | nil => exact hF
  | cons hop _ ih => exact ih (hF.apply hop)

theorem isOrdered_empty : IsOrdered .empty := by
  intro i p hp
  simp [parent?, empty] at hp

/-! ### What a declaration changes -/

/-- A new declaration is found from the scopes that reach it. -/
theorem Declares.lookup_of_reaches (hd : F.Declares c s F') (hF' : F'.IsOrdered)
    (h : F.Reaches s.name d c) : F'.lookup d s.name = some s := by
  obtain ⟨near, far, hchain, hnear⟩ := h
  rw [lookup_chain hF' (hchain.congr fun e _ => hd.parent?_eq e), List.findSome?_append,
    List.findSome?_cons, hd.lookupHere_self]
  have hfirst : ∀ t, near.findSome? (F'.lookupHere · s.name) = some t → t = s := by
    intro t ht
    obtain ⟨e, he, hte⟩ := List.exists_of_findSome?_eq_some ht
    by_cases hec : e = c
    · rw [hec, hd.lookupHere_self] at hte
      exact (Option.some.inj hte).symm
    · rw [hd.lookupHere_of_ne (.inl hec), hnear e he] at hte
      contradiction
  cases hfind : near.findSome? (F'.lookupHere · s.name) with
  | none => rfl
  | some t => rw [hfirst t hfind, Option.some_or]

/-- Nothing else is found, or not found, because of it. -/
theorem Declares.lookup_of_not_reaches (hd : F.Declares c s F') (hF : F.IsOrdered)
    (hF' : F'.IsOrdered) (h : ¬ (name = s.name ∧ F.Reaches name d c)) :
    F'.lookup d name = F.lookup d name := by
  obtain ⟨chain, hchain⟩ := hF.exists_chain d
  have hchain' := hchain.congr fun e _ => hd.parent?_eq e
  by_cases hname : name = s.name
  · by_cases hc : c ∈ chain
    · -- there is another declaration nearer than the first time that `c` is met
      obtain ⟨near, far, rfl, hnot⟩ := List.eq_append_cons_of_mem hc
      have hsome : near.findSome? (F.lookupHere · name) ≠ none := fun hnone =>
        h ⟨hname, near, far, hchain, List.findSome?_eq_none_iff.1 hnone⟩
      have hnear : near.findSome? (F'.lookupHere · name) = near.findSome? (F.lookupHere · name) :=
        findSome?_lookupHere fun e he =>
          hd.lookupHere_of_ne (.inl fun hec => hnot (hec ▸ he))
      obtain ⟨t, ht⟩ := Option.ne_none_iff_exists'.1 hsome
      rw [lookup_chain hF hchain, lookup_chain hF' hchain', List.findSome?_append,
        List.findSome?_append, hnear, ht, Option.some_or, Option.some_or]
    · exact lookup_congr hF hF' hchain hchain' fun e he =>
        hd.lookupHere_of_ne (.inl fun hec => hc (hec ▸ he))
  · exact lookup_congr hF hF' hchain hchain' fun e _ => hd.lookupHere_of_ne (.inr hname)

/-- The operation declares no name in any of the scopes. -/
def Operation.Spares (op : Operation) (chain : List Nat) : Prop :=
  ∀ c s loc, op = .declare c s loc → c ∉ chain

/-- One operation keeps the scopes around a scope. -/
theorem IsChain.apply (hchain : F.IsChain d chain) (hF : F.IsOrdered) (hd : d < F.scopes.size)
    (h : ∀ i ∈ op.target?, i < F.scopes.size) :
    d < (F.apply op).scopes.size ∧ (F.apply op).IsChain d chain := by
  obtain he | ⟨c, s, loc, -, -, hdecl⟩ | ⟨parent, -, ho⟩ := apply_cases h
  · exact ⟨he.symm ▸ hd, he.symm ▸ hchain⟩
  · exact ⟨hdecl.size_eq ▸ hd, hchain.congr fun e _ => hdecl.parent?_eq e⟩
  · refine ⟨ho.size_eq ▸ Nat.lt_succ_of_lt hd, hchain.congr fun e he => ho.parent?_of_lt ?_⟩
    exact Nat.lt_of_le_of_lt (hchain.le hF e he) hd

/-- One operation leaves a lookup alone if it declares nothing on the chain. -/
theorem lookup_apply (hchain : F.IsChain d chain) (hF : F.IsOrdered) (hd : d < F.scopes.size)
    (h : ∀ i ∈ op.target?, i < F.scopes.size) (hspares : op.Spares chain) (name : String) :
    (F.apply op).lookup d name = F.lookup d name := by
  refine lookup_congr hF (hF.apply h) hchain (hchain.apply hF hd h).2 fun e he => ?_
  obtain hsame | ⟨c, s, loc, hop, -, hdecl⟩ | ⟨parent, -, ho⟩ := apply_cases h
  · rw [hsame]
  · exact hdecl.lookupHere_of_ne (.inl fun hec => hspares c s loc hop (hec ▸ he))
  · exact ho.lookupHere_of_lt name (Nat.lt_of_le_of_lt (hchain.le hF e he) hd)

/-! ### Whole histories -/

/-- What encloses a scope stays the same. -/
theorem IsChain.steps (hchain : F.IsChain d chain) (hF : F.IsOrdered) (hd : d < F.scopes.size)
    (h : Steps F ops F') : F'.IsChain d chain := by
  induction h with
  | nil => exact hchain
  | cons hop _ ih =>
    obtain ⟨hd', hchain'⟩ := hchain.apply hF hd hop
    exact ih hchain' (hF.apply hop) hd'

/-- A history leaves a lookup alone if it declares nothing on the chain. -/
theorem lookup_steps (hchain : F.IsChain d chain) (hF : F.IsOrdered) (hd : d < F.scopes.size)
    (h : Steps F ops F') (hspares : ∀ op ∈ ops, op.Spares chain) (name : String) :
    F'.lookup d name = F.lookup d name := by
  induction h with
  | nil => rfl
  | cons hop _ ih =>
    obtain ⟨hfirst, hrest⟩ := List.forall_mem_cons.1 hspares
    obtain ⟨hd', hchain'⟩ := hchain.apply hF hd hop
    rw [ih hchain' (hF.apply hop) hd' hrest, lookup_apply hchain hF hd hop hfirst]

/-- Names are looked up lexically, declarations are made as a whole or not at all, and they are seen
from the inside only. -/
structure IsLexicalStore (F : ScopeForest) : Prop where
  /-- The way outwards ends, and the first declaration on it counts. -/
  nearest (d : Nat) : ∃ chain, F.IsChain d chain ∧
    ∀ name, F.lookup d name = chain.findSome? (F.lookupHere · name)
  /-- A scope refuses a name just if it has declared it itself. -/
  refused {c : Nat} {s : Symbol} {loc : Option Loc} : c < F.scopes.size →
    ((∃ e, F.declare c s loc = .error e) ↔ (F.lookupHere c s.name).isSome)
  unchanged {c : Nat} {s : Symbol} {loc : Option Loc} {e : CompileError} :
    F.declare c s loc = .error e →
      e = ⟨.duplicate s.name, loc⟩ ∧ F.apply (.declare c s loc) = F
  /-- A declaration is seen where it is the nearest one, and changes nothing elsewhere. -/
  seen {c d : Nat} {s : Symbol} {loc : Option Loc} {F' : ScopeForest} (name : String) :
    c < F.scopes.size → F.declare c s loc = .ok F' →
      F.apply (.declare c s loc) = F' ∧
      (name = s.name ∧ F.Reaches name d c → F'.lookup d name = some s) ∧
      (¬ (name = s.name ∧ F.Reaches name d c) → F'.lookup d name = F.lookup d name)
  /-- Whatever is opened and declared in other outermost scopes makes no difference. -/
  apart {d r : Nat} {ops : List Operation} {F' : ScopeForest} (name : String) :
    d < F.scopes.size → F.Outermost d r → Steps F ops F' →
      (∀ c s loc, .declare c s loc ∈ ops → ¬ F'.Outermost c r) →
      F'.lookup d name = F.lookup d name
  /-- A new root has the library, whatever was declared before. -/
  library {ops : List Operation} {F' : ScopeForest} (name : String) : Steps F ops F' →
    (F'.apply .root).lookup F'.scopes.size name = Symbol.library.find? (·.name == name)

theorem lookup_root (hF : F.IsOrdered) (name : String) :
    (F.apply .root).lookup F.scopes.size name = Symbol.library.find? (·.name == name) := by
  have hlocals (ss : List Symbol) :
      (ss.map fun s => (s.name, s)).lookup name = ss.find? (·.name == name) := by
    induction ss with
    | nil => rfl
    | cons s ss ih => rw [List.map_cons, List.lookup_cons, List.find?_cons, ih, Bool.beq_comm]
  have hparent : (F.apply .root).parent? F.scopes.size = none :=
    (F.opens_add .root none).parent?_new
  rw [lookup_eq (hF.apply (by simp [Operation.target?])), hparent]
  simp [apply, add, lookupHere, frame?, Frame.lookup, Frame.root, hlocals]

theorem isSome_of_error {e : CompileError} (h : F.declare c s loc = .error e) :
    (F.lookupHere c s.name).isSome := by
  rw [← Option.ne_none_iff_isSome]
  intro hfree
  by_cases hc : c < F.scopes.size
  · obtain ⟨F', hok, -⟩ := declare_of_free hc hfree loc
    simp [hok] at h
  · have hnone : F.scopes[c]? = none := Array.getElem?_eq_none (Nat.le_of_not_lt hc)
    simp [declare, hnone] at h

theorem declares_of_ok (hc : c < F.scopes.size) (h : F.declare c s loc = .ok F') :
    F.Declares c s F' := by
  cases hhere : F.lookupHere c s.name with
  | some t => simp [declare_of_bound hhere] at h
  | none =>
    obtain ⟨F'', hok, hdeclares⟩ := declare_of_free hc hhere loc
    obtain rfl := Except.ok.inj (hok.symm.trans h)
    exact hdeclares

/-- Whatever is done to an empty forest, step by step, its scopes are lexical: a name is found in
the innermost scope around that declares it, and a declaration is seen from inside its own scope and
nowhere else. -/
theorem isLexicalStore_of_steps (h : Steps .empty ops F) : F.IsLexicalStore := by
  have hF := isOrdered_empty.steps h
  refine ⟨fun d => ?_, fun {c s loc} hc => ⟨?_, ?_⟩, fun {c s loc e} he => ?_,
    fun {c d s loc F'} name hc hok => ?_, fun {d r ops F'} name hd hr hsteps hother => ?_, ?_⟩
  · obtain ⟨chain, hchain⟩ := hF.exists_chain d
    exact ⟨chain, hchain, lookup_chain hF hchain⟩
  · rintro ⟨e, he⟩
    exact isSome_of_error he
  · intro hsome
    obtain ⟨t, ht⟩ := Option.isSome_iff_exists.1 hsome
    exact ⟨_, declare_of_bound ht⟩
  · obtain ⟨t, ht⟩ := Option.isSome_iff_exists.1 (isSome_of_error he)
    exact ⟨Except.error.inj (he.symm.trans (declare_of_bound ht)), apply_of_bound ht⟩
  · have hdeclares := declares_of_ok hc hok
    have hF' : F'.IsOrdered := apply_of_ok hok ▸ hF.apply (by simpa [Operation.target?] using hc)
    refine ⟨apply_of_ok hok, ?_, hdeclares.lookup_of_not_reaches hF hF'⟩
    rintro ⟨rfl, hreaches⟩
    exact hdeclares.lookup_of_reaches hF' hreaches
  · obtain ⟨front, hchain⟩ := hr
    refine lookup_steps hchain hF hd hsteps (fun op hop c s loc he hc => ?_) name
    obtain ⟨back, hback⟩ := Outermost.of_mem ⟨front, hchain⟩ hchain hc
    have hlt := Nat.lt_of_le_of_lt (hchain.le hF c hc) hd
    exact hother c s loc (he ▸ hop) ⟨back, hback.steps hF hlt hsteps⟩
  · exact fun name hsteps => lookup_root (hF.steps hsteps) name

/-- A name is declared in an inner scope, then in the one around both, and refused there the second
time. The other root is as it was. -/
theorem isLexicalStore_of_steps_shadowed :
    ∃ F inner outer, Steps .empty [.root, .child 0 (some true) none, .functionChild 1 .log, .root,
        .declare 2 inner none, .declare 0 outer none, .declare 0 inner none] F ∧
      F.IsLexicalStore ∧ F.lookup 1 "x" = some outer ∧ F.lookup 2 "x" = some inner ∧
      F.lookup 3 "x" = none ∧ inner ≠ outer := by
  let inner : Symbol := ⟨"x", 1, .var false, .declared 1⟩
  let outer : Symbol := ⟨"x", 2, .var false, .declared 2⟩
  have hsteps : Steps .empty [.root, .child 0 (some true) none, .functionChild 1 .log, .root,
      .declare 2 inner none, .declare 0 outer none, .declare 0 inner none] _ :=
    .cons (by decide) <| .cons (by decide) <| .cons (by decide) <| .cons (by decide) <|
      .cons (by decide) <| .cons (by decide) <| .cons (by decide) .nil
  have hF := isOrdered_empty.steps hsteps
  refine ⟨_, inner, outer, hsteps, isLexicalStore_of_steps hsteps, ?_, ?_, ?_, by decide⟩
  · rw [lookup_chain hF (.inside rfl (.outermost rfl))]
    decide
  · rw [lookup_chain hF (.inside rfl (.inside rfl (.outermost rfl)))]
    decide
  · rw [lookup_chain hF (.outermost rfl)]
    decide

end Terse.ScopeForest
