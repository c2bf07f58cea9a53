import Terse.Proofs.Analysis.Scoped

/-! What name resolution does to the scopes it works in: a statement adds its own declaration to the
scope it stands in, whatever is declared inside it, and an expression adds nothing. -/
namespace Terse

namespace Node

/-- The statement declares a name for those after it. -/
def isDeclaration : Node → Bool
  | declare .. | function .. => true
  | _ => false

/-- The statement is the declaration of a symbol. -/
def Introduces (n : Node) (s : Symbol) : Prop :=
  (∃ value, n = declare (symbol s) value) ∨ ∃ params body, n = function (symbol s) params body

theorem Introduces.isDeclaration {n : Node} {s : Symbol} (h : n.Introduces s) :
    n.isDeclaration := by
  obtain ⟨_, rfl⟩ | ⟨_, _, rfl⟩ := h <;> rfl

end Node

namespace Analysis

/-- A scope becomes another by the statement `n` alone: if `n` declares a symbol, its name was free
and is now the last one of the scope, and otherwise nothing is declared. -/
structure Leaves (n : Node) (f f' : Frame) : Prop where
  inLoop_eq : f'.inLoop = f.inLoop
  function_eq : f'.function = f.function
  introduced : n.isDeclaration →
    ∃ s, n.Introduces s ∧ f.lookup s.name = none ∧ f'.locals = f.locals ++ [(s.name, s)]
  kept : n.isDeclaration = false → f'.locals = f.locals

variable {P : Token → Prop} {n : Node} {f f' : Frame} {s : Symbol} {loc : Option Loc}

theorem leaves_of_declare (hn : n.Introduces s) (hf : f.declare s loc = .ok f') :
    Leaves n f f' := by
  unfold Frame.declare at hf
  split at hf
  · contradiction
  · rename_i hfree
    obtain rfl := Except.ok.inj hf
    exact ⟨rfl, rfl, fun _ => ⟨s, hn, hfree, rfl⟩, fun h => by simp [hn.isDeclaration] at h⟩

theorem leaves_self (hn : n.isDeclaration = false) : Leaves n f f :=
  ⟨rfl, rfl, fun h => by simp [hn] at h, fun _ => rfl⟩

theorem isDeclaration_callStatement (n : Node) : (callStatement n).isDeclaration = false := by
  obtain ⟨_, _, -, he⟩ | he := callStatement_eq n <;> rw [he] <;> rfl

/-- What a statement adds to the frame can be read off its node. -/
theorem StmtTo.leaves {t : Tree} {outer : Scope} {u u' : Nat}
    (h : StmtTo P (.stmt t n) outer f u f' u') : Leaves n f f' := by
  cases h with
  | declare _ _ _ hf => exact leaves_of_declare (.inl ⟨_, rfl⟩) hf
  | function _ hf _ _ => exact leaves_of_declare (.inr ⟨_, _, rfl⟩) hf
  | callStmt _ => exact leaves_self (isDeclaration_callStatement _)
  | ifChain _ _ hn =>
    -- The rest of the chain is resolved in this very scope, and declares nothing as a choice.
    have hdeclares : Node.declares _ = [] := declares_of_isChoice (isChoice_of_ifStmt hn)
    have hframe := hn.frame_eq
    rw [Code.declares, hdeclares, Frame.extend_nil] at hframe
    rw [hframe]
    exact leaves_self rfl
  | _ => exact leaves_self rfl

/-- The enclosing scopes stay as they were, and the innermost one changes by the statement alone. -/
theorem leaves_of_node {t : Tree} (h : Tree.IsStmt P t) {outer : Scope} {u : Nat} {s' : State}
    (hok : node t ⟨f :: outer, u⟩ = .ok (n, s')) :
    ∃ f', s'.scope = f' :: outer ∧ Leaves n f f' := by
  have hends := ends_stmt allows_any h (.of_forall t fun _ => trivial) outer f u
  obtain ⟨f', u', rfl, hn⟩ := hends.of_ok hok
  exact ⟨f', rfl, hn.leaves⟩

/-- Expressions leave scopes and numbers alone. -/
theorem state_eq_of_node {k : Node.ExpSort} {t : Tree} (h : Tree.IsExp P k t) {s s' : State}
    (hok : node t s = .ok (n, s')) : s' = s :=
  ((ends_exp allows_any h (.of_forall t fun _ => trivial)).of_ok hok).1

/-- Resolving a statement has no effect on the scopes but its own declaration, and resolving an
expression has none. -/
theorem node_leaves_scopes :
    (∀ t, Tree.IsStmt (fun _ => True) t → ∀ (outer : Scope) (f : Frame) (u : Nat) (n : Node)
      (s' : State), node t ⟨f :: outer, u⟩ = .ok (n, s') →
      ∃ f', s'.scope = f' :: outer ∧ Leaves n f f') ∧
    (∀ k t, Tree.IsExp (fun _ => True) k t → ∀ (s : State) (n : Node) (s' : State),
      node t s = .ok (n, s') → s' = s) ∧
    (∀ ts t, Derives language .statement ts [t] → Tree.IsStmt (fun _ => True) t) ∧
    ∀ ts t, Derives language .exp ts [t] → Tree.IsExp (fun _ => True) .value t := by
  refine ⟨fun t ht outer f u n s' hok => leaves_of_node ht hok,
    fun k t ht s n s' hok => state_eq_of_node ht hok, fun ts t hd => ?_, fun ts t hd => ?_⟩
  · obtain ⟨s, he, hs⟩ := Phrase.fits_of_derives hd fun _ _ => trivial
    rwa [List.singleton_inj.1 he]
  · obtain ⟨e, he, hexp⟩ := Phrase.fits_of_derives hd fun _ _ => trivial
    rwa [List.singleton_inj.1 he]

/-- Some way to read the front of a text as a phrase is resolved from a state as the test asks. -/
def resolvesFrom (p : Phrase) (text : String) (s : State) (test : Node → State → Bool) : Bool :=
  (language.readings p (lex text.toList).tokens).readings.any fun r => r.trees.any fun t =>
    r.trees.length == 1 && match node t s with
      | .ok (n, s') => test n s'
      | .error _ => false

theorem exists_of_resolvesFrom {p : Phrase} {text : String} {s : State} {test : Node → State → Bool}
    (h : resolvesFrom p text s test) :
    ∃ ts t n s', Derives language p ts [t] ∧ node t s = .ok (n, s') ∧ test n s' := by
  obtain ⟨r, hr, h⟩ := List.any_eq_true.1 h
  obtain ⟨t, ht, h⟩ := List.any_eq_true.1 h
  obtain ⟨hone, h⟩ := Bool.and_eq_true_iff.1 h
  obtain ⟨ts, rest, -, -, hd⟩ := Grammar.reads_readings indexed_language hr
  obtain ⟨t', he⟩ := List.length_eq_one_iff.1 (beq_iff_eq.1 hone)
  rw [he] at ht hd
  obtain rfl := List.mem_singleton.1 ht
  split at h
  · rename_i n s' hok
    exact ⟨ts, t, n, s', hd, hok, h⟩
  · contradiction

/-- A function whose body loops, guards, chooses and declares, in the body of another one, and a
call at the outermost level. -/
theorem node_leaves_scopes_nested :
    ∃ t e n m f' s' s'' g, node t ⟨[.functionChild .log, .root], 5⟩ = .ok (n, s') ∧
      n.Introduces g ∧ s'.nextUid = 12 ∧ s'.scope = [f', .root] ∧ f'.locals = [(g.name, g)] ∧
      f'.function = some .log ∧
      node e ⟨[.root], 1⟩ = .ok (m, s'') ∧ s'' = ⟨[.root], 1⟩ := by
  obtain ⟨ts, t, n, s', hd, hn, htest⟩ := exists_of_resolvesFrom
    (show resolvesFrom .statement ("f g(a) => i in 0,#a: t: y = a[i] th g(y); e(err): log(err);;" ++
      "? 1 < 2: z = 1;! ? 2 < 1: v = 2;;") ⟨[.functionChild .log, .root], 5⟩
      (fun n s' => n.isDeclaration && s'.nextUid == 12) from by decide +kernel)
  obtain ⟨us, e, m, s'', hd', hm, -⟩ := exists_of_resolvesFrom
    (show resolvesFrom .exp "log([1, 2])" ⟨[.root], 1⟩ (fun _ _ => true) from by decide +kernel)
  obtain ⟨hdeclares, huid⟩ := Bool.and_eq_true_iff.1 htest
  obtain ⟨f', hscope, hleaves⟩ :=
    node_leaves_scopes.1 t (node_leaves_scopes.2.2.1 ts t hd) _ _ _ n s' hn
  obtain ⟨g, hg, -, hlocals⟩ := hleaves.introduced hdeclares
  exact ⟨t, e, n, m, f', s', s'', g, hn, hg, beq_iff_eq.1 huid, hscope, hlocals,
    hleaves.function_eq, hm,
    node_leaves_scopes.2.1 .value e (node_leaves_scopes.2.2.2 us e hd') _ m s'' hm⟩

end Analysis

end Terse
