import Terse.Proofs.Analysis.Resolved

/-! Name resolution gives all that the relation allows: the two are one. -/
namespace Terse.Analysis

open Node (ExpSort)

variable {α β : Type} {P : Token → Prop} {t : Token} {s s' : State} {outer : Scope}
  {f f' : Frame} {u u' : Nat} {sym : Symbol}

theorem bind_ok {w : Walk α} {k : α → Walk β} {a : α} {b : State}
    {r : Except AnalysisError (β × State)} (h : w s = .ok (a, b)) (hk : k a b = r) :
    (w >>= k) s = r := by
  have hbind : (w >>= k) s = (w s >>= fun p => k p.1 p.2) := rfl
  rw [hbind, h]
  exact hk

theorem map_ok {w : Walk α} {g : α → β} {a : α} (h : w s = .ok (a, s')) :
    (g <$> w) s = .ok (g a, s') := bind_ok (k := fun a => pure (g a)) h rfl

theorem inside_ok {w : Walk α} {g e : Frame} {a : α} (h : w ⟨g :: s.scope, s.nextUid⟩ =
    .ok (a, ⟨e :: s.scope, u⟩)) : inside g w s = .ok (a, ⟨s.scope, u⟩) := by
  refine bind_ok (b := ⟨g :: s.scope, s.nextUid⟩) rfl ?_
  refine bind_ok h ?_
  rfl

theorem resolve_ok (h : s.scope.lookup t.text = some sym) :
    resolve (.token t) s = .ok (sym, s) := by
  refine bind_ok (a := s.scope.lookup t.text) rfl ?_
  rw [h]
  rfl

theorem resolveVariable_ok (h : s.scope.lookup t.text = some sym) (hv : sym.isFunction = false) :
    resolveVariable (.token t) s = .ok (sym, s) := by
  refine bind_ok (resolve_ok h) ?_
  rw [hv]
  rfl

theorem declare_ok {kind : SymbolKind} (h : f.declare (fresh t u kind) t.loc = .ok f') :
    declare (.token t) kind ⟨f :: outer, u⟩ = .ok (fresh t u kind, ⟨f' :: outer, u + 1⟩) := by
  refine bind_ok (a := ⟨f :: outer, u⟩) rfl ?_
  replace h : Frame.declare ((f :: outer).head?.getD .empty)
    ⟨(Tree.token t).word, u, kind, .declared u⟩ (Tree.token t).loc = .ok f' := h
  dsimp only
  rw [h]
  rfl

theorem declareVariables_ok {ts : List Token} {vs : List Symbol} (h : Introduced ts f u vs f' u') :
    declareVariables (ts.map .token) ⟨f :: outer, u⟩ =
      .ok (vs.map .symbol, ⟨f' :: outer, u'⟩) := by
  induction h with
  | nil => rfl
  | cons hf _ ih => exact bind_ok (declare_ok hf) (bind_ok ih rfl)

theorem readNumber_ok {a : Number} (h : Numeral.read t.text.toList = .ok a) :
    readNumber t.text s = .ok (.number a, s) := by
  unfold readNumber
  rw [h]
  rfl

theorem readString_ok {v : Text} (h : Literal.value t.text.toList = .ok v) :
    readString t.text s = .ok (.string v, s) := by
  unfold readString
  rw [h]
  rfl

theorem requireLoop_ok {cause : Cause} (h : f.inLoop) :
    requireLoop cause (.token t) ⟨f :: outer, u⟩ = .ok ((), ⟨f :: outer, u⟩) := by
  refine bind_ok (a := f) rfl ?_
  rw [if_pos h]
  rfl

theorem requireFunction_ok (h : f.function.isSome) :
    requireFunction (.token t) ⟨f :: outer, u⟩ = .ok ((), ⟨f :: outer, u⟩) := by
  refine bind_ok (a := f) rfl ?_
  have hnone : ¬ f.function.isNone := by simpa using Option.isSome_iff_ne_none.1 h
  rw [if_neg hnone]
  rfl

theorem nodes_ok {ts : List Tree} {ns : List Node} (hl : ts.length = ns.length)
    (h : ∀ p ∈ ts.zip ns, node p.1 s = .ok (p.2, s)) : nodes ts s = .ok (ns, s) := by
  induction ts generalizing ns with
  | nil =>
    obtain rfl := List.length_eq_zero_iff.1 hl.symm
    rfl
  | cons t ts ih =>
    cases ns with
    | nil => contradiction
    | cons n ns =>
      obtain ⟨hn, hns⟩ := List.forall_mem_cons.1 h
      exact bind_ok hn (bind_ok (ih (Nat.succ.inj hl) hns) rfl)

/-- An expression that resolves is turned into its node, and the state does not change. -/
theorem ExpTo.node_ok {k : ExpSort} {t : Tree} {n : Node} (h : ExpTo P s.scope k t n) :
    node t s = .ok (n, s) := by
  induction h with
  | number _ ha => exact readNumber_ok ha
  | string _ hv => exact readString_ok hv
  | trueLit | falseLit => rfl
  | var _ hs => exact bind_ok (resolve_ok hs) rfl
  | call _ hf hkind hl _ ih =>
    refine bind_ok (resolve_ok hf) ?_
    rw [hkind]
    refine bind_ok (nodes_ok hl ih) ?_
    rw [if_pos hl.symm]
    rfl
  | array hl _ ih | dict hl _ ih => exact bind_ok (nodes_ok hl ih) rfl
  | dictItem _ _ ih | member _ _ ih | optionalMember _ _ ih | postfixUnary _ _ ih
  | unary _ _ ih => exact bind_ok ih rfl
  | subscript _ _ ihl ihr | power _ _ ihl ihr | binary _ _ _ ihl ihr | relational _ _ _ ihl ihr
  | andExp _ _ ihl ihr | orExp _ _ ihl ihr => exact bind_ok ihl (bind_ok ihr rfl)
  | conditional _ _ _ iht ihy ihn => exact bind_ok iht (bind_ok ihy (bind_ok ihn rfl))

theorem ExpTo.exists_node {sc : Scope} {k : ExpSort} {t : Tree} {n : Node} (h : ExpTo P sc k t n) :
    ∃ rule kids loc, t = .node rule kids loc := by
  cases h <;> exact ⟨_, _, _, rfl⟩

theorem assignName_ok {n : Node} (h : Scope.lookup (f :: outer) t.text = some sym)
    (hw : sym.isWritable) :
    assignName (.token t) n ⟨f :: outer, u⟩ = .ok (.assign (.symbol sym) n, ⟨f :: outer, u⟩) := by
  refine bind_ok (a := Scope.lookup (f :: outer) t.text) rfl ?_
  rw [h]
  dsimp only
  rw [if_pos hw]
  rfl

/-- An assignment to a name that is no variable in sight declares one. -/
theorem assignName_fresh {n : Node}
    (hw : ∀ s, Scope.lookup (f :: outer) t.text = some s → s.isWritable = false)
    (hf : f.declare (fresh t u (.var false)) t.loc = .ok f') :
    assignName (.token t) n ⟨f :: outer, u⟩ =
      .ok (.declare (.symbol (fresh t u (.var false))) n, ⟨f' :: outer, u + 1⟩) := by
  refine bind_ok (a := Scope.lookup (f :: outer) t.text) rfl ?_
  cases hs : Scope.lookup (f :: outer) t.text with
  | none => exact bind_ok (declare_ok hf) rfl
  | some s =>
    dsimp only
    rw [hw s hs]
    exact bind_ok (declare_ok hf) rfl

/-- The walk over a piece of code, with its result and what it leaves behind. -/
def Code.Walked : Code → Scope → Frame → Nat → Frame → Nat → Prop
  | .stmt t n, outer, f, u, f', u' => node t ⟨f :: outer, u⟩ = .ok (n, ⟨f' :: outer, u'⟩)
  | .row ts ns, outer, f, u, f', u' => nodes ts ⟨f :: outer, u⟩ = .ok (ns, ⟨f' :: outer, u'⟩)

theorem block_ok {ts : List Tree} {ns : List Node} {g g' : Frame}
    (h : (Code.row ts ns).Walked (f :: outer) g u g' u') :
    inside g (nodes ts) ⟨f :: outer, u⟩ = .ok (ns, ⟨f :: outer, u'⟩) :=
  inside_ok (s := ⟨f :: outer, u⟩) h

/-- The body of a loop that declares its variable. -/
theorem binder_ok {ts : List Tree} {ns : List Node} {g g' : Frame} {k : Symbol → List Node → Node}
    (hg : (f.child (some true) none).declare (fresh t u (.var false)) t.loc = .ok g)
    (h : (Code.row ts ns).Walked (f :: outer) g (u + 1) g' u') :
    (do
      inside (← loopFrame) do
        let i ← declareVariable (.token t)
        return k i (← nodes ts) : Walk Node) ⟨f :: outer, u⟩ =
      .ok (k (fresh t u (.var false)) ns, ⟨f :: outer, u'⟩) := by
  refine bind_ok rfl (inside_ok (s := ⟨f :: outer, u⟩) (e := g') ?_)
  exact bind_ok (declare_ok hg) (bind_ok h rfl)

/-- Code that resolves is walked to its end, with the frame and the number that the relation
names. -/
theorem StmtTo.walked {c : Code} (h : StmtTo P c outer f u f' u') : c.Walked outer f u f' u' := by
  induction h with
  | assign _ hn hs hw => exact bind_ok hn.node_ok (assignName_ok hs hw)
  | declare _ hn hw hf => exact bind_ok hn.node_ok (assignName_fresh hw hf)
  | indexAssign _ hs hi hn =>
    exact bind_ok (resolve_ok hs) (bind_ok hi.node_ok (bind_ok hn.node_ok rfl))
  | memberAssign _ _ hs hn => exact bind_ok (resolve_ok hs) (bind_ok hn.node_ok rfl)
  | mathAssign _ _ hs hv hn => exact bind_ok (resolveVariable_ok hs hv) (bind_ok hn.node_ok rfl)
  | incDecStmt hn _ | callStmt hn | throwStmt hn => exact bind_ok hn.node_ok rfl
  | @function t params vs body ns l loc outer f f' g g' u v u' _ hf hvs _ ih =>
    rw [← List.length_map (f := Tree.token)] at hf hvs ⊢
    refine bind_ok (declare_ok hf) (inside_ok (s := ⟨f' :: outer, u + 1⟩) (e := g') ?_)
    exact bind_ok (declareVariables_ok hvs) (bind_ok ih rfl)
  | ifOnly hc _ ih | whileStmt hc _ ih =>
    exact bind_ok hc.node_ok (bind_ok rfl (bind_ok (block_ok ih) rfl))
  | ifChain hc _ _ ih ihn =>
    exact bind_ok hc.node_ok (bind_ok rfl (bind_ok (block_ok ih) (bind_ok ihn rfl)))
  | ifElse hc _ _ ihy ihn =>
    exact bind_ok hc.node_ok
      (bind_ok rfl (bind_ok (block_ok ihy) (bind_ok rfl (bind_ok (block_ok ihn) rfl))))
  | @repeatNumber times count a body ns l loc outer f g u u' hcount ha _ ih =>
    change (ite (count.kind = .number) _ _ : Walk Node) _ = _
    rw [if_pos hcount.kind_eq]
    exact bind_ok (readNumber_ok ha) (bind_ok rfl (bind_ok (block_ok ih) rfl))
  | @repeatName times count sym body ns l loc outer f g u u' hcount hs hv _ ih =>
    change (ite (count.kind = .number) _ _ : Walk Node) _ = _
    rw [if_neg (by simp [hcount.kind_eq])]
    exact bind_ok (map_ok (resolveVariable_ok hs hv)) (bind_ok rfl (bind_ok (block_ok ih) rfl))
  | rangeStmt _ ha hb hg _ ih =>
    exact bind_ok ha.node_ok (bind_ok hb.node_ok (binder_ok hg ih))
  | steppedStmt _ ha hb hc hg _ ih =>
    -- that the step is no block shows only once it is a node
    obtain ⟨_, _, _, rfl⟩ := hc.exists_node
    exact bind_ok ha.node_ok (bind_ok hb.node_ok (bind_ok hc.node_ok (binder_ok hg ih)))
  | forStmt _ hc hg _ ih => exact bind_ok hc.node_ok (binder_ok hg ih)
  | breakStmt hf | continueStmt hf => exact bind_ok (requireLoop_ok hf) rfl
  | returnStmt hf hn => exact bind_ok (requireFunction_ok hf) (bind_ok hn.node_ok rfl)
  | shortReturnStmt hf => exact bind_ok (requireFunction_ok hf) rfl
  | @tryStmt body handler params vs ns hs l l' l'' loc outer f g h h' u v w u' _ hvs _ ihb ihh =>
    refine bind_ok rfl (bind_ok (block_ok ihb) (bind_ok rfl
      (inside_ok (s := ⟨f :: outer, v⟩) (e := h') ?_)))
    exact bind_ok (declareVariables_ok hvs) (bind_ok ihh rfl)
  | nil => rfl
  | cons _ _ ihn ihns => exact bind_ok ihn (bind_ok ihns rfl)

end Terse.Analysis
