import Terse.Proofs.Grammar.Parsed
import Terse.Proofs.Renaming.Simplified

/-! Name resolution depends on names only as far as they are alike. -/
namespace Terse

variable (g : Renaming)

theorem Symbol.rename_of_library {s : Symbol} (h : s.origin = .library) : s.rename g = s := by
  obtain ⟨name, uid, kind, origin⟩ := s
  obtain rfl : origin = .library := h
  rfl

/-- No other symbol becomes `log`, so the same calls print. -/
theorem Symbol.rename_eq_log {s : Symbol} : s.rename g = .log ↔ s = .log := by
  have hlog : log.rename g = log := Symbol.rename_of_library g rfl
  constructor
  · intro h
    exact (Symbol.rename_inj g).1 (h.trans hlog.symm)
  · rintro rfl
    exact hlog

namespace Frame

def rename (f : Frame) : Frame :=
  ⟨f.locals.map fun p => (g.apply p.1, p.2.rename g), f.inLoop, f.function.map (Symbol.rename g)⟩

theorem rename_root : root.rename g = root := by
  have horigin : ∀ s ∈ Symbol.library, s.origin = .library := by decide
  have hlocals : root.locals.map (fun p => (g.apply p.1, p.2.rename g)) = root.locals := by
    unfold root
    dsimp only
    rw [List.map_map]
    refine List.map_congr_left fun s hs => ?_
    rw [Function.comp, g.apply_library hs, Symbol.rename_of_library g (horigin s hs)]
  rw [rename, hlocals]
  rfl

/-- A renamed name is found in a renamed frame where the name was found. -/
theorem lookup_rename (f : Frame) (name : String) :
    (f.rename g).lookup (g.apply name) = (f.lookup name).map (Symbol.rename g) := by
  unfold lookup rename
  dsimp only
  induction f.locals with
  | nil => rfl
  | cons p ps ih =>
    obtain ⟨x, s⟩ := p
    have hbeq : (g.apply name == g.apply x) = (name == x) := by
      rw [Bool.eq_iff_iff, beq_iff_eq, beq_iff_eq, g.apply_inj]
    rw [List.map_cons, List.lookup_cons, List.lookup_cons, ih, hbeq]
    cases name == x <;> rfl

/-- A name is declared twice if the other name is. -/
theorem declare_rename (f : Frame) {s : Symbol} {n : Nat} (hs : s.origin = .declared n)
    (loc : Option Loc) :
    (f.rename g).declare (s.rename g) loc = match f.declare s loc with
      | .ok f' => .ok (f'.rename g)
      | .error e => .error { e with cause := e.cause.rename g } := by
  have hname : (s.rename g).name = g.apply s.name := by
    rw [Symbol.rename, hs]
  unfold declare
  rw [hname, lookup_rename]
  cases f.lookup s.name with
  | some _ => rfl
  | none => simp [rename]

end Frame

theorem Scope.lookup_rename (scope : Scope) (name : String) :
    Scope.lookup (scope.map (Frame.rename g)) (g.apply name) =
      (scope.lookup name).map (Symbol.rename g) := by
  unfold Scope.lookup
  induction scope with
  | nil => rfl
  | cons f scope ih =>
    rw [List.map_cons, List.findSome?_cons, List.findSome?_cons, Frame.lookup_rename, ih]
    cases f.lookup name <;> rfl

namespace Analysis

variable {α β γ δ : Type}

def State.rename (s : State) : State := ⟨s.scope.map (Frame.rename g), s.nextUid⟩

theorem State.head_rename (s : State) :
    (s.rename g).scope.head?.getD .empty = (s.scope.head?.getD .empty).rename g := by
  obtain ⟨scope, n⟩ := s
  cases scope <;> rfl

/-- Where the first walk leads, the second leads in renamed scopes. -/
def Renames (ρ : α → β) (w : Walk α) (w' : Walk β) : Prop :=
  ∀ s, w' (s.rename g) = match w s with
    | .ok (a, s') => .ok (ρ a, s'.rename g)
    | .error e => .error (e.rename g)

variable {g}

theorem renames_pure {ρ : α → β} {a : α} : Renames g ρ (pure a) (pure (ρ a)) := fun _ => rfl

/-- Renaming goes through walks step by step. -/
theorem renames_bind {ρ : α → β} {σ : γ → δ} {w : Walk α} {w' : Walk β} {k : α → Walk γ}
    {k' : β → Walk δ} (h : Renames g ρ w w') (hk : ∀ a, Renames g σ (k a) (k' (ρ a))) :
    Renames g σ (w >>= k) (w' >>= k') := by
  intro s
  have hs := h s
  have hbind : (w' >>= k') (s.rename g) = (w' (s.rename g) >>= fun p => k' p.1 p.2) := rfl
  have hbind' : (w >>= k) s = (w s >>= fun p => k p.1 p.2) := rfl
  rw [hbind, hbind', hs]
  cases w s with
  | error e => rfl
  | ok p => exact hk p.1 p.2

theorem renames_map {ρ : α → β} {σ : γ → δ} {w : Walk α} {w' : Walk β} {f : α → γ} {f' : β → δ}
    (h : Renames g ρ w w') (hf : ∀ a, f' (ρ a) = σ (f a)) :
    Renames g σ (f <$> w) (f' <$> w') := by
  show Renames g σ (w >>= fun a => pure (f a)) (w' >>= fun b => pure (f' b))
  refine renames_bind h fun a => ?_
  rw [hf]
  exact renames_pure

theorem renames_ite {ρ : α → β} {c : Prop} [Decidable c] {w v : Walk α} {w' v' : Walk β}
    (hw : Renames g ρ w w') (hv : Renames g ρ v v') :
    Renames g ρ (if c then w else v) (if c then w' else v') := by
  split
  · exact hw
  · exact hv

theorem renames_fail {ρ : α → β} {cause : Cause} {loc : Option Loc} :
    Renames g ρ (fail cause loc) (fail (cause.rename g) loc) := fun _ => rfl

theorem renames_get : Renames g (State.rename g) get get := fun _ => rfl

theorem renames_set (s : State) : Renames g id (set s) (set (s.rename g)) := fun _ => rfl

theorem renames_here : Renames g (Frame.rename g) here here := fun s =>
  congrArg (fun f => Except.ok (f, s.rename g)) (s.head_rename g)

theorem renames_blockFrame : Renames g (Frame.rename g) blockFrame blockFrame :=
  renames_bind renames_here fun f => renames_pure (a := f.child none none)

theorem renames_loopFrame : Renames g (Frame.rename g) loopFrame loopFrame :=
  renames_bind renames_here fun f => renames_pure (a := f.child (some true) none)

theorem renames_modify {f f' : State → State} (h : ∀ s, f' (s.rename g) = (f s).rename g) :
    Renames g id (modify f) (modify f') := fun s =>
  congrArg (fun s' => Except.ok ((), s')) (h s)

theorem renames_inside {ρ : α → β} {w : Walk α} {w' : Walk β} {f : Frame}
    (h : Renames g ρ w w') : Renames g ρ (inside f w) (inside (f.rename g) w') := by
  refine renames_bind (renames_modify fun _ => rfl) fun _ => renames_bind h fun a => ?_
  refine renames_bind (renames_modify fun s => ?_) fun _ => renames_pure
  simp [State.rename, List.map_tail]

variable {P : Token → Prop} {t : Token}

theorem renames_lookup (ht : t.kind = .name) :
    Renames g (Option.map (Symbol.rename g)) (lookup t.text) (lookup (t.rename g).text) := by
  intro s
  rw [t.rename_text g ht]
  exact congrArg (fun o => Except.ok (o, s.rename g)) (Scope.lookup_rename g s.scope t.text)

/-- An error about a name. -/
theorem renames_failName {ρ : α → β} (ht : t.kind = .name) (cause : String → Cause)
    (hcause : ∀ name, (cause name).rename g = cause (g.apply name)) :
    Renames g ρ (fail (cause t.text) t.loc) (fail (cause (t.rename g).text) t.loc) := by
  rw [t.rename_text g ht, ← hcause]
  exact renames_fail

theorem renames_resolve (ht : t.kind = .name) :
    Renames g (Symbol.rename g) (resolve (.token t)) (resolve (.token (t.rename g))) := by
  refine renames_bind (renames_lookup ht) fun o => ?_
  cases o with
  | none => exact renames_failName ht .undeclared fun _ => rfl
  | some s => exact renames_pure

theorem renames_resolveVariable (ht : t.kind = .name) :
    Renames g (Symbol.rename g) (resolveVariable (.token t))
      (resolveVariable (.token (t.rename g))) := by
  refine renames_bind (renames_resolve ht) fun s => ?_
  exact renames_ite (renames_failName ht .notVariable fun _ => rfl) renames_pure

/-- A renamed name is declared as the renamed symbol. -/
theorem renames_declare (ht : t.kind = .name) (kind : SymbolKind) :
    Renames g (Symbol.rename g) (declare (.token t) kind) (declare (.token (t.rename g)) kind) := by
  unfold declare
  refine renames_bind renames_get fun s => ?_
  have hdeclare := (s.scope.head?.getD .empty).declare_rename g
    (s := ⟨t.text, s.nextUid, kind, .declared s.nextUid⟩) rfl t.loc
  rw [← s.head_rename g] at hdeclare
  dsimp only [Symbol.rename, State.rename, Token.rename, Tree.word, Tree.loc] at hdeclare ⊢
  rw [if_pos ht, hdeclare]
  split
  · rename_i e he
    rw [he]
    exact fun _ => rfl
  · rename_i f hf
    rw [hf, ← List.map_tail]
    refine renames_bind (renames_set ⟨f :: s.scope.tail, s.nextUid + 1⟩) fun _ => ?_
    exact fun _ => rfl

theorem renames_declareVariables {ts : List Token} (hts : ∀ t ∈ ts, t.kind = .name) :
    Renames g (Node.renameAll g) (declareVariables (ts.map .token))
      (declareVariables (Tree.renameAll g (ts.map .token))) := by
  induction ts with
  | nil => exact renames_pure
  | cons t ts ih =>
    obtain ⟨ht, hts⟩ := List.forall_mem_cons.1 hts
    refine renames_bind (renames_declare ht _) fun s => ?_
    exact renames_bind (ih hts) fun ns => renames_pure

theorem renames_requireLoop {cause : Cause} (hcause : cause.rename g = cause) :
    Renames g id (requireLoop cause (.token t)) (requireLoop cause (.token (t.rename g))) := by
  refine renames_bind renames_here fun f => renames_ite renames_pure ?_
  have hfail : Renames g id (fail (α := Unit) cause t.loc) (fail (cause.rename g) t.loc) :=
    renames_fail
  rwa [hcause] at hfail

theorem renames_requireFunction :
    Renames g id (requireFunction (.token t)) (requireFunction (.token (t.rename g))) := by
  refine renames_bind renames_here fun f => ?_
  dsimp only [Frame.rename]
  rw [Option.isNone_map]
  exact renames_ite renames_fail renames_pure

theorem renames_assignName (ht : t.kind = .name) (n : Node) :
    Renames g (Node.rename g) (assignName (.token t) n)
      (assignName (.token (t.rename g)) (n.rename g)) := by
  have hintroduce : Renames g (Node.rename g) (assignName.introduce (.token t) n)
      (assignName.introduce (.token (t.rename g)) (n.rename g)) :=
    renames_bind (renames_declare ht _) fun s => renames_pure
  refine renames_bind (renames_lookup ht) fun o => ?_
  cases o with
  | none => exact hintroduce
  | some s => exact renames_ite renames_pure hintroduce

/-- A print stays one, since the library keeps its names. -/
theorem callStatement_rename (n : Node) :
    callStatement (n.rename g) = (callStatement n).rename g := by
  cases n with
  | call callee args =>
    cases callee with
    | symbol s =>
      cases args with
      | nil => rfl
      | cons arg args =>
        simp only [Node.rename, Node.renameAll, callStatement, Symbol.rename_eq_log]
        split <;> rfl
    | _ => cases args <;> rfl
  | _ => rfl

/-- Operators and literals are not renamed. -/
theorem rename_token {k : TokenKind} (ht : t.Is P k) (hk : k ≠ .name) :
    (Tree.token t).rename g = .token t := by
  rw [Tree.rename, t.rename_of_ne g (ht.kind_eq ▸ hk)]

theorem renames_readNumber (ht : t.Is P .number) :
    Renames g (Node.rename g) (readNumber t.text) (readNumber (t.rename g).text) := by
  rw [t.rename_of_ne g (by simp [ht.kind_eq]), readNumber]
  cases Numeral.read t.text.toList with
  | ok a => exact renames_pure
  | error e => exact fun _ => rfl

theorem renames_readString (ht : t.Is P .string) :
    Renames g (Node.rename g) (readString t.text) (readString (t.rename g).text) := by
  rw [t.rename_of_ne g (by simp [ht.kind_eq]), readString]
  cases Literal.value t.text.toList with
  | ok value => exact renames_pure
  | error e => exact fun _ => rfl

/-- The tree is resolved alike under other names. -/
def Stable (g : Renaming) (t : Tree) : Prop :=
  Renames g (Node.rename g) (node t) (node (t.rename g))

theorem renames_nodes {ts : List Tree} (h : ∀ t ∈ ts, Stable g t) :
    Renames g (Node.renameAll g) (nodes ts) (nodes (Tree.renameAll g ts)) := by
  induction ts with
  | nil => exact renames_pure
  | cons t ts ih =>
    obtain ⟨ht, hts⟩ := List.forall_mem_cons.1 h
    exact renames_bind ht fun n => renames_bind (ih hts) fun ns => renames_pure

/-- Expressions are resolved alike under other names. -/
theorem stable_exp {k : Node.ExpSort} {t : Tree} (h : Tree.IsExp P k t) : Stable g t := by
  induction h with
  | number ht => exact renames_readNumber ht
  | string ht => exact renames_readString ht
  | trueLit => exact renames_pure
  | falseLit => exact renames_pure
  | var ht => exact renames_bind (renames_resolve ht.kind_eq) fun _ => renames_pure
  | call ht _ ih =>
    refine renames_bind (renames_resolve ht.kind_eq) fun f => ?_
    obtain ⟨name, uid, kind, origin⟩ := f
    cases kind with
    | var => exact renames_failName ht.kind_eq .notCallable fun _ => rfl
    | fn arity =>
      refine renames_bind (renames_nodes ih) fun args => ?_
      rw [Node.length_renameAll]
      exact renames_ite renames_pure renames_fail
  | array _ ih => exact renames_bind (renames_nodes ih) fun _ => renames_pure
  | dict _ ih => exact renames_bind (renames_nodes ih) fun _ => renames_pure
  | dictItem _ _ ih => exact renames_bind ih fun _ => renames_pure
  | member _ _ ih => exact renames_bind ih fun _ => renames_pure
  | optionalMember _ _ ih => exact renames_bind ih fun _ => renames_pure
  | subscript _ _ ihc ihi => exact renames_bind ihc fun _ => renames_bind ihi fun _ => renames_pure
  | @postfixUnary _ t _ _ ht ih =>
    have htoken : (Tree.token t).rename g = .token t := by
      rcases ht with ht | ht <;> exact rename_token ht (by decide)
    refine renames_bind ih fun n => ?_
    rw [htoken]
    exact renames_pure
  | unary ht _ ih =>
    refine renames_bind ih fun n => ?_
    rw [rename_token ht (by decide)]
    exact renames_pure
  | power _ _ ihl ihr => exact renames_bind ihl fun _ => renames_bind ihr fun _ => renames_pure
  | binary ht _ _ ihl ihr =>
    refine renames_bind ihl fun l => renames_bind ihr fun r => ?_
    rw [rename_token ht (by decide)]
    exact renames_pure
  | relational _ ht _ ihl ihr =>
    refine renames_bind ihl fun l => renames_bind ihr fun r => ?_
    rw [rename_token ht (by decide)]
    exact renames_pure
  | andExp _ _ ihl ihr => exact renames_bind ihl fun _ => renames_bind ihr fun _ => renames_pure
  | orExp _ _ ihl ihr => exact renames_bind ihl fun _ => renames_bind ihr fun _ => renames_pure
  | conditional _ _ _ iht ihy ihn =>
    exact renames_bind iht fun _ => renames_bind ihy fun _ => renames_bind ihn fun _ => renames_pure

section

variable {σ : γ → δ} {ss : List Tree} {k : List Node → Walk γ} {k' : List Node → Walk δ}
  (h : ∀ s ∈ ss, Stable g s) (hk : ∀ ns, Renames g σ (k ns) (k' (Node.renameAll g ns)))

include h hk

theorem renames_block : Renames g σ (do k (← inside (← blockFrame) (nodes ss)))
    (do k' (← inside (← blockFrame) (nodes (Tree.renameAll g ss)))) :=
  renames_bind renames_blockFrame fun _ => renames_bind (renames_inside (renames_nodes h)) hk

theorem renames_loop : Renames g σ (do k (← inside (← loopFrame) (nodes ss)))
    (do k' (← inside (← loopFrame) (nodes (Tree.renameAll g ss)))) :=
  renames_bind renames_loopFrame fun _ => renames_bind (renames_inside (renames_nodes h)) hk

end

/-- A loop that declares its variable. -/
theorem renames_binder {ss : List Tree} {made made' : Symbol → List Node → Node}
    (ht : t.kind = .name) (h : ∀ s ∈ ss, Stable g s)
    (hmade : ∀ v ns, made' (v.rename g) (Node.renameAll g ns) = (made v ns).rename g) :
    Renames g (Node.rename g)
      (do inside (← loopFrame) (do
        let i ← declareVariable (.token t)
        return made i (← nodes ss)))
      (do inside (← loopFrame) (do
        let i ← declareVariable (.token (t.rename g))
        return made' i (← nodes (Tree.renameAll g ss)))) := by
  refine renames_bind renames_loopFrame fun _ => renames_inside ?_
  refine renames_bind (renames_declare ht _) fun v => renames_bind (renames_nodes h) fun ns => ?_
  rw [hmade]
  exact renames_pure

/-- Statements are resolved alike under other names. -/
theorem stable_stmt {t : Tree} (h : Tree.IsStmt P t) : Stable g t := by
  induction h with
  | varDecl ht he =>
    exact renames_bind (stable_exp he) fun n => renames_assignName ht.kind_eq n
  | indexAssign ht hi he =>
    refine renames_bind (renames_resolve ht.kind_eq) fun _ => ?_
    refine renames_bind (stable_exp hi) fun _ => ?_
    exact renames_bind (stable_exp he) fun _ => renames_pure
  | memberAssign ht _ he =>
    refine renames_bind (renames_resolve ht.kind_eq) fun _ => ?_
    exact renames_bind (stable_exp he) fun _ => renames_pure
  | mathAssign ht hop he =>
    refine renames_bind (renames_resolveVariable ht.kind_eq) fun _ => ?_
    refine renames_bind (stable_exp he) fun _ => ?_
    rw [rename_token hop (by decide)]
    exact renames_pure
  | incDecStmt he hop =>
    refine renames_bind (stable_exp he) fun _ => ?_
    rw [rename_token hop (by decide)]
    exact renames_pure
  | callStmt ht hargs =>
    refine renames_bind (stable_exp (.call ht hargs)) fun n => ?_
    rw [callStatement_rename]
    exact renames_pure
  | @funcDecl t params _ _ _ ht hparams _ ih =>
    show Renames g _ (declare (.token t) (.fn (params.map Tree.token).length false) >>= _)
      (declare (.token (t.rename g))
        (.fn (Tree.renameAll g (params.map .token)).length false) >>= _)
    rw [Tree.length_renameAll]
    refine renames_bind (renames_declare ht.kind_eq _) fun f => ?_
    refine renames_inside (f := .functionChild f) ?_
    refine renames_bind (renames_declareVariables fun t ht => (hparams t ht).kind_eq) fun _ => ?_
    exact renames_bind (renames_nodes ih) fun _ => renames_pure
  | ifOnly ht _ ih =>
    refine renames_bind (stable_exp ht) fun _ => ?_
    exact renames_block ih fun _ => renames_pure
  | ifChain ht _ _ ih ihchain =>
    refine renames_bind (stable_exp ht) fun _ => ?_
    refine renames_block ih fun _ => ?_
    exact renames_bind ihchain fun _ => renames_pure
  | ifElse ht _ _ ihyes ihno =>
    refine renames_bind (stable_exp ht) fun _ => ?_
    refine renames_block ihyes fun _ => ?_
    exact renames_block ihno fun _ => renames_pure
  | whileStmt ht _ ih =>
    refine renames_bind (stable_exp ht) fun _ => ?_
    exact renames_loop ih fun _ => renames_pure
  | @repeatStmt _ count _ _ _ hcount _ ih =>
    change Renames g _ (ite (count.kind = .number) _ _) (ite (count.kind = .number) _ _)
    rcases hcount with hcount | hcount
    · rw [if_pos hcount.kind_eq, if_pos hcount.kind_eq]
      refine renames_bind (renames_readNumber hcount) fun _ => ?_
      exact renames_loop ih fun _ => renames_pure
    · rw [if_neg (by simp [hcount.kind_eq]), if_neg (by simp [hcount.kind_eq])]
      refine renames_bind (renames_map (σ := Node.rename g)
        (renames_resolveVariable hcount.kind_eq) fun _ => rfl) fun _ => ?_
      exact renames_loop ih fun _ => renames_pure
  | rangeStmt ht hlow hhigh _ ih =>
    refine renames_bind (stable_exp hlow) fun _ => ?_
    refine renames_bind (stable_exp hhigh) fun _ => ?_
    exact renames_binder ht.kind_eq ih fun _ _ => rfl
  | @steppedStmt t low high _ body l loc ht hlow hhigh hstep _ ih =>
    have hstable := stable_exp (g := g) hstep
    -- that the step is no block shows only once it is a node
    obtain ⟨rule, kids, l', rfl⟩ := hstep.exists_node
    obtain ⟨kids', hkids⟩ := Tree.exists_rename_node g rule kids l'
    show Renames g _ _ (node (.node .rangeStmt [.token (t.rename g), low.rename g, high.rename g,
      Tree.rename g (.node rule kids l'), Tree.rename g (.node .block body l)] loc))
    rw [Stable, hkids] at hstable
    rw [hkids]
    refine renames_bind (stable_exp hlow) fun _ => ?_
    refine renames_bind (stable_exp hhigh) fun _ => ?_
    refine renames_bind hstable fun _ => ?_
    exact renames_binder ht.kind_eq ih fun _ _ => rfl
  | forStmt ht he _ ih =>
    refine renames_bind (stable_exp he) fun _ => ?_
    exact renames_binder ht.kind_eq ih fun _ _ => rfl
  | breakStmt => exact renames_bind (renames_requireLoop rfl) fun _ => renames_pure
  | continueStmt => exact renames_bind (renames_requireLoop rfl) fun _ => renames_pure
  | returnStmt he =>
    refine renames_bind renames_requireFunction fun _ => ?_
    exact renames_bind (stable_exp he) fun _ => renames_pure
  | shortReturnStmt => exact renames_bind renames_requireFunction fun _ => renames_pure
  | throwStmt he => exact renames_bind (stable_exp he) fun _ => renames_pure
  | tryStmt _ hparams _ ihbody ihhandler =>
    refine renames_block ihbody fun _ => ?_
    refine renames_bind renames_blockFrame fun _ => renames_inside ?_
    refine renames_bind (renames_declareVariables fun t ht => (hparams t ht).kind_eq) fun _ => ?_
    exact renames_bind (renames_nodes ihhandler) fun _ => renames_pure

end Analysis

open Analysis

variable {P : Token → Prop} {t : Tree}

/-- A whole program under other names. -/
theorem analyze_rename_eq (h : t.IsProgram P) :
    analyze (t.rename g) =
      ((analyze t).map (List.map (Node.rename g))).mapError (AnalysisError.rename g) := by
  obtain ⟨ss, loc, rfl, hss⟩ := h
  have hnodes := renames_nodes (g := g) (fun s hs => stable_stmt (hss s hs)) ⟨[.root], 1⟩
  rw [State.rename, List.map_singleton, Frame.rename_root] at hnodes
  have hrun (ts : List Tree) : analyze (.node .start ts loc) =
      (nodes ts ⟨[.root], 1⟩).map (·.1) := rfl
  show analyze (.node .start (Tree.renameAll g ss) loc) = _
  rw [hrun, hrun, hnodes]
  cases nodes ss ⟨[.root], 1⟩ with
  | error e => rfl
  | ok p => exact congrArg Except.ok (Node.renameAll_eq_map g p.1)

/-- Names matter to name resolution only as far as they are alike. Under other names a program is
accepted if it is accepted, and what it is resolved to differs in the names of its own symbols only;
an error is the same and at the same place, about the other name. Simplification does not look at
names. -/
theorem analyze_rename (g : Renaming) (h : t.IsProgram P) :
    (∀ ss, analyze t = .ok ss → analyze (t.rename g) = .ok (ss.map (Node.rename g))) ∧
    (∀ e, analyze t = .error e → analyze (t.rename g) = .error (e.rename g)) ∧
    ∀ n : Node, (n.rename g).optimize = n.optimize.map (Node.rename g) := by
  have hrenamed := analyze_rename_eq g h
  refine ⟨fun ss hss => ?_, fun e he => ?_, Node.optimize_rename g⟩
  · rw [hrenamed, hss]
    rfl
  · rw [hrenamed, he]
    rfl

/-- A variable that a function assigns to and the parameter beside it change names. -/
theorem analyze_rename_swapped :
    ∃ (g : Renaming) (tree : Tree) (ss : List Node), g.apply "x" = "y" ∧ g.apply "y" = "x" ∧
      parse "x = 1\nf g(y) =>\n  x = + x y\n  r x;\nlog(g(2))" = .ok tree ∧
      tree.IsProgram (fun _ => True) ∧ analyze tree = .ok ss ∧
      analyze (tree.rename g) = .ok (ss.map (Node.rename g)) ∧
      (Node.program (ss.map (Node.rename g))).optimize =
        (Node.program ss).optimize.map (Node.rename g) := by
  let g : Renaming := .swap ⟨"x", by decide⟩ ⟨"y", by decide⟩ (by decide) (by decide)
  have haccepted : (parse "x = 1\nf g(y) =>\n  x = + x y\n  r x;\nlog(g(2))" |>.toOption.bind
      fun tree => (analyze tree).toOption).isSome := by
    decide +kernel
  cases hparse : parse "x = 1\nf g(y) =>\n  x = + x y\n  r x;\nlog(g(2))" with
  | error e =>
    rw [hparse] at haccepted
    contradiction
  | ok tree =>
    rw [hparse] at haccepted
    have hprogram := isProgram_of_parse (P := fun _ => True) hparse fun _ _ => trivial
    obtain ⟨hok, -, hoptimize⟩ := analyze_rename g hprogram
    cases hanalyze : analyze tree with
    | error e => simp [Except.toOption, hanalyze] at haccepted
    | ok ss =>
      have hprogram' := hoptimize (.program ss)
      rw [Node.rename, Node.renameAll_eq_map] at hprogram'
      exact ⟨g, tree, ss, by decide, by decide, rfl, hprogram, hanalyze, hok ss hanalyze, hprogram'⟩

end Terse
