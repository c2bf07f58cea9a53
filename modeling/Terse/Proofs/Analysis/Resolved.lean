import Terse.Proofs.Analysis.Walk

/-! What name resolution makes of a tree, as a relation, and that it makes nothing else. -/
namespace Terse

namespace Analysis

open Node (ExpSort)

variable {P : Token → Prop}

/-- `ExpTo P sc k t n`: in the scopes `sc` the tree `t` stands for the expression `n`. -/
inductive ExpTo (P : Token → Prop) (sc : Scope) : ExpSort → Tree → Node → Prop
  | number {t : Token} {a : Number} {loc : Option Loc} :
      t.Is P .number → Numeral.read t.text.toList = .ok a →
      ExpTo P sc .value (.node .number [.token t] loc) (.number a)
  | string {t : Token} {v : Text} {loc : Option Loc} :
      t.Is P .string → Literal.value t.text.toList = .ok v →
      ExpTo P sc .value (.node .string [.token t] loc) (.string v)
  | trueLit {loc : Option Loc} : ExpTo P sc .value (.node .trueLit [] loc) (.boolean true)
  | falseLit {loc : Option Loc} : ExpTo P sc .value (.node .falseLit [] loc) (.boolean false)
  | var {t : Token} {s : Symbol} {loc : Option Loc} :
      t.Is P .name → sc.lookup t.text = some s →
      ExpTo P sc .value (.node .var [.token t] loc) (.symbol s)
  | call {t : Token} {f : Symbol} {intrinsic : Bool} {args : List Tree} {ns : List Node}
      {loc : Option Loc} :
      t.Is P .name → sc.lookup t.text = some f → f.kind = .fn args.length intrinsic →
      args.length = ns.length → (∀ p ∈ args.zip ns, ExpTo P sc .value p.1 p.2) →
      ExpTo P sc .value (.node .call (.token t :: args) loc) (.call (.symbol f) ns)
  | array {es : List Tree} {ns : List Node} {loc : Option Loc} :
      es.length = ns.length → (∀ p ∈ es.zip ns, ExpTo P sc .value p.1 p.2) →
      ExpTo P sc .value (.node .array es loc) (.array ns)
  | dict {es : List Tree} {ns : List Node} {loc : Option Loc} :
      es.length = ns.length → (∀ p ∈ es.zip ns, ExpTo P sc .entry p.1 p.2) →
      ExpTo P sc .value (.node .dict es loc) (.dict ns)
  | dictItem {t : Token} {e : Tree} {n : Node} {loc : Option Loc} :
      t.Is P .name → ExpTo P sc .value e n →
      ExpTo P sc .entry (.node .dictItem [.token t, e] loc) (.dictItem t.text n)
  | member {object : Tree} {t : Token} {n : Node} {loc : Option Loc} :
      ExpTo P sc .value object n → t.Is P .name →
      ExpTo P sc .value (.node .member [object, .token t] loc) (.member n "." t.text)
  | optionalMember {object : Tree} {t : Token} {n : Node} {loc : Option Loc} :
      ExpTo P sc .value object n → t.Is P .name →
      ExpTo P sc .value (.node .optionalMember [object, .token t] loc) (.member n "?." t.text)
  | subscript {collection index : Tree} {n i : Node} {loc : Option Loc} :
      ExpTo P sc .value collection n → ExpTo P sc .value index i →
      ExpTo P sc .value (.node .subscript [collection, index] loc) (.subscript n i)
  | postfixUnary {operand : Tree} {t : Token} {n : Node} {loc : Option Loc} :
      ExpTo P sc .value operand n → t.Is P .incDec ∨ t.Is P .factorial →
      ExpTo P sc .value (.node .postfixUnary [operand, .token t] loc) (.unary (.ofWord t.text) n)
  | unary {t : Token} {operand : Tree} {n : Node} {loc : Option Loc} :
      t.Is P .unary → ExpTo P sc .value operand n →
      ExpTo P sc .value (.node .unary [.token t, operand] loc) (.unary (.ofWord t.text) n)
  | power {left right : Tree} {l r : Node} {loc : Option Loc} :
      ExpTo P sc .value left l → ExpTo P sc .value right r →
      ExpTo P sc .value (.node .power [left, right] loc) (.binary .pow l r)
  | binary {t : Token} {left right : Tree} {l r : Node} {loc : Option Loc} :
      t.Is P .arith → ExpTo P sc .value left l → ExpTo P sc .value right r →
      ExpTo P sc .value (.node .binary [.token t, left, right] loc) (.binary (.ofWord t.text) l r)
  | relational {left right : Tree} {t : Token} {l r : Node} {loc : Option Loc} :
      ExpTo P sc .value left l → t.Is P .relop → ExpTo P sc .value right r →
      ExpTo P sc .value (.node .relational [left, .token t, right] loc)
        (.binary (.ofWord t.text) l r)
  | andExp {left right : Tree} {l r : Node} {loc : Option Loc} :
      ExpTo P sc .value left l → ExpTo P sc .value right r →
      ExpTo P sc .value (.node .andExp [left, right] loc) (.binary .and l r)
  | orExp {left right : Tree} {l r : Node} {loc : Option Loc} :
      ExpTo P sc .value left l → ExpTo P sc .value right r →
      ExpTo P sc .value (.node .orExp [left, right] loc) (.binary .or l r)
  | conditional {test yes no : Tree} {c y n : Node} {loc : Option Loc} :
      ExpTo P sc .value test c → ExpTo P sc .value yes y → ExpTo P sc .value no n →
      ExpTo P sc .value (.node .conditional [test, yes, no] loc) (.conditional c y n)

variable {L : Option Loc → Prop} {E : AnalysisError → Prop} {s : State}

/-- Expressions in a row leave the state unchanged if each of them does. -/
theorem ends_nodes {k : ExpSort} {es : List Tree}
    (h : ∀ e ∈ es, Ends E (node e) s fun n s' => s' = s ∧ ExpTo P s.scope k e n) :
    Ends E (nodes es) s fun ns s' =>
      s' = s ∧ es.length = ns.length ∧ ∀ p ∈ es.zip ns, ExpTo P s.scope k p.1 p.2 := by
  induction es with
  | nil => exact ends_pure ⟨rfl, rfl, by simp⟩
  | cons e es ih =>
    obtain ⟨he, hes⟩ := List.forall_mem_cons.1 h
    refine ends_bind he ?_
    rintro n _ ⟨rfl, hn⟩
    refine ends_stay (ih hes) ?_
    rintro ns ⟨hl, hns⟩
    exact ends_pure ⟨rfl, by simp [hl], List.forall_mem_cons.2 ⟨hn, hns⟩⟩

/-- A node with one part that is resolved. -/
theorem ends_part {t : Tree} {Q : Node → Prop} (f : Node → Node)
    (h : Ends E (node t) s fun n s' => s' = s ∧ ExpTo P s.scope .value t n)
    (hQ : ∀ n, ExpTo P s.scope .value t n → Q (f n)) :
    Ends E (do return f (← node t)) s fun n s' => s' = s ∧ Q n := by
  refine ends_bind h ?_
  rintro n _ ⟨rfl, hn⟩
  exact ends_pure ⟨rfl, hQ n hn⟩

/-- A node with two parts that are resolved one after the other. -/
theorem ends_parts {t₁ t₂ : Tree} {Q : Node → Prop} (f : Node → Node → Node)
    (h₁ : Ends E (node t₁) s fun n s' => s' = s ∧ ExpTo P s.scope .value t₁ n)
    (h₂ : Ends E (node t₂) s fun n s' => s' = s ∧ ExpTo P s.scope .value t₂ n)
    (hQ : ∀ a b, ExpTo P s.scope .value t₁ a → ExpTo P s.scope .value t₂ b → Q (f a b)) :
    Ends E (do let a ← node t₁; return f a (← node t₂)) s fun n s' => s' = s ∧ Q n := by
  refine ends_bind h₁ ?_
  rintro a _ ⟨rfl, ha⟩
  exact ends_part (f a) h₂ fun b hb => hQ a b ha hb

/-- Expressions leave the scopes as they are. -/
theorem ends_exp {k : ExpSort} {t : Tree} (hE : Allows P L E) (h : Tree.IsExp P k t)
    (hs : t.Sited L) :
    Ends E (node t) s fun n s' => s' = s ∧ ExpTo P s.scope k t n := by
  induction h with
  | number ht =>
    refine (ends_readNumber hE ht).mono ?_
    rintro _ _ ⟨rfl, a, ha, rfl⟩
    exact ⟨rfl, .number ht ha⟩
  | string ht =>
    refine (ends_readString hE ht).mono ?_
    rintro _ _ ⟨rfl, v, hv, rfl⟩
    exact ⟨rfl, .string ht hv⟩
  | trueLit => exact ends_pure ⟨rfl, .trueLit⟩
  | falseLit => exact ends_pure ⟨rfl, .falseLit⟩
  | var ht =>
    refine ends_stay (ends_resolve hE ht) fun sym hsym => ?_
    exact ends_pure ⟨rfl, .var ht hsym⟩
  | @call t args loc ht _ ih =>
    refine ends_stay (ends_resolve hE ht) fun f hf => ?_
    split
    · exact ends_fail hE ht rfl
    · rename_i arity intrinsic hkind
      refine ends_stay (ends_nodes fun e he => ih e he (hs.tail e he)) ?_
      rintro ns ⟨hl, hns⟩
      split
      · rename_i harity
        exact ends_pure ⟨rfl, .call ht hf (by rw [hkind, ← harity, hl]) hl hns⟩
      · exact hE.placed hs.call rfl rfl
  | array _ ih =>
    refine ends_stay (ends_nodes fun e he => ih e he (hs.kids e he)) ?_
    rintro ns ⟨hl, hns⟩
    exact ends_pure ⟨rfl, .array hl hns⟩
  | dict _ ih =>
    refine ends_stay (ends_nodes fun e he => ih e he (hs.kids e he)) ?_
    rintro ns ⟨hl, hns⟩
    exact ends_pure ⟨rfl, .dict hl hns⟩
  | dictItem ht _ ih => exact ends_part _ (ih (hs.kid 1 rfl)) fun _ hn => .dictItem ht hn
  | member _ ht ih => exact ends_part _ (ih (hs.kid 0 rfl)) fun _ hn => .member hn ht
  | optionalMember _ ht ih =>
    exact ends_part _ (ih (hs.kid 0 rfl)) fun _ hn => .optionalMember hn ht
  | postfixUnary _ ht ih => exact ends_part _ (ih (hs.kid 0 rfl)) fun _ hn => .postfixUnary hn ht
  | unary ht _ ih => exact ends_part _ (ih (hs.kid 1 rfl)) fun _ hn => .unary ht hn
  | subscript _ _ ihc ihi =>
    exact ends_parts _ (ihc (hs.kid 0 rfl)) (ihi (hs.kid 1 rfl)) fun _ _ hc hi => .subscript hc hi
  | power _ _ ihl ihr =>
    exact ends_parts _ (ihl (hs.kid 0 rfl)) (ihr (hs.kid 1 rfl)) fun _ _ hl hr => .power hl hr
  | binary ht _ _ ihl ihr =>
    exact ends_parts _ (ihl (hs.kid 1 rfl)) (ihr (hs.kid 2 rfl)) fun _ _ hl hr => .binary ht hl hr
  | relational _ ht _ ihl ihr =>
    exact ends_parts _ (ihl (hs.kid 0 rfl)) (ihr (hs.kid 2 rfl)) fun _ _ hl hr =>
      .relational hl ht hr
  | andExp _ _ ihl ihr =>
    exact ends_parts _ (ihl (hs.kid 0 rfl)) (ihr (hs.kid 1 rfl)) fun _ _ hl hr => .andExp hl hr
  | orExp _ _ ihl ihr =>
    exact ends_parts _ (ihl (hs.kid 0 rfl)) (ihr (hs.kid 1 rfl)) fun _ _ hl hr => .orExp hl hr
  | conditional _ _ _ iht ihy ihn =>
    refine ends_bind (iht (hs.kid 0 rfl)) ?_
    rintro c _ ⟨rfl, hc⟩
    exact ends_parts _ (ihy (hs.kid 1 rfl)) (ihn (hs.kid 2 rfl)) fun _ _ hy hn =>
      .conditional hc hy hn

/-- What is resolved, and what it becomes. -/
inductive Code where
  | stmt (t : Tree) (n : Node)
  | row (ts : List Tree) (ns : List Node)

/-- `StmtTo P c outer f u f' u'`: inside the scopes `outer`, the code `c` is resolved in the scope
`f`, with `u` as the next number, and leaves the scope `f'` and the number `u'`. -/
inductive StmtTo (P : Token → Prop) : Code → Scope → Frame → Nat → Frame → Nat → Prop
  | assign {t : Token} {e : Tree} {n : Node} {s : Symbol} {loc : Option Loc} {outer : Scope}
      {f : Frame} {u : Nat} :
      t.Is P .name → ExpTo P (f :: outer) .value e n →
      Scope.lookup (f :: outer) t.text = some s → s.isWritable →
      StmtTo P (.stmt (.node .varDecl [.token t, e] loc) (.assign (.symbol s) n)) outer f u f u
  | declare {t : Token} {e : Tree} {n : Node} {loc : Option Loc} {outer : Scope} {f f' : Frame}
      {u : Nat} :
      t.Is P .name → ExpTo P (f :: outer) .value e n →
      (∀ s, Scope.lookup (f :: outer) t.text = some s → s.isWritable = false) →
      f.declare (fresh t u (.var false)) t.loc = .ok f' →
      StmtTo P (.stmt (.node .varDecl [.token t, e] loc)
        (.declare (.symbol (fresh t u (.var false))) n)) outer f u f' (u + 1)
  | indexAssign {t : Token} {index e : Tree} {i n : Node} {s : Symbol} {loc : Option Loc}
      {outer : Scope} {f : Frame} {u : Nat} :
      t.Is P .name → Scope.lookup (f :: outer) t.text = some s →
      ExpTo P (f :: outer) .value index i → ExpTo P (f :: outer) .value e n →
      StmtTo P (.stmt (.node .indexAssign [.token t, index, e] loc)
        (.assign (.subscript (.symbol s) i) n)) outer f u f u
  | memberAssign {t field : Token} {e : Tree} {n : Node} {s : Symbol} {loc : Option Loc}
      {outer : Scope} {f : Frame} {u : Nat} :
      t.Is P .name → field.Is P .name → Scope.lookup (f :: outer) t.text = some s →
      ExpTo P (f :: outer) .value e n →
      StmtTo P (.stmt (.node .memberAssign [.token t, .token field, e] loc)
        (.assign (.member (.symbol s) "." field.text) n)) outer f u f u
  | mathAssign {t op : Token} {e : Tree} {n : Node} {s : Symbol} {loc : Option Loc}
      {outer : Scope} {f : Frame} {u : Nat} :
      t.Is P .name → op.Is P .mathAssign → Scope.lookup (f :: outer) t.text = some s →
      s.isFunction = false → ExpTo P (f :: outer) .value e n →
      StmtTo P (.stmt (.node .mathAssign [.token t, .token op, e] loc)
        (.assign (.symbol s) (.binary (compoundOp (.token op)) (.symbol s) n))) outer f u f u
  | incDecStmt {operand : Tree} {op : Token} {n : Node} {loc : Option Loc} {outer : Scope}
      {f : Frame} {u : Nat} :
      ExpTo P (f :: outer) .value operand n → op.Is P .incDec →
      StmtTo P (.stmt (.node .incDecStmt [operand, .token op] loc) (.unary (.ofWord op.text) n))
        outer f u f u
  | callStmt {t : Token} {args : List Tree} {n : Node} {l loc : Option Loc} {outer : Scope}
      {f : Frame} {u : Nat} :
      ExpTo P (f :: outer) .value (.node .call (.token t :: args) l) n →
      StmtTo P (.stmt (.node .callStmt [.node .call (.token t :: args) l] loc) (callStatement n))
        outer f u f u
  | function {t : Token} {params : List Token} {vs : List Symbol} {body : List Tree}
      {ns : List Node} {l loc : Option Loc} {outer : Scope} {f f' g g' : Frame} {u v u' : Nat} :
      t.Is P .name → f.declare (fresh t u (.fn params.length false)) t.loc = .ok f' →
      Introduced params (.functionChild (fresh t u (.fn params.length false))) (u + 1) vs g v →
      StmtTo P (.row body ns) (f' :: outer) g v g' u' →
      StmtTo P
        (.stmt (.node .funcDecl (.token t :: .node .params (params.map .token) l :: body) loc)
          (.function (.symbol (fresh t u (.fn params.length false))) (vs.map .symbol) ns))
        outer f u f' u'
  | ifOnly {test : Tree} {yes : List Tree} {c : Node} {ys : List Node} {l loc : Option Loc}
      {outer : Scope} {f g : Frame} {u u' : Nat} :
      ExpTo P (f :: outer) .value test c →
      StmtTo P (.row yes ys) (f :: outer) (f.child none none) u g u' →
      StmtTo P (.stmt (.node .ifStmt [test, .node .block yes l] loc) (.ifOnly c ys)) outer f u f u'
  | ifChain {test : Tree} {yes chain : List Tree} {c n : Node} {ys : List Node}
      {l l' loc : Option Loc} {outer : Scope} {f f' g : Frame} {u v u' : Nat} :
      ExpTo P (f :: outer) .value test c →
      StmtTo P (.row yes ys) (f :: outer) (f.child none none) u g v →
      StmtTo P (.stmt (.node .ifStmt chain l') n) outer f v f' u' →
      StmtTo P (.stmt (.node .ifStmt [test, .node .block yes l, .node .ifStmt chain l'] loc)
        (.ifElse c ys n)) outer f u f' u'
  | ifElse {test : Tree} {yes no : List Tree} {c : Node} {ys ns : List Node}
      {l l' loc : Option Loc} {outer : Scope} {f g g' : Frame} {u v u' : Nat} :
      ExpTo P (f :: outer) .value test c →
      StmtTo P (.row yes ys) (f :: outer) (f.child none none) u g v →
      StmtTo P (.row no ns) (f :: outer) (f.child none none) v g' u' →
      StmtTo P (.stmt (.node .ifStmt [test, .node .block yes l, .node .block no l'] loc)
        (.ifElse c ys (.list ns))) outer f u f u'
  | whileStmt {test : Tree} {body : List Tree} {c : Node} {ns : List Node} {l loc : Option Loc}
      {outer : Scope} {f g : Frame} {u u' : Nat} :
      ExpTo P (f :: outer) .value test c →
      StmtTo P (.row body ns) (f :: outer) (f.child (some true) none) u g u' →
      StmtTo P (.stmt (.node .whileStmt [test, .node .block body l] loc) (.whileLoop c ns))
        outer f u f u'
  | repeatNumber {times count : Token} {a : Number} {body : List Tree} {ns : List Node}
      {l loc : Option Loc} {outer : Scope} {f g : Frame} {u u' : Nat} :
      count.Is P .number → Numeral.read count.text.toList = .ok a →
      StmtTo P (.row body ns) (f :: outer) (f.child (some true) none) u g u' →
      StmtTo P (.stmt (.node .repeatStmt [.token times, .token count, .node .block body l] loc)
        (.repeatLoop (.number a) ns)) outer f u f u'
  | repeatName {times count : Token} {s : Symbol} {body : List Tree} {ns : List Node}
      {l loc : Option Loc} {outer : Scope} {f g : Frame} {u u' : Nat} :
      count.Is P .name → Scope.lookup (f :: outer) count.text = some s → s.isFunction = false →
      StmtTo P (.row body ns) (f :: outer) (f.child (some true) none) u g u' →
      StmtTo P (.stmt (.node .repeatStmt [.token times, .token count, .node .block body l] loc)
        (.repeatLoop (.symbol s) ns)) outer f u f u'
  | rangeStmt {t : Token} {low high : Tree} {a b : Node} {body : List Tree} {ns : List Node}
      {l loc : Option Loc} {outer : Scope} {f g g' : Frame} {u u' : Nat} :
      t.Is P .name → ExpTo P (f :: outer) .value low a → ExpTo P (f :: outer) .value high b →
      (f.child (some true) none).declare (fresh t u (.var false)) t.loc = .ok g →
      StmtTo P (.row body ns) (f :: outer) g (u + 1) g' u' →
      StmtTo P (.stmt (.node .rangeStmt [.token t, low, high, .node .block body l] loc)
        (.rangeLoop (.symbol (fresh t u (.var false))) a b (.number (.int 1)) ns)) outer f u f u'
  | steppedStmt {t : Token} {low high step : Tree} {a b c : Node} {body : List Tree}
      {ns : List Node} {l loc : Option Loc} {outer : Scope} {f g g' : Frame} {u u' : Nat} :
      t.Is P .name → ExpTo P (f :: outer) .value low a → ExpTo P (f :: outer) .value high b →
      ExpTo P (f :: outer) .value step c →
      (f.child (some true) none).declare (fresh t u (.var false)) t.loc = .ok g →
      StmtTo P (.row body ns) (f :: outer) g (u + 1) g' u' →
      StmtTo P (.stmt (.node .rangeStmt [.token t, low, high, step, .node .block body l] loc)
        (.rangeLoop (.symbol (fresh t u (.var false))) a b c ns)) outer f u f u'
  | forStmt {t : Token} {collection : Tree} {c : Node} {body : List Tree} {ns : List Node}
      {l loc : Option Loc} {outer : Scope} {f g g' : Frame} {u u' : Nat} :
      t.Is P .name → ExpTo P (f :: outer) .value collection c →
      (f.child (some true) none).declare (fresh t u (.var false)) t.loc = .ok g →
      StmtTo P (.row body ns) (f :: outer) g (u + 1) g' u' →
      StmtTo P (.stmt (.node .forStmt [.token t, collection, .node .block body l] loc)
        (.eachLoop (.symbol (fresh t u (.var false))) c ns)) outer f u f u'
  | breakStmt {t : Token} {loc : Option Loc} {outer : Scope} {f : Frame} {u : Nat} :
      f.inLoop → StmtTo P (.stmt (.node .breakStmt [.token t] loc) .breakLoop) outer f u f u
  | continueStmt {t : Token} {loc : Option Loc} {outer : Scope} {f : Frame} {u : Nat} :
      f.inLoop → StmtTo P (.stmt (.node .continueStmt [.token t] loc) .continueLoop) outer f u f u
  | returnStmt {t : Token} {e : Tree} {n : Node} {loc : Option Loc} {outer : Scope} {f : Frame}
      {u : Nat} :
      f.function.isSome → ExpTo P (f :: outer) .value e n →
      StmtTo P (.stmt (.node .returnStmt [.token t, e] loc) (.returnValue n)) outer f u f u
  | shortReturnStmt {t : Token} {loc : Option Loc} {outer : Scope} {f : Frame} {u : Nat} :
      f.function.isSome →
      StmtTo P (.stmt (.node .shortReturnStmt [.token t] loc) .returnNone) outer f u f u
  | throwStmt {e : Tree} {n : Node} {loc : Option Loc} {outer : Scope} {f : Frame} {u : Nat} :
      ExpTo P (f :: outer) .value e n →
      StmtTo P (.stmt (.node .throwStmt [e] loc) (.throwValue n)) outer f u f u
  | tryStmt {body handler : List Tree} {params : List Token} {vs : List Symbol}
      {ns hs : List Node} {l l' l'' loc : Option Loc} {outer : Scope} {f g h h' : Frame}
      {u v w u' : Nat} :
      StmtTo P (.row body ns) (f :: outer) (f.child none none) u g v →
      Introduced params (f.child none none) v vs h w →
      StmtTo P (.row handler hs) (f :: outer) h w h' u' →
      StmtTo P (.stmt (.node .tryStmt [.node .block body l, .node .params (params.map .token) l',
        .node .block handler l''] loc) (.tryCatch ns (vs.map .symbol) hs)) outer f u f u'
  | nil {outer : Scope} {f : Frame} {u : Nat} : StmtTo P (.row [] []) outer f u f u
  | cons {t : Tree} {ts : List Tree} {n : Node} {ns : List Node} {outer : Scope}
      {f f₁ f' : Frame} {u u₁ u' : Nat} :
      StmtTo P (.stmt t n) outer f u f₁ u₁ → StmtTo P (.row ts ns) outer f₁ u₁ f' u' →
      StmtTo P (.row (t :: ts) (n :: ns)) outer f u f' u'

/-- A statement is resolved as the relation says, wherever it stands. -/
def StmtEnds (P : Token → Prop) (E : AnalysisError → Prop) (t : Tree) : Prop :=
  ∀ (outer : Scope) (f : Frame) (u : Nat), Ends E (node t) ⟨f :: outer, u⟩ fun n s' =>
    ∃ f' u', s' = ⟨f' :: outer, u'⟩ ∧ StmtTo P (.stmt t n) outer f u f' u'

variable {ts : List Tree} {outer : Scope} {f g : Frame} {u : Nat}

/-- Statements are walked in turn, each in the frame that the one before leaves. -/
theorem ends_row (h : ∀ t ∈ ts, StmtEnds P E t) :
    Ends E (nodes ts) ⟨f :: outer, u⟩ fun ns s' =>
      ∃ f' u', s' = ⟨f' :: outer, u'⟩ ∧ StmtTo P (.row ts ns) outer f u f' u' := by
  induction ts generalizing f u with
  | nil => exact ends_pure ⟨f, u, rfl, .nil⟩
  | cons t ts ih =>
    obtain ⟨ht, hts⟩ := List.forall_mem_cons.1 h
    refine ends_bind (ht outer f u) ?_
    rintro n _ ⟨f₁, u₁, rfl, hn⟩
    refine ends_bind (ih hts) ?_
    rintro ns _ ⟨f', u', rfl, hns⟩
    exact ends_pure ⟨f', u', rfl, .cons hn hns⟩

theorem ends_inside_row (h : ∀ t ∈ ts, StmtEnds P E t) :
    Ends E (inside g (nodes ts)) ⟨f :: outer, u⟩ fun ns s' =>
      ∃ g' u', s' = ⟨f :: outer, u'⟩ ∧ StmtTo P (.row ts ns) (f :: outer) g u g' u' := by
  refine ends_inside ((ends_row h).mono ?_)
  rintro ns _ ⟨g', u', rfl, hns⟩
  exact ⟨g', u', rfl, hns⟩

/-- A part in a scope of its own. -/
theorem ends_framed {frame : Walk Frame}
    (hframe : Ends E frame ⟨f :: outer, u⟩ fun g' s' => g' = g ∧ s' = ⟨f :: outer, u⟩)
    (h : ∀ t ∈ ts, StmtEnds P E t) {α : Type} {Q : α → State → Prop} {k : List Node → Walk α}
    (hk : ∀ ns g' u', StmtTo P (.row ts ns) (f :: outer) g u g' u' →
      Ends E (k ns) ⟨f :: outer, u'⟩ Q) :
    Ends E (do let ns ← inside (← frame) (nodes ts); k ns) ⟨f :: outer, u⟩ Q := by
  refine ends_bind hframe ?_
  rintro _ _ ⟨rfl, rfl⟩
  refine ends_bind (ends_inside_row h) ?_
  rintro ns _ ⟨g', u', rfl, hns⟩
  exact hk ns g' u' hns

/-- The body of a loop that declares its variable. -/
theorem ends_binder (hE : Allows P L E) (h : ∀ t ∈ ts, StmtEnds P E t) {t : Token}
    (ht : t.Is P .name) {k : Symbol → List Node → Node} {Q : Node → State → Prop}
    (hk : ∀ ns g g' u', (f.child (some true) none).declare (fresh t u (.var false)) t.loc = .ok g →
      StmtTo P (.row ts ns) (f :: outer) g (u + 1) g' u' →
      Q (k (fresh t u (.var false)) ns) ⟨f :: outer, u'⟩) :
    Ends E (do
      inside (← loopFrame) do
        let i ← declareVariable (.token t)
        return k i (← nodes ts)) ⟨f :: outer, u⟩ Q := by
  refine ends_bind ends_loopFrame ?_
  rintro _ _ ⟨rfl, rfl⟩
  refine ends_inside (ends_bind (ends_declare hE ht _) ?_)
  rintro _ _ ⟨g, hg, rfl, rfl⟩
  refine ends_bind (ends_row h) ?_
  rintro ns _ ⟨g', u', rfl, hns⟩
  exact ends_pure (hk ns g g' u' hg hns)

/-- An assignment declares its name where no variable of that name is in sight. -/
theorem ends_assignName {t : Token} {e : Tree} {n : Node} {loc : Option Loc} (hE : Allows P L E)
    (ht : t.Is P .name) (hn : ExpTo P (f :: outer) .value e n) :
    Ends E (assignName (.token t) n) ⟨f :: outer, u⟩ fun n s' =>
      ∃ f' u', s' = ⟨f' :: outer, u'⟩ ∧
        StmtTo P (.stmt (.node .varDecl [.token t, e] loc) n) outer f u f' u' := by
  have hintroduce (hw : ∀ s, Scope.lookup (f :: outer) t.text = some s → s.isWritable = false) :
      Ends E (assignName.introduce (.token t) n) ⟨f :: outer, u⟩ fun n s' =>
        ∃ f' u', s' = ⟨f' :: outer, u'⟩ ∧
          StmtTo P (.stmt (.node .varDecl [.token t, e] loc) n) outer f u f' u' := by
    refine ends_bind (ends_declare hE ht _) ?_
    rintro _ _ ⟨f', hf', rfl, rfl⟩
    exact ends_pure ⟨f', u + 1, rfl, .declare ht hn hw hf'⟩
  refine ends_bind (Q := fun found s' =>
    found = Scope.lookup (f :: outer) t.text ∧ s' = ⟨f :: outer, u⟩) ⟨rfl, rfl⟩ ?_
  rintro found _ ⟨hfound, rfl⟩
  split
  · rename_i s
    split
    · rename_i hs
      exact ends_pure ⟨f, u, rfl, .assign ht hn hfound.symm hs⟩
    · rename_i hs
      refine hintroduce fun s' hs' => ?_
      obtain rfl := Option.some.inj (hfound.trans hs')
      exact Bool.eq_false_iff.2 hs
  · exact hintroduce fun s' hs' => by simp [hs'] at hfound

/-- A statement ends in the scope that the relation gives, or in an allowed error. -/
theorem ends_stmt {t : Tree} (hE : Allows P L E) (h : Tree.IsStmt P t) (hs : t.Sited L) :
    StmtEnds P E t := by
  induction h with
  | varDecl ht he =>
    intro outer f u
    refine ends_stay (ends_exp hE he (hs.kid 1 rfl)) fun n hn => ?_
    exact ends_assignName hE ht hn
  | indexAssign ht hi he =>
    intro outer f u
    refine ends_stay (ends_resolve hE ht) fun s hsym => ?_
    refine ends_stay (ends_exp hE hi (hs.kid 1 rfl)) fun i hi => ?_
    refine ends_stay (ends_exp hE he (hs.kid 2 rfl)) fun n hn => ?_
    exact ends_pure ⟨f, u, rfl, .indexAssign ht hsym hi hn⟩
  | memberAssign ht hfield he =>
    intro outer f u
    refine ends_stay (ends_resolve hE ht) fun s hsym => ?_
    refine ends_stay (ends_exp hE he (hs.kid 2 rfl)) fun n hn => ?_
    exact ends_pure ⟨f, u, rfl, .memberAssign ht hfield hsym hn⟩
  | mathAssign ht hop he =>
    intro outer f u
    refine ends_stay (ends_resolveVariable hE ht) ?_
    rintro s ⟨hsym, hv⟩
    refine ends_stay (ends_exp hE he (hs.kid 2 rfl)) fun n hn => ?_
    exact ends_pure ⟨f, u, rfl, .mathAssign ht hop hsym hv hn⟩
  | incDecStmt he hop =>
    intro outer f u
    refine ends_stay (ends_exp hE he (hs.kid 0 rfl)) fun n hn => ?_
    exact ends_pure ⟨f, u, rfl, .incDecStmt hn hop⟩
  | callStmt ht hargs =>
    intro outer f u
    refine ends_stay (ends_exp hE (.call ht hargs) (hs.kid 0 rfl)) fun n hn => ?_
    exact ends_pure ⟨f, u, rfl, .callStmt hn⟩
  | @funcDecl t params body l loc ht hparams _ ih =>
    intro outer f u
    have hbody := fun t h => ih t h ((List.forall_mem_cons.1 hs.tail).2 t h)
    refine ends_bind (ends_declare hE ht (.fn (params.map Tree.token).length false)) ?_
    rintro _ _ ⟨f', hf', rfl, rfl⟩
    rw [List.length_map] at hf' ⊢
    refine ends_inside (ends_bind (ends_declareVariables hE hparams) ?_)
    rintro _ _ ⟨vs, g, v, hvs, rfl, rfl⟩
    refine ends_bind (ends_row hbody) ?_
    rintro ns _ ⟨g', u', rfl, hns⟩
    exact ends_pure ⟨f', u', rfl, .function ht hf' hvs hns⟩
  | ifOnly ht _ ih =>
    intro outer f u
    have hbody := fun t h => ih t h ((hs.kid 1 rfl).kids t h)
    refine ends_stay (ends_exp hE ht (hs.kid 0 rfl)) fun c hc => ?_
    exact ends_framed ends_blockFrame hbody fun ys g u' hys =>
      ends_pure ⟨f, u', rfl, .ifOnly hc hys⟩
  | ifChain ht _ _ ih ihchain =>
    intro outer f u
    have hbody := fun t h => ih t h ((hs.kid 1 rfl).kids t h)
    refine ends_stay (ends_exp hE ht (hs.kid 0 rfl)) fun c hc => ?_
    refine ends_framed ends_blockFrame hbody fun ys g v hys =>
      ends_bind (ihchain (hs.kid 2 rfl) outer f v) ?_
    rintro n _ ⟨f', u', rfl, hn⟩
    exact ends_pure ⟨f', u', rfl, .ifChain hc hys hn⟩
  | ifElse ht _ _ ihyes ihno =>
    intro outer f u
    have hyes := fun t h => ihyes t h ((hs.kid 1 rfl).kids t h)
    have hno := fun t h => ihno t h ((hs.kid 2 rfl).kids t h)
    refine ends_stay (ends_exp hE ht (hs.kid 0 rfl)) fun c hc => ?_
    refine ends_framed ends_blockFrame hyes fun ys g v hys =>
      ends_framed ends_blockFrame hno fun ns g' u' hns => ?_
    exact ends_pure ⟨f, u', rfl, .ifElse hc hys hns⟩
  | whileStmt ht _ ih =>
    intro outer f u
    have hbody := fun t h => ih t h ((hs.kid 1 rfl).kids t h)
    refine ends_stay (ends_exp hE ht (hs.kid 0 rfl)) fun c hc => ?_
    exact ends_framed ends_loopFrame hbody fun ns g u' hns =>
      ends_pure ⟨f, u', rfl, .whileStmt hc hns⟩
  | @repeatStmt times count body l loc hcount _ ih =>
    intro outer f u
    have hbody := fun t h => ih t h ((hs.kid 2 rfl).kids t h)
    change Ends E (ite (count.kind = .number) _ _) _ _
    obtain hcount | hcount := hcount
    · rw [if_pos hcount.kind_eq]
      refine ends_stay (ends_readNumber hE hcount) ?_
      rintro _ ⟨a, ha, rfl⟩
      exact ends_framed ends_loopFrame hbody fun ns g u' hns =>
        ends_pure ⟨f, u', rfl, .repeatNumber hcount ha hns⟩
    · rw [if_neg (by simp [hcount.kind_eq])]
      refine ends_bind (ends_map (R := fun n s' => s' = ⟨f :: outer, u⟩ ∧ ∃ s : Symbol,
        Scope.lookup (f :: outer) count.text = some s ∧ s.isFunction = false ∧ n = Node.symbol s)
        (ends_resolveVariable hE hcount) ?_) ?_
      · rintro s _ ⟨rfl, hsym, hv⟩
        exact ⟨rfl, s, hsym, hv, rfl⟩
      · rintro _ _ ⟨rfl, s, hsym, hv, rfl⟩
        exact ends_framed ends_loopFrame hbody fun ns g u' hns =>
          ends_pure ⟨f, u', rfl, .repeatName hcount hsym hv hns⟩
  | rangeStmt ht hlow hhigh _ ih =>
    intro outer f u
    have hbody := fun t h => ih t h ((hs.kid 3 rfl).kids t h)
    refine ends_stay (ends_exp hE hlow (hs.kid 1 rfl)) fun a ha => ?_
    refine ends_stay (ends_exp hE hhigh (hs.kid 2 rfl)) fun b hb => ?_
    exact ends_binder hE hbody ht fun ns g g' u' hg hns => ⟨f, u', rfl, .rangeStmt ht ha hb hg hns⟩
  | steppedStmt ht hlow hhigh hstep _ ih =>
    intro outer f u
    have hbody := fun t h => ih t h ((hs.kid 4 rfl).kids t h)
    -- that the step is no block shows only once it is a node
    obtain ⟨_, _, _, rfl⟩ := hstep.exists_node
    refine ends_stay (ends_exp hE hlow (hs.kid 1 rfl)) fun a ha => ?_
    refine ends_stay (ends_exp hE hhigh (hs.kid 2 rfl)) fun b hb => ?_
    refine ends_stay (ends_exp hE hstep (hs.kid 3 rfl)) fun c hc => ?_
    exact ends_binder hE hbody ht fun ns g g' u' hg hns =>
      ⟨f, u', rfl, .steppedStmt ht ha hb hc hg hns⟩
  | forStmt ht he _ ih =>
    intro outer f u
    have hbody := fun t h => ih t h ((hs.kid 2 rfl).kids t h)
    refine ends_stay (ends_exp hE he (hs.kid 1 rfl)) fun c hc => ?_
    exact ends_binder hE hbody ht fun ns g g' u' hg hns => ⟨f, u', rfl, .forStmt ht hc hg hns⟩
  | breakStmt =>
    intro outer f u
    refine ends_stay (ends_requireLoop hE (hs.kid 0 rfl).loc rfl rfl) fun _ hf => ?_
    exact ends_pure ⟨f, u, rfl, .breakStmt hf⟩
  | continueStmt =>
    intro outer f u
    refine ends_stay (ends_requireLoop hE (hs.kid 0 rfl).loc rfl rfl) fun _ hf => ?_
    exact ends_pure ⟨f, u, rfl, .continueStmt hf⟩
  | returnStmt he =>
    intro outer f u
    refine ends_stay (ends_requireFunction hE (hs.kid 0 rfl).loc) fun _ hf => ?_
    refine ends_stay (ends_exp hE he (hs.kid 1 rfl)) fun n hn => ?_
    exact ends_pure ⟨f, u, rfl, .returnStmt hf hn⟩
  | shortReturnStmt =>
    intro outer f u
    refine ends_stay (ends_requireFunction hE (hs.kid 0 rfl).loc) fun _ hf => ?_
    exact ends_pure ⟨f, u, rfl, .shortReturnStmt hf⟩
  | throwStmt he =>
    intro outer f u
    refine ends_stay (ends_exp hE he (hs.kid 0 rfl)) fun n hn => ?_
    exact ends_pure ⟨f, u, rfl, .throwStmt hn⟩
  | @tryStmt body handler params _ _ _ _ _ hparams _ ihbody ihhandler =>
    intro outer f u
    have hbody := fun t h => ihbody t h ((hs.kid 0 rfl).kids t h)
    have hhandler := fun t h => ihhandler t h ((hs.kid 2 rfl).kids t h)
    refine ends_framed ends_blockFrame hbody fun ns g v hns => ?_
    refine ends_bind ends_blockFrame ?_
    rintro _ _ ⟨rfl, rfl⟩
    refine ends_inside (ends_bind (ends_declareVariables hE hparams) ?_)
    rintro _ _ ⟨vs, h, w, hvs, rfl, rfl⟩
    refine ends_bind (ends_row hhandler) ?_
    rintro hs _ ⟨h', u', rfl, hhs⟩
    exact ends_pure ⟨f, u', rfl, .tryStmt hns hvs hhs⟩

/-- Any error will do. -/
theorem allows_any : Allows P (fun _ => True) fun _ => True :=
  ⟨fun _ _ => trivial, fun _ _ _ => trivial, fun _ _ => trivial, fun _ _ => trivial⟩

end Analysis

open Analysis

variable {P : Token → Prop} {L : Option Loc → Prop} {E : AnalysisError → Prop} {tree : Tree}

/-- Analysis walks the statements of the tree in a fresh root frame. -/
theorem nodes_of_analyze {ss : List Node} (h : analyze tree = .ok ss) :
    ∃ s', nodes tree.kids ⟨[.root], 1⟩ = .ok (ss, s') := by
  have hrun : analyze tree = (·.1) <$> nodes tree.kids ⟨[.root], 1⟩ := rfl
  rw [hrun] at h
  cases hn : nodes tree.kids ⟨[.root], 1⟩ with
  | error e =>
    rw [hn] at h
    contradiction
  | ok p =>
    rw [hn] at h
    obtain rfl := Except.ok.inj h
    exact ⟨p.2, rfl⟩

theorem nodes_of_analyze_error {e : AnalysisError} (h : analyze tree = .error e) :
    nodes tree.kids ⟨[.root], 1⟩ = .error e := by
  have hrun : analyze tree = (·.1) <$> nodes tree.kids ⟨[.root], 1⟩ := rfl
  rw [hrun] at h
  cases hn : nodes tree.kids ⟨[.root], 1⟩ with
  | error e' =>
    rw [hn] at h
    obtain rfl := Except.error.inj h
    rfl
  | ok p =>
    rw [hn] at h
    contradiction

/-- A tree that resolves goes through every statement in turn, from the root scope on. -/
theorem stmtTo_of_analyze {ss : List Node} (h : ∀ t ∈ tree.kids, Tree.IsStmt P t)
    (hok : analyze tree = .ok ss) : ∃ f u, StmtTo P (.row tree.kids ss) [] .root 1 f u := by
  obtain ⟨s', hs'⟩ := nodes_of_analyze hok
  obtain ⟨f, u, -, hrow⟩ :=
    (ends_row fun t ht => ends_stmt allows_any (h t ht) (.of_forall t fun _ => trivial)).of_ok hs'
  exact ⟨f, u, hrow⟩

/-- Every error of analysis is an allowed one. -/
theorem allowed_of_analyze {e : AnalysisError} (hE : Allows P L E)
    (h : ∀ t ∈ tree.kids, Tree.IsStmt P t) (hs : ∀ t ∈ tree.kids, t.Sited L)
    (herror : analyze tree = .error e) : E e :=
  (ends_row fun t ht => ends_stmt hE (h t ht) (hs t ht)).of_error (nodes_of_analyze_error herror)

end Terse
