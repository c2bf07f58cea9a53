import Terse.Grammar.Language
import Terse.Proofs.Node.Formed

/-! Trees as the grammar builds them. -/
namespace Terse

/-- A token of a kind, of which `P` holds. -/
structure Token.Is (P : Token → Prop) (kind : TokenKind) (t : Token) : Prop where
  kind_eq : t.kind = kind
  holds : P t

namespace Tree

open Node (ExpSort)

variable (P : Token → Prop)

/-- The trees of expressions and of dictionary entries. -/
inductive IsExp : ExpSort → Tree → Prop
  | number {t : Token} {loc : Option Loc} :
      t.Is P .number → IsExp .value (node .number [token t] loc)
  | string {t : Token} {loc : Option Loc} :
      t.Is P .string → IsExp .value (node .string [token t] loc)
  | trueLit {loc : Option Loc} : IsExp .value (node .trueLit [] loc)
  | falseLit {loc : Option Loc} : IsExp .value (node .falseLit [] loc)
  | var {t : Token} {loc : Option Loc} : t.Is P .name → IsExp .value (node .var [token t] loc)
  | call {t : Token} {args : List Tree} {loc : Option Loc} :
      t.Is P .name → (∀ e ∈ args, IsExp .value e) → IsExp .value (node .call (token t :: args) loc)
  | array {es : List Tree} {loc : Option Loc} :
      (∀ e ∈ es, IsExp .value e) → IsExp .value (node .array es loc)
  | dict {es : List Tree} {loc : Option Loc} :
      (∀ e ∈ es, IsExp .entry e) → IsExp .value (node .dict es loc)
  | dictItem {t : Token} {e : Tree} {loc : Option Loc} :
      t.Is P .name → IsExp .value e → IsExp .entry (node .dictItem [token t, e] loc)
  | member {object : Tree} {t : Token} {loc : Option Loc} :
      IsExp .value object → t.Is P .name → IsExp .value (node .member [object, token t] loc)
  | optionalMember {object : Tree} {t : Token} {loc : Option Loc} :
      IsExp .value object → t.Is P .name → IsExp .value (node .optionalMember [object, token t] loc)
  | subscript {collection index : Tree} {loc : Option Loc} :
      IsExp .value collection → IsExp .value index →
      IsExp .value (node .subscript [collection, index] loc)
  | postfixUnary {operand : Tree} {t : Token} {loc : Option Loc} :
      IsExp .value operand → t.Is P .incDec ∨ t.Is P .factorial →
      IsExp .value (node .postfixUnary [operand, token t] loc)
  | unary {t : Token} {operand : Tree} {loc : Option Loc} :
      t.Is P .unary → IsExp .value operand → IsExp .value (node .unary [token t, operand] loc)
  | power {left right : Tree} {loc : Option Loc} :
      IsExp .value left → IsExp .value right → IsExp .value (node .power [left, right] loc)
  | binary {t : Token} {left right : Tree} {loc : Option Loc} :
      t.Is P .arith → IsExp .value left → IsExp .value right →
      IsExp .value (node .binary [token t, left, right] loc)
  | relational {left right : Tree} {t : Token} {loc : Option Loc} :
      IsExp .value left → t.Is P .relop → IsExp .value right →
      IsExp .value (node .relational [left, token t, right] loc)
  | andExp {left right : Tree} {loc : Option Loc} :
      IsExp .value left → IsExp .value right → IsExp .value (node .andExp [left, right] loc)
  | orExp {left right : Tree} {loc : Option Loc} :
      IsExp .value left → IsExp .value right → IsExp .value (node .orExp [left, right] loc)
  | conditional {test yes no : Tree} {loc : Option Loc} :
      IsExp .value test → IsExp .value yes → IsExp .value no →
      IsExp .value (node .conditional [test, yes, no] loc)

/-- The trees of statements. -/
inductive IsStmt : Tree → Prop
  | varDecl {t : Token} {e : Tree} {loc : Option Loc} :
      t.Is P .name → IsExp P .value e → IsStmt (node .varDecl [token t, e] loc)
  | indexAssign {t : Token} {index e : Tree} {loc : Option Loc} :
      t.Is P .name → IsExp P .value index → IsExp P .value e →
      IsStmt (node .indexAssign [token t, index, e] loc)
  | memberAssign {t field : Token} {e : Tree} {loc : Option Loc} :
      t.Is P .name → field.Is P .name → IsExp P .value e →
      IsStmt (node .memberAssign [token t, token field, e] loc)
  | mathAssign {t op : Token} {e : Tree} {loc : Option Loc} :
      t.Is P .name → op.Is P .mathAssign → IsExp P .value e →
      IsStmt (node .mathAssign [token t, token op, e] loc)
  | incDecStmt {operand : Tree} {op : Token} {loc : Option Loc} :
      IsExp P .value operand → op.Is P .incDec →
      IsStmt (node .incDecStmt [operand, token op] loc)
  | callStmt {t : Token} {args : List Tree} {l loc : Option Loc} :
      t.Is P .name → (∀ e ∈ args, IsExp P .value e) →
      IsStmt (node .callStmt [node .call (token t :: args) l] loc)
  | funcDecl {t : Token} {params : List Token} {body : List Tree} {l loc : Option Loc} :
      t.Is P .name → (∀ p ∈ params, p.Is P .name) → (∀ s ∈ body, IsStmt s) →
      IsStmt (node .funcDecl (token t :: node .params (params.map token) l :: body) loc)
  | ifOnly {test : Tree} {yes : List Tree} {l loc : Option Loc} :
      IsExp P .value test → (∀ s ∈ yes, IsStmt s) →
      IsStmt (node .ifStmt [test, node .block yes l] loc)
  | ifChain {test : Tree} {yes chain : List Tree} {l l' loc : Option Loc} :
      IsExp P .value test → (∀ s ∈ yes, IsStmt s) → IsStmt (node .ifStmt chain l') →
      IsStmt (node .ifStmt [test, node .block yes l, node .ifStmt chain l'] loc)
  | ifElse {test : Tree} {yes no : List Tree} {l l' loc : Option Loc} :
      IsExp P .value test → (∀ s ∈ yes, IsStmt s) → (∀ s ∈ no, IsStmt s) →
      IsStmt (node .ifStmt [test, node .block yes l, node .block no l'] loc)
  | whileStmt {test : Tree} {body : List Tree} {l loc : Option Loc} :
      IsExp P .value test → (∀ s ∈ body, IsStmt s) →
      IsStmt (node .whileStmt [test, node .block body l] loc)
  | repeatStmt {times count : Token} {body : List Tree} {l loc : Option Loc} :
      count.Is P .number ∨ count.Is P .name → (∀ s ∈ body, IsStmt s) →
      IsStmt (node .repeatStmt [token times, token count, node .block body l] loc)
  | rangeStmt {t : Token} {low high : Tree} {body : List Tree} {l loc : Option Loc} :
      t.Is P .name → IsExp P .value low → IsExp P .value high → (∀ s ∈ body, IsStmt s) →
      IsStmt (node .rangeStmt [token t, low, high, node .block body l] loc)
  | steppedStmt {t : Token} {low high step : Tree} {body : List Tree} {l loc : Option Loc} :
      t.Is P .name → IsExp P .value low → IsExp P .value high → IsExp P .value step →
      (∀ s ∈ body, IsStmt s) →
      IsStmt (node .rangeStmt [token t, low, high, step, node .block body l] loc)
  | forStmt {t : Token} {collection : Tree} {body : List Tree} {l loc : Option Loc} :
      t.Is P .name → IsExp P .value collection → (∀ s ∈ body, IsStmt s) →
      IsStmt (node .forStmt [token t, collection, node .block body l] loc)
  | breakStmt {t : Token} {loc : Option Loc} : IsStmt (node .breakStmt [token t] loc)
  | continueStmt {t : Token} {loc : Option Loc} : IsStmt (node .continueStmt [token t] loc)
  | returnStmt {t : Token} {e : Tree} {loc : Option Loc} :
      IsExp P .value e → IsStmt (node .returnStmt [token t, e] loc)
  | shortReturnStmt {t : Token} {loc : Option Loc} : IsStmt (node .shortReturnStmt [token t] loc)
  | throwStmt {e : Tree} {loc : Option Loc} :
      IsExp P .value e → IsStmt (node .throwStmt [e] loc)
  | tryStmt {body handler : List Tree} {params : List Token} {l l' l'' loc : Option Loc} :
      (∀ s ∈ body, IsStmt s) → (∀ p ∈ params, p.Is P .name) → (∀ s ∈ handler, IsStmt s) →
      IsStmt (node .tryStmt
        [node .block body l, node .params (params.map token) l', node .block handler l''] loc)

theorem IsExp.exists_node {P : Token → Prop} {k : ExpSort} {t : Tree} (h : IsExp P k t) :
    ∃ rule kids loc, t = node rule kids loc := by
  cases h <;> exact ⟨_, _, _, rfl⟩

/-- A chain of choices is read as one statement. -/
def IsChoice (t : Tree) : Prop := ∃ kids loc, t = node .ifStmt kids loc ∧ IsStmt P t

def IsBlock (t : Tree) : Prop := ∃ body loc, t = node .block body loc ∧ ∀ s ∈ body, IsStmt P s

/-- `L` holds of the places at which something can be wrong: those of tokens, and of calls. -/
inductive Sited (L : Option Loc → Prop) : Tree → Prop
  | token {t : Token} : L t.loc → Sited L (token t)
  | node {rule : Rule} {kids : List Tree} {loc : Option Loc} :
      (rule = .call → L loc) → (∀ k ∈ kids, Sited L k) → Sited L (node rule kids loc)

section

variable {L : Option Loc → Prop} {rule : Rule} {ts : List Tree} {l : Option Loc} {k : Tree}

theorem Sited.kids (h : Sited L (Tree.node rule ts l)) : ∀ k ∈ ts, Sited L k := by
  cases h with
  | node _ hkids => exact hkids

theorem Sited.kid (h : Sited L (Tree.node rule ts l)) (i : Nat) (hk : ts[i]? = some k) :
    Sited L k :=
  h.kids k (List.mem_of_getElem? hk)

theorem Sited.tail (h : Sited L (Tree.node rule (k :: ts) l)) : ∀ k ∈ ts, Sited L k :=
  (List.forall_mem_cons.1 h.kids).2

theorem Sited.call (h : Sited L (Tree.node .call ts l)) : L l := by
  cases h with
  | node hloc _ => exact hloc rfl

/-- What holds of every place holds of those of a tree. -/
theorem Sited.of_forall (t : Tree) (h : ∀ loc, L loc) : Sited L t :=
  match t with
  | .token t => .token (h t.loc)
  | .node _ kids loc => .node (fun _ => h loc) fun k _ => Sited.of_forall k h

theorem Sited.loc {t : Token} (h : Sited L (Tree.token t)) : L t.loc := by
  cases h with
  | token ht => exact ht

end

end Tree

namespace Phrase

open Terse.Tree (IsExp IsStmt IsChoice IsBlock)

variable (P : Token → Prop)

/-- What a phrase hands up. -/
def Fits : Phrase → List Tree → Prop
  | call, ts => ∃ t args loc, ts = [.node .call (.token t :: args) loc] ∧ t.Is P .name ∧
      ∀ e ∈ args, IsExp P .value e
  | primary, ts | postfixed, ts | prefixed, ts | factor, ts | sum, ts | comparison, ts
  | conjunction, ts | disjunction, ts | exp, ts => ∃ e, ts = [e] ∧ IsExp P .value e
  | arguments, ts | elements, ts => ∀ e ∈ ts, IsExp P .value e
  | dictItem, ts => ∃ e, ts = [e] ∧ IsExp P .entry e
  | entries, ts => ∀ e ∈ ts, IsExp P .entry e
  | names, ts => ∃ us : List Token, ts = us.map .token ∧ ∀ u ∈ us, u.Is P .name
  | params, ts => ∃ (us : List Token) (loc : Option Loc),
      ts = [.node .params (us.map .token) loc] ∧ ∀ u ∈ us, u.Is P .name
  | block, ts => ∃ b, ts = [b] ∧ IsBlock P b
  | ifStmt, ts => ∃ s, ts = [s] ∧ IsChoice P s
  | alternative, ts => ∃ s, ts = [s] ∧ (IsChoice P s ∨ IsBlock P s)
  | statement, ts => ∃ s, ts = [s] ∧ IsStmt P s
  | body, ts | rest, ts => ∀ s ∈ ts, IsStmt P s
  | program, ts => ∃ ss loc, ts = [.node .start ss loc] ∧ ∀ s ∈ ss, IsStmt P s

/-- What the items of a production hand up. -/
def FitsItems : List (Item Phrase) → List Tree → Prop
  | [], ts => ts = []
  | .keep k :: is, ts => ∃ t us, ts = .token t :: us ∧ t.Is P k ∧ FitsItems is us
  | .drop _ :: is, ts => FitsItems is ts
  | .part p :: is, ts => ∃ us vs, ts = us ++ vs ∧ Fits P p us ∧ FitsItems is vs

variable {P : Token → Prop} {q : Production Phrase} {kids : List Tree} {loc : Option Loc}

theorem fits_call (hq : q ∈ (define call).base) (h : FitsItems P q.items kids) :
    Fits P call (q.shape loc kids) := by
  simp only [define, List.mem_cons, List.not_mem_nil, or_false] at hq
  obtain rfl | rfl := hq
  · obtain ⟨t, _, rfl, ht, rfl⟩ := h
    exact ⟨t, [], loc, rfl, ht, by simp⟩
  · obtain ⟨t, _, rfl, ht, args, _, rfl, hargs, rfl⟩ := h
    exact ⟨t, args ++ [], loc, rfl, ht, by rwa [List.append_nil]⟩

theorem fits_primary (hq : q ∈ (define primary).base) (h : FitsItems P q.items kids) :
    Fits P primary (q.shape loc kids) := by
  simp only [define, List.mem_cons, List.not_mem_nil, or_false] at hq
  obtain rfl | rfl | rfl | rfl | rfl | rfl | rfl | rfl | rfl | rfl | rfl := hq
  · obtain ⟨t, _, rfl, ht, rfl⟩ := h
    exact ⟨_, rfl, .number ht⟩
  · obtain ⟨t, _, rfl, ht, rfl⟩ := h
    exact ⟨_, rfl, .string ht⟩
  · obtain rfl := h
    exact ⟨_, rfl, .trueLit⟩
  · obtain rfl := h
    exact ⟨_, rfl, .falseLit⟩
  · obtain ⟨_, _, rfl, ⟨t, args, loc, rfl, ht, hargs⟩, rfl⟩ := h
    exact ⟨_, rfl, .call ht hargs⟩
  · obtain ⟨t, _, rfl, ht, rfl⟩ := h
    exact ⟨_, rfl, .var ht⟩
  · obtain rfl := h
    exact ⟨_, rfl, .array (by simp)⟩
  · obtain ⟨es, _, rfl, hes, rfl⟩ := h
    exact ⟨_, rfl, .array (by rwa [List.append_nil])⟩
  · obtain rfl := h
    exact ⟨_, rfl, .dict (by simp)⟩
  · obtain ⟨es, _, rfl, hes, rfl⟩ := h
    exact ⟨_, rfl, .dict (by rwa [List.append_nil])⟩
  · obtain ⟨_, _, rfl, ⟨e, rfl, he⟩, rfl⟩ := h
    exact ⟨_, rfl, he⟩

theorem fits_statement (hq : q ∈ (define statement).base) (h : FitsItems P q.items kids) :
    Fits P statement (q.shape loc kids) := by
  simp only [define, List.mem_cons, List.not_mem_nil, or_false] at hq
  obtain rfl | rfl | rfl | rfl | rfl | rfl | rfl | rfl | rfl | rfl | rfl | rfl | rfl | rfl | rfl |
    rfl | rfl | rfl | rfl | rfl := hq
  · obtain ⟨t, _, rfl, ht, _, _, rfl, ⟨e, rfl, he⟩, rfl⟩ := h
    exact ⟨_, rfl, .varDecl ht he⟩
  · obtain ⟨t, _, rfl, ht, _, _, rfl, ⟨i, rfl, hi⟩, _, _, rfl, ⟨e, rfl, he⟩, rfl⟩ := h
    exact ⟨_, rfl, .indexAssign ht hi he⟩
  · obtain ⟨t, _, rfl, ht, field, _, rfl, hf, _, _, rfl, ⟨e, rfl, he⟩, rfl⟩ := h
    exact ⟨_, rfl, .memberAssign ht hf he⟩
  · obtain ⟨t, _, rfl, ht, op, _, rfl, hop, _, _, rfl, ⟨e, rfl, he⟩, rfl⟩ := h
    exact ⟨_, rfl, .mathAssign ht hop he⟩
  · obtain ⟨_, _, rfl, ⟨e, rfl, he⟩, op, _, rfl, hop, rfl⟩ := h
    exact ⟨_, rfl, .incDecStmt he hop⟩
  · obtain ⟨_, _, rfl, ⟨t, args, l, rfl, ht, hargs⟩, rfl⟩ := h
    exact ⟨_, rfl, .callStmt ht hargs⟩
  · obtain ⟨t, _, rfl, ht, _, _, rfl, ⟨us, l, rfl, hus⟩, body, _, rfl, hbody, rfl⟩ := h
    exact ⟨_, rfl, .funcDecl ht hus (by rwa [List.append_nil])⟩
  · obtain ⟨_, _, rfl, ⟨_, rfl, _, _, rfl, hs⟩, rfl⟩ := h
    exact ⟨_, rfl, hs⟩
  · obtain ⟨_, _, rfl, ⟨e, rfl, he⟩, _, _, rfl, ⟨_, rfl, body, l, rfl, hbody⟩, rfl⟩ := h
    exact ⟨_, rfl, .whileStmt he hbody⟩
  · obtain ⟨times, _, rfl, -, n, _, rfl, hn, _, _, rfl, ⟨_, rfl, body, l, rfl, hbody⟩, rfl⟩ := h
    exact ⟨_, rfl, .repeatStmt (.inl hn) hbody⟩
  · obtain ⟨times, _, rfl, -, n, _, rfl, hn, _, _, rfl, ⟨_, rfl, body, l, rfl, hbody⟩, rfl⟩ := h
    exact ⟨_, rfl, .repeatStmt (.inr hn) hbody⟩
  · obtain ⟨t, _, rfl, ht, _, _, rfl, ⟨low, rfl, hlow⟩, _, _, rfl, ⟨high, rfl, hhigh⟩, _, _, rfl,
      ⟨step, rfl, hstep⟩, _, _, rfl, ⟨_, rfl, body, l, rfl, hbody⟩, rfl⟩ := h
    exact ⟨_, rfl, .steppedStmt ht hlow hhigh hstep hbody⟩
  · obtain ⟨t, _, rfl, ht, _, _, rfl, ⟨low, rfl, hlow⟩, _, _, rfl, ⟨high, rfl, hhigh⟩, _, _, rfl,
      ⟨_, rfl, body, l, rfl, hbody⟩, rfl⟩ := h
    exact ⟨_, rfl, .rangeStmt ht hlow hhigh hbody⟩
  · obtain ⟨t, _, rfl, ht, _, _, rfl, ⟨e, rfl, he⟩, _, _, rfl, ⟨_, rfl, body, l, rfl, hbody⟩,
      rfl⟩ := h
    exact ⟨_, rfl, .forStmt ht he hbody⟩
  · obtain ⟨t, _, rfl, -, rfl⟩ := h
    exact ⟨_, rfl, .breakStmt⟩
  · obtain ⟨t, _, rfl, -, rfl⟩ := h
    exact ⟨_, rfl, .continueStmt⟩
  · obtain ⟨t, _, rfl, -, _, _, rfl, ⟨e, rfl, he⟩, rfl⟩ := h
    exact ⟨_, rfl, .returnStmt he⟩
  · obtain ⟨t, _, rfl, -, rfl⟩ := h
    exact ⟨_, rfl, .shortReturnStmt⟩
  · obtain ⟨_, _, rfl, ⟨e, rfl, he⟩, rfl⟩ := h
    exact ⟨_, rfl, .throwStmt he⟩
  · obtain ⟨_, _, rfl, ⟨_, rfl, body, l, rfl, hbody⟩, _, _, rfl, ⟨us, l', rfl, hus⟩, _, _, rfl,
      ⟨_, rfl, handler, l'', rfl, hhandler⟩, rfl⟩ := h
    exact ⟨_, rfl, .tryStmt hbody hus hhandler⟩

theorem fits_ifStmt (hq : q ∈ (define ifStmt).base) (h : FitsItems P q.items kids) :
    Fits P ifStmt (q.shape loc kids) := by
  simp only [define, List.mem_cons, List.not_mem_nil, or_false] at hq
  obtain rfl | rfl := hq
  · obtain ⟨_, _, rfl, ⟨test, rfl, ht⟩, _, _, rfl, ⟨_, rfl, yes, l, rfl, hyes⟩, _, _, rfl,
      ⟨_, rfl, hno⟩, rfl⟩ := h
    obtain ⟨chain, l', rfl, hchain⟩ | ⟨no, l', rfl, hno⟩ := hno
    · exact ⟨_, rfl, _, _, rfl, .ifChain ht hyes hchain⟩
    · exact ⟨_, rfl, _, _, rfl, .ifElse ht hyes hno⟩
  · obtain ⟨_, _, rfl, ⟨test, rfl, ht⟩, _, _, rfl, ⟨_, rfl, yes, l, rfl, hyes⟩, rfl⟩ := h
    exact ⟨_, rfl, _, _, rfl, .ifOnly ht hyes⟩

/-- Every production makes trees that fit its phrase. -/
theorem fits_base {p : Phrase} (hq : q ∈ (define p).base) (h : FitsItems P q.items kids) :
    Fits P p (q.shape loc kids) := by
  cases p with
  | call => exact fits_call hq h
  | primary => exact fits_primary hq h
  | ifStmt => exact fits_ifStmt hq h
  | statement => exact fits_statement hq h
  | postfixed | comparison | conjunction | disjunction =>
    obtain rfl := List.mem_singleton.1 hq
    obtain ⟨_, _, rfl, ⟨e, rfl, he⟩, rfl⟩ := h
    exact ⟨_, rfl, he⟩
  | prefixed =>
    simp only [define, List.mem_cons, List.not_mem_nil, or_false] at hq
    obtain rfl | rfl := hq
    · obtain ⟨op, _, rfl, hop, _, _, rfl, ⟨e, rfl, he⟩, rfl⟩ := h
      exact ⟨_, rfl, .unary hop he⟩
    · obtain ⟨_, _, rfl, ⟨e, rfl, he⟩, rfl⟩ := h
      exact ⟨_, rfl, he⟩
  | factor =>
    simp only [define, List.mem_cons, List.not_mem_nil, or_false] at hq
    obtain rfl | rfl := hq
    · obtain ⟨_, _, rfl, ⟨l, rfl, hl⟩, _, _, rfl, ⟨r, rfl, hr⟩, rfl⟩ := h
      exact ⟨_, rfl, .power hl hr⟩
    · obtain ⟨_, _, rfl, ⟨e, rfl, he⟩, rfl⟩ := h
      exact ⟨_, rfl, he⟩
  | sum =>
    simp only [define, List.mem_cons, List.not_mem_nil, or_false] at hq
    obtain rfl | rfl := hq
    · obtain ⟨op, _, rfl, hop, _, _, rfl, ⟨l, rfl, hl⟩, _, _, rfl, ⟨r, rfl, hr⟩, rfl⟩ := h
      exact ⟨_, rfl, .binary hop hl hr⟩
    · obtain ⟨_, _, rfl, ⟨e, rfl, he⟩, rfl⟩ := h
      exact ⟨_, rfl, he⟩
  | exp =>
    simp only [define, List.mem_cons, List.not_mem_nil, or_false] at hq
    obtain rfl | rfl := hq
    · obtain ⟨_, _, rfl, ⟨test, rfl, ht⟩, _, _, rfl, ⟨yes, rfl, hy⟩, _, _, rfl, ⟨no, rfl, hn⟩,
        rfl⟩ := h
      exact ⟨_, rfl, .conditional ht hy hn⟩
    · obtain ⟨_, _, rfl, ⟨e, rfl, he⟩, rfl⟩ := h
      exact ⟨_, rfl, he⟩
  | arguments | elements | entries =>
    simp only [define, List.mem_cons, List.not_mem_nil, or_false] at hq
    obtain rfl | rfl := hq
    · obtain ⟨_, _, rfl, ⟨e, rfl, he⟩, es, _, rfl, hes, rfl⟩ := h
      exact List.forall_mem_cons.2 ⟨he, by rwa [List.append_nil]⟩
    · obtain ⟨_, _, rfl, ⟨e, rfl, he⟩, rfl⟩ := h
      exact List.forall_mem_singleton.2 he
  | dictItem =>
    obtain rfl := List.mem_singleton.1 hq
    obtain ⟨t, _, rfl, ht, _, _, rfl, ⟨e, rfl, he⟩, rfl⟩ := h
    exact ⟨_, rfl, .dictItem ht he⟩
  | names =>
    simp only [define, List.mem_cons, List.not_mem_nil, or_false] at hq
    obtain rfl | rfl := hq
    · obtain ⟨t, _, rfl, ht, _, _, rfl, ⟨us, rfl, hus⟩, rfl⟩ := h
      exact ⟨t :: us, by simp [Production.shape], List.forall_mem_cons.2 ⟨ht, hus⟩⟩
    · obtain ⟨t, _, rfl, ht, rfl⟩ := h
      exact ⟨[t], rfl, List.forall_mem_singleton.2 ht⟩
  | params =>
    simp only [define, List.mem_cons, List.not_mem_nil, or_false] at hq
    obtain rfl | rfl := hq
    · obtain rfl := h
      exact ⟨[], loc, rfl, by simp⟩
    · obtain ⟨_, _, rfl, ⟨us, rfl, hus⟩, rfl⟩ := h
      exact ⟨us, loc, by simp [Production.shape], hus⟩
  | block =>
    obtain rfl := List.mem_singleton.1 hq
    obtain ⟨ss, _, rfl, hss, rfl⟩ := h
    exact ⟨_, rfl, _, _, rfl, by rwa [List.append_nil]⟩
  | alternative =>
    simp only [define, List.mem_cons, List.not_mem_nil, or_false] at hq
    obtain rfl | rfl := hq
    · obtain ⟨_, _, rfl, ⟨s, rfl, hs⟩, rfl⟩ := h
      exact ⟨_, rfl, .inl hs⟩
    · obtain ⟨_, _, rfl, ⟨s, rfl, hs⟩, rfl⟩ := h
      exact ⟨_, rfl, .inr hs⟩
  | body | rest =>
    simp only [define, List.mem_cons, List.not_mem_nil, or_false] at hq
    obtain rfl | rfl := hq
    · obtain ⟨_, _, rfl, ⟨s, rfl, hs⟩, ss, _, rfl, hss, rfl⟩ := h
      exact List.forall_mem_cons.2 ⟨hs, by rwa [List.append_nil]⟩
    · obtain rfl := h
      exact fun s hs => absurd hs List.not_mem_nil
  | program =>
    obtain rfl := List.mem_singleton.1 hq
    obtain ⟨ss, _, rfl, hss, rfl⟩ := h
    exact ⟨_, loc, rfl, by rwa [List.append_nil]⟩

/-- Every step makes trees that fit its phrase. -/
theorem fits_step {p : Phrase} {trees : List Tree} (hq : q ∈ (define p).steps)
    (hp : Fits P p trees) (h : FitsItems P q.items kids) :
    Fits P p (q.shape loc (trees ++ kids)) := by
  cases p with
  | primary =>
    obtain ⟨e, rfl, he⟩ := hp
    simp only [define, List.mem_cons, List.not_mem_nil, or_false] at hq
    obtain rfl | rfl | rfl := hq
    · obtain ⟨t, _, rfl, ht, rfl⟩ := h
      exact ⟨_, rfl, .member he ht⟩
    · obtain ⟨t, _, rfl, ht, rfl⟩ := h
      exact ⟨_, rfl, .optionalMember he ht⟩
    · obtain ⟨_, _, rfl, ⟨i, rfl, hi⟩, rfl⟩ := h
      exact ⟨_, rfl, .subscript he hi⟩
  | postfixed =>
    obtain ⟨e, rfl, he⟩ := hp
    simp only [define, List.mem_cons, List.not_mem_nil, or_false] at hq
    obtain rfl | rfl := hq
    · obtain ⟨t, _, rfl, ht, rfl⟩ := h
      exact ⟨_, rfl, .postfixUnary he (.inl ht)⟩
    · obtain ⟨t, _, rfl, ht, rfl⟩ := h
      exact ⟨_, rfl, .postfixUnary he (.inr ht)⟩
  | comparison =>
    obtain ⟨l, rfl, hl⟩ := hp
    obtain rfl := List.mem_singleton.1 hq
    obtain ⟨t, _, rfl, ht, _, _, rfl, ⟨r, rfl, hr⟩, rfl⟩ := h
    exact ⟨_, rfl, .relational hl ht hr⟩
  | conjunction =>
    obtain ⟨l, rfl, hl⟩ := hp
    obtain rfl := List.mem_singleton.1 hq
    obtain ⟨_, _, rfl, ⟨r, rfl, hr⟩, rfl⟩ := h
    exact ⟨_, rfl, .andExp hl hr⟩
  | disjunction =>
    obtain ⟨l, rfl, hl⟩ := hp
    obtain rfl := List.mem_singleton.1 hq
    obtain ⟨_, _, rfl, ⟨r, rfl, hr⟩, rfl⟩ := h
    exact ⟨_, rfl, .orExp hl hr⟩
  | _ => exact absurd hq List.not_mem_nil

mutual

/-- What is derived fits its phrase, if all tokens are as they should be. -/
theorem fits_of_derives {p : Phrase} {ts : List Token} {trees : List Tree} :
    Derives language p ts trees → (∀ t ∈ ts, P t) → Fits P p trees
  | .base hq hitems, hts => fits_base hq (fitsItems_of_derives hitems hts)
  | .step h hq hitems, hts => by
    rw [List.forall_mem_append] at hts
    exact fits_step hq (fits_of_derives h hts.1) (fitsItems_of_derives hitems hts.2)

theorem fitsItems_of_derives {is : List (Item Phrase)} {ts : List Token} {kids : List Tree} :
    DerivesItems language is ts kids → (∀ t ∈ ts, P t) → FitsItems P is kids
  | .nil, _ => rfl
  | .keep h, hts => by
    rw [List.forall_mem_cons] at hts
    exact ⟨_, _, rfl, ⟨rfl, hts.1⟩, fitsItems_of_derives h hts.2⟩
  | .drop h, hts => by
    have hitems := fitsItems_of_derives h (List.forall_mem_cons.1 hts).2
    exact hitems
  | .part hp h, hts => by
    rw [List.forall_mem_append] at hts
    exact ⟨_, _, rfl, fits_of_derives hp hts.1, fitsItems_of_derives h hts.2⟩

end

variable {L : Option Loc → Prop}

/-- A call starts with its name. -/
theorem items_of_call {p : Phrase} (hq : q ∈ (define p).base) (h : q.rule = some .call) :
    ∃ is, q.items = .keep .name :: is := by
  have hall : ∀ q ∈ (define p).base, q.rule = some .call →
      q.items.head? = some (.keep .name) := by
    cases p <;> decide
  exact List.head?_eq_some_iff.1 (hall q hq h)

theorem exists_of_keep {k : TokenKind} {is : List (Item Phrase)} {ts : List Token}
    (h : DerivesItems language (.keep k :: is) ts kids) : ∃ t us, ts = t :: us ∧ t.kind = k := by
  generalize hitems : Item.keep k :: is = items at h
  cases h with
  | keep => exact ⟨_, _, rfl, (Item.keep.inj (List.cons.inj hitems).1).symm⟩
  | _ => simp at hitems

theorem sited_shape {trees : List Tree} (hcall : q.rule = some .call → L loc)
    (h : ∀ t ∈ trees, t.Sited L) : ∀ t ∈ q.shape loc trees, t.Sited L := by
  unfold Production.shape
  split
  · rename_i r hr
    refine List.forall_mem_singleton.2 (.node ?_ h)
    rintro rfl
    exact hcall hr
  · exact h

mutual

/-- All nodes that are derived have places of tokens. -/
theorem sited_of_derives {p : Phrase} {ts : List Token} {trees : List Tree} :
    Derives language p ts trees → (∀ t ∈ ts, L t.loc) → ∀ t ∈ trees, t.Sited L
  | .base hq hitems, hts => by
    refine sited_shape ?_ (sitedItems_of_derives hitems hts)
    intro hr
    obtain ⟨is, his⟩ := items_of_call hq hr
    rw [his] at hitems
    obtain ⟨t, us, rfl, hkind⟩ := exists_of_keep hitems
    rw [firstLoc, List.head?_cons, Option.bind_some, Token.place, if_neg (by simp [hkind])]
    exact hts t List.mem_cons_self
  | @Derives.step _ _ p q _ _ _ _ h hq hitems, hts => by
    rw [List.forall_mem_append] at hts
    refine sited_shape ?_ (List.forall_mem_append.2
      ⟨sited_of_derives h hts.1, sitedItems_of_derives hitems hts.2⟩)
    have hall : ∀ q ∈ (define p).steps, q.rule ≠ some .call := by cases p <;> decide
    exact fun hr => absurd hr (hall q hq)

theorem sitedItems_of_derives {is : List (Item Phrase)} {ts : List Token} {kids : List Tree} :
    DerivesItems language is ts kids → (∀ t ∈ ts, L t.loc) → ∀ k ∈ kids, k.Sited L
  | .nil, _ => fun _ hk => absurd hk List.not_mem_nil
  | .keep h, hts => by
    rw [List.forall_mem_cons] at hts
    exact List.forall_mem_cons.2 ⟨.token hts.1, sitedItems_of_derives h hts.2⟩
  | .drop h, hts => sitedItems_of_derives h (List.forall_mem_cons.1 hts).2
  | .part hp h, hts => by
    rw [List.forall_mem_append] at hts
    exact List.forall_mem_append.2
      ⟨sited_of_derives hp hts.1, sitedItems_of_derives h hts.2⟩

end

end Phrase

end Terse
