import Terse.Proofs.Analysis.Scoped
import Terse.Proofs.Analysis.Valid

/-! Name resolution succeeds on the valid programs and on no others. -/
namespace Terse

namespace Analysis

open Node (ExpSort)

variable {P : Token → Prop} {Γ : Site} {outer : Scope} {f f' : Frame} {u u' : Nat} {name : String}

theorem sees_of_lookup {s : Symbol} (h : Scope.lookup (f :: outer) name = some s) :
    (f.site outer).sees name = some s.meaning := by
  rw [Frame.sees_site, h]
  rfl

theorem lookup_of_sees {m : Meaning} (h : (f.site outer).sees name = some m) :
    ∃ s : Symbol, Scope.lookup (f :: outer) name = some s ∧ s.meaning = m := by
  rw [Frame.sees_site] at h
  exact Option.map_eq_some_iff.1 h

theorem seesVariable_of_lookup {s : Symbol} (h : Scope.lookup (f :: outer) name = some s)
    (hs : s.isFunction = false) : (f.site outer).SeesVariable name := by
  unfold Site.SeesVariable
  rw [sees_of_lookup h, Option.some.injEq, Option.some.injEq]
  exact Symbol.isFunction_eq_false.1 hs

theorem lookup_of_seesVariable (h : (f.site outer).SeesVariable name) :
    ∃ s : Symbol, Scope.lookup (f :: outer) name = some s ∧ s.isFunction = false := by
  rcases h with h | h <;> obtain ⟨s, hs, hm⟩ := lookup_of_sees h
  · exact ⟨s, hs, Symbol.isFunction_eq_false.2 (.inl hm)⟩
  · exact ⟨s, hs, Symbol.isFunction_eq_false.2 (.inr hm)⟩

/-- An expression that resolves keeps the rules of its site. -/
theorem ExpTo.valid {k : ExpSort} {t : Tree} {n : Node} (h : ExpTo P (f :: outer) k t n) :
    ValidExp (f.site outer) t := by
  have hall {es : List Tree} {ns : List Node} (hl : es.length = ns.length)
      (h : ∀ p ∈ es.zip ns, ValidExp (f.site outer) p.1) : ∀ e ∈ es, ValidExp (f.site outer) e := by
    intro e he
    rw [← List.map_fst_zip (Nat.le_of_eq hl)] at he
    obtain ⟨p, hp, rfl⟩ := List.mem_map.1 he
    exact h p hp
  induction h with
  | number => exact .number
  | string => exact .string
  | trueLit => exact .trueLit
  | falseLit => exact .falseLit
  | var _ hs => exact .var (Option.isSome_of_eq_some (sees_of_lookup hs))
  | call _ hf hkind hl _ ih =>
    have hm := Symbol.meaning_eq_function.2 ⟨_, hkind⟩
    exact .call (hm ▸ sees_of_lookup hf) (hall hl ih)
  | array hl _ ih => exact .array (hall hl ih)
  | dict hl _ ih => exact .dict (hall hl ih)
  | dictItem _ _ ih => exact .dictItem ih
  | member _ _ ih => exact .member ih
  | optionalMember _ _ ih => exact .optionalMember ih
  | subscript _ _ ihc ihi => exact .subscript ihc ihi
  | postfixUnary _ _ ih => exact .postfixUnary ih
  | unary _ _ ih => exact .unary ih
  | power _ _ ihl ihr => exact .power ihl ihr
  | binary _ _ _ ihl ihr => exact .binary ihl ihr
  | relational _ _ _ ihl ihr => exact .relational ihl ihr
  | andExp _ _ ihl ihr => exact .andExp ihl ihr
  | orExp _ _ ihl ihr => exact .orExp ihl ihr
  | conditional _ _ _ iht ihy ihn => exact .conditional iht ihy ihn

/-- A choice declares nothing in the scope around it. -/
theorem frame_of_ifStmt {kids : List Tree} {l : Option Loc} {n : Node}
    (h : StmtTo P (.stmt (.node .ifStmt kids l) n) outer f u f' u') : f' = f := by
  rw [h.frame_eq, Code.declares, declares_of_isChoice (isChoice_of_ifStmt h), Frame.extend_nil]

/-- A statement may stand before all that is valid in the scope it leaves behind. -/
def Code.Accepted : Code → Scope → Frame → Frame → Prop
  | .stmt t _, outer, f, f' =>
    ∀ rest, Valid (f'.site outer) rest → Valid (f.site outer) (t :: rest)
  | .row ts _, outer, f, _ => Valid (f.site outer) ts

theorem map_word_token (ps : List Token) :
    (ps.map Tree.token).map Tree.word = ps.map Token.text := by
  rw [List.map_map]
  rfl

theorem site_binder {t : Token} {g : Frame}
    (h : (f.child (some true) none).declare (fresh t u (.var false)) t.loc = .ok g) :
    g.site (f :: outer) = (f.site outer).loop.bindAll [t.text] :=
  (Introduced.cons h .nil).site.2.2 (f :: outer)

/-- Code that resolves keeps the rules, statement after statement. -/
theorem StmtTo.accepted {c : Code} (h : StmtTo P c outer f u f' u') : c.Accepted outer f f' := by
  induction h with
  | assign _ hn hs hw =>
    intro rest hrest
    have hm := Symbol.meaning_eq_variable.2 hw
    exact .assign hn.valid (hm ▸ sees_of_lookup hs) hrest
  | @declare t _ _ _ outer f _ _ _ hn hw hf =>
    intro rest hrest
    have hsees : (f.site outer).sees t.text ≠ some .variable := by
      intro hvariable
      obtain ⟨s, hs, hm⟩ := lookup_of_sees hvariable
      have hwritable := Symbol.meaning_eq_variable.1 hm
      rw [hw s hs] at hwritable
      contradiction
    rw [Frame.site_declare hf] at hrest
    exact .declare hn.valid hsees (Frame.bindings_of_declare hf) hrest
  | indexAssign _ hs hi hn =>
    intro rest hrest
    exact .indexAssign (Option.isSome_of_eq_some (sees_of_lookup hs)) hi.valid hn.valid hrest
  | memberAssign _ _ hs hn =>
    intro rest hrest
    exact .memberAssign (Option.isSome_of_eq_some (sees_of_lookup hs)) hn.valid hrest
  | mathAssign _ _ hs hv hn =>
    intro rest hrest
    exact .mathAssign (seesVariable_of_lookup hs hv) hn.valid hrest
  | incDecStmt hn _ => exact fun rest => .incDecStmt hn.valid
  | callStmt hn => exact fun rest => .callStmt hn.valid
  | throwStmt hn => exact fun rest => .throwStmt hn.valid
  | @function t params _ _ _ _ _ outer f f' g _ u _ _ _ hf hvs _ ih =>
    intro rest hrest
    obtain ⟨hnodup, -, hsite⟩ := hvs.site
    have hf' : f'.site outer =
        (f.site outer).bind t.text (.function (params.map Tree.token).length) := by
      rw [List.length_map]
      exact Frame.site_declare hf
    have hg : g.site (f' :: outer) =
        ((f.site outer).bind t.text (.function (params.map Tree.token).length)).body.bindAll
          ((params.map Tree.token).map Tree.word) := by
      rw [hsite, Frame.site_functionChild, hf', map_word_token]
    rw [← map_word_token] at hnodup
    exact .funcDecl (Frame.bindings_of_declare hf) hnodup (hg ▸ ih) (hf' ▸ hrest)
  | ifOnly hc _ ih => exact fun rest => .ifOnly hc.valid ih
  | ifChain hc _ hn ih ihn =>
    intro rest hrest
    obtain rfl := frame_of_ifStmt hn
    exact .ifChain hc.valid ih (ihn [] .nil) hrest
  | ifElse hc _ _ ihy ihn => exact fun rest => .ifElse hc.valid ihy ihn
  | whileStmt hc _ ih => exact fun rest => .whileStmt hc.valid ih
  | repeatNumber hcount _ _ ih => exact fun rest => .repeatNumber hcount.kind_eq ih
  | repeatName hcount hs hv _ ih =>
    exact fun rest => .repeatName hcount.kind_eq (seesVariable_of_lookup hs hv) ih
  | rangeStmt _ ha hb hg _ ih =>
    intro rest hrest
    exact .rangeStmt ha.valid hb.valid (site_binder hg ▸ ih) hrest
  | steppedStmt _ ha hb hc hg _ ih =>
    intro rest hrest
    exact .steppedStmt ha.valid hb.valid hc.valid (site_binder hg ▸ ih) hrest
  | forStmt _ hc hg _ ih =>
    intro rest hrest
    exact .forStmt hc.valid (site_binder hg ▸ ih) hrest
  | breakStmt hf => exact fun rest => .breakStmt hf
  | continueStmt hf => exact fun rest => .continueStmt hf
  | returnStmt hf hn => exact fun rest => .returnStmt hf hn.valid
  | shortReturnStmt hf => exact fun rest => .shortReturnStmt hf
  | @tryStmt _ _ _ _ _ _ _ _ _ _ outer f _ _ _ _ _ _ _ _ hvs _ ihb ih =>
    intro rest hrest
    obtain ⟨hnodup, -, hsite⟩ := hvs.site
    rw [← map_word_token] at hnodup hsite
    exact .tryStmt ihb hnodup (hsite (f :: outer) ▸ ih) hrest
  | nil => exact .nil
  | cons _ _ ihn ihns => exact ihn _ ihns

/-- Literals that can be read. -/
structure Readable (P : Token → Prop) : Prop where
  number {t : Token} : t.Is P .number → ∃ a, Numeral.read t.text.toList = .ok a
  string {t : Token} : t.Is P .string → ∃ v, Literal.value t.text.toList = .ok v

theorem exists_zip {α β : Type} {R : α → β → Prop} {as : List α} (h : ∀ a ∈ as, ∃ b, R a b) :
    ∃ bs : List β, as.length = bs.length ∧ ∀ p ∈ as.zip bs, R p.1 p.2 := by
  induction as with
  | nil => exact ⟨[], rfl, by simp⟩
  | cons a as ih =>
    obtain ⟨⟨b, hb⟩, has⟩ := List.forall_mem_cons.1 h
    obtain ⟨bs, hl, hbs⟩ := ih has
    exact ⟨b :: bs, by simp [hl], List.forall_mem_cons.2 ⟨hb, hbs⟩⟩

/-- An expression that keeps the rules of its site resolves. -/
theorem exists_expTo (hP : Readable P) {k : ExpSort} {t : Tree} (ht : Tree.IsExp P k t)
    (h : ValidExp (f.site outer) t) : ∃ n, ExpTo P (f :: outer) k t n := by
  induction ht with
  | number ht =>
    obtain ⟨a, ha⟩ := hP.number ht
    exact ⟨_, .number ht ha⟩
  | string ht =>
    obtain ⟨v, hv⟩ := hP.string ht
    exact ⟨_, .string ht hv⟩
  | trueLit => exact ⟨_, .trueLit⟩
  | falseLit => exact ⟨_, .falseLit⟩
  | var ht =>
    cases h with
    | var hsees =>
      obtain ⟨m, hm⟩ := Option.isSome_iff_exists.1 hsees
      obtain ⟨s, hs, -⟩ := lookup_of_sees hm
      exact ⟨_, .var ht hs⟩
  | call ht _ ih =>
    cases h with
    | call hsees hargs =>
      obtain ⟨s, hs, hm⟩ := lookup_of_sees hsees
      obtain ⟨intrinsic, hkind⟩ := Symbol.meaning_eq_function.1 hm
      obtain ⟨ns, hl, hns⟩ := exists_zip fun e he => ih e he (hargs e he)
      exact ⟨_, .call ht hs hkind hl hns⟩
  | array _ ih =>
    cases h with
    | array hes =>
      obtain ⟨ns, hl, hns⟩ := exists_zip fun e he => ih e he (hes e he)
      exact ⟨_, .array hl hns⟩
  | dict _ ih =>
    cases h with
    | dict hes =>
      obtain ⟨ns, hl, hns⟩ := exists_zip fun e he => ih e he (hes e he)
      exact ⟨_, .dict hl hns⟩
  | dictItem ht _ ih =>
    cases h with
    | dictItem he =>
      obtain ⟨n, hn⟩ := ih he
      exact ⟨_, .dictItem ht hn⟩
  | member _ ht ih =>
    cases h with
    | member he =>
      obtain ⟨n, hn⟩ := ih he
      exact ⟨_, .member hn ht⟩
  | optionalMember _ ht ih =>
    cases h with
    | optionalMember he =>
      obtain ⟨n, hn⟩ := ih he
      exact ⟨_, .optionalMember hn ht⟩
  | subscript _ _ ihc ihi =>
    cases h with
    | subscript hc hi =>
      obtain ⟨n, hn⟩ := ihc hc
      obtain ⟨i, hi⟩ := ihi hi
      exact ⟨_, .subscript hn hi⟩
  | postfixUnary _ ht ih =>
    cases h with
    | postfixUnary he =>
      obtain ⟨n, hn⟩ := ih he
      exact ⟨_, .postfixUnary hn ht⟩
  | unary ht _ ih =>
    cases h with
    | unary he =>
      obtain ⟨n, hn⟩ := ih he
      exact ⟨_, .unary ht hn⟩
  | power _ _ ihl ihr =>
    cases h with
    | power hl hr =>
      obtain ⟨l, hl⟩ := ihl hl
      obtain ⟨r, hr⟩ := ihr hr
      exact ⟨_, .power hl hr⟩
  | binary ht _ _ ihl ihr =>
    cases h with
    | binary hl hr =>
      obtain ⟨l, hl⟩ := ihl hl
      obtain ⟨r, hr⟩ := ihr hr
      exact ⟨_, .binary ht hl hr⟩
  | relational _ ht _ ihl ihr =>
    cases h with
    | relational hl hr =>
      obtain ⟨l, hl⟩ := ihl hl
      obtain ⟨r, hr⟩ := ihr hr
      exact ⟨_, .relational hl ht hr⟩
  | andExp _ _ ihl ihr =>
    cases h with
    | andExp hl hr =>
      obtain ⟨l, hl⟩ := ihl hl
      obtain ⟨r, hr⟩ := ihr hr
      exact ⟨_, .andExp hl hr⟩
  | orExp _ _ ihl ihr =>
    cases h with
    | orExp hl hr =>
      obtain ⟨l, hl⟩ := ihl hl
      obtain ⟨r, hr⟩ := ihr hr
      exact ⟨_, .orExp hl hr⟩
  | conditional _ _ _ iht ihy ihn =>
    cases h with
    | conditional ht hy hn =>
      obtain ⟨c, hc⟩ := iht ht
      obtain ⟨y, hy⟩ := ihy hy
      obtain ⟨n, hn⟩ := ihn hn
      exact ⟨_, .conditional hc hy hn⟩

/-- A statement that is valid before others is resolved, and leaves a scope where those are
valid. -/
def StmtResolves (P : Token → Prop) (t : Tree) : Prop :=
  ∀ (outer : Scope) (f : Frame) (u : Nat) (rest : List Tree), Valid (f.site outer) (t :: rest) →
    ∃ n f' u', StmtTo P (.stmt t n) outer f u f' u' ∧ Valid (f'.site outer) rest

/-- Statements that keep the rules resolve one after the other, each in the scope that those before
it leave. -/
theorem exists_row {ts : List Tree} (h : ∀ t ∈ ts, StmtResolves P t)
    (hvalid : Valid (f.site outer) ts) (u : Nat) :
    ∃ ns f' u', StmtTo P (.row ts ns) outer f u f' u' := by
  induction ts generalizing f u with
  | nil => exact ⟨[], f, u, .nil⟩
  | cons t ts ih =>
    obtain ⟨ht, hts⟩ := List.forall_mem_cons.1 h
    obtain ⟨n, f₁, u₁, hn, hrest⟩ := ht outer f u ts hvalid
    obtain ⟨ns, f', u', hns⟩ := ih hts hrest u₁
    exact ⟨n :: ns, f', u', .cons hn hns⟩

theorem exists_block {body : List Tree} (h : ∀ s ∈ body, StmtResolves P s)
    (hvalid : Valid (f.site outer).block body) (u : Nat) :
    ∃ ns g u', StmtTo P (.row body ns) (f :: outer) (f.child none none) u g u' := by
  rw [← Frame.site_child] at hvalid
  exact exists_row h hvalid u

theorem exists_loop {body : List Tree} (h : ∀ s ∈ body, StmtResolves P s)
    (hvalid : Valid (f.site outer).loop body) (u : Nat) :
    ∃ ns g u', StmtTo P (.row body ns) (f :: outer) (f.child (some true) none) u g u' := by
  rw [← Frame.site_loop] at hvalid
  exact exists_row h hvalid u

/-- A loop declares its variable in a scope that is still empty. -/
theorem exists_binder {t : Token} {body : List Tree} (h : ∀ s ∈ body, StmtResolves P s)
    (hvalid : Valid ((f.site outer).loop.bindAll [t.text]) body) (u : Nat) :
    ∃ g ns g' u', (f.child (some true) none).declare (fresh t u (.var false)) t.loc = .ok g ∧
      StmtTo P (.row body ns) (f :: outer) g (u + 1) g' u' := by
  obtain ⟨g, hg⟩ := Frame.exists_declare (f := f.child (some true) none)
    (s := fresh t u (.var false)) rfl t.loc
  rw [← site_binder hg] at hvalid
  obtain ⟨ns, g', u', hns⟩ := exists_row h hvalid (u + 1)
  exact ⟨g, ns, g', u', hg, hns⟩

theorem stmtResolves_varDecl (hP : Readable P) {t : Token} {e : Tree} {loc : Option Loc}
    (ht : t.Is P .name) (he : Tree.IsExp P .value e) :
    StmtResolves P (.node .varDecl [.token t, e] loc) := by
  intro outer f u rest hvalid
  cases hvalid with
  | assign hexp hsees hrest =>
    obtain ⟨n, hn⟩ := exists_expTo hP he hexp
    obtain ⟨s, hs, hm⟩ := lookup_of_sees hsees
    exact ⟨_, f, u, .assign ht hn hs (Symbol.meaning_eq_variable.1 hm), hrest⟩
  | declare hexp hsees hnew hrest =>
    obtain ⟨n, hn⟩ := exists_expTo hP he hexp
    obtain ⟨f', hf'⟩ := Frame.exists_declare (s := fresh t u (.var false)) hnew t.loc
    have hw : ∀ s, Scope.lookup (f :: outer) t.text = some s → s.isWritable = false := by
      intro s hs
      refine Bool.eq_false_iff.2 fun hwritable => hsees ?_
      have hm := Symbol.meaning_eq_variable.2 hwritable
      exact hm ▸ sees_of_lookup hs
    refine ⟨_, f', u + 1, .declare ht hn hw hf', ?_⟩
    rw [Frame.site_declare hf']
    exact hrest

/-- A function resolves if its body does, at the site that sees its name and its parameters. -/
theorem stmtResolves_funcDecl {t : Token} {params : List Token} {body : List Tree}
    {l loc : Option Loc} (ht : t.Is P .name) (ih : ∀ s ∈ body, StmtResolves P s) :
    StmtResolves P
      (.node .funcDecl (.token t :: .node .params (params.map .token) l :: body) loc) := by
  intro outer f u rest hvalid
  cases hvalid with
  | funcDecl hnew hnodup hbody hrest =>
    rw [map_word_token] at hnodup hbody
    rw [List.length_map] at hbody hrest
    obtain ⟨f', hf'⟩ := Frame.exists_declare (s := fresh t u (.fn params.length false)) hnew t.loc
    have hsite : f'.site outer = (f.site outer).bind t.text (.function params.length) :=
      Frame.site_declare hf'
    obtain ⟨vs, g, v, hvs⟩ := exists_introduced
      (f := .functionChild (fresh t u (.fn params.length false))) (u := u + 1) hnodup fun _ _ => rfl
    have hg : g.site (f' :: outer) =
        ((f.site outer).bind t.text (.function params.length)).body.bindAll
          (params.map Token.text) := by
      rw [hvs.site.2.2, Frame.site_functionChild, hsite]
    obtain ⟨ns, g', u', hns⟩ := exists_row ih (hg ▸ hbody) v
    exact ⟨_, f', u', .function ht hf' hvs hns, hsite ▸ hrest⟩

theorem stmtResolves_tryStmt {body handler : List Tree} {params : List Token}
    {l l' l'' loc : Option Loc} (ihbody : ∀ s ∈ body, StmtResolves P s)
    (ihhandler : ∀ s ∈ handler, StmtResolves P s) :
    StmtResolves P (.node .tryStmt [.node .block body l, .node .params (params.map .token) l',
      .node .block handler l''] loc) := by
  intro outer f u rest hvalid
  cases hvalid with
  | tryStmt hbody hnodup hhandler hrest =>
    rw [map_word_token] at hnodup hhandler
    obtain ⟨ns, g, v, hns⟩ := exists_block ihbody hbody u
    obtain ⟨vs, h, w, hvs⟩ := exists_introduced (f := f.child none none) (u := v) hnodup
      fun _ _ => rfl
    rw [← Frame.site_child, ← hvs.site.2.2] at hhandler
    obtain ⟨hs, h', u', hhs⟩ := exists_row ihhandler hhandler w
    exact ⟨_, f, u', .tryStmt hns hvs hhs, hrest⟩

/-- Every statement resolves at every site whose rules it keeps. -/
theorem stmtResolves (hP : Readable P) {t : Tree} (h : Tree.IsStmt P t) : StmtResolves P t := by
  induction h with
  | varDecl ht he => exact stmtResolves_varDecl hP ht he
  | funcDecl ht _ _ ih => exact stmtResolves_funcDecl ht ih
  | tryStmt _ _ _ ihbody ihhandler => exact stmtResolves_tryStmt ihbody ihhandler
  | indexAssign ht hi he =>
    intro outer f u rest hvalid
    cases hvalid with
    | indexAssign hsees hindex hexp hrest =>
      obtain ⟨m, hm⟩ := Option.isSome_iff_exists.1 hsees
      obtain ⟨s, hs, -⟩ := lookup_of_sees hm
      obtain ⟨i, hi⟩ := exists_expTo hP hi hindex
      obtain ⟨n, hn⟩ := exists_expTo hP he hexp
      exact ⟨_, f, u, .indexAssign ht hs hi hn, hrest⟩
  | memberAssign ht hfield he =>
    intro outer f u rest hvalid
    cases hvalid with
    | memberAssign hsees hexp hrest =>
      obtain ⟨m, hm⟩ := Option.isSome_iff_exists.1 hsees
      obtain ⟨s, hs, -⟩ := lookup_of_sees hm
      obtain ⟨n, hn⟩ := exists_expTo hP he hexp
      exact ⟨_, f, u, .memberAssign ht hfield hs hn, hrest⟩
  | mathAssign ht hop he =>
    intro outer f u rest hvalid
    cases hvalid with
    | mathAssign hsees hexp hrest =>
      obtain ⟨s, hs, hv⟩ := lookup_of_seesVariable hsees
      obtain ⟨n, hn⟩ := exists_expTo hP he hexp
      exact ⟨_, f, u, .mathAssign ht hop hs hv hn, hrest⟩
  | incDecStmt he hop =>
    intro outer f u rest hvalid
    cases hvalid with
    | incDecStmt hexp hrest =>
      obtain ⟨n, hn⟩ := exists_expTo hP he hexp
      exact ⟨_, f, u, .incDecStmt hn hop, hrest⟩
  | callStmt ht hargs =>
    intro outer f u rest hvalid
    cases hvalid with
    | callStmt hexp hrest =>
      obtain ⟨n, hn⟩ := exists_expTo hP (.call ht hargs) hexp
      exact ⟨_, f, u, .callStmt hn, hrest⟩
  | ifOnly ht _ ih =>
    intro outer f u rest hvalid
    cases hvalid with
    | ifOnly hexp hyes hrest =>
      obtain ⟨c, hc⟩ := exists_expTo hP ht hexp
      obtain ⟨ys, g, u', hys⟩ := exists_block ih hyes u
      exact ⟨_, f, u', .ifOnly hc hys, hrest⟩
  | ifChain ht _ _ ih ihchain =>
    intro outer f u rest hvalid
    cases hvalid with
    | ifChain hexp hyes hchain hrest =>
      obtain ⟨c, hc⟩ := exists_expTo hP ht hexp
      obtain ⟨ys, g, v, hys⟩ := exists_block ih hyes u
      obtain ⟨n, f', u', hn, -⟩ := ihchain outer f v [] hchain
      obtain rfl := frame_of_ifStmt hn
      exact ⟨_, f', u', .ifChain hc hys hn, hrest⟩
  | ifElse ht _ _ ihyes ihno =>
    intro outer f u rest hvalid
    cases hvalid with
    | ifElse hexp hyes hno hrest =>
      obtain ⟨c, hc⟩ := exists_expTo hP ht hexp
      obtain ⟨ys, g, v, hys⟩ := exists_block ihyes hyes u
      obtain ⟨ns, g', u', hns⟩ := exists_block ihno hno v
      exact ⟨_, f, u', .ifElse hc hys hns, hrest⟩
  | whileStmt ht _ ih =>
    intro outer f u rest hvalid
    cases hvalid with
    | whileStmt hexp hbody hrest =>
      obtain ⟨c, hc⟩ := exists_expTo hP ht hexp
      obtain ⟨ns, g, u', hns⟩ := exists_loop ih hbody u
      exact ⟨_, f, u', .whileStmt hc hns, hrest⟩
  | repeatStmt hcount _ ih =>
    intro outer f u rest hvalid
    cases hvalid with
    | repeatNumber hkind hbody hrest =>
      rcases hcount with hcount | hcount
      · obtain ⟨a, ha⟩ := hP.number hcount
        obtain ⟨ns, g, u', hns⟩ := exists_loop ih hbody u
        exact ⟨_, f, u', .repeatNumber hcount ha hns, hrest⟩
      · rw [hcount.kind_eq] at hkind
        contradiction
    | repeatName hkind hsees hbody hrest =>
      rcases hcount with hcount | hcount
      · rw [hcount.kind_eq] at hkind
        contradiction
      · obtain ⟨s, hs, hv⟩ := lookup_of_seesVariable hsees
        obtain ⟨ns, g, u', hns⟩ := exists_loop ih hbody u
        exact ⟨_, f, u', .repeatName hcount hs hv hns, hrest⟩
  | rangeStmt ht hlow hhigh _ ih =>
    intro outer f u rest hvalid
    cases hvalid with
    | rangeStmt hexp₁ hexp₂ hbody hrest =>
      obtain ⟨a, ha⟩ := exists_expTo hP hlow hexp₁
      obtain ⟨b, hb⟩ := exists_expTo hP hhigh hexp₂
      obtain ⟨g, ns, g', u', hg, hns⟩ := exists_binder ih hbody u
      exact ⟨_, f, u', .rangeStmt ht ha hb hg hns, hrest⟩
  | steppedStmt ht hlow hhigh hstep _ ih =>
    intro outer f u rest hvalid
    cases hvalid with
    | steppedStmt hexp₁ hexp₂ hexp₃ hbody hrest =>
      obtain ⟨a, ha⟩ := exists_expTo hP hlow hexp₁
      obtain ⟨b, hb⟩ := exists_expTo hP hhigh hexp₂
      obtain ⟨c, hc⟩ := exists_expTo hP hstep hexp₃
      obtain ⟨g, ns, g', u', hg, hns⟩ := exists_binder ih hbody u
      exact ⟨_, f, u', .steppedStmt ht ha hb hc hg hns, hrest⟩
  | forStmt ht he _ ih =>
    intro outer f u rest hvalid
    cases hvalid with
    | forStmt hexp hbody hrest =>
      obtain ⟨c, hc⟩ := exists_expTo hP he hexp
      obtain ⟨g, ns, g', u', hg, hns⟩ := exists_binder ih hbody u
      exact ⟨_, f, u', .forStmt ht hc hg hns, hrest⟩
  | breakStmt =>
    intro outer f u rest hvalid
    cases hvalid with
    | breakStmt hloop hrest =>
      exact ⟨_, f, u, .breakStmt hloop, hrest⟩
  | continueStmt =>
    intro outer f u rest hvalid
    cases hvalid with
    | continueStmt hloop hrest =>
      exact ⟨_, f, u, .continueStmt hloop, hrest⟩
  | returnStmt he =>
    intro outer f u rest hvalid
    cases hvalid with
    | returnStmt hfunction hexp hrest =>
      obtain ⟨n, hn⟩ := exists_expTo hP he hexp
      exact ⟨_, f, u, .returnStmt hfunction hn, hrest⟩
  | shortReturnStmt =>
    intro outer f u rest hvalid
    cases hvalid with
    | shortReturnStmt hfunction hrest =>
      exact ⟨_, f, u, .shortReturnStmt hfunction, hrest⟩
  | throwStmt he =>
    intro outer f u rest hvalid
    cases hvalid with
    | throwStmt hexp hrest =>
      obtain ⟨n, hn⟩ := exists_expTo hP he hexp
      exact ⟨_, f, u, .throwStmt hn, hrest⟩

end Analysis

open Analysis

/-- Numbers that are short enough to be read. -/
theorem readable_spelled : Readable fun t =>
    t.Spelled ∧ (t.kind = .number → ¬ Numeral.IsOverlong t.text.toList) where
  number {t} ht := by
    obtain ⟨hspelled, hshort⟩ := ht.holds
    rw [Token.Spelled, ht.kind_eq] at hspelled
    obtain hread | ⟨hlong, -⟩ := Numeral.read_numeral hspelled
    · exact hread
    · exact absurd hlong (hshort ht.kind_eq)
  string {t} ht := by
    have hspelled := ht.holds.1
    rw [Token.Spelled, ht.kind_eq] at hspelled
    exact Literal.value_literal hspelled

variable {ts : List Token} {tree : Tree}

/-- A program of the grammar whose numbers can be read has its names resolved if and only if it is
valid where the library is in sight. -/
theorem analyze_ok_iff_valid (hd : Derives language .program ts [tree])
    (hspelled : ∀ t ∈ ts, t.Spelled)
    (hshort : ∀ t ∈ ts, t.kind = .number → ¬ Numeral.IsOverlong t.text.toList) :
    (∃ ss, analyze tree = .ok ss) ↔ Valid .library tree.kids := by
  have hts := isStmt_of_derives hd fun t ht => And.intro (hspelled t ht) (hshort t ht)
  constructor
  · rintro ⟨ss, hss⟩
    obtain ⟨f, u, hrow⟩ := stmtTo_of_analyze hts hss
    exact Frame.site_root ▸ hrow.accepted
  · intro hvalid
    rw [← Frame.site_root] at hvalid
    obtain ⟨ss, f, u, hrow⟩ :=
      exists_row (fun t ht => stmtResolves readable_spelled (hts t ht)) hvalid 1
    have hwalked : nodes tree.kids ⟨[.root], 1⟩ = .ok (ss, ⟨[f], u⟩) := hrow.walked
    refine ⟨ss, ?_⟩
    have hrun : analyze tree = (·.1) <$> nodes tree.kids ⟨[.root], 1⟩ := rfl
    rw [hrun, hwalked]
    rfl

theorem exists_of_parse (source : String) (test : Tree → Bool)
    (h : (parse source).toOption.any test) : ∃ tree, parse source = .ok tree ∧ test tree := by
  cases hp : parse source with
  | error e =>
    rw [hp] at h
    contradiction
  | ok tree =>
    rw [hp] at h
    exact ⟨tree, rfl, h⟩

/-- A function may hide a constant with a variable of its own and leave a loop it contains, but not
one it stands in. -/
theorem analyze_ok_iff_valid_nested :
    (∃ ts tree, Derives language .program ts [tree] ∧ Valid .library tree.kids) ∧
    ∃ ts tree, Derives language .program ts [tree] ∧ ¬ Valid .library tree.kids := by
  have hiff {source : String} {tree : Tree} (hp : parse source = .ok tree)
      (hshort : ∀ t ∈ (lex source.toList).tokens, t.text.toList.length ≤ 4300) :
      ∃ ts, Derives language .program ts [tree] ∧
        ((∃ ss, analyze tree = .ok ss) ↔ Valid .library tree.kids) := by
    obtain ⟨ts, rest, hts, hd⟩ := derives_of_parse hp
    have hread : ∀ t ∈ ts, t ∈ (lex source.toList).tokens := by
      intro t ht
      rw [hts]
      exact List.mem_append_left rest ht
    refine ⟨ts, hd, analyze_ok_iff_valid hd (fun t ht => spelled_lex _ t (hread t ht)) ?_⟩
    intro t ht _ hlong
    exact absurd hlong.2 (Nat.not_lt.2 (hshort t (hread t ht)))
  obtain ⟨tree₁, hp₁, hok⟩ := exists_of_parse
    "n = 2 f g(x, y) => pi = 3 w x < y: n = hypot(x, pi) ? n > 9: br;;; *. n: log(g(n, 1));"
    (fun tree => (analyze tree).toOption.isSome) (by decide +kernel)
  obtain ⟨tree₂, hp₂, hfail⟩ := exists_of_parse "w true: f g() => br; g();"
    (fun tree => (analyze tree).toOption.isNone) (by decide +kernel)
  obtain ⟨ts₁, hd₁, hiff₁⟩ := hiff hp₁ (by decide +kernel)
  obtain ⟨ts₂, hd₂, hiff₂⟩ := hiff hp₂ (by decide +kernel)
  refine ⟨⟨ts₁, tree₁, hd₁, hiff₁.1 ?_⟩, ts₂, tree₂, hd₂, fun hvalid => ?_⟩
  · cases ha : analyze tree₁ with
    | error e => simp [ha, Except.toOption] at hok
    | ok ss => exact ⟨ss, rfl⟩
  · obtain ⟨ss, hss⟩ := hiff₂.2 hvalid
    simp [hss, Except.toOption] at hfail

end Terse
