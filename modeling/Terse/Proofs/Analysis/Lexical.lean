import Terse.Proofs.Analysis.Scoped
import Terse.Proofs.Node.Occurs
import Terse.Proofs.Source.Names

/-! Every name in a resolved program is a name of the library or was a name in the text. -/
namespace Terse

/-- Names of the library are written in their own way, and all others as they are. -/
def Symbol.Lexical (s : Symbol) : Prop :=
  s ∈ library ∨ s.isIntrinsic = false ∧ IsName s.name.toList

namespace Node

def Lexical (_ : List Region) : Node → Prop
  | symbol s => s.Lexical
  | member _ _ name => IsName name.toList
  | _ => True

/-- Simplification makes no names. -/
theorem steady_lexical : Steady Lexical where
  shell {path n} := by cases n <;> simp [Lexical, shell]
  constant c := by cases c <;> trivial
  negation e := trivial
  list ss := trivial

/-- A symbol that occurs anywhere in a lexical node has a name of the language. -/
theorem lexical_of_occurs {path : List Region} {n : Node} {s : Symbol}
    (h : Everywhere Lexical path n) (hs : Occurs s n) : s.Lexical :=
  have ⟨inner, hs⟩ := hs
  h inner (symbol s) hs

theorem lexical_declares {path : List Region} {n : Node} (h : Everywhere Lexical path n) :
    ∀ s ∈ n.declares, s.Lexical := by
  intro s hs
  have hsymbols {m : Node} (hm : Everywhere Lexical path m) (hs : s ∈ m.symbols) : s.Lexical :=
    lexical_of_occurs hm (occurs_of_mem_symbols m hs)
  cases n with
  | declare v e => exact hsymbols (everywhere_iff.1 h).2.1 hs
  | function f params body => exact hsymbols (everywhere_iff.1 h).2.1 hs
  | _ => exact absurd hs List.not_mem_nil

end Node

/-- The parameters of a function are names. -/
theorem Tree.IsStmt.of_funcDecl {P : Token → Prop} {t : Token} {params : List Token}
    {body : List Tree} {l loc : Option Loc}
    (h : IsStmt P (node .funcDecl (token t :: node .params (params.map token) l :: body) loc)) :
    (∀ p ∈ params, p.Is P .name) ∧ ∀ s ∈ body, IsStmt P s := by
  generalize hps : params.map token = ps at h
  cases h with
  | funcDecl _ hparams hbody =>
    obtain rfl := List.map_injective_iff.2 (fun _ _ => Tree.token.inj) hps
    exact ⟨hparams, hbody⟩

theorem Tree.IsStmt.of_tryStmt {P : Token → Prop} {params : List Token} {body handler : List Tree}
    {l l' l'' loc : Option Loc}
    (h : IsStmt P (node .tryStmt
      [node .block body l, node .params (params.map token) l', node .block handler l''] loc)) :
    (∀ s ∈ body, IsStmt P s) ∧ (∀ p ∈ params, p.Is P .name) ∧ ∀ s ∈ handler, IsStmt P s := by
  generalize hps : params.map token = ps at h
  cases h with
  | tryStmt hbody hparams hhandler =>
    obtain rfl := List.map_injective_iff.2 (fun _ _ => Tree.token.inj) hps
    exact ⟨hbody, hparams, hhandler⟩

namespace Analysis

open Node (ExpSort Region Lexical Everywhere EverywhereIn everywhere_iff)

variable {path : List Region} {outer sc : Scope} {f f' : Frame} {u u' : Nat} {t : Token}

/-- All that is in sight has a name that can be written. -/
def InSight (sc : Scope) : Prop := ∀ s ∈ sc.visible, s.Lexical

theorem InSight.lookup {name : String} {s : Symbol} (h : InSight sc)
    (hs : sc.lookup name = some s) : s.Lexical := h s (Scope.mem_visible hs)

theorem InSight.extend {vs : List Symbol} (h : InSight (f :: sc)) (hvs : ∀ v ∈ vs, v.Lexical) :
    InSight (f.extend vs :: sc) := by
  intro s hs
  obtain hs | hs := List.mem_append.1 (visible_extend_subset (List.Subset.refl _) hs)
  · exact hvs s hs
  · exact h s hs

/-- After a declaration all names in sight are still names of the language. -/
theorem InSight.declare {s : Symbol} {loc : Option Loc} (h : InSight (f :: sc))
    (hf : f.declare s loc = .ok f') (hs : s.Lexical) : InSight (f' :: sc) := by
  rw [Frame.eq_extend hf]
  exact h.extend (List.forall_mem_singleton.2 hs)

theorem InSight.child (h : InSight sc) (hf : f.locals = []) : InSight (f :: sc) :=
  fun s hs => h s (visible_child (List.Subset.refl _) hf hs)

theorem isName_of_is (h : t.Is Token.Named .name) : IsName t.text.toList := h.holds h.kind_eq

theorem lexical_variable (u : Nat) (h : t.Is Token.Named .name) :
    (fresh t u (.var false)).Lexical :=
  .inr ⟨rfl, isName_of_is h⟩

theorem lexical_function (u arity : Nat) (h : t.Is Token.Named .name) :
    (fresh t u (.fn arity false)).Lexical :=
  .inr ⟨rfl, isName_of_is h⟩

theorem lexical_introduced {ps : List Token} {vs : List Symbol} (h : Introduced ps f u vs f' u')
    (hps : ∀ p ∈ ps, p.Is Token.Named .name) : ∀ v ∈ vs, v.Lexical := by
  induction h with
  | nil => exact fun v hv => absurd hv List.not_mem_nil
  | cons _ _ ih =>
    obtain ⟨hp, hps⟩ := List.forall_mem_cons.1 hps
    exact List.forall_mem_cons.2 ⟨lexical_variable _ hp, ih hps⟩

theorem lexical_symbol {s : Symbol} (h : s.Lexical) : Everywhere Lexical path (.symbol s) :=
  everywhere_iff.2 ⟨h, trivial⟩

theorem lexical_symbols {vs : List Symbol} (h : ∀ v ∈ vs, v.Lexical) :
    EverywhereIn Lexical path (vs.map .symbol) :=
  List.forall_mem_map.2 fun v hv => lexical_symbol (h v hv)

/-- The symbols of an expression have names of the language if all in sight have. -/
theorem ExpTo.lexical {k : ExpSort} {t : Tree} {n : Node} (h : ExpTo Token.Named sc k t n)
    (hsc : InSight sc) : Everywhere Lexical path n := by
  induction h with
  | number | string | trueLit | falseLit => exact everywhere_iff.2 ⟨trivial, trivial⟩
  | var _ hs => exact lexical_symbol (hsc.lookup hs)
  | call _ hf _ hl _ ih =>
    exact everywhere_iff.2 ⟨trivial, lexical_symbol (hsc.lookup hf), forall_mem_of_zip hl ih⟩
  | array hl _ ih | dict hl _ ih => exact everywhere_iff.2 ⟨trivial, forall_mem_of_zip hl ih⟩
  | member _ ht ih | optionalMember _ ht ih => exact everywhere_iff.2 ⟨isName_of_is ht, ih⟩
  | dictItem _ _ ih | postfixUnary _ _ ih | unary _ _ ih => exact everywhere_iff.2 ⟨trivial, ih⟩
  | subscript _ _ ihl ihr | power _ _ ihl ihr | binary _ _ _ ihl ihr | relational _ _ _ ihl ihr
  | andExp _ _ ihl ihr | orExp _ _ ihl ihr => exact everywhere_iff.2 ⟨trivial, ihl, ihr⟩
  | conditional _ _ _ iht ihy ihn => exact everywhere_iff.2 ⟨trivial, iht, ihy, ihn⟩

def Code.Lexical (path : List Region) : Code → Prop
  | .stmt _ n => Everywhere Node.Lexical path n
  | .row _ ns => EverywhereIn Node.Lexical path ns

/-- The trees that are resolved are those of statements. -/
def Code.IsStmt (P : Token → Prop) : Code → Prop
  | .stmt t _ => Tree.IsStmt P t
  | .row ts _ => ∀ t ∈ ts, Tree.IsStmt P t

/-- All symbols of code that resolves have names of the language. -/
theorem StmtTo.lexical {c : Code} (h : StmtTo Token.Named c outer f u f' u')
    (hc : c.IsStmt Token.Named) (hf : InSight (f :: outer)) : c.Lexical path := by
  induction h generalizing path with
  | assign _ hn hs _ =>
    exact everywhere_iff.2 ⟨trivial, lexical_symbol (hf.lookup hs), hn.lexical hf⟩
  | declare ht hn _ _ =>
    exact everywhere_iff.2 ⟨trivial, lexical_symbol (lexical_variable _ ht), hn.lexical hf⟩
  | indexAssign _ hs hi hn =>
    exact everywhere_iff.2 ⟨trivial,
      everywhere_iff.2 ⟨trivial, lexical_symbol (hf.lookup hs), hi.lexical hf⟩, hn.lexical hf⟩
  | memberAssign _ hfield hs hn =>
    exact everywhere_iff.2 ⟨trivial,
      everywhere_iff.2 ⟨isName_of_is hfield, lexical_symbol (hf.lookup hs)⟩, hn.lexical hf⟩
  | mathAssign _ _ hs _ hn =>
    have hsymbol : Everywhere Node.Lexical path _ := lexical_symbol (hf.lookup hs)
    exact everywhere_iff.2
      ⟨trivial, hsymbol, everywhere_iff.2 ⟨trivial, hsymbol, hn.lexical hf⟩⟩
  | incDecStmt hn _ | throwStmt hn => exact everywhere_iff.2 ⟨trivial, hn.lexical hf⟩
  | callStmt hn =>
    have hs : Everywhere Node.Lexical path _ := hn.lexical hf
    obtain ⟨s, args, rfl⟩ := hn.eq_call
    exact everywhere_callStatement (fun _ => trivial) (fun _ => trivial) hs
  | @function t params _ _ _ _ _ _ _ _ _ _ u _ _ ht hdeclare hvs _ ih =>
    obtain ⟨hparams, hbody⟩ := Tree.IsStmt.of_funcDecl hc
    have hfunction := lexical_function u params.length ht
    have hintroduced := lexical_introduced hvs hparams
    refine everywhere_iff.2
      ⟨trivial, lexical_symbol hfunction, lexical_symbols hintroduced, ih hbody ?_⟩
    rw [hvs.frame_eq]
    exact ((hf.declare hdeclare hfunction).child rfl).extend hintroduced
  | ifOnly he _ ih =>
    cases hc with
    | ifOnly _ hyes => exact everywhere_iff.2 ⟨trivial, he.lexical hf, ih hyes (hf.child rfl)⟩
  | ifChain he _ _ ih ihn =>
    cases hc with
    | ifChain _ hyes hnext =>
      exact everywhere_iff.2 ⟨trivial, he.lexical hf, ihn hnext hf, ih hyes (hf.child rfl)⟩
  | ifElse he _ _ ihy ihn =>
    cases hc with
    | ifElse _ hyes hno =>
      exact everywhere_iff.2 ⟨trivial, he.lexical hf,
        everywhere_iff.2 ⟨trivial, ihn hno (hf.child rfl)⟩, ihy hyes (hf.child rfl)⟩
  | whileStmt he _ ih =>
    cases hc with
    | whileStmt _ hbody =>
      exact everywhere_iff.2 ⟨trivial, he.lexical hf, ih hbody (hf.child rfl)⟩
  | repeatNumber _ _ _ ih =>
    cases hc with
    | repeatStmt _ hbody =>
      exact everywhere_iff.2
        ⟨trivial, everywhere_iff.2 ⟨trivial, trivial⟩, ih hbody (hf.child rfl)⟩
  | repeatName _ hs _ _ ih =>
    cases hc with
    | repeatStmt _ hbody =>
      exact everywhere_iff.2 ⟨trivial, lexical_symbol (hf.lookup hs), ih hbody (hf.child rfl)⟩
  | rangeStmt ht ha hb hg _ ih =>
    cases hc with
    | rangeStmt _ _ _ hbody =>
      exact everywhere_iff.2 ⟨trivial, lexical_symbol (lexical_variable _ ht), ha.lexical hf,
        hb.lexical hf, everywhere_iff.2 ⟨trivial, trivial⟩,
        ih hbody ((hf.child rfl).declare hg (lexical_variable _ ht))⟩
  | steppedStmt ht ha hb hstep hg _ ih =>
    cases hc with
    | steppedStmt _ _ _ _ hbody =>
      exact everywhere_iff.2 ⟨trivial, lexical_symbol (lexical_variable _ ht), ha.lexical hf,
        hb.lexical hf, hstep.lexical hf,
        ih hbody ((hf.child rfl).declare hg (lexical_variable _ ht))⟩
  | forStmt ht he hg _ ih =>
    cases hc with
    | forStmt _ _ hbody =>
      exact everywhere_iff.2 ⟨trivial, lexical_symbol (lexical_variable _ ht), he.lexical hf,
        ih hbody ((hf.child rfl).declare hg (lexical_variable _ ht))⟩
  | breakStmt | continueStmt | shortReturnStmt => exact everywhere_iff.2 ⟨trivial, trivial⟩
  | returnStmt _ hn => exact everywhere_iff.2 ⟨trivial, hn.lexical hf⟩
  | tryStmt _ hvs _ ihb ihh =>
    obtain ⟨hbody, hparams, hhandler⟩ := Tree.IsStmt.of_tryStmt hc
    have hintroduced := lexical_introduced hvs hparams
    refine everywhere_iff.2
      ⟨trivial, ihb hbody (hf.child rfl), lexical_symbols hintroduced, ihh hhandler ?_⟩
    rw [hvs.frame_eq]
    exact (hf.child rfl).extend hintroduced
  | nil => exact fun n hn => absurd hn List.not_mem_nil
  | cons hn _ ihn ihns =>
    obtain ⟨hc, hcs⟩ := List.forall_mem_cons.1 hc
    have hfirst : Everywhere Node.Lexical path _ := ihn hc hf
    refine List.forall_mem_cons.2 ⟨hfirst, ihns hcs ?_⟩
    rw [hn.frame_eq]
    exact hf.extend (Node.lexical_declares hfirst)

end Analysis

/-- All symbols of an accepted program have names of the language. -/
theorem lexical_of_analyze {source : String} {tree : Tree} {ss : List Node}
    (hp : parse source = .ok tree) (ha : analyze tree = .ok ss) :
    Node.EverywhereIn Node.Lexical [] ss := by
  have hts := isStmt_of_parse hp (named_lex _)
  obtain ⟨f, u, hrow⟩ := stmtTo_of_analyze hts ha
  exact hrow.lexical hts fun s hs => .inl (visible_root hs)

end Terse
