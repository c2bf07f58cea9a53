import Terse.Proofs.Analysis.Complete
import Terse.Proofs.Analysis.Formed

/-! Which programs are valid, said without symbols and numbers: names are bound in scopes to what
they may be used for. What a scope binds changes with a declaration as the scope itself does. -/
namespace Terse

/-- What a name may be used for. -/
inductive Meaning where
  | variable
  | constant
  | function (arity : Nat)
deriving DecidableEq, Repr

abbrev Bindings := String → Option Meaning

/-- Where code stands: in a scope that it may add to, in others around that, innermost first, in a
loop or not, in a function or not. -/
structure Site where
  here : Bindings
  around : List Bindings
  inLoop : Bool
  inFunction : Bool

namespace Site

/-- The innermost binding wins. -/
def sees (Γ : Site) (name : String) : Option Meaning := (Γ.here :: Γ.around).findSome? (· name)

def SeesVariable (Γ : Site) (name : String) : Prop :=
  Γ.sees name = some .variable ∨ Γ.sees name = some .constant

def bind (Γ : Site) (name : String) (m : Meaning) : Site :=
  { Γ with here := fun x => if x = name then some m else Γ.here x }

/-- Several variables are bound at once. -/
def bindAll (Γ : Site) (names : List String) : Site :=
  { Γ with here := fun x => if x ∈ names then some .variable else Γ.here x }

/-- A scope of its own inside the present one. -/
def block (Γ : Site) : Site := { Γ with here := fun _ => none, around := Γ.here :: Γ.around }

def loop (Γ : Site) : Site := { Γ.block with inLoop := true }

/-- The body of a function is in no loop, wherever the function is declared. -/
def body (Γ : Site) : Site := { Γ.block with inLoop := false, inFunction := true }

/-- Where a program starts. -/
def library : Site where
  here := fun name => List.lookup name [
    ("pi", .constant), ("sin", .function 1), ("cos", .function 1), ("exp", .function 1),
    ("ln", .function 1), ("hypot", .function 2), ("log", .function 1)]
  around := []
  inLoop := false
  inFunction := false

end Site

/-- Every name in an expression is in sight, and what is called is a function that takes so many
arguments. -/
inductive ValidExp (Γ : Site) : Tree → Prop
  | number {t : Tree} {loc : Option Loc} : ValidExp Γ (.node .number [t] loc)
  | string {t : Tree} {loc : Option Loc} : ValidExp Γ (.node .string [t] loc)
  | trueLit {loc : Option Loc} : ValidExp Γ (.node .trueLit [] loc)
  | falseLit {loc : Option Loc} : ValidExp Γ (.node .falseLit [] loc)
  | var {name : Tree} {loc : Option Loc} :
      (Γ.sees name.word).isSome → ValidExp Γ (.node .var [name] loc)
  | call {name : Tree} {args : List Tree} {loc : Option Loc} :
      Γ.sees name.word = some (.function args.length) → (∀ e ∈ args, ValidExp Γ e) →
      ValidExp Γ (.node .call (name :: args) loc)
  | array {es : List Tree} {loc : Option Loc} :
      (∀ e ∈ es, ValidExp Γ e) → ValidExp Γ (.node .array es loc)
  | dict {es : List Tree} {loc : Option Loc} :
      (∀ e ∈ es, ValidExp Γ e) → ValidExp Γ (.node .dict es loc)
  | dictItem {key e : Tree} {loc : Option Loc} :
      ValidExp Γ e → ValidExp Γ (.node .dictItem [key, e] loc)
  | member {object name : Tree} {loc : Option Loc} :
      ValidExp Γ object → ValidExp Γ (.node .member [object, name] loc)
  | optionalMember {object name : Tree} {loc : Option Loc} :
      ValidExp Γ object → ValidExp Γ (.node .optionalMember [object, name] loc)
  | subscript {collection index : Tree} {loc : Option Loc} :
      ValidExp Γ collection → ValidExp Γ index →
      ValidExp Γ (.node .subscript [collection, index] loc)
  | postfixUnary {operand op : Tree} {loc : Option Loc} :
      ValidExp Γ operand → ValidExp Γ (.node .postfixUnary [operand, op] loc)
  | unary {op operand : Tree} {loc : Option Loc} :
      ValidExp Γ operand → ValidExp Γ (.node .unary [op, operand] loc)
  | power {left right : Tree} {loc : Option Loc} :
      ValidExp Γ left → ValidExp Γ right → ValidExp Γ (.node .power [left, right] loc)
  | binary {op left right : Tree} {loc : Option Loc} :
      ValidExp Γ left → ValidExp Γ right → ValidExp Γ (.node .binary [op, left, right] loc)
  | relational {left op right : Tree} {loc : Option Loc} :
      ValidExp Γ left → ValidExp Γ right → ValidExp Γ (.node .relational [left, op, right] loc)
  | andExp {left right : Tree} {loc : Option Loc} :
      ValidExp Γ left → ValidExp Γ right → ValidExp Γ (.node .andExp [left, right] loc)
  | orExp {left right : Tree} {loc : Option Loc} :
      ValidExp Γ left → ValidExp Γ right → ValidExp Γ (.node .orExp [left, right] loc)
  | conditional {test yes no : Tree} {loc : Option Loc} :
      ValidExp Γ test → ValidExp Γ yes → ValidExp Γ no →
      ValidExp Γ (.node .conditional [test, yes, no] loc)

/-- `Valid Γ ts`: the statements `ts` may stand at `Γ` one after another. What one of them declares
is bound for those after it, and no statement leaves anything else behind. -/
inductive Valid : Site → List Tree → Prop
  | nil {Γ : Site} : Valid Γ []
  | assign {Γ : Site} {name e : Tree} {loc : Option Loc} {rest : List Tree} :
      ValidExp Γ e → Γ.sees name.word = some .variable → Valid Γ rest →
      Valid Γ (.node .varDecl [name, e] loc :: rest)
  | declare {Γ : Site} {name e : Tree} {loc : Option Loc} {rest : List Tree} :
      ValidExp Γ e → Γ.sees name.word ≠ some .variable → Γ.here name.word = none →
      Valid (Γ.bind name.word .variable) rest → Valid Γ (.node .varDecl [name, e] loc :: rest)
  | indexAssign {Γ : Site} {name index e : Tree} {loc : Option Loc} {rest : List Tree} :
      (Γ.sees name.word).isSome → ValidExp Γ index → ValidExp Γ e → Valid Γ rest →
      Valid Γ (.node .indexAssign [name, index, e] loc :: rest)
  | memberAssign {Γ : Site} {name field e : Tree} {loc : Option Loc} {rest : List Tree} :
      (Γ.sees name.word).isSome → ValidExp Γ e → Valid Γ rest →
      Valid Γ (.node .memberAssign [name, field, e] loc :: rest)
  | mathAssign {Γ : Site} {name op e : Tree} {loc : Option Loc} {rest : List Tree} :
      Γ.SeesVariable name.word → ValidExp Γ e → Valid Γ rest →
      Valid Γ (.node .mathAssign [name, op, e] loc :: rest)
  | incDecStmt {Γ : Site} {operand op : Tree} {loc : Option Loc} {rest : List Tree} :
      ValidExp Γ operand → Valid Γ rest → Valid Γ (.node .incDecStmt [operand, op] loc :: rest)
  | callStmt {Γ : Site} {call : Tree} {loc : Option Loc} {rest : List Tree} :
      ValidExp Γ call → Valid Γ rest → Valid Γ (.node .callStmt [call] loc :: rest)
  | funcDecl {Γ : Site} {name : Tree} {params body : List Tree} {l loc : Option Loc}
      {rest : List Tree} :
      Γ.here name.word = none → (params.map Tree.word).Nodup →
      Valid ((Γ.bind name.word (.function params.length)).body.bindAll (params.map Tree.word))
        body →
      Valid (Γ.bind name.word (.function params.length)) rest →
      Valid Γ (.node .funcDecl (name :: .node .params params l :: body) loc :: rest)
  | ifOnly {Γ : Site} {test : Tree} {yes : List Tree} {l loc : Option Loc} {rest : List Tree} :
      ValidExp Γ test → Valid Γ.block yes → Valid Γ rest →
      Valid Γ (.node .ifStmt [test, .node .block yes l] loc :: rest)
  | ifChain {Γ : Site} {test : Tree} {yes chain : List Tree} {l l' loc : Option Loc}
      {rest : List Tree} :
      ValidExp Γ test → Valid Γ.block yes → Valid Γ [.node .ifStmt chain l'] → Valid Γ rest →
      Valid Γ (.node .ifStmt [test, .node .block yes l, .node .ifStmt chain l'] loc :: rest)
  | ifElse {Γ : Site} {test : Tree} {yes no : List Tree} {l l' loc : Option Loc}
      {rest : List Tree} :
      ValidExp Γ test → Valid Γ.block yes → Valid Γ.block no → Valid Γ rest →
      Valid Γ (.node .ifStmt [test, .node .block yes l, .node .block no l'] loc :: rest)
  | whileStmt {Γ : Site} {test : Tree} {body : List Tree} {l loc : Option Loc} {rest : List Tree} :
      ValidExp Γ test → Valid Γ.loop body → Valid Γ rest →
      Valid Γ (.node .whileStmt [test, .node .block body l] loc :: rest)
  | repeatNumber {Γ : Site} {times : Tree} {count : Token} {body : List Tree} {l loc : Option Loc}
      {rest : List Tree} :
      count.kind = .number → Valid Γ.loop body → Valid Γ rest →
      Valid Γ (.node .repeatStmt [times, .token count, .node .block body l] loc :: rest)
  | repeatName {Γ : Site} {times : Tree} {count : Token} {body : List Tree} {l loc : Option Loc}
      {rest : List Tree} :
      count.kind = .name → Γ.SeesVariable count.text → Valid Γ.loop body → Valid Γ rest →
      Valid Γ (.node .repeatStmt [times, .token count, .node .block body l] loc :: rest)
  | rangeStmt {Γ : Site} {name low high : Tree} {body : List Tree} {l loc : Option Loc}
      {rest : List Tree} :
      ValidExp Γ low → ValidExp Γ high → Valid (Γ.loop.bindAll [name.word]) body → Valid Γ rest →
      Valid Γ (.node .rangeStmt [name, low, high, .node .block body l] loc :: rest)
  | steppedStmt {Γ : Site} {name low high step : Tree} {body : List Tree} {l loc : Option Loc}
      {rest : List Tree} :
      ValidExp Γ low → ValidExp Γ high → ValidExp Γ step → Valid (Γ.loop.bindAll [name.word]) body →
      Valid Γ rest →
      Valid Γ (.node .rangeStmt [name, low, high, step, .node .block body l] loc :: rest)
  | forStmt {Γ : Site} {name collection : Tree} {body : List Tree} {l loc : Option Loc}
      {rest : List Tree} :
      ValidExp Γ collection → Valid (Γ.loop.bindAll [name.word]) body → Valid Γ rest →
      Valid Γ (.node .forStmt [name, collection, .node .block body l] loc :: rest)
  | breakStmt {Γ : Site} {t : Tree} {loc : Option Loc} {rest : List Tree} :
      Γ.inLoop → Valid Γ rest → Valid Γ (.node .breakStmt [t] loc :: rest)
  | continueStmt {Γ : Site} {t : Tree} {loc : Option Loc} {rest : List Tree} :
      Γ.inLoop → Valid Γ rest → Valid Γ (.node .continueStmt [t] loc :: rest)
  | returnStmt {Γ : Site} {t e : Tree} {loc : Option Loc} {rest : List Tree} :
      Γ.inFunction → ValidExp Γ e → Valid Γ rest → Valid Γ (.node .returnStmt [t, e] loc :: rest)
  | shortReturnStmt {Γ : Site} {t : Tree} {loc : Option Loc} {rest : List Tree} :
      Γ.inFunction → Valid Γ rest → Valid Γ (.node .shortReturnStmt [t] loc :: rest)
  | throwStmt {Γ : Site} {e : Tree} {loc : Option Loc} {rest : List Tree} :
      ValidExp Γ e → Valid Γ rest → Valid Γ (.node .throwStmt [e] loc :: rest)
  | tryStmt {Γ : Site} {body params handler : List Tree} {l l' l'' loc : Option Loc}
      {rest : List Tree} :
      Valid Γ.block body → (params.map Tree.word).Nodup →
      Valid (Γ.block.bindAll (params.map Tree.word)) handler → Valid Γ rest →
      Valid Γ (.node .tryStmt [.node .block body l, .node .params params l',
        .node .block handler l''] loc :: rest)

def Symbol.meaning (s : Symbol) : Meaning :=
  match s.kind with
  | .var false => .variable
  | .var true => .constant
  | .fn arity _ => .function arity

variable {s : Symbol} {name : String} {f f' : Frame} {outer : Scope}

theorem Symbol.meaning_eq_variable : s.meaning = .variable ↔ s.isWritable := by
  obtain ⟨_, _, kind, _⟩ := s
  cases kind with
  | var readonly => cases readonly <;> simp [meaning, isWritable]
  | fn => simp [meaning, isWritable]

theorem Symbol.meaning_eq_function {n : Nat} :
    s.meaning = .function n ↔ ∃ intrinsic, s.kind = .fn n intrinsic := by
  obtain ⟨_, _, kind, _⟩ := s
  cases kind with
  | var readonly => cases readonly <;> simp [meaning]
  | fn => simp [meaning]

theorem Symbol.isFunction_eq_false :
    s.isFunction = false ↔ s.meaning = .variable ∨ s.meaning = .constant := by
  obtain ⟨_, _, kind, _⟩ := s
  cases kind with
  | var readonly => cases readonly <;> simp [meaning, isFunction]
  | fn => simp [meaning, isFunction]

namespace Frame

def bindings (f : Frame) : Bindings := fun name => (f.lookup name).map Symbol.meaning

/-- What a scope and those around it come to when symbols are forgotten. -/
def site (f : Frame) (outer : Scope) : Site :=
  ⟨f.bindings, outer.map bindings, f.inLoop, f.function.isSome⟩

/-- A site sees what lookup finds. -/
theorem sees_site : (f.site outer).sees name =
    (Scope.lookup (f :: outer) name).map Symbol.meaning := by
  have hall (sc : Scope) : (sc.map bindings).findSome? (· name) =
      (Scope.lookup sc name).map Symbol.meaning := by
    induction sc with
    | nil => rfl
    | cons g sc ih =>
      simp only [Scope.lookup, List.map_cons, List.findSome?_cons, bindings] at ih ⊢
      cases g.lookup name with
      | none => exact ih
      | some s => rfl
  exact hall (f :: outer)

/-- A declaration binds its own name and no other. -/
theorem bindings_declare {loc : Option Loc} (h : f.declare s loc = .ok f') (x : String) :
    f'.bindings x = if x = s.name then some s.meaning else f.bindings x := by
  unfold declare at h
  split at h
  · contradiction
  · rename_i hnone
    obtain rfl := Except.ok.inj h
    have hnone : f.locals.lookup s.name = none := hnone
    simp only [bindings, lookup, List.lookup_append]
    by_cases hx : x = s.name
    · subst hx
      simp [hnone]
    · have hne : (x == s.name) = false := beq_false_of_ne hx
      simp [List.lookup_cons, hne, hx]

/-- Only a name that the frame has not bound yet can be declared. -/
theorem bindings_of_declare {loc : Option Loc} (h : f.declare s loc = .ok f') :
    f.bindings s.name = none := by
  unfold declare at h
  split at h
  · contradiction
  · rename_i hnone
    rw [bindings, hnone]
    rfl

/-- A declaration binds its name at the site. -/
theorem site_declare {loc : Option Loc} (h : f.declare s loc = .ok f') :
    f'.site outer = (f.site outer).bind s.name s.meaning := by
  have hbindings := funext (bindings_declare h)
  unfold declare at h
  split at h
  · contradiction
  · obtain rfl := Except.ok.inj h
    rw [site, hbindings]
    rfl

theorem exists_declare (h : f.bindings s.name = none) (loc : Option Loc) :
    ∃ f', f.declare s loc = .ok f' := by
  have hnone : f.lookup s.name = none := Option.map_eq_none_iff.1 h
  exact ⟨_, by rw [declare, hnone]⟩

theorem site_child : (f.child none none).site (f :: outer) = (f.site outer).block := rfl

theorem site_loop : (f.child (some true) none).site (f :: outer) = (f.site outer).loop := rfl

theorem site_functionChild : (functionChild s).site (f :: outer) = (f.site outer).body := rfl

/-- The root frame is the site of the library. -/
theorem site_root : Frame.root.site [] = Site.library := by
  have hbindings : Frame.root.bindings = Site.library.here := by
    funext x
    have hall (entries : List (String × Symbol)) : (entries.lookup x).map Symbol.meaning =
        (entries.map fun p => (p.1, p.2.meaning)).lookup x := by
      induction entries with
      | nil => rfl
      | cons p entries ih =>
        obtain ⟨y, s⟩ := p
        simp only [List.lookup_cons, List.map_cons]
        split
        · rfl
        · exact ih
    exact hall Frame.root.locals
  rw [site, hbindings]
  rfl

end Frame

namespace Analysis

open Node (ExpSort)

variable {P : Token → Prop} {Γ : Site} {ps : List Token} {vs : List Symbol} {u u' : Nat}

/-- Names that are declared one after another are new to their scope and to each other. -/
theorem Introduced.site (h : Introduced ps f u vs f' u') :
    (ps.map Token.text).Nodup ∧ (∀ x ∈ ps.map Token.text, f.bindings x = none) ∧
      ∀ outer, f'.site outer = (f.site outer).bindAll (ps.map Token.text) := by
  induction h with
  | nil => simp [Site.bindAll]
  | @cons t ts f f₁ f' u u' vs hf _ ih =>
    obtain ⟨hnodup, hnew, hsites⟩ := ih
    have hstep (x : String) : f₁.bindings x = if x = t.text then some .variable else f.bindings x :=
      Frame.bindings_declare hf x
    have hnotMem : t.text ∉ ts.map Token.text := by
      intro hmem
      have hnone := hnew t.text hmem
      rw [hstep, if_pos rfl] at hnone
      contradiction
    refine ⟨List.nodup_cons.2 ⟨hnotMem, hnodup⟩, ?_, fun outer => ?_⟩
    · refine List.forall_mem_cons.2 ⟨Frame.bindings_of_declare hf, fun x hx => ?_⟩
      have hne : x ≠ t.text := fun he => hnotMem (he ▸ hx)
      have hnone := hnew x hx
      rwa [hstep, if_neg hne] at hnone
    · rw [hsites, Frame.site_declare hf]
      simp only [Site.bindAll, Site.bind, Site.mk.injEq, and_self, and_true]
      funext x
      by_cases hx : x = t.text <;> simp [hx, fresh, Symbol.meaning]

/-- Parameters with different new names can be declared. -/
theorem exists_introduced (hnodup : (ps.map Token.text).Nodup)
    (hnew : ∀ x ∈ ps.map Token.text, f.bindings x = none) :
    ∃ vs f' u', Introduced ps f u vs f' u' := by
  induction ps generalizing f u with
  | nil => exact ⟨[], f, u, .nil⟩
  | cons t ts ih =>
    obtain ⟨hnotMem, hnodup⟩ := List.nodup_cons.1 hnodup
    obtain ⟨hfirst, hnew⟩ := List.forall_mem_cons.1 hnew
    obtain ⟨f₁, hf₁⟩ := Frame.exists_declare (s := fresh t u (.var false)) hfirst t.loc
    have hnew₁ : ∀ x ∈ ts.map Token.text, f₁.bindings x = none := by
      intro x hx
      have hne : x ≠ t.text := fun he => hnotMem (he ▸ hx)
      exact (Frame.bindings_declare hf₁ x).trans ((if_neg hne).trans (hnew x hx))
    obtain ⟨vs, f', u', h⟩ := ih hnodup hnew₁
    exact ⟨_, f', u', .cons hf₁ h⟩

end Analysis
end Terse
