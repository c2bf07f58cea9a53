import Terse.Tree

/-! Grammars, and what they derive. -/
namespace Terse

/-- One place in a production: a token that the tree keeps, a token that it drops, or a phrase. -/
inductive Item (σ : Type) where
  | keep (kind : TokenKind)
  | drop (kind : TokenKind)
  | part (phrase : σ)
deriving DecidableEq, Repr

/-- A production with a rule builds a node. One without hands its parts up as they are. -/
structure Production (σ : Type) where
  rule : Option Rule
  items : List (Item σ)
deriving DecidableEq, Repr

/-- The productions of a phrase. Those under `steps` continue a phrase that is already there, so
that `steps` is where left recursion lives. -/
structure Definition (σ : Type) where
  base : List (Production σ)
  steps : List (Production σ)

/-- Phrases are listed so that one that may start another comes before it. -/
structure Grammar (σ : Type) where
  phrases : List σ
  index : σ → Nat
  define : σ → Definition σ

variable {σ : Type}

def Production.shape (p : Production σ) (loc : Option Loc) (kids : List Tree) : List Tree :=
  match p.rule with
  | some r => [.node r kids loc]
  | none => kids

/-- The place that a token gives to what it starts. The end of a text starts nothing. -/
def Token.place (t : Token) : Option Loc := if t.kind = .endOfText then none else t.loc

/-- The place of the first of some tokens. -/
def firstLoc (ts : List Token) : Option Loc := ts.head?.bind Token.place

mutual

/-- `Derives G p ts trees`: the phrase `p` can be read from exactly the tokens `ts`, and hands up
`trees`. -/
inductive Derives (G : Grammar σ) : σ → List Token → List Tree → Prop
  | base {p : σ} {q : Production σ} {ts : List Token} {kids : List Tree} :
      q ∈ (G.define p).base → DerivesItems G q.items ts kids →
      Derives G p ts (q.shape (firstLoc ts) kids)
  | step {p : σ} {q : Production σ} {ts us : List Token} {trees kids : List Tree} :
      Derives G p ts trees → q ∈ (G.define p).steps → DerivesItems G q.items us kids →
      Derives G p (ts ++ us) (q.shape (firstLoc (ts ++ us)) (trees ++ kids))

/-- The same for the items of a production. -/
inductive DerivesItems (G : Grammar σ) : List (Item σ) → List Token → List Tree → Prop
  | nil : DerivesItems G [] [] []
  | keep {t : Token} {is : List (Item σ)} {ts : List Token} {kids : List Tree} :
      DerivesItems G is ts kids → DerivesItems G (.keep t.kind :: is) (t :: ts) (.token t :: kids)
  | drop {t : Token} {is : List (Item σ)} {ts : List Token} {kids : List Tree} :
      DerivesItems G is ts kids → DerivesItems G (.drop t.kind :: is) (t :: ts) kids
  | part {p : σ} {is : List (Item σ)} {ts us : List Token} {trees kids : List Tree} :
      Derives G p ts trees → DerivesItems G is us kids →
      DerivesItems G (.part p :: is) (ts ++ us) (trees ++ kids)

end

end Terse
