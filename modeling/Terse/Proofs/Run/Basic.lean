import Terse.Proofs.Node.Scoping

/-! Running programs. Statements run as they are emitted: a loop tests its bound anew before every
round, and what a block declares is gone after it. Functions and calls have no rule. -/
namespace Terse

/-- What the variables hold. A variable that holds nothing cannot be read. -/
abbrev Store (V : Type) := Symbol → Option V

namespace Store

variable {V : Type}

def set (σ : Store V) (s : Symbol) (v : V) : Store V := fun t => if t = s then some v else σ t

def setAll (σ : Store V) : List Symbol → List V → Store V
  | s :: ss, v :: vs => setAll (σ.set s v) ss vs
  | _, _ => σ

/-- The store at the end of a block that was entered with `before`. -/
def leave (σ : Store V) (locals : List Symbol) (before : Store V) : Store V :=
  fun s => if s ∈ locals then before s else σ s

def Agree (Γ : List Symbol) (σ τ : Store V) : Prop := ∀ s ∈ Γ, σ s = τ s

end Store

/-- A meaning of expressions. They have no effects, and some may have no value. Nothing is asked of
operations beyond what the literal cases of simplification need. -/
structure Evaluation (V : Type) where
  eval : Node → Store V → Option V
  number : Number → V
  boolean : Bool → V
  emptyArray : V
  /-- Whether a value passes a test. -/
  truthy : V → Bool
  less : V → V → Option Bool
  add : V → V → Option V
  succ : V → Option V
  pred : V → Option V
  /-- What a loop over a value goes through. -/
  elements : V → Option (List V)
  /-- A thrown value taken apart for several parameters. -/
  parts : V → Nat → Option (List V)
  eval_congr : ∀ {e : Node} {σ τ : Store V}, Store.Agree e.symbols σ τ → eval e σ = eval e τ
  eval_number : ∀ (a : Number) (σ : Store V), eval (.number a) σ = some (number a)
  eval_boolean : ∀ (b : Bool) (σ : Store V), eval (.boolean b) σ = some (boolean b)
  eval_emptyArray : ∀ σ : Store V, eval (.array []) σ = some emptyArray
  eval_symbol : ∀ (s : Symbol) (σ : Store V), s.isFunction = false → eval (.symbol s) σ = σ s
  eval_optimize : ∀ {e e' : Node} {σ : Store V} {v : V}, e.IsExp .value → e.optimize = .ok e' →
    eval e σ = some v → eval e' σ = some v
  truthy_boolean : ∀ b : Bool, truthy (boolean b) = b
  less_number : ∀ {a b : Number}, less (number a) (number b) = some true → a.compare? b = some .lt
  elements_emptyArray : elements emptyArray = some []

/-- How a statement ends. -/
inductive Outcome (V : Type) where
  | normal
  | broke
  | continued
  | threw (v : V)

/-- What decides on the next round of a loop. -/
inductive Control (V : Type) where
  | test (e : Node)
  /-- Counts with `i` up to a bound. -/
  | count (bound : Node) (i : V)
  | range (v : Symbol) (high step : Node)
  /-- `left` are the elements to come. -/
  | each (v : Symbol) (left : List V)

namespace Control

variable {V : Type} (E : Evaluation V)

/-- Whether there is another round. -/
def goesOn : Control V → Store V → Option Bool
  | test e, σ => (E.eval e σ).map E.truthy
  | count bound i, σ => do
    let b ← E.eval bound σ
    E.less i b
  | range v high _, σ => do
    let a ← σ v
    let b ← E.eval high σ
    E.less a b
  | each _ left, _ => some !left.isEmpty

/-- The store that a round starts with. -/
def start : Control V → Store V → Store V
  | each v (a :: _), σ => σ.set v a
  | _, σ => σ

/-- What happens between two rounds. -/
def next : Control V → Store V → Option (Control V × Store V)
  | test e, σ => some (test e, σ)
  | count bound i, σ => do
    let j ← E.succ i
    return (count bound j, σ)
  | range v high step, σ => do
    let a ← σ v
    let b ← E.eval step σ
    let c ← E.add a b
    return (range v high step, σ.set v c)
  | each v left, σ => some (each v left.tail, σ)

end Control

/-- What can be run: a statement, statements in a row, a block with a scope of its own, and what is
left of a loop. -/
inductive Code (V : Type) where
  | stmt (s : Node)
  | row (ss : List Node)
  | block (ss : List Node)
  | loop (c : Control V) (body : List Node)

namespace Evaluation

variable {V : Type} (E : Evaluation V)

/-- The values of the parameters of a handler. -/
def caught : Nat → V → Option (List V)
  | 0, _ => some []
  | 1, v => some [v]
  | n, v => E.parts v n

end Evaluation

/-- `Runs E c σ T O τ`: from the store `σ`, the code `c` prints `T`, ends with `O` and leaves
`τ`. -/
inductive Runs {V : Type} (E : Evaluation V) :
    Code V → Store V → List V → Outcome V → Store V → Prop
  | declare {σ : Store V} {s : Symbol} {e : Node} {v : V} :
      E.eval e σ = some v → Runs E (.stmt (.declare (.symbol s) e)) σ [] .normal (σ.set s v)
  | assign {σ : Store V} {s : Symbol} {e : Node} {v : V} :
      E.eval e σ = some v → Runs E (.stmt (.assign (.symbol s) e)) σ [] .normal (σ.set s v)
  | incr {σ : Store V} {s : Symbol} {a b : V} :
      σ s = some a → E.succ a = some b →
      Runs E (.stmt (.unary .incr (.symbol s))) σ [] .normal (σ.set s b)
  | decr {σ : Store V} {s : Symbol} {a b : V} :
      σ s = some a → E.pred a = some b →
      Runs E (.stmt (.unary .decr (.symbol s))) σ [] .normal (σ.set s b)
  | print {σ : Store V} {e : Node} {v : V} :
      E.eval e σ = some v → Runs E (.stmt (.print e)) σ [v] .normal σ
  | breakLoop {σ : Store V} : Runs E (.stmt .breakLoop) σ [] .broke σ
  | continueLoop {σ : Store V} : Runs E (.stmt .continueLoop) σ [] .continued σ
  | throwValue {σ : Store V} {e : Node} {v : V} :
      E.eval e σ = some v → Runs E (.stmt (.throwValue e)) σ [] (.threw v) σ
  | ifElse_yes {σ τ : Store V} {test no : Node} {yes : List Node} {v : V} {T : List V}
      {O : Outcome V} :
      E.eval test σ = some v → E.truthy v = true → Runs E (.block yes) σ T O τ →
      Runs E (.stmt (.ifElse test yes no)) σ T O τ
  | ifElse_no {σ τ : Store V} {test : Node} {yes no : List Node} {v : V} {T : List V}
      {O : Outcome V} :
      E.eval test σ = some v → E.truthy v = false → Runs E (.block no) σ T O τ →
      Runs E (.stmt (.ifElse test yes (.list no))) σ T O τ
  | ifElse_next {σ τ : Store V} {test next : Node} {yes : List Node} {v : V} {T : List V}
      {O : Outcome V} :
      E.eval test σ = some v → E.truthy v = false → next.isChoice → Runs E (.stmt next) σ T O τ →
      Runs E (.stmt (.ifElse test yes next)) σ T O τ
  | ifOnly_yes {σ τ : Store V} {test : Node} {yes : List Node} {v : V} {T : List V}
      {O : Outcome V} :
      E.eval test σ = some v → E.truthy v = true → Runs E (.block yes) σ T O τ →
      Runs E (.stmt (.ifOnly test yes)) σ T O τ
  | ifOnly_no {σ : Store V} {test : Node} {yes : List Node} {v : V} :
      E.eval test σ = some v → E.truthy v = false →
      Runs E (.stmt (.ifOnly test yes)) σ [] .normal σ
  | whileLoop {σ τ : Store V} {test : Node} {body : List Node} {T : List V} {O : Outcome V} :
      Runs E (.loop (.test test) body) σ T O τ → Runs E (.stmt (.whileLoop test body)) σ T O τ
  | repeatLoop {σ τ : Store V} {count : Node} {body : List Node} {T : List V} {O : Outcome V} :
      Runs E (.loop (.count count (E.number (.int 0))) body) σ T O τ →
      Runs E (.stmt (.repeatLoop count body)) σ T O τ
  | rangeLoop {σ τ : Store V} {v : Symbol} {low high step : Node} {body : List Node} {a : V}
      {T : List V} {O : Outcome V} :
      E.eval low σ = some a → Runs E (.loop (.range v high step) body) (σ.set v a) T O τ →
      Runs E (.stmt (.rangeLoop (.symbol v) low high step body)) σ T O (τ.leave [v] σ)
  | eachLoop {σ τ : Store V} {v : Symbol} {collection : Node} {body : List Node} {c : V}
      {vs T : List V} {O : Outcome V} :
      E.eval collection σ = some c → E.elements c = some vs →
      Runs E (.loop (.each v vs) body) σ T O τ →
      Runs E (.stmt (.eachLoop (.symbol v) collection body)) σ T O (τ.leave [v] σ)
  | tryCatch_through {σ τ : Store V} {params : List Symbol} {body handler : List Node} {T : List V}
      {O : Outcome V} :
      Runs E (.block body) σ T O τ → (∀ v, O ≠ .threw v) →
      Runs E (.stmt (.tryCatch body (params.map .symbol) handler)) σ T O τ
  | tryCatch_caught {σ σ₁ τ : Store V} {params : List Symbol} {body handler : List Node} {v : V}
      {vs T U : List V} {O : Outcome V} :
      Runs E (.block body) σ T (.threw v) σ₁ → E.caught params.length v = some vs →
      vs.length = params.length → Runs E (.block handler) (σ₁.setAll params vs) U O τ →
      Runs E (.stmt (.tryCatch body (params.map .symbol) handler)) σ (T ++ U) O (τ.leave params σ₁)
  | nil {σ : Store V} : Runs E (.row []) σ [] .normal σ
  | cons {σ σ₁ τ : Store V} {s : Node} {ss : List Node} {T U : List V} {O : Outcome V} :
      Runs E (.stmt s) σ T .normal σ₁ → Runs E (.row ss) σ₁ U O τ →
      Runs E (.row (s :: ss)) σ (T ++ U) O τ
  | stop {σ τ : Store V} {s : Node} {ss : List Node} {T : List V} {O : Outcome V} :
      Runs E (.stmt s) σ T O τ → O ≠ .normal → Runs E (.row (s :: ss)) σ T O τ
  | block {σ τ : Store V} {ss : List Node} {T : List V} {O : Outcome V} :
      Runs E (.row ss) σ T O τ → Runs E (.block ss) σ T O (τ.leave (Node.declaresBlock ss) σ)
  | ended {σ : Store V} {c : Control V} {body : List Node} :
      c.goesOn E σ = some false → Runs E (.loop c body) σ [] .normal σ
  | round {σ σ₁ σ₂ τ : Store V} {c c' : Control V} {body : List Node} {T U : List V}
      {O O' : Outcome V} :
      c.goesOn E σ = some true → Runs E (.block body) (c.start σ) T O σ₁ →
      O = .normal ∨ O = .continued → c.next E σ₁ = some (c', σ₂) →
      Runs E (.loop c' body) σ₂ U O' τ → Runs E (.loop c body) σ (T ++ U) O' τ
  | broken {σ τ : Store V} {c : Control V} {body : List Node} {T : List V} :
      c.goesOn E σ = some true → Runs E (.block body) (c.start σ) T .broke τ →
      Runs E (.loop c body) σ T .normal τ
  | thrown {σ τ : Store V} {c : Control V} {body : List Node} {v : V} {T : List V} :
      c.goesOn E σ = some true → Runs E (.block body) (c.start σ) T (.threw v) τ →
      Runs E (.loop c body) σ T (.threw v) τ

end Terse
