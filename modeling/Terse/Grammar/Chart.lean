import Terse.Grammar.Basic

/-! Reading tokens by a grammar that may be ambiguous. A chart has a row for each place, counted by
the tokens that are left there, and in a row a cell for each phrase. A cell knows every place at
which the phrase can end, with one reading for each, and how far any attempt at the phrase got.
Of two readings with the same ends the greedier one is kept: its first part is longer. -/
namespace Terse

/-- A reading of a phrase: the tokens left after it, and the trees it hands up. -/
structure Reading where
  left : Nat
  trees : List Tree

/-- All that can be made of a phrase at a place. -/
structure Cell where
  /-- Longest first, and one for each end. -/
  readings : List Reading
  /-- The fewest tokens left at which some attempt still agreed with the text. -/
  reach : Nat

namespace Reading

/-- Both lists are ordered, longest first. Where both have a reading with the same end, the first
list wins. -/
def merge : List Reading → List Reading → List Reading
  | [], bs => bs
  | a :: as, [] => a :: as
  | a :: as, b :: bs =>
    if a.left < b.left then a :: merge as (b :: bs)
    else if b.left < a.left then b :: merge (a :: as) bs
    else a :: merge as bs
termination_by as bs => as.length + bs.length

end Reading

namespace Cell

/-- An attempt that fails at once. -/
def fail (left : Nat) : Cell := ⟨[], left⟩

def union (c d : Cell) : Cell := ⟨Reading.merge c.readings d.readings, min c.reach d.reach⟩

def unions (left : Nat) (cs : List Cell) : Cell := cs.foldr union (fail left)

def mapTrees (f : Reading → List Tree) (c : Cell) : Cell :=
  ⟨c.readings.map fun r => ⟨r.left, f r⟩, c.reach⟩

def before (trees : List Tree) (c : Cell) : Cell := c.mapTrees fun r => trees ++ r.trees

end Cell

/-- What the chart knows at one place. -/
structure Row where
  token : Option Token
  cells : Array Cell

namespace Grammar

variable {σ : Type} (G : Grammar σ)

/-- The chart as seen from a place that is being filled: lookups there see the cells so far. -/
structure View (σ : Type) where
  token : Nat → Option Token
  cell : Nat → σ → Cell

/-- The places of a production one after another. -/
def sequence (v : View σ) : List (Item σ) → (left : Nat) → Cell
  | [], left => ⟨[⟨left, []⟩], left⟩
  | .keep k :: is, left =>
    match v.token left with
    | some t => if t.kind = k then (sequence v is (left - 1)).before [.token t] else .fail left
    | none => .fail left
  | .drop k :: is, left =>
    match v.token left with
    | some t => if t.kind = k then sequence v is (left - 1) else .fail left
    | none => .fail left
  | .part p :: is, left =>
    let c := v.cell left p
    (Cell.unions left (c.readings.map fun r => (sequence v is r.left).before r.trees)).union
      ⟨[], c.reach⟩

/-- Builds the node of a production that began with `left` tokens to go. -/
def shaped (v : View σ) (q : Production σ) (left : Nat) (c : Cell) : Cell :=
  c.mapTrees fun r =>
    q.shape (if r.left < left then (v.token left).bind Token.place else none) r.trees

/-- Continues readings by `step` again and again. Every step takes a token, so that as many rounds
as there are tokens are enough. -/
def continued (left : Nat) (step : Reading → Cell) : (rounds : Nat) → List Reading → Cell
  | 0, rs => ⟨rs, left⟩
  | _ + 1, [] => .fail left
  | rounds + 1, r :: rs =>
    let next := Cell.unions left ((r :: rs).map step)
    (Cell.mk (r :: rs) next.reach).union (continued left step rounds next.readings)

/-- Everything that can be made of a phrase at a place. -/
def fill (v : View σ) (left : Nat) (p : σ) : Cell :=
  let d := G.define p
  let base := Cell.unions left (d.base.map fun q => shaped v q left (sequence v q.items left))
  match d.steps with
  | [] => base
  | steps =>
    let step := fun (r : Reading) => Cell.unions left (steps.map fun q =>
      shaped v q left ((sequence v q.items r.left).before r.trees))
    (continued left step left base.readings).union ⟨[], base.reach⟩

/-- The row for a place, above the rows of all later places. -/
def row (token : Option Token) (rows : Array Row) : Row :=
  let left := rows.size
  let cells := G.phrases.foldl (fun cells p =>
    let v : View σ := {
      token := fun n => if n = left then token else (rows[n]?).bind (·.token)
      cell := fun n q =>
        let found := if n = left then cells[G.index q]? else (rows[n]?).bind (·.cells[G.index q]?)
        found.getD (.fail n) }
    cells.push (G.fill v left p)) #[]
  ⟨token, cells⟩

/-- The rows for a list of tokens, from the end of the text on. -/
def chart : List Token → Array Row
  | [] => #[G.row none #[]]
  | t :: ts =>
    let rows := chart ts
    rows.push (G.row (some t) rows)

/-- What can be made of a phrase at the start of some tokens. -/
def readings (p : σ) (ts : List Token) : Cell :=
  (((G.chart ts)[ts.length]?).bind (·.cells[G.index p]?)).getD (.fail ts.length)

end Grammar

end Terse
