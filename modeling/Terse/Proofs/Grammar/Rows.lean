import Terse.Grammar.Chart

/-! A chart is filled from the end of the text on, and at each place in the order of the phrases.
What one cell has whenever all cells before it have it, is had by all. -/
namespace Terse.Grammar

variable {σ : Type} {G : Grammar σ} {Q : σ → List Token → Cell → Prop} {p : σ} {ts : List Token}

/-- Each phrase has its place in the list of all. -/
structure Indexed (G : Grammar σ) : Prop where
  place (p : σ) : G.phrases[G.index p]? = some p
  nodup : G.phrases.Nodup

/-- The chart as the cell of a phrase sees it: all later places are filled, and at its own place the
phrases before it. -/
structure View.Has (Q : σ → List Token → Cell → Prop) (G : Grammar σ) (v : View σ) (ts : List Token)
    (p : σ) : Prop where
  token {us : List Token} : us <:+ ts → v.token us.length = us.head?
  later {us : List Token} {q : σ} :
    us <:+ ts → us.length < ts.length → Q q us (v.cell us.length q)
  before {q : σ} : G.index q < G.index p → Q q ts (v.cell ts.length q)
  missing {q : σ} : G.index p ≤ G.index q → v.cell ts.length q = .fail ts.length

/-- The cells of the phrases so far. -/
def HasCells (Q : σ → List Token → Cell → Prop) (G : Grammar σ) (cells : Array Cell)
    (ts : List Token) : Prop := ∀ p c, cells[G.index p]? = some c → Q p ts c

/-- A place has its row. -/
def HasRow (Q : σ → List Token → Cell → Prop) (G : Grammar σ) (rows : Array Row) (ts : List Token) :
    Prop :=
  ∃ row, rows[ts.length]? = some row ∧ row.token = ts.head? ∧
    row.cells.size = G.phrases.length ∧ HasCells Q G row.cells ts

/-- The rows for all places of a text. -/
structure HasRows (Q : σ → List Token → Cell → Prop) (G : Grammar σ) (rows : Array Row)
    (ts : List Token) : Prop where
  size : rows.size = ts.length + 1
  row {us : List Token} : us <:+ ts → HasRow Q G rows us

theorem Indexed.index_lt (hG : G.Indexed) (p : σ) : G.index p < G.phrases.length :=
  (List.getElem?_eq_some_iff.1 (hG.place p)).1

theorem Indexed.index_eq (hG : G.Indexed) {i : Nat} (h : G.phrases[i]? = some p) : G.index p = i :=
  (List.getElem?_inj (hG.index_lt p) hG.nodup).1 ((hG.place p).trans h.symm)

theorem HasRow.cell (hG : G.Indexed) {rows : Array Row} (h : HasRow Q G rows ts) (p : σ) :
    Q p ts (((rows[ts.length]?).bind (·.cells[G.index p]?)).getD (.fail ts.length)) := by
  obtain ⟨row, hrow, -, hsize, hcells⟩ := h
  have hlt : G.index p < row.cells.size := hsize ▸ hG.index_lt p
  have hcell := Array.getElem?_eq_getElem hlt
  rw [hrow, Option.bind_some, hcell, Option.getD_some]
  exact hcells p _ hcell

/-- One more cell in a row that has been filled this far. -/
theorem HasCells.push {cells : Array Cell} {c : Cell} (hG : G.Indexed)
    (hp : G.phrases[cells.size]? = some p) (hcells : HasCells Q G cells ts) (hc : Q p ts c) :
    HasCells Q G (cells.push c) ts := by
  intro q d hd
  rw [Array.getElem?_push] at hd
  split at hd
  · rename_i hq
    obtain rfl := Option.some.inj hd
    obtain rfl := Option.some.inj (hp.symm.trans (hq ▸ hG.place q))
    exact hc
  · exact hcells q d hd

/-- The chart as a row sees it while it is being filled. -/
theorem has_view {token : Option Token} {rows : Array Row} {cells : Array Cell} (hG : G.Indexed)
    (htoken : token = ts.head?) (hsize : rows.size = ts.length)
    (hrows : ∀ us, us <:+ ts → us.length < ts.length → HasRow Q G rows us)
    (hp : G.phrases[cells.size]? = some p) (hcells : HasCells Q G cells ts) :
    View.Has Q G (View.mk
      (fun n => if n = rows.size then token else (rows[n]?).bind (·.token))
      (fun n q =>
        let found := if n = rows.size then cells[G.index q]?
          else (rows[n]?).bind (·.cells[G.index q]?)
        found.getD (.fail n))) ts p where
  token {us} hs := by
    by_cases h : us.length = ts.length
    · obtain rfl := hs.eq_of_length h
      simp only [hsize, if_pos, htoken]
    · have := hs.length_le
      obtain ⟨row, hr, ht, -⟩ := hrows us hs (by omega)
      simp only [hsize, h, if_false, hr, Option.bind_some, ht]
  later {us q} hs hlt := by
    simp only [hsize, Nat.ne_of_lt hlt, if_false]
    exact (hrows us hs hlt).cell hG q
  before {q} hq := by
    rw [hG.index_eq hp] at hq
    have hcell := Array.getElem?_eq_getElem hq
    simp only [hsize, if_pos, hcell, Option.getD_some]
    exact hcells q _ hcell
  missing {q} hq := by
    rw [hG.index_eq hp] at hq
    simp only [hsize, if_pos, Array.getElem?_eq_none hq, Option.getD_none]

theorem hasCells_foldl {fill : Array Cell → σ → Cell} (hG : G.Indexed)
    (hfill : ∀ cells p, G.phrases[cells.size]? = some p → HasCells Q G cells ts →
      Q p ts (fill cells p)) {done todo : List σ} {cells : Array Cell}
    (hp : G.phrases = done ++ todo) (hsize : cells.size = done.length)
    (hcells : HasCells Q G cells ts) :
    (todo.foldl (fun cells p => cells.push (fill cells p)) cells).size = G.phrases.length ∧
      HasCells Q G (todo.foldl (fun cells p => cells.push (fill cells p)) cells) ts := by
  induction todo generalizing done cells with
  | nil => exact ⟨by simp [hp, hsize], hcells⟩
  | cons p todo ih =>
    have hp' : G.phrases = (done ++ [p]) ++ todo := by simp [hp]
    have hnext : G.phrases[cells.size]? = some p := by simp [hp, hsize]
    exact ih hp' (by simp [hsize]) (hcells.push hG hnext (hfill cells p hnext hcells))

variable (hG : G.Indexed)
  (hfill : ∀ (v : View σ) (ts : List Token) (p : σ), v.Has Q G ts p → Q p ts (G.fill v ts.length p))

include hG hfill

/-- One more row, for a text that is one token longer. -/
theorem hasRows_push {token : Option Token} (rows : Array Row) (ts : List Token)
    (htoken : token = ts.head?) (hsize : rows.size = ts.length)
    (hrows : ∀ us, us <:+ ts → us.length < ts.length → HasRow Q G rows us) :
    HasRows Q G (rows.push (G.row token rows)) ts := by
  have hrow : (G.row token rows).cells.size = G.phrases.length ∧
      HasCells Q G (G.row token rows).cells ts := by
    refine hasCells_foldl hG (fun cells p hp hcells => ?_) (List.nil_append _).symm rfl
      (by simp [HasCells])
    have hview := hfill _ ts p (has_view hG htoken hsize hrows hp hcells)
    rwa [← hsize] at hview
  refine ⟨by simp [hsize], fun {us} hs => ?_⟩
  by_cases h : us.length = ts.length
  · obtain rfl := hs.eq_of_length h
    exact ⟨_, by simp [← hsize], htoken, hrow⟩
  · have hlt : us.length < ts.length := by
      have := hs.length_le
      omega
    obtain ⟨row, hr, hhas⟩ := hrows us hs hlt
    exact ⟨row, by rw [Array.getElem?_push, if_neg (by omega), hr], hhas⟩

/-- A chart has all its rows, by induction from the end of the text. -/
theorem hasRows_chart (ts : List Token) : HasRows Q G (G.chart ts) ts := by
  induction ts with
  | nil => exact hasRows_push hG hfill #[] [] rfl rfl fun us _ h => absurd h (Nat.not_lt_zero _)
  | cons t ts ih =>
    refine hasRows_push hG hfill _ (t :: ts) rfl (by simpa using ih.size) fun us hs h => ih.row ?_
    obtain rfl | hs := List.suffix_cons_iff.1 hs
    · exact absurd h (Nat.lt_irrefl _)
    · exact hs

/-- What every cell has that is filled after others that have it. -/
theorem has_readings (p : σ) (ts : List Token) : Q p ts (G.readings p ts) :=
  ((hasRows_chart hG hfill ts).row (List.suffix_refl ts)).cell hG p

end Terse.Grammar
