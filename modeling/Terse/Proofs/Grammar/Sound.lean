import Terse.Proofs.Grammar.Rows

/-! Every reading that a chart holds is a derivation of the grammar. -/
namespace Terse

namespace Reading

/-- A reading of some of the first tokens. -/
def Reads (derives : List Token → List Tree → Prop) (ts : List Token) (r : Reading) : Prop :=
  ∃ read rest, ts = read ++ rest ∧ rest.length = r.left ∧ derives read r.trees

theorem mem_merge {r : Reading} {as bs : List Reading} (h : r ∈ merge as bs) : r ∈ as ∨ r ∈ bs := by
  fun_induction merge as bs with
  | case1 => exact .inr h
  | case2 => exact .inl h
  | case3 a as b bs _ ih =>
    obtain rfl | h := List.mem_cons.1 h
    · exact .inl List.mem_cons_self
    · exact (ih h).imp_left (List.mem_cons_of_mem _)
  | case4 a as b bs _ _ ih =>
    obtain rfl | h := List.mem_cons.1 h
    · exact .inr List.mem_cons_self
    · exact (ih h).imp_right (List.mem_cons_of_mem _)
  | case5 a as b bs _ _ ih =>
    obtain rfl | h := List.mem_cons.1 h
    · exact .inl List.mem_cons_self
    · exact (ih h).imp (List.mem_cons_of_mem _) (List.mem_cons_of_mem _)

end Reading

namespace Cell

variable {r : Reading} {c d : Cell}

theorem mem_union (h : r ∈ (c.union d).readings) : r ∈ c.readings ∨ r ∈ d.readings :=
  Reading.mem_merge h

theorem mem_unions {left : Nat} {cs : List Cell} (h : r ∈ (unions left cs).readings) :
    ∃ c ∈ cs, r ∈ c.readings := by
  induction cs with
  | nil => exact absurd h List.not_mem_nil
  | cons c cs ih =>
    obtain h | h := mem_union h
    · exact ⟨c, List.mem_cons_self, h⟩
    · obtain ⟨d, hd, h⟩ := ih h
      exact ⟨d, List.mem_cons_of_mem _ hd, h⟩

theorem mem_mapTrees {f : Reading → List Tree} (h : r ∈ (c.mapTrees f).readings) :
    ∃ r' ∈ c.readings, r = ⟨r'.left, f r'⟩ := by
  obtain ⟨r', hr', rfl⟩ := List.mem_map.1 h
  exact ⟨r', hr', rfl⟩

theorem mem_before {trees : List Tree} (h : r ∈ (c.before trees).readings) :
    ∃ r' ∈ c.readings, r = ⟨r'.left, trees ++ r'.trees⟩ := mem_mapTrees h

end Cell

namespace Grammar

open Reading (Reads)

variable {σ : Type} {G : Grammar σ} {v : View σ} {p : σ} {r : Reading} {ts us : List Token}

/-- What a chart says about the places of a text is so. -/
structure View.Sound (G : Grammar σ) (v : View σ) (ts : List Token) : Prop where
  token {us : List Token} : us <:+ ts → v.token us.length = us.head?
  cell {us : List Token} {p : σ} {r : Reading} :
    us <:+ ts → r ∈ (v.cell us.length p).readings → Reads (Derives G p) us r

/-- Readings of a row of items are derivations of it. -/
theorem reads_sequence {is : List (Item σ)} (hv : v.Sound G ts) (hs : us <:+ ts)
    (h : r ∈ (sequence v is us.length).readings) : Reads (DerivesItems G is) us r := by
  induction is generalizing us r with
  | nil =>
    obtain rfl := List.mem_singleton.1 h
    exact ⟨[], us, rfl, rfl, .nil⟩
  | cons i is ih =>
    cases i with
    | keep k =>
      rw [sequence, hv.token hs] at h
      cases us with
      | nil => exact absurd h List.not_mem_nil
      | cons t us =>
        simp only [List.head?_cons, List.length_cons, Nat.add_sub_cancel] at h
        split at h
        · rename_i hk
          subst hk
          obtain ⟨r', hr', rfl⟩ := Cell.mem_before h
          obtain ⟨read, rest, rfl, hl, hd⟩ := ih ((List.suffix_cons t us).trans hs) hr'
          exact ⟨t :: read, rest, rfl, hl, .keep hd⟩
        · exact absurd h List.not_mem_nil
    | drop k =>
      rw [sequence, hv.token hs] at h
      cases us with
      | nil => exact absurd h List.not_mem_nil
      | cons t us =>
        simp only [List.head?_cons, List.length_cons, Nat.add_sub_cancel] at h
        split at h
        · rename_i hk
          subst hk
          obtain ⟨read, rest, rfl, hl, hd⟩ := ih ((List.suffix_cons t us).trans hs) h
          exact ⟨t :: read, rest, rfl, hl, .drop hd⟩
        · exact absurd h List.not_mem_nil
    | part q =>
      obtain h | h := Cell.mem_union h
      · obtain ⟨c, hc, h⟩ := Cell.mem_unions h
        obtain ⟨r₁, hr₁, rfl⟩ := List.mem_map.1 hc
        obtain ⟨r₂, hr₂, rfl⟩ := Cell.mem_before h
        obtain ⟨read, rest, rfl, hl, hd⟩ := hv.cell hs hr₁
        rw [← hl] at hr₂
        obtain ⟨read', rest', rfl, hl', hd'⟩ := ih ((List.suffix_append _ _).trans hs) hr₂
        exact ⟨read ++ read', rest', (List.append_assoc ..).symm, hl', .part hd hd'⟩
      · exact absurd h List.not_mem_nil

/-- The place of a node is that of its first token. -/
theorem loc_shaped {read rest : List Token} (hv : v.Sound G ts) (hs : read ++ rest <:+ ts) :
    (if rest.length < (read ++ rest).length then (v.token (read ++ rest).length).bind Token.place
      else none) = firstLoc read := by
  rw [hv.token hs]
  cases read with
  | nil => simp [firstLoc]
  | cons t read =>
    rw [if_pos (by simp only [List.cons_append, List.length_cons, List.length_append]; omega)]
    rfl

theorem reads_shaped {q : Production σ} {c : Cell} (hv : v.Sound G ts) (hs : us <:+ ts)
    (hc : ∀ r ∈ c.readings, Reads (fun read kids => Derives G p read (q.shape (firstLoc read) kids))
      us r)
    (h : r ∈ (shaped v q us.length c).readings) : Reads (Derives G p) us r := by
  obtain ⟨r', hr', rfl⟩ := Cell.mem_mapTrees h
  obtain ⟨read, rest, rfl, hl, hd⟩ := hc r' hr'
  refine ⟨read, rest, rfl, hl, ?_⟩
  rw [← hl, loc_shaped hv hs]
  exact hd

/-- What holds of the readings at hand, and goes over to each one that continues another, holds of
all. -/
theorem of_mem_continued {P : Reading → Prop} {left rounds : Nat} {step : Reading → Cell}
    {rs : List Reading} (hs : ∀ r, P r → ∀ r' ∈ (step r).readings, P r') (hrs : ∀ r ∈ rs, P r)
    (h : r ∈ (continued left step rounds rs).readings) : P r := by
  induction rounds generalizing rs with
  | zero => exact hrs r h
  | succ rounds ih =>
    cases rs with
    | nil => exact absurd h List.not_mem_nil
    | cons r₀ rs =>
      obtain h | h := Cell.mem_union h
      · exact hrs r h
      · refine ih (fun r' hr' => ?_) h
        obtain ⟨c, hc, hr'⟩ := Cell.mem_unions hr'
        obtain ⟨r₁, hr₁, rfl⟩ := List.mem_map.1 hc
        exact hs r₁ (hrs r₁ hr₁) r' hr'

theorem reads_base (hv : v.Sound G ts) (h : r ∈ (Cell.unions ts.length ((G.define p).base.map
    fun q => shaped v q ts.length (sequence v q.items ts.length))).readings) :
    Reads (Derives G p) ts r := by
  obtain ⟨c, hc, h⟩ := Cell.mem_unions h
  obtain ⟨q, hq, rfl⟩ := List.mem_map.1 hc
  refine reads_shaped hv (List.suffix_refl _) (fun r hr => ?_) h
  obtain ⟨read, rest, he, hl, hd⟩ := reads_sequence hv (List.suffix_refl _) hr
  exact ⟨read, rest, he, hl, .base hq hd⟩

/-- A step turns a derivation of the phrase into a longer one. -/
theorem reads_step {q : Production σ} {r₀ : Reading} (hv : v.Sound G ts)
    (hq : q ∈ (G.define p).steps) (hr₀ : Reads (Derives G p) ts r₀)
    (h : r ∈ (shaped v q ts.length ((sequence v q.items r₀.left).before r₀.trees)).readings) :
    Reads (Derives G p) ts r := by
  obtain ⟨read, rest, rfl, hl, hd⟩ := hr₀
  refine reads_shaped hv (List.suffix_refl _) (fun r hr => ?_) h
  obtain ⟨r', hr', rfl⟩ := Cell.mem_before hr
  rw [← hl] at hr'
  obtain ⟨read', rest', rfl, hl', hd'⟩ := reads_sequence hv (List.suffix_append _ _) hr'
  exact ⟨read ++ read', rest', (List.append_assoc ..).symm, hl', .step hd hq hd'⟩

/-- A cell that is filled from sound ones holds derivations. -/
theorem reads_fill (hv : v.Sound G ts) (h : r ∈ (G.fill v ts.length p).readings) :
    Reads (Derives G p) ts r := by
  simp only [fill] at h
  split at h
  · exact reads_base hv h
  · obtain h | h := Cell.mem_union h
    · refine of_mem_continued (fun r₀ hr₀ r hr => ?_) (fun r hr => reads_base hv hr) h
      obtain ⟨c, hc, hr⟩ := Cell.mem_unions hr
      obtain ⟨q, hq, rfl⟩ := List.mem_map.1 hc
      exact reads_step hv hq hr₀ hr
    · exact absurd h List.not_mem_nil

/-- The cells hold derivations. -/
def SoundCell (G : Grammar σ) (p : σ) (ts : List Token) (c : Cell) : Prop :=
  ∀ r ∈ c.readings, Reads (Derives G p) ts r

theorem sound_view {q : σ} (hv : v.Has (SoundCell G) G ts q) : v.Sound G ts where
  token hs := hv.token hs
  cell {us p r} hs hr := by
    by_cases hlt : us.length < ts.length
    · exact hv.later hs hlt r hr
    · obtain rfl := hs.eq_of_length (Nat.le_antisymm hs.length_le (Nat.le_of_not_lt hlt))
      by_cases hp : G.index p < G.index q
      · exact hv.before hp r hr
      · rw [hv.missing (Nat.le_of_not_lt hp)] at hr
        exact absurd hr List.not_mem_nil

/-- Every reading of a chart is a derivation. -/
theorem reads_readings (hG : G.Indexed) (h : r ∈ (G.readings p ts).readings) :
    Reads (Derives G p) ts r :=
  has_readings hG (fun _ _ _ hv _ hr => reads_fill (sound_view hv) hr) p ts r h

end Grammar

end Terse
