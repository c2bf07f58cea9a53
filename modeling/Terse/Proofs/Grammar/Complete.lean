import Mathlib.Logic.Relation
import Terse.Proofs.Grammar.Exact
import Terse.Proofs.Grammar.Sound

/-! A chart misses nothing: each of its cells tells all about its phrase. -/
namespace Terse

namespace Grammar

open Cell (Exact TokenThen Then)
open Relation (ReflTransGen)

variable {σ : Type} {G : Grammar σ} {v : View σ} {p : σ} {is : List (Item σ)} {ts us : List Token}

/-- A phrase can be read from exactly these tokens. -/
def Derivable (G : Grammar σ) (p : σ) (ts : List Token) : Prop := ∃ trees, Derives G p ts trees

def DerivableItems (G : Grammar σ) (is : List (Item σ)) (ts : List Token) : Prop :=
  ∃ kids, DerivesItems G is ts kids

/-- The texts of one of some productions. -/
def DerivableBy (G : Grammar σ) (qs : List (Production σ)) (ts : List Token) : Prop :=
  ∃ q ∈ qs, DerivableItems G q.items ts

theorem derivableItems_nil : DerivableItems G [] ts ↔ ts = [] := by
  constructor
  · rintro ⟨_, h⟩
    cases h with
    | nil => rfl
  · rintro rfl
    exact ⟨[], .nil⟩

theorem derivableItems_keep {kind : TokenKind} :
    DerivableItems G (.keep kind :: is) ts ↔ TokenThen kind (DerivableItems G is) ts := by
  constructor
  · rintro ⟨_, h⟩
    cases h with
    | keep h => exact ⟨_, _, rfl, rfl, _, h⟩
  · rintro ⟨t, us, rfl, rfl, kids, h⟩
    exact ⟨_, .keep h⟩

theorem derivableItems_drop {kind : TokenKind} :
    DerivableItems G (.drop kind :: is) ts ↔ TokenThen kind (DerivableItems G is) ts := by
  constructor
  · rintro ⟨_, h⟩
    cases h with
    | drop h => exact ⟨_, _, rfl, rfl, _, h⟩
  · rintro ⟨t, us, rfl, rfl, kids, h⟩
    exact ⟨_, .drop h⟩

theorem derivableItems_part :
    DerivableItems G (.part p :: is) ts ↔ Then (Derivable G p) (DerivableItems G is) ts := by
  constructor
  · rintro ⟨_, h⟩
    cases h with
    | part hp h => exact ⟨_, _, rfl, ⟨_, hp⟩, _, h⟩
  · rintro ⟨us, vs, rfl, ⟨trees, hp⟩, kids, h⟩
    exact ⟨_, .part hp h⟩

theorem Derivable.base (h : DerivableBy G (G.define p).base ts) : Derivable G p ts :=
  have ⟨_, hq, _, h⟩ := h
  ⟨_, .base hq h⟩

theorem Derivable.step (hp : Derivable G p ts) (h : DerivableBy G (G.define p).steps us) :
    Derivable G p (ts ++ us) :=
  have ⟨_, hp⟩ := hp
  have ⟨_, hq, _, h⟩ := h
  ⟨_, .step hp hq h⟩

/-- A text of a phrase is one of its base, continued step by step. -/
theorem Derivable.induction {motive : (ts : List Token) → Derivable G p ts → Prop}
    (base : ∀ ts (h : DerivableBy G (G.define p).base ts), motive ts (.base h))
    (step : ∀ ts us (hp : Derivable G p ts) (h : DerivableBy G (G.define p).steps us),
      motive ts hp → motive (ts ++ us) (hp.step h)) {ts : List Token} (h : Derivable G p ts) :
    motive ts h := by
  obtain ⟨trees, h⟩ := h
  exact go h
where
  go {ts : List Token} {trees : List Tree} : ∀ h : Derives G p ts trees, motive ts ⟨trees, h⟩
    | .base hq h => base _ ⟨_, hq, _, h⟩
    | .step hp hq h => step _ _ ⟨_, hp⟩ ⟨_, hq, _, h⟩ (go hp)

/-- What a chart relies on: a phrase that starts a production has its cell before, every production
takes a token, and every phrase has a text. -/
structure Ordered (G : Grammar σ) : Prop extends Indexed G where
  leads {p r : σ} {q : Production σ} :
    q ∈ (G.define p).base → q.items.head? = some (.part r) → G.index r < G.index p
  base_ne {p : σ} {q : Production σ} : q ∈ (G.define p).base → q.items ≠ []
  steps_ne {p : σ} {q : Production σ} : q ∈ (G.define p).steps → q.items ≠ []
  productive (p : σ) : ∃ ts, Derivable G p ts

theorem Ordered.productiveItems (hG : G.Ordered) (is : List (Item σ)) :
    ∃ ts, DerivableItems G is ts := by
  induction is with
  | nil => exact ⟨[], [], .nil⟩
  | cons i is ih =>
    obtain ⟨ts, h⟩ := ih
    cases i with
    | keep kind => exact ⟨_, derivableItems_keep.2 ⟨⟨kind, "", none⟩, ts, rfl, rfl, h⟩⟩
    | drop kind => exact ⟨_, derivableItems_drop.2 ⟨⟨kind, "", none⟩, ts, rfl, rfl, h⟩⟩
    | part p =>
      obtain ⟨us, hp⟩ := hG.productive p
      exact ⟨_, derivableItems_part.2 ⟨us, ts, rfl, hp, h⟩⟩

mutual

theorem ne_nil_of_derives (hG : G.Ordered) {p : σ} {ts : List Token} {trees : List Tree} :
    Derives G p ts trees → ts ≠ []
  | .base hq h => ne_nil_of_derivesItems hG h (hG.base_ne hq)
  | .step hp _ _ => fun h => ne_nil_of_derives hG hp (List.append_eq_nil_iff.1 h).1

theorem ne_nil_of_derivesItems (hG : G.Ordered) {is : List (Item σ)} {ts : List Token}
    {kids : List Tree} : DerivesItems G is ts kids → is ≠ [] → ts ≠ []
  | .nil, h => absurd rfl h
  | .keep _, _ | .drop _, _ => List.cons_ne_nil _ _
  | .part hp _, _ => fun h => ne_nil_of_derives hG hp (List.append_eq_nil_iff.1 h).1

end

theorem Ordered.ne_nil (hG : G.Ordered) (h : Derivable G p ts) : ts ≠ [] :=
  have ⟨_, h⟩ := h
  ne_nil_of_derives hG h

/-- The cells tell all about their phrases. -/
def ExactCell (G : Grammar σ) (p : σ) (ts : List Token) (c : Cell) : Prop :=
  Exact (Derivable G p) ts c

/-- The chart tells all about a row of items if it does about the phrase that the row starts with;
the others start at later places. -/
theorem exact_sequence (hG : G.Ordered) (hv : v.Has (ExactCell G) G ts p) (hs : us <:+ ts)
    (hfirst : ∀ r, is.head? = some (.part r) → ExactCell G r us (v.cell us.length r)) :
    Exact (DerivableItems G is) us (sequence v is us.length) := by
  induction is generalizing us with
  | nil => exact (Cell.exact_nil us).congr fun _ => derivableItems_nil.symm
  | cons i is ih =>
    -- after the first item the text is shorter, and all cells are there
    have hrest {rest : List Token} (hr : rest <:+ us) (hlt : rest.length < us.length) :
        Exact (DerivableItems G is) rest (sequence v is rest.length) :=
      ih (hr.trans hs) fun r _ => hv.later (hr.trans hs) (Nat.lt_of_lt_of_le hlt hs.length_le)
    have hprod := hG.productiveItems is
    cases i with
    | keep kind =>
      refine Exact.congr ?_ fun _ => derivableItems_keep.symm
      rw [sequence, hv.token hs]
      cases us with
      | nil => exact Cell.exact_fail (by simp)
      | cons t us =>
        have hc := hrest (List.suffix_cons t us) (Nat.lt_succ_self us.length)
        simp only [List.head?_cons, List.length_cons, Nat.add_sub_cancel]
        split
        · exact (hc.mapTrees _).token ‹_› hprod
        · exact Cell.exact_fail (by simpa)
    | drop kind =>
      refine Exact.congr ?_ fun _ => derivableItems_drop.symm
      rw [sequence, hv.token hs]
      cases us with
      | nil => exact Cell.exact_fail (by simp)
      | cons t us =>
        have hc := hrest (List.suffix_cons t us) (Nat.lt_succ_self us.length)
        simp only [List.head?_cons, List.length_cons, Nat.add_sub_cancel]
        split
        · exact hc.token ‹_› hprod
        · exact Cell.exact_fail (by simpa)
    | part r =>
      refine Exact.congr ?_ fun _ => derivableItems_part.symm
      refine Cell.exact_then (hfirst r rfl) hprod fun read rest he hread r' hl => ?_
      rw [hl]
      have hne := List.length_pos_iff.2 (hG.ne_nil hread)
      refine (hrest (he ▸ List.suffix_append _ _) ?_).mapTrees _
      rw [he, List.length_append]
      omega

/-- What the steps of a phrase do between the places of a text: where one that starts at a place can
end, and how far it gets. -/
structure Steps (left : Nat) (step : Reading → Cell) (next far : Nat → Nat → Prop) : Prop where
  ends {r : Reading} {n : Nat} : r.left < left → (n ∈ (step r).ends ↔ next r.left n)
  reach {r : Reading} {n : Nat} : r.left < left → ((step r).reach ≤ n ↔ left ≤ n ∨ far r.left n)
  lt {m n : Nat} : next m n → n < m

variable {left rounds n : Nat} {step : Reading → Cell} {next far : Nat → Nat → Prop}
  {rs : List Reading}

theorem Steps.mem_ends (h : Steps left step next far) (hrs : ∀ r ∈ rs, r.left < left) :
    n ∈ (Cell.unions left (rs.map step)).ends ↔ ∃ m ∈ rs.map (·.left), next m n := by
  rw [Cell.mem_ends_unions]
  constructor
  · rintro ⟨r, hr, hn⟩
    exact ⟨r.left, List.mem_map_of_mem hr, (h.ends (hrs r hr)).1 hn⟩
  · rintro ⟨_, hm, hn⟩
    obtain ⟨r, hr, rfl⟩ := List.mem_map.1 hm
    exact ⟨r, hr, (h.ends (hrs r hr)).2 hn⟩

/-- Every round has fewer tokens left, so that the rounds run out. -/
theorem Steps.next_lt (h : Steps left step next far) (hrs : ∀ r ∈ rs, r.left < rounds + 1)
    (hle : rounds + 1 ≤ left) :
    ∀ r ∈ (Cell.unions left (rs.map step)).readings, r.left < rounds := by
  intro r hr
  have hlt : ∀ r ∈ rs, r.left < left := fun r hr => Nat.lt_of_lt_of_le (hrs r hr) hle
  obtain ⟨_, hm, hnext⟩ := (h.mem_ends hlt).1 (List.mem_map_of_mem hr)
  obtain ⟨r', hr', rfl⟩ := List.mem_map.1 hm
  exact Nat.lt_of_lt_of_le (h.lt hnext) (Nat.le_of_lt_succ (hrs r' hr'))

/-- As many rounds as there are places reach all that steps can reach. -/
theorem mem_ends_continued (h : Steps left step next far) (hrs : ∀ r ∈ rs, r.left < rounds)
    (hle : rounds ≤ left) :
    n ∈ (continued left step rounds rs).ends ↔ ∃ m ∈ rs.map (·.left), ReflTransGen next m n := by
  induction rounds generalizing rs with
  | zero =>
    obtain rfl := List.eq_nil_iff_forall_not_mem.2 fun r hr => Nat.not_lt_zero _ (hrs r hr)
    simp [continued, Cell.ends]
  | succ rounds ih =>
    cases rs with
    | nil => simp [continued]
    | cons r₀ rs =>
      have hlt : ∀ r ∈ r₀ :: rs, r.left < left := fun r hr => Nat.lt_of_lt_of_le (hrs r hr) hle
      rw [continued, Cell.mem_ends_union, ih (h.next_lt hrs hle) (Nat.le_of_succ_le hle)]
      constructor
      · rintro (hn | ⟨k, hk, hn⟩)
        · exact ⟨n, hn, .refl⟩
        · obtain ⟨m, hm, hstep⟩ := (h.mem_ends hlt).1 hk
          exact ⟨m, hm, hn.head hstep⟩
      · rintro ⟨m, hm, hn⟩
        rcases hn.cases_head with rfl | ⟨k, hstep, hn⟩
        · exact .inl hm
        · exact .inr ⟨k, (h.mem_ends hlt).2 ⟨m, hm, hstep⟩, hn⟩

/-- How far steps get, from any place that steps can reach. -/
theorem reach_continued_le (h : Steps left step next far) (hrs : ∀ r ∈ rs, r.left < rounds)
    (hle : rounds ≤ left) : (continued left step rounds rs).reach ≤ n ↔
      left ≤ n ∨ ∃ m ∈ rs.map (·.left), ∃ k, ReflTransGen next m k ∧ far k n := by
  induction rounds generalizing rs with
  | zero =>
    obtain rfl := List.eq_nil_iff_forall_not_mem.2 fun r hr => Nat.not_lt_zero _ (hrs r hr)
    simp [continued]
  | succ rounds ih =>
    cases rs with
    | nil => simp [continued, Cell.fail]
    | cons r₀ rs =>
      have hlt : ∀ r ∈ r₀ :: rs, r.left < left := fun r hr => Nat.lt_of_lt_of_le (hrs r hr) hle
      rw [continued, Cell.reach_union_le, ih (h.next_lt hrs hle) (Nat.le_of_succ_le hle),
        Cell.reach_unions_le]
      constructor
      · rintro ((hn | ⟨r, hr, hn⟩) | hn | ⟨i, hi, k, hk, hn⟩)
        · exact .inl hn
        · refine ((h.reach (hlt r hr)).1 hn).imp_right fun hn => ?_
          exact ⟨r.left, List.mem_map_of_mem hr, r.left, .refl, hn⟩
        · exact .inl hn
        · obtain ⟨m, hm, hstep⟩ := (h.mem_ends hlt).1 hi
          exact .inr ⟨m, hm, k, hk.head hstep, hn⟩
      · rintro (hn | ⟨m, hm, k, hk, hn⟩)
        · exact .inl (.inl hn)
        · rcases hk.cases_head with rfl | ⟨i, hstep, hk⟩
          · obtain ⟨r, hr, rfl⟩ := List.mem_map.1 hm
            exact .inl (.inr ⟨r, hr, (h.reach (hlt r hr)).2 (.inr hn)⟩)
          · exact .inr (.inr ⟨i, (h.mem_ends hlt).2 ⟨m, hm, hstep⟩, k, hk, hn⟩)

/-- From one place of a text to another by a production of a list. -/
def Moves (G : Grammar σ) (qs : List (Production σ)) (ts : List Token) (m n : Nat) : Prop :=
  ∃ rest, rest <:+ ts ∧ rest.length = m ∧ Ends (DerivableBy G qs) rest n

/-- How far from a place of a text a production of a list gets. -/
def Gets (G : Grammar σ) (qs : List (Production σ)) (ts : List Token) (m n : Nat) : Prop :=
  ∃ rest, rest <:+ ts ∧ rest.length = m ∧ (m ≤ n ∨ Opens (DerivableBy G qs) rest n)

theorem suffix_unique {ts us vs : List Token} (hu : us <:+ ts) (hv : vs <:+ ts)
    (h : us.length = vs.length) : us = vs := by
  rw [List.suffix_iff_eq_drop.1 hu, List.suffix_iff_eq_drop.1 hv, h]

/-- A phrase ends where its base does, and wherever steps lead from there. -/
theorem ends_derivable_iff : Ends (Derivable G p) ts n ↔
    ∃ m, Ends (DerivableBy G (G.define p).base) ts m ∧
      ReflTransGen (Moves G (G.define p).steps ts) m n := by
  constructor
  · rintro ⟨read, rest, rfl, rfl, h⟩
    generalize hts : read ++ rest = ts
    induction h using Derivable.induction generalizing rest with
    | base read h => exact ⟨rest.length, ⟨read, rest, hts.symm, rfl, h⟩, .refl⟩
    | step read us hp h ih =>
      rw [List.append_assoc] at hts
      obtain ⟨m, hbase, hm⟩ := ih (us ++ rest) hts
      exact ⟨m, hbase,
        hm.tail ⟨us ++ rest, hts ▸ List.suffix_append _ _, rfl, us, rest, rfl, rfl, h⟩⟩
  · rintro ⟨m, ⟨read, rest, rfl, rfl, h⟩, hm⟩
    induction hm with
    | refl => exact ⟨read, rest, rfl, rfl, .base h⟩
    | tail _ hmove ih =>
      obtain ⟨read', rest', he, hl, hread'⟩ := ih
      obtain ⟨rest₁, hs, hl₁, us, rest₂, rfl, hl₂, hus⟩ := hmove
      obtain rfl := suffix_unique hs (he ▸ List.suffix_append _ _) (hl₁.trans hl.symm)
      exact ⟨read' ++ us, rest₂, by simp [he], hl₂, hread'.step hus⟩

/-- A phrase gets as far as its base does, or as a step after one of its texts. -/
theorem opens_derivable_iff : Opens (Derivable G p) ts n ↔
    Opens (DerivableBy G (G.define p).base) ts n ∨
      ∃ m, Ends (Derivable G p) ts m ∧ Gets G (G.define p).steps ts m n := by
  constructor
  · rintro ⟨read, rest, more, rfl, hn, h⟩
    generalize hts : read ++ rest = ts
    generalize htext : read ++ more = text at h
    induction h using Derivable.induction generalizing more with
    | base text h => exact .inl ⟨read, rest, more, hts.symm, hn, htext ▸ h⟩
    | step text us hp h ih =>
      -- the part that is read ends before the last step, or in it
      rcases List.append_eq_append_iff.1 htext with ⟨xs, rfl, rfl⟩ | ⟨xs, rfl, rfl⟩
      · exact ih xs rfl
      · rw [List.append_assoc] at hts
        exact .inr ⟨_, ⟨text, xs ++ rest, hts.symm, rfl, hp⟩, xs ++ rest,
          hts ▸ List.suffix_append _ _, rfl, .inr ⟨xs, rest, more, rfl, hn, h⟩⟩
  · rintro (⟨read, rest, more, rfl, hn, h⟩ |
      ⟨m, ⟨read, rest, rfl, hl, hread⟩, rest', hs, hl', hgets⟩)
    · exact ⟨read, rest, more, rfl, hn, .base h⟩
    · obtain rfl := suffix_unique hs (List.suffix_append _ _) (hl'.trans hl.symm)
      rcases hgets with hn | ⟨us, rest, more, rfl, hn, h⟩
      · exact ⟨read, rest', [], rfl, hl ▸ hn, by rwa [List.append_nil]⟩
      · exact ⟨read ++ us, rest, more, by simp, hn, by simpa using hread.step h⟩

theorem Ordered.length_lt (hG : G.Ordered) {qs : List (Production σ)} (hqs : ∀ q ∈ qs, q.items ≠ [])
    (h : Ends (DerivableBy G qs) ts n) : n < ts.length := by
  obtain ⟨read, rest, rfl, rfl, q, hq, kids, hread⟩ := h
  have := List.length_pos_iff.2 (ne_nil_of_derivesItems hG hread (hqs q hq))
  rw [List.length_append]
  omega

theorem exact_base (hG : G.Ordered) (hv : v.Has (ExactCell G) G ts p) :
    Exact (DerivableBy G (G.define p).base) ts (Cell.unions ts.length ((G.define p).base.map
      fun q => shaped v q ts.length (sequence v q.items ts.length))) := by
  refine Cell.exact_unions fun q hq => Exact.mapTrees ?_ _
  exact exact_sequence hG hv (List.suffix_refl ts) fun r hr => hv.before (hG.leads hq hr)

/-- The steps of a phrase, as the chart takes them, move between the places of the text. -/
theorem steps_chart (hG : G.Ordered) (hv : v.Has (ExactCell G) G ts p)
    (hne : (G.define p).steps ≠ []) :
    Steps ts.length (fun r => Cell.unions ts.length ((G.define p).steps.map fun q =>
      shaped v q ts.length ((sequence v q.items r.left).before r.trees)))
      (Moves G (G.define p).steps ts) (Gets G (G.define p).steps ts) := by
  have hexact {rest : List Token} (hs : rest <:+ ts) (hlt : rest.length < ts.length)
      (q : Production σ) : Exact (DerivableItems G q.items) rest (sequence v q.items rest.length) :=
    exact_sequence hG hv hs fun r _ => hv.later hs hlt
  have hplace {m : Nat} (hm : m < ts.length) : ∃ rest, rest <:+ ts ∧ rest.length = m :=
    ⟨ts.drop (ts.length - m), List.drop_suffix _ _, by rw [List.length_drop]; omega⟩
  constructor
  · intro r n hr
    obtain ⟨rest, hs, hl⟩ := hplace hr
    rw [Cell.mem_ends_unions]
    constructor
    · rintro ⟨q, hq, hn⟩
      rw [shaped, Cell.ends_mapTrees, Cell.before, Cell.ends_mapTrees, ← hl,
        (hexact hs (hl ▸ hr) q).ends] at hn
      obtain ⟨read, rest', rfl, hn, hread⟩ := hn
      exact ⟨_, hs, hl, read, rest', rfl, hn, q, hq, hread⟩
    · rintro ⟨rest', hs', hl', read, rest'', rfl, hn, q, hq, hread⟩
      refine ⟨q, hq, ?_⟩
      rw [shaped, Cell.ends_mapTrees, Cell.before, Cell.ends_mapTrees, ← hl',
        (hexact hs' (hl' ▸ hr) q).ends]
      exact ⟨read, rest'', rfl, hn, hread⟩
  · intro r n hr
    obtain ⟨rest, hs, hl⟩ := hplace hr
    rw [Cell.reach_unions_le]
    refine or_congr_right ?_
    constructor
    · rintro ⟨q, hq, hn⟩
      refine ⟨rest, hs, hl, ?_⟩
      rcases ((hexact hs (hl ▸ hr) q).reach n).1 (hl ▸ hn) with hn | ⟨read, rest', more, he, hn, h⟩
      · exact .inl (hl ▸ hn)
      · exact .inr ⟨read, rest', more, he, hn, q, hq, h⟩
    · rintro ⟨rest', hs', hl', hn⟩
      rw [← hl'] at hr ⊢
      rcases hn with hn | ⟨read, rest'', more, he, hn, q, hq, h⟩
      · obtain ⟨q, hq⟩ := List.exists_mem_of_ne_nil _ hne
        exact ⟨q, hq, ((hexact hs' hr q).reach n).2 (.inl (hl' ▸ hn))⟩
      · exact ⟨q, hq, ((hexact hs' hr q).reach n).2 (.inr ⟨read, rest'', more, he, hn, h⟩)⟩
  · rintro m n ⟨rest, -, rfl, h⟩
    exact hG.length_lt (fun q hq => hG.steps_ne hq) h

theorem derivable_iff_base (h : (G.define p).steps = []) :
    DerivableBy G (G.define p).base us ↔ Derivable G p us := by
  refine ⟨.base, fun hp => ?_⟩
  induction hp using Derivable.induction with
  | base _ h => exact h
  | step _ _ _ hstep =>
    obtain ⟨q, hq, -⟩ := hstep
    exact absurd (h ▸ hq) List.not_mem_nil

/-- A base that is told all about, continued by steps that move between places, gives all about the
phrase. -/
theorem exact_continued {c : Cell} (hc : Exact (DerivableBy G (G.define p).base) ts c)
    (hsteps : Steps ts.length step (Moves G (G.define p).steps ts) (Gets G (G.define p).steps ts))
    (hlt : ∀ r ∈ c.readings, r.left < ts.length) :
    Exact (Derivable G p) ts
      ((continued ts.length step ts.length c.readings).union ⟨[], c.reach⟩) where
  ends n := by
    rw [Cell.mem_ends_union, mem_ends_continued hsteps hlt (Nat.le_refl _), ends_derivable_iff]
    constructor
    · rintro (⟨m, hm, hn⟩ | hn)
      · exact ⟨m, (hc.ends m).1 hm, hn⟩
      · exact absurd hn List.not_mem_nil
    · rintro ⟨m, hm, hn⟩
      exact .inl ⟨m, (hc.ends m).2 hm, hn⟩
  reach n := by
    rw [Cell.reach_union_le, reach_continued_le hsteps hlt (Nat.le_refl _), hc.reach,
      opens_derivable_iff]
    constructor
    · rintro ((hn | ⟨m, hm, k, hk, hn⟩) | hn | hn)
      · exact .inl hn
      · exact .inr (.inr ⟨k, ends_derivable_iff.2 ⟨m, (hc.ends m).1 hm, hk⟩, hn⟩)
      · exact .inl hn
      · exact .inr (.inl hn)
    · rintro (hn | hn | ⟨k, hk, hn⟩)
      · exact .inl (.inl hn)
      · exact .inr (.inr hn)
      · obtain ⟨m, hm, hk⟩ := ends_derivable_iff.1 hk
        exact .inl (.inr ⟨m, (hc.ends m).2 hm, k, hk, hn⟩)

/-- A cell that is filled from exact ones is exact. -/
theorem exact_fill (hG : G.Ordered) (hv : v.Has (ExactCell G) G ts p) :
    ExactCell G p ts (G.fill v ts.length p) := by
  have hbase := exact_base hG hv
  simp only [fill]
  split
  · exact hbase.congr fun _ => derivable_iff_base ‹_›
  · rename_i hne
    refine exact_continued hbase (steps_chart hG hv hne) fun r hr => ?_
    exact hG.length_lt (fun q hq => hG.base_ne hq) ((hbase.ends _).1 (List.mem_map_of_mem hr))

/-- A chart tells all about every phrase. -/
theorem exact_readings (hG : G.Ordered) (p : σ) (ts : List Token) :
    Exact (Derivable G p) ts (G.readings p ts) :=
  has_readings hG.toIndexed (fun _ _ _ hv => exact_fill hG hv) p ts

end Grammar

end Terse
