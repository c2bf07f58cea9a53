import Terse.Grammar.Chart

/-! Cells that miss nothing: there is a reading for every end that a text of a language can have,
and the reach is the longest part of the tokens that some text of it starts with. -/
namespace Terse

/-- The first of the tokens make up a text of `L`, and `n` are left. -/
def Ends (L : List Token → Prop) (ts : List Token) (n : Nat) : Prop :=
  ∃ read rest, ts = read ++ rest ∧ rest.length = n ∧ L read

/-- The first of the tokens start a text of `L`, and at most `n` are left. -/
def Opens (L : List Token → Prop) (ts : List Token) (n : Nat) : Prop :=
  ∃ read rest more, ts = read ++ rest ∧ rest.length ≤ n ∧ L (read ++ more)

namespace Reading

theorem mem_left_merge {n : Nat} {as bs : List Reading} : n ∈ (merge as bs).map (·.left) ↔
    n ∈ as.map (·.left) ∨ n ∈ bs.map (·.left) := by
  fun_induction merge as bs with
  | case1 | case2 => simp
  | case3 a as b bs _ ih => simp only [List.map_cons, List.mem_cons, ih, or_assoc]
  | case4 a as b bs _ _ ih =>
    simp only [List.map_cons, List.mem_cons, ih]
    exact or_left_comm
  | case5 a as b bs hab hba ih =>
    have heq : a.left = b.left := by omega
    simp only [List.map_cons, List.mem_cons, ih, heq]
    exact or_or_distrib_left

end Reading

namespace Cell

variable {α : Type} {c d : Cell} {n left : Nat} {xs : List α} {f : α → Cell}

def ends (c : Cell) : List Nat := c.readings.map (·.left)

@[simp]
theorem ends_mapTrees (f : Reading → List Tree) (c : Cell) : (c.mapTrees f).ends = c.ends := by
  simp [ends, mapTrees, Function.comp_def]

@[simp]
theorem ends_fail (left : Nat) : (fail left).ends = [] := rfl

theorem mem_ends_union : n ∈ (c.union d).ends ↔ n ∈ c.ends ∨ n ∈ d.ends := Reading.mem_left_merge

theorem mem_ends_unions : n ∈ (unions left (xs.map f)).ends ↔ ∃ x ∈ xs, n ∈ (f x).ends := by
  induction xs with
  | nil => simp [unions]
  | cons x xs ih =>
    rw [unions, List.map_cons, List.foldr_cons, mem_ends_union, ← unions, ih]
    simp

theorem reach_union_le : (c.union d).reach ≤ n ↔ c.reach ≤ n ∨ d.reach ≤ n := by
  simp only [union]
  omega

theorem reach_unions_le :
    (unions left (xs.map f)).reach ≤ n ↔ left ≤ n ∨ ∃ x ∈ xs, (f x).reach ≤ n := by
  induction xs with
  | nil => simp [unions, fail]
  | cons x xs ih =>
    rw [unions, List.map_cons, List.foldr_cons, reach_union_le, ← unions, ih]
    simp only [List.mem_cons, exists_eq_or_imp]
    exact or_left_comm

/-- A cell that tells all about the language `L` at the start of some tokens. -/
structure Exact (L : List Token → Prop) (ts : List Token) (c : Cell) : Prop where
  ends (n : Nat) : n ∈ c.ends ↔ Ends L ts n
  reach (n : Nat) : c.reach ≤ n ↔ ts.length ≤ n ∨ Opens L ts n

variable {L M : List Token → Prop} {ts us : List Token} {t : Token} {kind : TokenKind}

theorem Exact.congr (h : Exact L ts c) (hL : ∀ us, L us ↔ M us) : Exact M ts c := by
  obtain rfl : L = M := funext fun us => propext (hL us)
  exact h

theorem Exact.mapTrees (h : Exact L ts c) (f : Reading → List Tree) : Exact L ts (c.mapTrees f) :=
  ⟨fun n => by rw [ends_mapTrees, h.ends], h.reach⟩

/-- The empty text ends where it starts. -/
theorem exact_nil (ts : List Token) : Exact (· = []) ts ⟨[⟨ts.length, []⟩], ts.length⟩ where
  ends n := by
    simp only [Cell.ends, List.map_cons, List.map_nil, List.mem_singleton]
    constructor
    · rintro rfl
      exact ⟨[], ts, rfl, rfl, rfl⟩
    · rintro ⟨_, rest, rfl, rfl, rfl⟩
      rfl
  reach n := by
    refine ⟨.inl, ?_⟩
    rintro (h | ⟨read, rest, more, rfl, hn, h⟩)
    · exact h
    · obtain ⟨rfl, rfl⟩ := List.append_eq_nil_iff.1 h
      exact hn

/-- A token of some kind, and then a text of `L`. -/
def TokenThen (kind : TokenKind) (L : List Token → Prop) (ts : List Token) : Prop :=
  ∃ t us, ts = t :: us ∧ t.kind = kind ∧ L us

/-- A token of the right kind, and then what comes after it. -/
theorem Exact.token (h : Exact L us c) (ht : t.kind = kind) (hL : ∃ us, L us) :
    Exact (TokenThen kind L) (t :: us) c where
  ends n := by
    rw [h.ends]
    constructor
    · rintro ⟨read, rest, rfl, hn, hread⟩
      exact ⟨t :: read, rest, rfl, hn, t, read, rfl, ht, hread⟩
    · rintro ⟨_, rest, he, hn, t', read, rfl, -, hread⟩
      obtain ⟨rfl, rfl⟩ := List.cons.inj he
      exact ⟨read, rest, rfl, hn, hread⟩
  reach n := by
    rw [h.reach]
    constructor
    · rintro (hn | ⟨read, rest, more, rfl, hn, hread⟩)
      · obtain ⟨more, hmore⟩ := hL
        exact .inr ⟨[t], us, more, rfl, hn, t, more, rfl, ht, hmore⟩
      · exact .inr ⟨t :: read, rest, more, rfl, hn, t, _, rfl, ht, hread⟩
    · rintro (hn | ⟨read, rest, more, he, hn, t', us', htexts, -, hus⟩)
      · exact .inl (Nat.le_of_succ_le hn)
      · cases read with
        | nil =>
          obtain rfl : t :: us = rest := he
          exact .inl (Nat.le_of_succ_le hn)
        | cons _ read =>
          obtain ⟨rfl, rfl⟩ := List.cons.inj he
          obtain ⟨rfl, rfl⟩ := List.cons.inj htexts
          exact .inr ⟨read, rest, more, rfl, hn, hus⟩

/-- Where the token is of another kind, nothing ends and nothing is reached. -/
theorem exact_fail (h : ∀ t ∈ ts.head?, t.kind ≠ kind) :
    Exact (TokenThen kind L) ts (fail ts.length) where
  ends n := by
    refine ⟨fun hn => absurd hn List.not_mem_nil, ?_⟩
    rintro ⟨_, rest, rfl, -, t, read, rfl, ht, -⟩
    exact absurd ht (h t rfl)
  reach n := by
    refine ⟨.inl, ?_⟩
    rintro (hn | ⟨read, rest, more, rfl, hn, t, us, htexts, ht, -⟩)
    · exact hn
    · cases read with
      | nil => exact hn
      | cons t' read =>
        obtain ⟨rfl, -⟩ := List.cons.inj htexts
        exact absurd ht (h t' rfl)

/-- A text of `L`, and then one of `M`. -/
def Then (L M : List Token → Prop) (ts : List Token) : Prop :=
  ∃ us vs, ts = us ++ vs ∧ L us ∧ M vs

/-- One text after the other, tried from every place that the first one ends at. -/
theorem exact_then {f : Reading → Cell} (hc : Exact L ts c) (hM : ∃ us, M us)
    (hf : ∀ read rest, ts = read ++ rest → L read → ∀ r : Reading, r.left = rest.length →
      Exact M rest (f r)) :
    Exact (Then L M) ts ((unions ts.length (c.readings.map f)).union ⟨[], c.reach⟩) where
  ends n := by
    have hends (r : Reading) (hr : r ∈ c.readings) : Ends L ts r.left :=
      (hc.ends _).1 (List.mem_map_of_mem hr)
    have hnone : n ∉ (Cell.mk [] c.reach).ends := List.not_mem_nil
    simp only [mem_ends_union, mem_ends_unions, hnone, or_false]
    constructor
    · rintro ⟨r, hr, hn⟩
      obtain ⟨read, rest, rfl, hl, hread⟩ := hends r hr
      obtain ⟨read', rest', rfl, hn, hread'⟩ := ((hf read rest rfl hread r hl.symm).ends n).1 hn
      exact ⟨read ++ read', rest', by simp, hn, read, read', rfl, hread, hread'⟩
    · rintro ⟨_, rest, rfl, hn, us, vs, rfl, hus, hvs⟩
      rw [List.append_assoc] at hc hf
      obtain ⟨r, hr, hl⟩ := List.mem_map.1 ((hc.ends _).2 ⟨us, vs ++ rest, rfl, rfl, hus⟩)
      exact ⟨r, hr, ((hf us _ rfl hus r hl).ends n).2 ⟨vs, rest, rfl, hn, hvs⟩⟩
  reach n := by
    simp only [reach_union_le, reach_unions_le, hc.reach]
    constructor
    · rintro ((hn | ⟨r, hr, hn⟩) | hn | ⟨read, rest, more, rfl, hn, hread⟩)
      · exact .inl hn
      · obtain ⟨read, rest, rfl, hl, hread⟩ := (hc.ends _).1 (List.mem_map_of_mem hr)
        rcases ((hf read rest rfl hread r hl.symm).reach n).1 hn with
          hn | ⟨read', rest', more, rfl, hn, hread'⟩
        · obtain ⟨more, hmore⟩ := hM
          exact .inr ⟨read, rest, more, rfl, hn, read, more, rfl, hread, hmore⟩
        · exact .inr ⟨read ++ read', rest', more, by simp, hn, read, read' ++ more, by simp, hread,
            hread'⟩
      · exact .inl hn
      · obtain ⟨vs, hvs⟩ := hM
        exact .inr ⟨read, rest, more ++ vs, rfl, hn, read ++ more, vs, by simp, hread, hvs⟩
    · rintro (hn | ⟨read, rest, more, rfl, hn, us, vs, he, hus, hvs⟩)
      · exact .inl (.inl hn)
      · -- the part that is read ends inside the text of `L`, or goes on into that of `M`
        rcases List.append_eq_append_iff.1 he with ⟨xs, rfl, rfl⟩ | ⟨xs, rfl, rfl⟩
        · exact .inr (.inr ⟨read, rest, xs, rfl, hn, hus⟩)
        · rw [List.append_assoc] at hc hf
          obtain ⟨r, hr, hl⟩ := List.mem_map.1 ((hc.ends _).2 ⟨us, xs ++ rest, rfl, rfl, hus⟩)
          have hreach := ((hf us _ rfl hus r hl).reach n).2 (.inr ⟨xs, rest, more, rfl, hn, hvs⟩)
          exact .inl (.inr ⟨r, hr, hreach⟩)

/-- A choice is told all about if each of its cases is. -/
theorem exact_unions {L : α → List Token → Prop}
    (h : ∀ x ∈ xs, Exact (L x) ts (f x)) :
    Exact (fun us => ∃ x ∈ xs, L x us) ts (unions ts.length (xs.map f)) where
  ends n := by
    rw [mem_ends_unions]
    constructor
    · rintro ⟨x, hx, hn⟩
      obtain ⟨read, rest, rfl, hn, hread⟩ := ((h x hx).ends n).1 hn
      exact ⟨read, rest, rfl, hn, x, hx, hread⟩
    · rintro ⟨read, rest, rfl, hn, x, hx, hread⟩
      exact ⟨x, hx, ((h x hx).ends n).2 ⟨read, rest, rfl, hn, hread⟩⟩
  reach n := by
    rw [reach_unions_le]
    constructor
    · rintro (hn | ⟨x, hx, hn⟩)
      · exact .inl hn
      · rcases ((h x hx).reach n).1 hn with hn | ⟨read, rest, more, rfl, hn, hread⟩
        · exact .inl hn
        · exact .inr ⟨read, rest, more, rfl, hn, x, hx, hread⟩
    · rintro (hn | ⟨read, rest, more, rfl, hn, x, hx, hread⟩)
      · exact .inl hn
      · exact .inr ⟨x, hx, ((h x hx).reach n).2 (.inr ⟨read, rest, more, rfl, hn, hread⟩)⟩

end Cell

end Terse
