import Terse.Proofs.Source.Lines
import Terse.Proofs.Source.Terminals

/-! A text is cut into pieces, of which nothing is lost: tokens, each with its place, and what is
skipped. Cutting stops at the end of the text or at the first place where no terminal matches. -/
namespace Terse

namespace Lexer

variable {cs : List Char} {use : Use} {n : Nat}

/-- The text does not start with anything that the terminal matches. -/
def Description.Misses (d : Description) (text : List Char) : Prop :=
  ∀ pre rest, text = pre ++ rest → ¬ d.Matches pre

/-- What is cut off a text: as much as the first terminal that matches at its start can match. -/
def Takes (text : List Char) (use : Use) (chars : List Char) : Prop :=
  ∃ before d after rest, descriptions = before ++ d :: after ∧ d.use = use ∧
    text = chars ++ rest ∧ d.Matches chars ∧ (∀ d' ∈ before, d'.Misses text) ∧
    ∀ pre rest, text = pre ++ rest → d.Matches pre → pre.length ≤ chars.length

variable {t : Terminal} {d : Description} {ts : List Terminal} {ds : List Description}

theorem Describes.misses (h : Describes d t) (hw : t.width cs = 0) : d.Misses cs := by
  rintro pre rest rfl hpre
  have hle := h.measures.longest rest hpre
  rw [hw, Nat.le_zero, List.length_eq_zero_iff] at hle
  exact h.measures.ne_nil hpre hle

/-- What a terminal finds at the start of a text. -/
def Terminal.found? (t : Terminal) (cs : List Char) : Option (Use × Nat) :=
  if t.width cs = 0 then none else some (t.use, t.width cs)

theorem match?_eq (cs : List Char) : match? cs = terminals.findSome? (·.found? cs) := by
  unfold match?
  congr 1
  funext t
  split <;> rename_i h <;> simp [Terminal.found?, h]

/-- What is found is described, matches as much as it can, and nothing before it matches. -/
theorem exists_described (h : List.Forall₂ Describes ds ts)
    (hfind : ts.findSome? (·.found? cs) = some (use, n + 1)) :
    ∃ before d after, ds = before ++ d :: after ∧ d.use = use ∧ n + 1 ≤ cs.length ∧
      d.Matches (cs.take (n + 1)) ∧ (∀ d' ∈ before, d'.Misses cs) ∧
      ∀ pre rest, cs = pre ++ rest → d.Matches pre → pre.length ≤ n + 1 := by
  induction h with
  | nil => contradiction
  | @cons d t ds ts hdt _ ih =>
    rw [List.findSome?_cons, Terminal.found?] at hfind
    by_cases hw : t.width cs = 0
    · rw [if_pos hw] at hfind
      obtain ⟨before, d', after, rfl, huse, hle, hmatches, hbefore, hlongest⟩ := ih hfind
      exact ⟨d :: before, d', after, rfl, huse, hle, hmatches,
        List.forall_mem_cons.2 ⟨hdt.misses hw, hbefore⟩, hlongest⟩
    · rw [if_neg hw] at hfind
      obtain ⟨rfl, hn⟩ := Prod.mk.inj (Option.some.inj hfind)
      refine ⟨[], d, ds, rfl, hdt.use_eq, hn ▸ hdt.measures.le_length cs, hdt.measures.take hn,
        by simp, ?_⟩
      rintro pre rest rfl hpre
      exact hn ▸ hdt.measures.longest rest hpre

theorem misses_described (h : List.Forall₂ Describes ds ts)
    (hfind : ts.findSome? (·.found? cs) = none) : ∀ d ∈ ds, d.Misses cs := by
  induction h with
  | nil => simp
  | @cons d t ds ts hdt _ ih =>
    rw [List.findSome?_cons, Terminal.found?] at hfind
    by_cases hw : t.width cs = 0
    · rw [if_pos hw] at hfind
      exact List.forall_mem_cons.2 ⟨hdt.misses hw, ih hfind⟩
    · rw [if_neg hw] at hfind
      contradiction

theorem takes_of_match? (h : match? cs = some (use, n + 1)) :
    Takes cs use (cs.take (n + 1)) := by
  rw [match?_eq] at h
  obtain ⟨before, d, after, hds, huse, hle, hmatches, hbefore, hlongest⟩ :=
    exists_described describes_terminals h
  refine ⟨before, d, after, cs.drop (n + 1), hds, huse, (List.take_append_drop _ _).symm, hmatches,
    hbefore, ?_⟩
  rwa [List.length_take, Nat.min_eq_left hle]

theorem misses_of_match? (h : match? cs = none) : ∀ d ∈ descriptions, d.Misses cs := by
  rw [match?_eq] at h
  exact misses_described describes_terminals h

theorem match?_ne_zero (cs : List Char) (use : Use) : match? cs ≠ some (use, 0) := by
  intro h
  rw [match?_eq] at h
  obtain ⟨t, -, ht⟩ := List.exists_of_findSome?_eq_some h
  unfold Terminal.found? at ht
  split at ht
  · contradiction
  · rename_i hw
    exact hw (Prod.mk.inj (Option.some.inj ht)).2

/-! ### Tokens -/

/-- What is taken for a token is spelled as its kind says. -/
theorem Takes.spells {kind : TokenKind} {text chars : List Char}
    (h : Takes text (.token kind) chars) : kind.Spells chars := by
  obtain ⟨before, d, after, rest, hds, huse, -, hmatches, -⟩ := h
  have hd : d ∈ descriptions := hds ▸ List.mem_append_right before List.mem_cons_self
  have hall : ∀ d ∈ descriptions, ∀ kind, d.use = .token kind → d.Matches = kind.Spells := by
    simp [descriptions, Description.token]
  exact hall d hd kind huse ▸ hmatches

theorem Takes.skips {text chars : List Char} (h : Takes text .skipped chars) :
    IsSpaces chars ∨ IsComment chars := by
  obtain ⟨before, d, after, rest, hds, huse, -, hmatches, -⟩ := h
  have hd : d ∈ descriptions := hds ▸ List.mem_append_right before List.mem_cons_self
  have hall : ∀ d ∈ descriptions, d.use = .skipped →
      d.Matches = IsSpaces ∨ d.Matches = IsComment := by
    simp [descriptions, Description.token]
  rcases hall d hd huse with h | h
  · exact .inl (h ▸ hmatches)
  · exact .inr (h ▸ hmatches)

end Lexer

/-- A keyword is spelled as it should, and any other word is a name. -/
theorem spells_ofWord {w : String} (h : IsName w.toList) :
    (TokenKind.ofWord w).Spells w.toList := by
  have hall : ∀ p ∈ TokenKind.keywords, p.2.Spells p.1.toList := by
    simp [TokenKind.keywords, TokenKind.Spells, TokenKind.spellings]
  unfold TokenKind.ofWord
  cases hk : TokenKind.keywords.lookup w with
  | none => exact h
  | some k =>
    obtain ⟨front, back, he, -⟩ := List.lookup_eq_some_iff.1 hk
    exact hall (w, k) (he ▸ by simp)

theorem ofWord_ne_name {w : String} (h : w ∈ TokenKind.keywords.map (·.1)) :
    TokenKind.ofWord w ≠ .name := by
  have hall : ∀ w ∈ TokenKind.keywords.map (·.1), TokenKind.ofWord w ≠ .name := by decide
  exact hall w h

/-- What a token has to be that is cut off the start of `text`, after all of `before`. -/
structure Token.IsCut (t : Token) (before text : List Char) : Prop where
  ne_empty : t.text ≠ ""
  spells : t.kind.Spells t.text.toList
  keyword : t.text ∈ TokenKind.keywords.map (·.1) → t.kind ≠ .name
  place : t.loc = some (.after before)
  taken : ∃ kind, Lexer.Takes text (.token kind) t.text.toList ∧ (t.kind = kind ∨ kind = .name)

/-- A token, or something between tokens. -/
inductive Piece where
  | token (t : Token)
  | skipped (chars : List Char)

namespace Piece

def chars : Piece → List Char
  | token t => t.text.toList
  | skipped cs => cs

def token? : Piece → Option Token
  | token t => some t
  | skipped _ => none

/-- What a piece has to be that is cut off the start of `text`, after all of `before`. -/
def IsCut (before text : List Char) : Piece → Prop
  | token t => t.IsCut before text
  | skipped cs => Lexer.Takes text .skipped cs ∧ (Lexer.IsSpaces cs ∨ Lexer.IsComment cs)

end Piece

/-- The pieces follow each other from the start of a text to what is left of it, where nothing
matches. -/
structure Pieces (before : List Char) (pieces : List Piece) (rest : List Char) : Prop where
  isCut {front back : List Piece} {p : Piece} : pieces = front ++ p :: back →
    p.IsCut (before ++ front.flatMap Piece.chars) (p.chars ++ (back.flatMap Piece.chars ++ rest))
  stuck : ∀ d ∈ Lexer.descriptions, d.Misses rest

/-- One more piece before those that the rest is cut into. -/
theorem Pieces.cons {before rest : List Char} {p : Piece} {ps : List Piece}
    (hp : p.IsCut before (p.chars ++ (ps.flatMap Piece.chars ++ rest)))
    (h : Pieces (before ++ p.chars) ps rest) : Pieces before (p :: ps) rest where
  isCut {front back q} he := by
    cases front with
    | nil =>
      obtain ⟨rfl, rfl⟩ := List.cons.inj he
      simpa using hp
    | cons r front =>
      obtain ⟨rfl, rfl⟩ := List.cons.inj he
      simpa using h.isCut rfl
  stuck := h.stuck

namespace Lexer

/-- A token that a terminal cuts out; a word gets its kind by its whole text. -/
theorem Takes.isCut {kind : TokenKind} {text : List Char} {word : String}
    (h : Takes text (.token kind) word.toList) (hne : word ≠ "") (before : List Char) :
    Token.IsCut ⟨if kind = .name then .ofWord word else kind, word, some (.after before)⟩
      before text where
  ne_empty := hne
  spells := by
    have hspells := h.spells
    dsimp only
    split
    · rename_i hk
      subst hk
      exact spells_ofWord hspells
    · exact hspells
  keyword hw := by
    dsimp only at hw ⊢
    split
    · exact ofWord_ne_name hw
    · assumption
  place := rfl
  taken := by
    refine ⟨kind, h, ?_⟩
    dsimp only
    split
    · rename_i hk
      exact .inr hk
    · exact .inl rfl

/-- What a text is cut into are pieces of it, with the same tokens. -/
theorem exists_pieces (before cs : List Char) : ∃ pieces, Pieces before pieces (cut cs).2 ∧
    (cut cs).1.flatMap (·.chars) = pieces.flatMap Piece.chars ∧
    tokensFrom (.after before) (cut cs).1 = pieces.filterMap Piece.token? := by
  fun_induction cut cs generalizing before with
  | case1 => exact ⟨[], ⟨by simp, misses_of_match? rfl⟩, rfl, rfl⟩
  | case2 c rest use n hmatch lexemes stuck hcut ih =>
    have htakes := takes_of_match? hmatch
    have hlost := cut_append (rest.drop n)
    obtain ⟨pieces, hpieces, hchars, htokens⟩ := ih (before ++ (c :: rest).take (n + 1))
    rw [hcut] at hpieces hchars htokens hlost
    have htext : c :: rest = (c :: rest).take (n + 1) ++ (pieces.flatMap Piece.chars ++ stuck) := by
      rw [← hchars, hlost, List.take_succ_cons, List.cons_append, List.take_append_drop]
    obtain ⟨word, hword⟩ : ∃ w : String, w.toList = (c :: rest).take (n + 1) :=
      ⟨String.ofList _, String.toList_ofList⟩
    have hne : word ≠ "" := by
      rintro rfl
      simp at hword
    rw [← Loc.after_append] at htokens
    simp only [← hword] at htakes hpieces htokens htext ⊢
    rw [htext] at htakes
    cases use with
    | skipped =>
      refine ⟨.skipped word.toList :: pieces, .cons ⟨htakes, htakes.skips⟩ hpieces, ?_, htokens⟩
      rw [List.flatMap_cons, List.flatMap_cons, hchars]
      rfl
    | token kind =>
      refine ⟨.token _ :: pieces, .cons (htakes.isCut hne before) hpieces, ?_, ?_⟩
      · rw [List.flatMap_cons, List.flatMap_cons, hchars]
        rfl
      · simp only [tokensFrom, String.ofList_toList, htokens]
        rfl
  | case3 c rest hstuck =>
    refine ⟨[], ⟨by simp, misses_of_match? ?_⟩, rfl, rfl⟩
    rcases hmatch : match? (c :: rest) with _ | ⟨use, _ | n⟩
    · rfl
    · exact absurd hmatch (match?_ne_zero _ use)
    · exact absurd hmatch (hstuck use n)

end Lexer

/-- Every text is cut into pieces that make it up again, each cut off by the first terminal that
matches and each token with its place; if anything is left, nothing matches there, and that is the
place that is reported. -/
theorem lex_lossless (source : List Char) : ∃ pieces rest,
    source = pieces.flatMap Piece.chars ++ rest ∧ Pieces [] pieces rest ∧
    (rest = [] → lex source =
      ⟨pieces.filterMap Piece.token? ++ [⟨.endOfText, "", some (.after source)⟩], none⟩) ∧
    ∀ c cs, rest = c :: cs → lex source =
      ⟨pieces.filterMap Piece.token?, some (c, .after (pieces.flatMap Piece.chars))⟩ := by
  obtain ⟨pieces, hpieces, hchars, htokens⟩ := Lexer.exists_pieces [] source
  replace htokens : Lexer.tokensFrom .start (Lexer.cut source).1 = pieces.filterMap Piece.token? :=
    htokens
  have hlost := Lexer.cut_append source
  have hstart : Loc.start.advance ((Lexer.cut source).1.flatMap (·.chars)) =
      .after (pieces.flatMap Piece.chars) := by rw [Loc.advance_start, hchars]
  rw [hchars] at hlost
  refine ⟨pieces, _, hlost.symm, hpieces, fun hrest => ?_, fun c cs hrest => ?_⟩
  · rw [hrest, List.append_nil] at hlost
    simp only [lex, hrest, hstart, htokens, hlost]
  · simp only [lex, hrest, hstart, htokens]

end Terse
