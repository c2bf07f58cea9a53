import Terse.Parse
import Terse.Proofs.Grammar.Sound
import Terse.Proofs.Source.Spelling
import Terse.Proofs.Tree.Formed

/-! A text that can be read gives a tree of the grammar, made of its own tokens. -/
namespace Terse

variable {P : Token → Prop} {tree : Tree}

theorem indexed_language : language.Indexed := ⟨fun p => by cases p <;> rfl, by decide⟩

/-- A tree that parsing gives is derived from the tokens. -/
theorem derives_of_parse {source : String} (h : parse source = .ok tree) :
    ∃ read rest, (lex source.toList).tokens = read ++ rest ∧
      Derives language .program read [tree] := by
  unfold parse at h
  dsimp only at h
  split at h
  · contradiction
  · contradiction
  · split at h
    · rename_i left tree' rs hrs
      obtain rfl := Except.ok.inj h
      obtain ⟨read, rest, hts, -, hd⟩ :=
        Grammar.reads_readings indexed_language (r := ⟨left, [tree']⟩) (hrs ▸ List.mem_cons_self)
      exact ⟨read, rest, hts, hd⟩
    · contradiction

/-- The parts of a tree of a program are statements. -/
theorem isStmt_of_derives {ts : List Token} (h : Derives language .program ts [tree])
    (hts : ∀ t ∈ ts, P t) : ∀ t ∈ tree.kids, Tree.IsStmt P t := by
  obtain ⟨ss, loc, he, hss⟩ := Phrase.fits_of_derives h hts
  obtain rfl := List.singleton_inj.1 he
  exact hss

/-- What holds of all tokens of a text holds of those in its tree. -/
theorem isStmt_of_parse {source : String} (h : parse source = .ok tree)
    (hP : ∀ t ∈ (lex source.toList).tokens, P t) : ∀ t ∈ tree.kids, Tree.IsStmt P t := by
  obtain ⟨read, rest, hts, hd⟩ := derives_of_parse h
  exact isStmt_of_derives hd fun t ht => hP t (hts ▸ List.mem_append_left rest ht)

/-- The tree of a whole program. -/
def Tree.IsProgram (P : Token → Prop) (t : Tree) : Prop :=
  ∃ ss loc, t = node .start ss loc ∧ ∀ s ∈ ss, IsStmt P s

/-- What is read from a text is the tree of a program. -/
theorem isProgram_of_parse {source : String} (h : parse source = .ok tree)
    (hP : ∀ t ∈ (lex source.toList).tokens, P t) : tree.IsProgram P := by
  obtain ⟨read, rest, hts, hd⟩ := derives_of_parse h
  obtain ⟨ss, loc, he, hss⟩ := Phrase.fits_of_derives hd fun t ht =>
    hP t (hts ▸ List.mem_append_left rest ht)
  exact ⟨ss, loc, List.singleton_inj.1 he, hss⟩

/-- The places of errors in a tree are those of the tokens that were read. -/
theorem sited_of_parse {source : String} {L : Option Loc → Prop} (h : parse source = .ok tree)
    (hL : ∀ t ∈ (lex source.toList).tokens, L t.loc) : ∀ t ∈ tree.kids, t.Sited L := by
  obtain ⟨read, rest, hts, hd⟩ := derives_of_parse h
  have hsited := Phrase.sited_of_derives hd fun t ht => hL t (hts ▸ List.mem_append_left rest ht)
  have htree := hsited tree List.mem_cons_self
  cases tree with
  | token t => simp [Tree.kids]
  | node rule kids loc => exact htree.kids

end Terse
