import Terse.Grammar.Basic

/-! The rules of the language as they are published, and what is derived by them. A derivation is a
value: it has the tokens it was made from and the tree that is made of it. -/
namespace Terse

/-- What a rule is called by others. -/
inductive Nonterminal where
  | start | statement | varDecl | indexAssign | memberAssign | mathAssign | incDecStmt | callStmt
  | funcDecl | params | block | ifStmt | whileStmt | repeatStmt | rangeStmt | forStmt | breakStmt
  | continueStmt | returnStmt | shortReturnStmt | throwStmt | tryStmt
  | exp | exp1 | exp2 | exp3 | exp4 | factor | prefixed | postfixed | primary | call | dictItem
deriving DecidableEq, Repr

/-- The right side of a rule. A terminal with a name is kept in trees, one that is written out is
only a mark and left out. -/
inductive Pattern where
  | nothing
  | kept (kind : TokenKind)
  | mark (kind : TokenKind)
  | rule (n : Nonterminal)
  | seq (p q : Pattern)
  | either (p q : Pattern)
  | optional (p : Pattern)
  | many (p : Pattern)
deriving DecidableEq, Repr

instance : Append Pattern := ⟨.seq⟩

/-- Things divided by commas, or none. -/
def Pattern.listed (p : Pattern) : Pattern := optional (p ++ many (mark .comma ++ p))

/-- One of the right sides of a rule, with the name that it gives to its node, if it has its own. -/
structure Alternative where
  pattern : Pattern
  name : Option Rule
deriving DecidableEq, Repr

namespace Nonterminal

open Pattern

def alternatives : Nonterminal → List Alternative
  | start => [⟨many (rule statement), none⟩]
  | statement => [varDecl, indexAssign, memberAssign, mathAssign, incDecStmt, callStmt, funcDecl,
      ifStmt, whileStmt, repeatStmt, rangeStmt, forStmt, breakStmt, continueStmt, returnStmt,
      shortReturnStmt, throwStmt, tryStmt].map fun n => ⟨rule n, none⟩
  | varDecl => [⟨kept .name ++ mark .equal ++ rule exp, none⟩]
  | indexAssign =>
    [⟨kept .name ++ mark .lsqb ++ rule exp ++ mark .rsqb ++ mark .equal ++ rule exp, none⟩]
  | memberAssign => [⟨kept .name ++ mark .dot ++ kept .name ++ mark .equal ++ rule exp, none⟩]
  | mathAssign => [⟨kept .name ++ kept .mathAssign ++ rule exp, none⟩]
  | incDecStmt => [⟨rule primary ++ kept .incDec, none⟩]
  | callStmt => [⟨rule call, none⟩]
  | funcDecl => [⟨mark .functionWord ++ kept .name ++ rule params ++ mark .arrow ++
      many (rule statement) ++ mark .semicolon, none⟩]
  | params => [⟨mark .lpar ++ listed (kept .name) ++ mark .rpar, none⟩]
  | block => [⟨mark .colon ++ many (rule statement) ++ mark .semicolon, none⟩]
  | ifStmt => [⟨mark .qmark ++ rule exp ++ rule block ++
      optional (mark .bang ++ either (rule ifStmt) (rule block)), none⟩]
  | whileStmt => [⟨mark .whileWord ++ rule exp ++ rule block, none⟩]
  | repeatStmt => [⟨kept .times ++ either (kept .number) (kept .name) ++ rule block, none⟩]
  | rangeStmt => [⟨kept .name ++ mark .inWord ++ rule exp ++ mark .comma ++ rule exp ++
      optional (mark .comma ++ rule exp) ++ rule block, none⟩]
  | forStmt => [⟨kept .name ++ mark .inWord ++ rule exp ++ rule block, none⟩]
  | breakStmt => [⟨kept .breakWord, none⟩]
  | continueStmt => [⟨kept .continueWord, none⟩]
  | returnStmt => [⟨kept .returnWord ++ rule exp, none⟩]
  | shortReturnStmt => [⟨kept .returnWord, none⟩]
  | throwStmt => [⟨mark .throwWord ++ rule exp, none⟩]
  | tryStmt =>
    [⟨mark .tryWord ++ rule block ++ mark .exceptWord ++ rule params ++ rule block, none⟩]
  | exp => [
      ⟨rule exp1 ++ mark .qmark ++ rule exp1 ++ mark .bang ++ rule exp, some .conditional⟩,
      ⟨rule exp1, none⟩]
  | exp1 => [⟨rule exp1 ++ mark .bar ++ rule exp2, some .orExp⟩, ⟨rule exp2, none⟩]
  | exp2 => [⟨rule exp2 ++ mark .ampersand ++ rule exp3, some .andExp⟩, ⟨rule exp3, none⟩]
  | exp3 => [⟨rule exp3 ++ kept .relop ++ rule exp4, some .relational⟩, ⟨rule exp4, none⟩]
  | exp4 => [⟨kept .arith ++ rule exp4 ++ rule exp4, some .binary⟩, ⟨rule factor, none⟩]
  | factor => [⟨rule prefixed ++ mark .caret ++ rule factor, some .power⟩, ⟨rule prefixed, none⟩]
  | prefixed => [⟨kept .unary ++ rule prefixed, some .unary⟩, ⟨rule postfixed, none⟩]
  | postfixed => [
      ⟨rule postfixed ++ kept .incDec, some .postfixUnary⟩,
      ⟨rule postfixed ++ kept .factorial, some .postfixUnary⟩,
      ⟨rule primary, none⟩]
  | primary => [
      ⟨kept .number, some .number⟩,
      ⟨kept .string, some .string⟩,
      ⟨mark .trueWord, some .trueLit⟩,
      ⟨mark .falseWord, some .falseLit⟩,
      ⟨rule call, none⟩,
      ⟨kept .name, some .var⟩,
      ⟨mark .lsqb ++ listed (rule exp) ++ mark .rsqb, some .array⟩,
      ⟨mark .lbrace ++ listed (rule dictItem) ++ mark .rbrace, some .dict⟩,
      ⟨rule primary ++ mark .dot ++ kept .name, some .member⟩,
      ⟨rule primary ++ mark .optionalDot ++ kept .name, some .optionalMember⟩,
      ⟨rule primary ++ mark .lsqb ++ rule exp ++ mark .rsqb, some .subscript⟩,
      ⟨mark .lpar ++ rule exp ++ mark .rpar, none⟩]
  | call => [⟨kept .name ++ mark .lpar ++ listed (rule exp) ++ mark .rpar, none⟩]
  | dictItem => [⟨kept .name ++ mark .colon ++ rule exp, none⟩]

/-- A rule that hands up a single part as it is. -/
def isInlined : Nonterminal → Bool
  | statement | exp | exp1 | exp2 | exp3 | exp4 | factor | prefixed | postfixed | primary => true
  | _ => false

/-- The name of a rule's nodes. -/
def label : Nonterminal → Rule
  | start => .start | statement => .other "statement" | varDecl => .varDecl
  | indexAssign => .indexAssign | memberAssign => .memberAssign | mathAssign => .mathAssign
  | incDecStmt => .incDecStmt | callStmt => .callStmt | funcDecl => .funcDecl | params => .params
  | block => .block | ifStmt => .ifStmt | whileStmt => .whileStmt | repeatStmt => .repeatStmt
  | rangeStmt => .rangeStmt | forStmt => .forStmt | breakStmt => .breakStmt
  | continueStmt => .continueStmt | returnStmt => .returnStmt | shortReturnStmt => .shortReturnStmt
  | throwStmt => .throwStmt | tryStmt => .tryStmt | exp => .other "exp" | exp1 => .other "exp1"
  | exp2 => .other "exp2" | exp3 => .other "exp3" | exp4 => .other "exp4"
  | factor => .other "factor" | prefixed => .other "prefix" | postfixed => .other "postfix"
  | primary => .other "primary" | call => .call | dictItem => .dictItem

/-- What a rule makes of its parts. -/
def shape (n : Nonterminal) (name : Option Rule) (loc : Option Loc) (kids : List Tree) : Tree :=
  match name, n.isInlined, kids with
  | some r, _, kids => .node r kids loc
  | none, true, [kid] => kid
  | none, _, kids => .node n.label kids loc

end Nonterminal

mutual

/-- How tokens are made by a rule. -/
inductive Derivation : Nonterminal → Type
  | of {n : Nonterminal} {a : Alternative} (h : a ∈ n.alternatives) (m : Match a.pattern) :
      Derivation n

/-- How tokens are made by the right side of a rule. -/
inductive Match : Pattern → Type
  | nothing : Match .nothing
  | kept {kind : TokenKind} (t : Token) (h : t.kind = kind) : Match (.kept kind)
  | mark {kind : TokenKind} (t : Token) (h : t.kind = kind) : Match (.mark kind)
  | rule {n : Nonterminal} (d : Derivation n) : Match (.rule n)
  | seq {p q : Pattern} (m : Match p) (m' : Match q) : Match (.seq p q)
  | left {p q : Pattern} (m : Match p) : Match (.either p q)
  | right {p q : Pattern} (m : Match q) : Match (.either p q)
  | absent {p : Pattern} : Match (.optional p)
  | present {p : Pattern} (m : Match p) : Match (.optional p)
  | done {p : Pattern} : Match (.many p)
  | more {p : Pattern} (m : Match p) (ms : Match (.many p)) : Match (.many p)

end

mutual

/-- The tokens of a derivation, in order. -/
def Derivation.yield {n : Nonterminal} : Derivation n → List Token
  | .of _ m => m.yield

def Match.yield {p : Pattern} : Match p → List Token
  | .nothing | .absent | .done => []
  | .kept t _ | .mark t _ => [t]
  | .rule d => d.yield
  | .seq m m' => m.yield ++ m'.yield
  | .left m | .right m | .present m => m.yield
  | .more m ms => m.yield ++ ms.yield

end

mutual

/-- The tree of a derivation. -/
def Derivation.tree {n : Nonterminal} : Derivation n → Tree
  | @Derivation.of _ a _ m => n.shape a.name (firstLoc m.yield) m.trees

def Match.trees {p : Pattern} : Match p → List Tree
  | .nothing | .absent | .done | .mark _ _ => []
  | .kept t _ => [.token t]
  | .rule d => [d.tree]
  | .seq m m' => m.trees ++ m'.trees
  | .left m | .right m | .present m => m.trees
  | .more m ms => m.trees ++ ms.trees

end

/-- One after another, any number of times. -/
inductive Repeated (R : List Token → List Tree → Prop) : List Token → List Tree → Prop
  | done : Repeated R [] []
  | more {us vs : List Token} {as bs : List Tree} :
      R us as → Repeated R vs bs → Repeated R (us ++ vs) (as ++ bs)

/-- What the rules are taken to make. -/
abbrev Makes := Nonterminal → List Token → Tree → Prop

namespace Pattern

variable {I : Makes} {ts us : List Token} {kids : List Tree}

/-- What a pattern makes, if its rules make `I`. -/
def Holds (I : Makes) : Pattern → List Token → List Tree → Prop
  | nothing, ts, kids => ts = [] ∧ kids = []
  | kept kind, ts, kids => ∃ t : Token, t.kind = kind ∧ ts = [t] ∧ kids = [.token t]
  | mark kind, ts, kids => ∃ t : Token, t.kind = kind ∧ ts = [t] ∧ kids = []
  | rule n, ts, kids => ∃ tree, I n ts tree ∧ kids = [tree]
  | seq p q, ts, kids =>
    ∃ us vs as bs, ts = us ++ vs ∧ kids = as ++ bs ∧ Holds I p us as ∧ Holds I q vs bs
  | either p q, ts, kids => Holds I p ts kids ∨ Holds I q ts kids
  | optional p, ts, kids => (ts = [] ∧ kids = []) ∨ Holds I p ts kids
  | many p, ts, kids => Repeated (Holds I p) ts kids

/-- What patterns make one after another. -/
def HoldsAll (I : Makes) : List Pattern → List Token → List Tree → Prop
  | [], ts, kids => ts = [] ∧ kids = []
  | p :: ps, ts, kids =>
    ∃ us vs as bs, ts = us ++ vs ∧ kids = as ++ bs ∧ Holds I p us as ∧ HoldsAll I ps vs bs

/-- A pattern with each choice in it made. -/
def expansions : Pattern → List (List Pattern)
  | nothing => [[]]
  | kept kind => [[kept kind]]
  | mark kind => [[mark kind]]
  | rule n => [[rule n]]
  | seq p q => p.expansions.flatMap fun f => q.expansions.map (f ++ ·)
  | either p q => p.expansions ++ q.expansions
  | optional p => [] :: p.expansions
  | many p => [[many p]]

theorem holdsAll_cons {p : Pattern} {ps : List Pattern} {us vs : List Token} {as bs : List Tree}
    (h : Holds I p us as) (hs : HoldsAll I ps vs bs) : HoldsAll I (p :: ps) (us ++ vs) (as ++ bs) :=
  ⟨us, vs, as, bs, rfl, rfl, h, hs⟩

theorem holdsAll_singleton {p : Pattern} : HoldsAll I [p] ts kids ↔ Holds I p ts kids := by
  constructor
  · rintro ⟨us, vs, as, bs, rfl, rfl, h, rfl, rfl⟩
    rwa [List.append_nil, List.append_nil]
  · intro h
    exact ⟨ts, [], kids, [], by simp, by simp, h, rfl, rfl⟩

/-- A row of patterns splits its tokens and its trees where the row is split. -/
theorem holdsAll_append {f g : List Pattern} : HoldsAll I (f ++ g) ts kids ↔
    ∃ us vs as bs, ts = us ++ vs ∧ kids = as ++ bs ∧ HoldsAll I f us as ∧ HoldsAll I g vs bs := by
  induction f generalizing ts kids with
  | nil =>
    constructor
    · intro h
      exact ⟨[], ts, [], kids, rfl, rfl, ⟨rfl, rfl⟩, h⟩
    · rintro ⟨_, _, _, _, rfl, rfl, ⟨rfl, rfl⟩, h⟩
      exact h
  | cons p f ih =>
    constructor
    · rintro ⟨us, _, as, _, rfl, rfl, hp, h⟩
      obtain ⟨vs, ws, bs, cs, rfl, rfl, hf, hg⟩ := ih.1 h
      exact ⟨us ++ vs, ws, as ++ bs, cs, by simp, by simp, holdsAll_cons hp hf, hg⟩
    · rintro ⟨_, ws, _, cs, rfl, rfl, ⟨us, vs, as, bs, rfl, rfl, hp, hf⟩, hg⟩
      rw [List.append_assoc, List.append_assoc]
      exact holdsAll_cons hp (ih.2 ⟨vs, ws, bs, cs, rfl, rfl, hf, hg⟩)

/-- A pattern makes what its expansions make. -/
theorem holds_iff_expansions {p : Pattern} :
    Holds I p ts kids ↔ ∃ form ∈ p.expansions, HoldsAll I form ts kids := by
  induction p generalizing ts kids with
  | nothing => simp [Holds, HoldsAll, expansions]
  | kept | mark | rule | many => simp [expansions, holdsAll_singleton]
  | seq p q ihp ihq =>
    simp only [Holds, expansions, ihp, ihq, List.mem_flatMap, List.mem_map]
    constructor
    · rintro ⟨us, vs, as, bs, rfl, rfl, ⟨f, hf, hfs⟩, g, hg, hgs⟩
      exact ⟨_, ⟨f, hf, g, hg, rfl⟩, holdsAll_append.2 ⟨us, vs, as, bs, rfl, rfl, hfs, hgs⟩⟩
    · rintro ⟨_, ⟨f, hf, g, hg, rfl⟩, h⟩
      obtain ⟨us, vs, as, bs, rfl, rfl, hfs, hgs⟩ := holdsAll_append.1 h
      exact ⟨us, vs, as, bs, rfl, rfl, ⟨f, hf, hfs⟩, g, hg, hgs⟩
  | either p q ihp ihq => simp [Holds, expansions, ihp, ihq, or_and_right, exists_or]
  | optional p ih => simp [Holds, HoldsAll, expansions, ih]

theorem holdsAll_more {p : Pattern} {rest : List Pattern}
    (h : HoldsAll I (p :: many p :: rest) ts kids) : HoldsAll I (many p :: rest) ts kids := by
  obtain ⟨us, _, as, _, rfl, rfl, hp, vs, ws, bs, cs, rfl, rfl, hps, hrest⟩ := h
  rw [← List.append_assoc, ← List.append_assoc]
  exact holdsAll_cons (.more hp hps) hrest

theorem holdsAll_done {p : Pattern} {rest : List Pattern} (h : HoldsAll I rest ts kids) :
    HoldsAll I (many p :: rest) ts kids := ⟨[], ts, [], kids, rfl, rfl, .done, h⟩

end Pattern

open Pattern (Holds HoldsAll)

/-- The rules make no more than `I`. -/
def Closed (I : Makes) : Prop := ∀ n : Nonterminal, ∀ a ∈ n.alternatives, ∀ ts kids,
  Holds I a.pattern ts kids → I n ts (n.shape a.name (firstLoc ts) kids)

mutual

/-- What is closed under the rules holds of every derivation. -/
theorem Derivation.makes {I : Makes} (hI : Closed I) {n : Nonterminal} :
    ∀ d : Derivation n, I n d.yield d.tree
  | .of h m => hI n _ h _ _ (m.holds hI)

/-- What is closed under the rules holds of every match. -/
theorem Match.holds {I : Makes} (hI : Closed I) {p : Pattern} :
    ∀ m : Match p, Holds I p m.yield m.trees
  | .nothing => ⟨rfl, rfl⟩
  | .kept t h | .mark t h => ⟨t, h, rfl, rfl⟩
  | .rule d => ⟨d.tree, d.makes hI, rfl⟩
  | .seq m m' => ⟨_, _, _, _, rfl, rfl, m.holds hI, m'.holds hI⟩
  | .left m => .inl (m.holds hI)
  | .right m => .inr (m.holds hI)
  | .absent => .inl ⟨rfl, rfl⟩
  | .present m => .inr (m.holds hI)
  | .done => .done
  | .more m ms => .more (m.holds hI) (ms.holds hI)

end

/-- What the rules do make. -/
def Made : Makes := fun n ts tree => ∃ d : Derivation n, d.yield = ts ∧ d.tree = tree

theorem exists_match {p : Pattern} {ts : List Token} {kids : List Tree} (h : Holds Made p ts kids) :
    ∃ m : Match p, m.yield = ts ∧ m.trees = kids := by
  induction p generalizing ts kids with
  | nothing => exact ⟨.nothing, h.1.symm, h.2.symm⟩
  | kept kind =>
    obtain ⟨t, hk, rfl, rfl⟩ := h
    exact ⟨.kept t hk, rfl, rfl⟩
  | mark kind =>
    obtain ⟨t, hk, rfl, rfl⟩ := h
    exact ⟨.mark t hk, rfl, rfl⟩
  | rule n =>
    obtain ⟨_, ⟨d, rfl, rfl⟩, rfl⟩ := h
    exact ⟨.rule d, rfl, rfl⟩
  | seq p q ihp ihq =>
    obtain ⟨us, vs, as, bs, rfl, rfl, hp, hq⟩ := h
    obtain ⟨m, rfl, rfl⟩ := ihp hp
    obtain ⟨m', rfl, rfl⟩ := ihq hq
    exact ⟨.seq m m', rfl, rfl⟩
  | either p q ihp ihq =>
    rcases h with h | h
    · obtain ⟨m, rfl, rfl⟩ := ihp h
      exact ⟨.left m, rfl, rfl⟩
    · obtain ⟨m, rfl, rfl⟩ := ihq h
      exact ⟨.right m, rfl, rfl⟩
  | optional p ih =>
    rcases h with ⟨rfl, rfl⟩ | h
    · exact ⟨.absent, rfl, rfl⟩
    · obtain ⟨m, rfl, rfl⟩ := ih h
      exact ⟨.present m, rfl, rfl⟩
  | many p ih =>
    induction h with
    | done => exact ⟨.done, rfl, rfl⟩
    | more hp _ ihs =>
      obtain ⟨m, rfl, rfl⟩ := ih hp
      obtain ⟨ms, rfl, rfl⟩ := ihs
      exact ⟨.more m ms, rfl, rfl⟩

theorem closed_made : Closed Made := by
  intro n a ha ts kids h
  obtain ⟨m, rfl, rfl⟩ := exists_match h
  exact ⟨.of ha m, rfl, rfl⟩

end Terse
