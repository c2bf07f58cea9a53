import Terse.Grammar.Language
import Terse.Proofs.Grammar.Complete
import Terse.Proofs.Grammar.Rules

/-! The grammar that texts are read by has the forms of the published rules, so that both derive the
same texts and make the same trees of them. -/
namespace Terse

open Pattern

namespace Phrase

/-- What a phrase stands for in the published rules. A phrase that lists things has their end with
it. -/
def forms : Phrase → List (List Pattern)
  | call => [[rule .call]]
  | primary => [[rule .primary]]
  | postfixed => [[rule .postfixed]]
  | prefixed => [[rule .prefixed]]
  | factor => [[rule .factor]]
  | sum => [[rule .exp4]]
  | comparison => [[rule .exp3]]
  | conjunction => [[rule .exp2]]
  | disjunction => [[rule .exp1]]
  | exp => [[rule .exp]]
  | arguments => [[rule .exp, many (mark .comma ++ rule .exp), mark .rpar]]
  | elements => [[rule .exp, many (mark .comma ++ rule .exp), mark .rsqb]]
  | dictItem => [[rule .dictItem]]
  | entries => [[rule .dictItem, many (mark .comma ++ rule .dictItem), mark .rbrace]]
  | names => [[kept .name, many (mark .comma ++ kept .name), mark .rpar]]
  | params => [[rule .params]]
  | block => [[rule .block]]
  | ifStmt => [[rule .ifStmt]]
  | alternative => [[rule .ifStmt], [rule .block]]
  | statement => [[rule .statement]]
  | body => [[many (rule .statement), mark .semicolon]]
  | rest => [[many (rule .statement), mark .endOfText]]
  | program => [[rule .start, mark .endOfText]]

/-- What the items of a production stand for. -/
def itemForms : List (Item Phrase) → List (List Pattern)
  | [] => [[]]
  | .keep kind :: is => (itemForms is).map (kept kind :: ·)
  | .drop kind :: is => (itemForms is).map (mark kind :: ·)
  | .part p :: is => p.forms.flatMap fun f => (itemForms is).map (f ++ ·)

end Phrase

namespace Nonterminal

/-- A form that hands up one tree. -/
def isUnit : List Pattern → Bool
  | [rule _] | [mark _, rule _, mark _] => true
  | _ => false

/-- A rule has a form, and makes a node of the given name of it, or hands it up. -/
def hasForm (n : Nonterminal) (name : Option Rule) (form : List Pattern) : Bool :=
  n.alternatives.any fun a => a.pattern.expansions.contains form &&
    match name, a.name with
    | some r, some r' => r = r'
    | some r, none => !n.isInlined && n.label = r
    | none, none => n.isInlined && isUnit form
    | none, some _ => false

/-- The rules that a rule may hand up. -/
def units (n : Nonterminal) : List Nonterminal :=
  if n.isInlined then n.alternatives.filterMap fun a =>
    match a with
    | ⟨rule m, none⟩ => some m
    | _ => none
  else []

end Nonterminal

open Phrase in
/-- The productions of a phrase that stands for a rule are forms of the rule, or of one that it
hands up. -/
theorem hasForm_base : ∀ p n, p.forms = [[rule n]] → ∀ q ∈ (define p).base,
    ∀ form ∈ itemForms q.items, n.hasForm q.rule form ∨ ∃ m ∈ n.units, m.hasForm q.rule form := by
  intro p n hp
  cases p <;> simp only [forms, List.cons.injEq, Pattern.rule.injEq, and_true, reduceCtorEq,
    and_false] at hp <;> subst hp <;> decide +kernel

open Phrase in
theorem hasForm_step : ∀ p n, p.forms = [[rule n]] → ∀ q ∈ (define p).steps,
    ∀ form ∈ itemForms q.items, n.hasForm q.rule (rule n :: form) := by
  intro p n hp
  cases p <;> simp only [forms, List.cons.injEq, Pattern.rule.injEq, and_true, reduceCtorEq,
    and_false] at hp <;> subst hp <;> decide +kernel

variable {ts us : List Token} {kids trees : List Tree}

theorem kids_of_isUnit {I : Makes} {form : List Pattern} (hu : Nonterminal.isUnit form)
    (h : HoldsAll I form ts kids) : ∃ tree, kids = [tree] := by
  unfold Nonterminal.isUnit at hu
  split at hu
  · obtain ⟨tree, -, rfl⟩ := holdsAll_singleton.1 h
    exact ⟨tree, rfl⟩
  · obtain ⟨_, _, _, _, -, rfl, ⟨_, -, -, rfl⟩, _, _, _, _, -, rfl, ⟨tree, -, rfl⟩,
      _, _, _, _, -, rfl, ⟨_, -, -, rfl⟩, -, rfl⟩ := h
    exact ⟨tree, rfl⟩
  · contradiction

/-- A form of a rule makes what the rule makes. -/
theorem made_of_hasForm {n : Nonterminal} {name : Option Rule} {is : List (Item Phrase)}
    {form : List Pattern} (hn : n.hasForm name form) (h : HoldsAll Made form ts kids) :
    ∃ tree, Production.shape (σ := Phrase) ⟨name, is⟩ (firstLoc ts) kids = [tree] ∧
      Made n ts tree := by
  obtain ⟨a, ha, hform⟩ := List.any_eq_true.1 hn
  obtain ⟨hform, hname⟩ := Bool.and_eq_true_iff.1 hform
  have hmade := closed_made n a ha ts kids
    (holds_iff_expansions.2 ⟨form, List.contains_iff_mem.1 hform, h⟩)
  refine ⟨_, ?_, hmade⟩
  obtain ⟨pattern, own⟩ := a
  cases name with
  | some r =>
    cases own with
    | some r' => simp_all [Production.shape, Nonterminal.shape]
    | none => simp_all [Production.shape, Nonterminal.shape]
  | none =>
    cases own with
    | some r' => contradiction
    | none =>
      obtain ⟨hinlined, hunit⟩ := Bool.and_eq_true_iff.1 hname
      obtain ⟨tree, rfl⟩ := kids_of_isUnit hunit h
      simp [Production.shape, Nonterminal.shape, hinlined]

theorem made_of_unit {n m : Nonterminal} {tree : Tree} (hm : m ∈ n.units) (h : Made m ts tree) :
    Made n ts tree := by
  unfold Nonterminal.units at hm
  split at hm
  · rename_i hinlined
    obtain ⟨a, ha, hm⟩ := List.mem_filterMap.1 hm
    split at hm
    · obtain rfl := Option.some.inj hm
      have hmade := closed_made n _ ha ts [tree] ⟨tree, h, rfl⟩
      simpa [Nonterminal.shape, hinlined] using hmade
    · contradiction
  · contradiction

namespace Phrase

/-- What a phrase hands up is what the rules make of its tokens. -/
def Agrees (p : Phrase) (ts : List Token) (trees : List Tree) : Prop :=
  ∃ form ∈ p.forms, HoldsAll Made form ts trees

def AgreesItems (is : List (Item Phrase)) (ts : List Token) (kids : List Tree) : Prop :=
  ∃ form ∈ itemForms is, HoldsAll Made form ts kids

theorem agrees_rule {p : Phrase} {n : Nonterminal} (hp : p.forms = [[rule n]]) :
    Agrees p ts trees ↔ ∃ tree, Made n ts tree ∧ trees = [tree] := by
  simp [Agrees, hp, holdsAll_singleton, Holds]

theorem agrees_rule_base {p : Phrase} {n : Nonterminal} {q : Production Phrase}
    (hp : p.forms = [[rule n]]) (hq : q ∈ (define p).base) (h : AgreesItems q.items ts kids) :
    Agrees p ts (q.shape (firstLoc ts) kids) := by
  obtain ⟨form, hform, h⟩ := h
  rw [agrees_rule hp]
  rcases hasForm_base p n hp q hq form hform with hn | ⟨m, hm, hn⟩
  · obtain ⟨tree, hshape, hmade⟩ := made_of_hasForm hn h
    exact ⟨tree, hmade, hshape⟩
  · obtain ⟨tree, hshape, hmade⟩ := made_of_hasForm hn h
    exact ⟨tree, made_of_unit hm hmade, hshape⟩

theorem agrees_rule_step {p : Phrase} {n : Nonterminal} {q : Production Phrase}
    (hp : p.forms = [[rule n]]) (hq : q ∈ (define p).steps) (hs : Agrees p ts trees)
    (h : AgreesItems q.items us kids) :
    Agrees p (ts ++ us) (q.shape (firstLoc (ts ++ us)) (trees ++ kids)) := by
  obtain ⟨form, hform, h⟩ := h
  rw [agrees_rule hp] at hs ⊢
  obtain ⟨tree, hmade, rfl⟩ := hs
  obtain ⟨tree', hshape, hmade'⟩ := made_of_hasForm (hasForm_step p n hp q hq form hform)
    (holdsAll_cons ⟨tree, hmade, rfl⟩ h)
  exact ⟨tree', hmade', hshape⟩

/-- The things of a list and its end, with one more thing and a comma before them. -/
theorem holdsAll_comma {I : Makes} {p x : Pattern} {rest : List Pattern}
    (h : HoldsAll I (p :: mark .comma :: x :: many (mark .comma ++ x) :: rest) ts kids) :
    HoldsAll I (p :: many (mark .comma ++ x) :: rest) ts kids := by
  obtain ⟨us, _, as, _, rfl, rfl, hp, vs, _, bs, _, rfl, rfl, hcomma,
    ws, xs, cs, ds, rfl, rfl, hx, h⟩ := h
  refine holdsAll_cons hp (holdsAll_more ?_)
  rw [← List.append_assoc, ← List.append_assoc]
  exact holdsAll_cons ⟨vs, ws, bs, cs, rfl, rfl, hcomma, hx⟩ h

theorem holdsAll_last {I : Makes} {p x : Pattern} {rest : List Pattern}
    (h : HoldsAll I (p :: rest) ts kids) : HoldsAll I (p :: many x :: rest) ts kids := by
  obtain ⟨us, vs, as, bs, rfl, rfl, hp, h⟩ := h
  exact holdsAll_cons hp (holdsAll_done h)

/-- The productions of a list follow its pattern from the back to the front. -/
theorem agrees_list {p : Phrase} {q : Production Phrase}
    (hp : p = arguments ∨ p = elements ∨ p = entries ∨ p = names)
    (hq : q ∈ (define p).base) (h : AgreesItems q.items ts kids) :
    Agrees p ts (q.shape (firstLoc ts) kids) := by
  obtain ⟨form, hform, h⟩ := h
  rcases hp with rfl | rfl | rfl | rfl
  all_goals
    simp only [define, List.mem_cons, List.not_mem_nil, or_false] at hq
    rcases hq with rfl | rfl
    · obtain rfl := List.mem_singleton.1 hform
      exact ⟨_, List.mem_singleton.2 rfl, holdsAll_comma h⟩
    · obtain rfl := List.mem_singleton.1 hform
      exact ⟨_, List.mem_singleton.2 rfl, holdsAll_last h⟩

theorem agrees_body {p : Phrase} {q : Production Phrase} (hp : p = body ∨ p = rest)
    (hq : q ∈ (define p).base) (h : AgreesItems q.items ts kids) :
    Agrees p ts (q.shape (firstLoc ts) kids) := by
  obtain ⟨form, hform, h⟩ := h
  rcases hp with rfl | rfl
  all_goals
    simp only [define, List.mem_cons, List.not_mem_nil, or_false] at hq
    rcases hq with rfl | rfl
    · obtain rfl := List.mem_singleton.1 hform
      exact ⟨_, List.mem_singleton.2 rfl, holdsAll_more h⟩
    · obtain rfl := List.mem_singleton.1 hform
      exact ⟨_, List.mem_singleton.2 rfl, holdsAll_done h⟩

/-- The end of a text gives no place to a program. -/
theorem firstLoc_end (ts : List Token) {e : Token} (he : e.kind = .endOfText) :
    firstLoc (ts ++ [e]) = firstLoc ts := by
  cases ts with
  | nil => simp [firstLoc, Token.place, he]
  | cons t ts => rfl

theorem agrees_program {q : Production Phrase} (hq : q ∈ (define program).base)
    (h : AgreesItems q.items ts kids) : Agrees program ts (q.shape (firstLoc ts) kids) := by
  obtain ⟨form, hform, h⟩ := h
  obtain rfl := List.mem_singleton.1 hq
  obtain rfl := List.mem_singleton.1 hform
  obtain ⟨us, vs, as, bs, rfl, rfl, hbody, hend⟩ := h
  obtain ⟨e, he, rfl, rfl⟩ := holdsAll_singleton.1 hend
  have hmade := closed_made .start _ (List.mem_singleton.2 rfl) us as hbody
  refine ⟨_, List.mem_singleton.2 rfl, us, [e], [_], [], rfl, ?_, ⟨_, hmade, rfl⟩, hend⟩
  simp [Production.shape, Nonterminal.shape, Nonterminal.isInlined, Nonterminal.label,
    firstLoc_end us he]

theorem agrees_alternative {q : Production Phrase} (hq : q ∈ (define alternative).base)
    (h : AgreesItems q.items ts kids) : Agrees alternative ts (q.shape (firstLoc ts) kids) := by
  obtain ⟨form, hform, h⟩ := h
  simp only [define, List.mem_cons, List.not_mem_nil, or_false] at hq
  rcases hq with rfl | rfl
  · exact ⟨form, List.mem_cons.2 (.inl (List.mem_singleton.1 hform)), h⟩
  · exact ⟨form, List.mem_cons_of_mem _ hform, h⟩

theorem agrees_base {p : Phrase} {q : Production Phrase} (hq : q ∈ (define p).base)
    (h : AgreesItems q.items ts kids) : Agrees p ts (q.shape (firstLoc ts) kids) := by
  cases p with
  | arguments | elements | entries | names => exact agrees_list (by decide) hq h
  | body | rest => exact agrees_body (by decide) hq h
  | alternative => exact agrees_alternative hq h
  | program => exact agrees_program hq h
  | _ => exact agrees_rule_base rfl hq h

theorem agrees_step {p : Phrase} {q : Production Phrase} (hq : q ∈ (define p).steps)
    (hs : Agrees p ts trees) (h : AgreesItems q.items us kids) :
    Agrees p (ts ++ us) (q.shape (firstLoc (ts ++ us)) (trees ++ kids)) := by
  cases p with
  | primary | postfixed | comparison | conjunction | disjunction =>
    exact agrees_rule_step rfl hq hs h
  | _ => exact absurd hq List.not_mem_nil

mutual

theorem agrees_of_derives {p : Phrase} {ts : List Token} {trees : List Tree} :
    Derives language p ts trees → Agrees p ts trees
  | .base hq h => agrees_base hq (agreesItems_of_derives h)
  | .step hs hq h => agrees_step hq (agrees_of_derives hs) (agreesItems_of_derives h)

theorem agreesItems_of_derives {is : List (Item Phrase)} {ts : List Token} {kids : List Tree} :
    DerivesItems language is ts kids → AgreesItems is ts kids
  | .nil => ⟨[], List.mem_singleton.2 rfl, rfl, rfl⟩
  | .keep (t := t) h => by
    obtain ⟨form, hform, h⟩ := agreesItems_of_derives h
    have ht : Holds Made (kept t.kind) [t] [.token t] := ⟨t, rfl, rfl, rfl⟩
    exact ⟨_, List.mem_map_of_mem hform, holdsAll_cons ht h⟩
  | .drop (t := t) h => by
    obtain ⟨form, hform, h⟩ := agreesItems_of_derives h
    have ht : Holds Made (mark t.kind) [t] [] := ⟨t, rfl, rfl, rfl⟩
    exact ⟨_, List.mem_map_of_mem hform, holdsAll_cons ht h⟩
  | .part hp h => by
    obtain ⟨f, hf, hp⟩ := agrees_of_derives hp
    obtain ⟨form, hform, h⟩ := agreesItems_of_derives h
    exact ⟨_, List.mem_flatMap.2 ⟨f, hf, List.mem_map_of_mem hform⟩,
      holdsAll_append.2 ⟨_, _, _, _, rfl, rfl, hp, h⟩⟩

end

/-- What is read as a program is a derivation by the rules, and the end of the text. -/
theorem exists_derivation (h : Derives language .program ts trees) :
    ∃ (d : Derivation .start) (e : Token),
      e.kind = .endOfText ∧ ts = d.yield ++ [e] ∧ trees = [d.tree] := by
  obtain ⟨form, hform, h⟩ := agrees_of_derives h
  obtain rfl := List.mem_singleton.1 hform
  obtain ⟨_, _, _, _, rfl, rfl, ⟨_, ⟨d, rfl, rfl⟩, rfl⟩, hend⟩ := h
  obtain ⟨e, he, rfl, rfl⟩ := holdsAll_singleton.1 hend
  exact ⟨d, e, he, rfl, rfl⟩

end Phrase

namespace Nonterminal

/-- The phrase that a rule is read as. -/
def phrase : Nonterminal → Phrase
  | start => .program
  | params => .params
  | block => .block
  | ifStmt => .ifStmt
  | exp => .exp
  | exp1 => .disjunction
  | exp2 => .conjunction
  | exp3 => .comparison
  | exp4 => .sum
  | factor => .factor
  | prefixed => .prefixed
  | postfixed => .postfixed
  | primary => .primary
  | call => .call
  | dictItem => .dictItem
  | _ => .statement

/-- A text of a rule can be read; a program only with the end of the text. -/
def IsRead : Makes
  | start, ts, _ => ∀ e : Token, e.kind = .endOfText → language.Derivable .program (ts ++ [e])
  | n, ts, _ => language.Derivable n.phrase ts

end Nonterminal

open Nonterminal (IsRead)

open Phrase in
/-- Every form of a rule is one of a production of its phrase, or a rule that is read as the same
phrase. -/
theorem form_cases : ∀ n, n ≠ .start → ∀ a ∈ n.alternatives, ∀ form ∈ a.pattern.expansions,
    (∃ q ∈ (define n.phrase).base, form ∈ itemForms q.items) ∨
    (∃ q ∈ (define n.phrase).steps, form ∈ (itemForms q.items).map (rule n :: ·)) ∨
    ∃ m ∈ n.units, m.phrase = n.phrase ∧ m ≠ .start ∧ form = [rule m] := by
  intro n hn
  cases n <;> first | exact absurd rfl hn | decide +kernel

namespace Phrase

open Grammar (Derivable DerivableItems derivableItems_nil derivableItems_keep derivableItems_drop
  derivableItems_part)

theorem derivable_base {p : Phrase} {q : Production Phrase} (hq : q ∈ (define p).base)
    (h : DerivableItems language q.items ts) : Derivable language p ts := .base ⟨q, hq, h⟩

/-- Rows of items are read one after the other. -/
theorem derivableItems_append {is js : List (Item Phrase)} (his : DerivableItems language is ts)
    (hjs : DerivableItems language js us) : DerivableItems language (is ++ js) (ts ++ us) := by
  induction is generalizing ts with
  | nil =>
    obtain rfl := derivableItems_nil.1 his
    exact hjs
  | cons i is ih =>
    cases i with
    | keep =>
      obtain ⟨t, ts, rfl, ht, h⟩ := derivableItems_keep.1 his
      exact derivableItems_keep.2 ⟨t, _, rfl, ht, ih h⟩
    | drop =>
      obtain ⟨t, ts, rfl, ht, h⟩ := derivableItems_drop.1 his
      exact derivableItems_drop.2 ⟨t, _, rfl, ht, ih h⟩
    | part =>
      obtain ⟨us, vs, rfl, hp, h⟩ := derivableItems_part.1 his
      exact derivableItems_part.2 ⟨us, _, List.append_assoc .., hp, ih h⟩

theorem derivableItems_mark {kind : TokenKind} (h : Holds IsRead (mark kind) ts kids) :
    DerivableItems language [.drop kind] ts := by
  obtain ⟨t, ht, rfl, -⟩ := h
  exact derivableItems_drop.2 ⟨t, [], rfl, ht, derivableItems_nil.2 rfl⟩

theorem derivableItems_singleton {p : Phrase} (h : Derivable language p ts) :
    DerivableItems language [.part p] ts :=
  derivableItems_part.2 ⟨ts, [], (List.append_nil ts).symm, h, derivableItems_nil.2 rfl⟩

/-- A list with commas is read thing by thing, up to its end. -/
theorem derivable_listed {p : Phrase} {x : Pattern} {i : Item Phrase} {kind : TokenKind}
    (hp : (define p).base = [⟨none, [i, .drop .comma, .part p]⟩, ⟨none, [i, .drop kind]⟩])
    (hx : ∀ {ts kids}, Holds IsRead x ts kids → DerivableItems language [i] ts)
    (h : HoldsAll IsRead [x, many (mark .comma ++ x), mark kind] ts kids) :
    Derivable language p ts := by
  have hmore {ts : List Token} (h : DerivableItems language [i, .drop .comma, .part p] ts) :
      Derivable language p ts := derivable_base (q := ⟨none, _⟩) (by simp [hp]) h
  have hlast {ts : List Token} (h : DerivableItems language [i, .drop kind] ts) :
      Derivable language p ts := derivable_base (q := ⟨none, _⟩) (by simp [hp]) h
  obtain ⟨us, _, as, _, rfl, -, hfirst, vs, ws, bs, _, rfl, -, hmany, hend⟩ := h
  have hend := derivableItems_mark (holdsAll_singleton.1 hend)
  induction hmany generalizing us as with
  | done => exact hlast (derivableItems_append (hx hfirst) hend)
  | more hone _ ih =>
    obtain ⟨comma, next, _, _, rfl, -, hcomma, hnext⟩ := hone
    have hrest := derivableItems_singleton (ih _ _ hnext)
    have hitems := derivableItems_append (hx hfirst)
      (derivableItems_append (derivableItems_mark hcomma) hrest)
    simpa using hmore hitems

/-- Statements are read one by one, up to their end. -/
theorem derivable_statements {p : Phrase} {kind : TokenKind}
    (hp : (define p).base = [⟨none, [.part statement, .part p]⟩, ⟨none, [.drop kind]⟩])
    (h : HoldsAll IsRead [many (rule .statement), mark kind] ts kids) :
    Derivable language p ts := by
  have hmore {ts : List Token} (h : DerivableItems language [.part statement, .part p] ts) :
      Derivable language p ts := derivable_base (q := ⟨none, _⟩) (by simp [hp]) h
  have hlast {ts : List Token} (h : DerivableItems language [.drop kind] ts) :
      Derivable language p ts := derivable_base (q := ⟨none, _⟩) (by simp [hp]) h
  obtain ⟨us, vs, _, _, rfl, -, hmany, hend⟩ := h
  have hend := derivableItems_mark (holdsAll_singleton.1 hend)
  induction hmany with
  | done => exact hlast hend
  | more hone _ ih =>
    obtain ⟨_, hone, -⟩ := hone
    have hrest := derivableItems_singleton ih
    rw [List.append_assoc]
    exact hmore (derivableItems_append (derivableItems_singleton hone) hrest)

/-- A phrase is read where what it stands for is. -/
theorem derivable_of_forms {p : Phrase} {form : List Pattern} (hf : form ∈ p.forms)
    (h : HoldsAll IsRead form ts kids) : Derivable language p ts := by
  have hrule {n : Nonterminal} (h : HoldsAll IsRead [rule n] ts kids) :
      ∃ tree, IsRead n ts tree := by
    obtain ⟨tree, h, -⟩ := holdsAll_singleton.1 h
    exact ⟨tree, h⟩
  have hexp {ts : List Token} {kids : List Tree} (h : Holds IsRead (rule .exp) ts kids) :
      DerivableItems language [.part exp] ts :=
    have ⟨_, h, _⟩ := h
    derivableItems_singleton h
  cases p with
  | arguments | elements =>
    obtain rfl := List.mem_singleton.1 hf
    exact derivable_listed rfl hexp h
  | entries =>
    obtain rfl := List.mem_singleton.1 hf
    refine derivable_listed rfl (fun h => ?_) h
    obtain ⟨_, h, -⟩ := h
    exact derivableItems_singleton h
  | names =>
    obtain rfl := List.mem_singleton.1 hf
    refine derivable_listed rfl (fun h => ?_) h
    obtain ⟨t, ht, rfl, -⟩ := h
    exact derivableItems_keep.2 ⟨t, [], rfl, ht, derivableItems_nil.2 rfl⟩
  | body | rest =>
    obtain rfl := List.mem_singleton.1 hf
    exact derivable_statements rfl h
  | alternative =>
    simp only [forms, List.mem_cons, List.not_mem_nil, or_false] at hf
    rcases hf with rfl | rfl
    · obtain ⟨_, h⟩ := hrule h
      exact derivable_base List.mem_cons_self (derivableItems_singleton h)
    · obtain ⟨_, h⟩ := hrule h
      exact derivable_base (List.mem_cons_of_mem _ List.mem_cons_self) (derivableItems_singleton h)
  | program =>
    obtain rfl := List.mem_singleton.1 hf
    obtain ⟨us, vs, _, _, rfl, -, ⟨_, hstart, -⟩, hend⟩ := h
    obtain ⟨e, he, rfl, -⟩ := holdsAll_singleton.1 hend
    exact hstart e he
  | _ =>
    obtain rfl := List.mem_singleton.1 hf
    obtain ⟨_, h⟩ := hrule h
    exact h

theorem derivableItems_of_forms {is : List (Item Phrase)} {form : List Pattern}
    (hf : form ∈ itemForms is) (h : HoldsAll IsRead form ts kids) :
    DerivableItems language is ts := by
  induction is generalizing form ts kids with
  | nil =>
    obtain rfl := List.mem_singleton.1 hf
    exact derivableItems_nil.2 h.1
  | cons i is ih =>
    cases i with
    | keep kind =>
      obtain ⟨form, hform, rfl⟩ := List.mem_map.1 hf
      obtain ⟨_, us, _, _, rfl, -, ⟨t, ht, rfl, -⟩, h⟩ := h
      exact derivableItems_keep.2 ⟨t, us, rfl, ht, ih hform h⟩
    | drop kind =>
      obtain ⟨form, hform, rfl⟩ := List.mem_map.1 hf
      obtain ⟨_, us, _, _, rfl, -, ⟨t, ht, rfl, -⟩, h⟩ := h
      exact derivableItems_drop.2 ⟨t, us, rfl, ht, ih hform h⟩
    | part p =>
      obtain ⟨first, hfirst, hf⟩ := List.mem_flatMap.1 hf
      obtain ⟨form, hform, rfl⟩ := List.mem_map.1 hf
      obtain ⟨us, vs, _, _, rfl, -, hp, h⟩ := holdsAll_append.1 h
      exact derivableItems_part.2 ⟨us, vs, rfl, derivable_of_forms hfirst hp, ih hform h⟩

/-- What the language reads is closed under the rules. -/
theorem closed_isRead : Closed IsRead := by
  intro n a ha ts kids h
  obtain ⟨form, hform, h⟩ := holds_iff_expansions.1 h
  by_cases hn : n = .start
  · subst hn
    obtain rfl := List.mem_singleton.1 ha
    obtain rfl := List.mem_singleton.1 hform
    intro e he
    have hend : Holds IsRead (mark .endOfText) [e] [] := ⟨e, he, rfl, rfl⟩
    have hbody := holdsAll_append.2 ⟨ts, [e], kids, [], rfl, rfl, h, holdsAll_singleton.2 hend⟩
    have hrest := derivable_of_forms (p := .rest) List.mem_cons_self hbody
    exact derivable_base List.mem_cons_self (derivableItems_singleton hrest)
  · have hread {m : Nonterminal} {ts : List Token} {tree : Tree} (hm : m ≠ .start) :
        IsRead m ts tree ↔ Derivable language m.phrase ts := by
      cases m <;> first | exact absurd rfl hm | exact Iff.rfl
    rw [hread hn]
    rcases form_cases n hn a ha form hform with ⟨q, hq, hf⟩ | ⟨q, hq, hf⟩ | ⟨m, -, hphrase, hm, rfl⟩
    · exact derivable_base hq (derivableItems_of_forms hf h)
    · obtain ⟨form, hitems, rfl⟩ := List.mem_map.1 hf
      obtain ⟨us, vs, _, _, rfl, -, ⟨_, hself, -⟩, h⟩ := h
      exact ((hread hn).1 hself).step ⟨q, hq, derivableItems_of_forms hitems h⟩
    · obtain ⟨_, h, -⟩ := holdsAll_singleton.1 h
      exact hphrase ▸ (hread hm).1 h

end Phrase

namespace Pattern

/-- The kinds of tokens that a pattern names. -/
def kinds : Pattern → List TokenKind
  | kept kind | mark kind => [kind]
  | seq p q | either p q => p.kinds ++ q.kinds
  | optional p | many p => p.kinds
  | nothing | rule _ => []

/-- A kind that a pattern does not name is in none of its texts. -/
theorem kind_of_holds {p : Pattern} {k : TokenKind} (hk : k ∉ p.kinds)
    (h : Holds (fun _ ts _ => ∀ t ∈ ts, t.kind ≠ k) p ts kids) : ∀ t ∈ ts, t.kind ≠ k := by
  induction p generalizing ts kids with
  | nothing => simp [h.1]
  | kept | mark =>
    obtain ⟨t, rfl, rfl, -⟩ := h
    simpa [kinds, eq_comm] using hk
  | rule =>
    obtain ⟨_, h, -⟩ := h
    exact h
  | seq p q ihp ihq =>
    obtain ⟨us, vs, _, _, rfl, -, hp, hq⟩ := h
    simp only [kinds, List.mem_append, not_or] at hk
    exact List.forall_mem_append.2 ⟨ihp hk.1 hp, ihq hk.2 hq⟩
  | either p q ihp ihq =>
    simp only [kinds, List.mem_append, not_or] at hk
    exact h.elim (ihp hk.1) (ihq hk.2)
  | optional p ih =>
    rcases h with ⟨rfl, -⟩ | h
    · simp
    · exact ih hk h
  | many p ih =>
    induction h with
    | done => simp
    | more hone _ ihs => exact List.forall_mem_append.2 ⟨ih hk hone, ihs⟩

end Pattern

/-- The rules know nothing of the end of a text. -/
theorem Derivation.kind_ne_endOfText {n : Nonterminal} (d : Derivation n) :
    ∀ t ∈ d.yield, t.kind ≠ .endOfText := by
  have hkinds : ∀ n : Nonterminal, ∀ a ∈ n.alternatives, .endOfText ∉ a.pattern.kinds := by
    intro n
    cases n <;> decide
  exact d.makes fun n a ha _ _ h => kind_of_holds (hkinds n a ha) h

/-- The texts of a program are those that the rules derive, with the end of the text. -/
theorem derivable_program_iff : language.Derivable .program ts ↔
    ∃ (d : Derivation .start) (e : Token), e.kind = .endOfText ∧ ts = d.yield ++ [e] := by
  constructor
  · rintro ⟨trees, h⟩
    obtain ⟨d, e, he, hts, -⟩ := Phrase.exists_derivation h
    exact ⟨d, e, he, hts⟩
  · rintro ⟨d, e, he, rfl⟩
    exact d.makes Phrase.closed_isRead e he

end Terse
