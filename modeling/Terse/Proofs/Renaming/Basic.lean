import Mathlib.Logic.Equiv.Basic
import Terse.Analysis
import Terse.Proofs.Source.Names

/-! Names exchanged for other names, in trees, in scopes, in programs and in errors. -/
namespace Terse

/-- A name that can be written. -/
@[ext]
structure SourceName where
  text : String
  isName : IsName text.toList
deriving DecidableEq

/-- Another name for each name, no two alike. The library keeps its names. -/
structure Renaming where
  image : SourceName → SourceName
  injective : ∀ {x y}, image x = image y → x = y
  library : ∀ {x}, x.text ∈ Symbol.library.map (·.name) → image x = x

theorem isName_cons (c : Char) (cs : List Char) :
    IsName (c :: cs) ↔ Lexer.isLetter c ∧ cs.all Lexer.isWordChar := by
  simp [IsName]

instance : (cs : List Char) → Decidable (IsName cs)
  | [] => isFalse fun ⟨_, _, h, _⟩ => nomatch h
  | c :: cs => decidable_of_iff' _ (isName_cons c cs)

namespace Renaming

variable (g : Renaming)

/-- A text that is no name stays as it is. -/
def apply (w : String) : String := if h : IsName w.toList then (g.image ⟨w, h⟩).text else w

theorem isName_apply {w : String} : IsName (g.apply w).toList ↔ IsName w.toList := by
  unfold apply
  split
  · rename_i h
    exact iff_of_true (g.image ⟨w, h⟩).isName h
  · exact Iff.rfl

/-- No two texts are renamed to the same one. -/
theorem apply_inj {v w : String} : g.apply v = g.apply w ↔ v = w := by
  refine ⟨fun h => ?_, congrArg _⟩
  have hname : IsName v.toList ↔ IsName w.toList := by
    rw [← g.isName_apply, h, g.isName_apply]
  by_cases hv : IsName v.toList
  · have hw := hname.1 hv
    rw [apply, apply, dif_pos hv, dif_pos hw, ← SourceName.ext_iff] at h
    exact congrArg SourceName.text (g.injective h)
  · have hw := mt hname.2 hv
    rwa [apply, apply, dif_neg hv, dif_neg hw] at h

theorem apply_library {s : Symbol} (h : s ∈ Symbol.library) : g.apply s.name = s.name := by
  unfold apply
  split
  · rw [g.library (List.mem_map_of_mem h)]
  · rfl

/-- Two names change places. -/
def swap (x y : SourceName) (hx : x.text ∉ Symbol.library.map (·.name))
    (hy : y.text ∉ Symbol.library.map (·.name)) : Renaming where
  image := Equiv.swap x y
  injective h := (Equiv.swap x y).injective h
  library {z} hz := by
    refine Equiv.swap_apply_of_ne_of_ne ?_ ?_
    · rintro rfl
      exact hx hz
    · rintro rfl
      exact hy hz

end Renaming

variable (g : Renaming)

/-- Only names are renamed. -/
def Token.rename (t : Token) : Token :=
  { t with text := if t.kind = .name then g.apply t.text else t.text }

theorem Token.rename_of_ne {t : Token} (h : t.kind ≠ .name) : t.rename g = t := by
  rw [Token.rename, if_neg h]

theorem Token.rename_text {t : Token} (h : t.kind = .name) :
    (t.rename g).text = g.apply t.text := by
  rw [Token.rename, if_pos h]

namespace Tree

mutual

/-- Renames all that stands for a variable or a function. Members of objects and keys of
dictionaries are named, too, but never looked up. -/
def rename : Tree → Tree
  | token t => token (t.rename g)
  | node rule kids loc => node rule (match rule, kids with
    | .memberAssign, [name, field, exp] => [rename name, field, rename exp]
    | .member, [object, name] => [rename object, name]
    | .optionalMember, [object, name] => [rename object, name]
    | .dictItem, [key, value] => [key, rename value]
    | _, kids => renameAll kids) loc
termination_by structural t => t

def renameAll : List Tree → List Tree
  | [] => []
  | t :: ts => rename t :: renameAll ts
termination_by structural ts => ts

end

theorem exists_rename_node (rule : Rule) (kids : List Tree) (loc : Option Loc) :
    ∃ kids', (node rule kids loc).rename g = node rule kids' loc := by
  unfold rename
  exact ⟨_, rfl⟩

theorem length_renameAll (ts : List Tree) : (renameAll g ts).length = ts.length := by
  induction ts with
  | nil => rfl
  | cons t ts ih => rw [renameAll, List.length_cons, ih, List.length_cons]

end Tree

/-- The library is as it is for all programs; what a program declares, it names. -/
def Symbol.rename (s : Symbol) : Symbol :=
  { s with name := match s.origin with
      | .library => s.name
      | .declared _ => g.apply s.name }

/-- No two symbols are renamed to the same one. -/
theorem Symbol.rename_inj {s t : Symbol} : s.rename g = t.rename g ↔ s = t := by
  refine ⟨fun h => ?_, congrArg _⟩
  obtain ⟨name, uid, kind, origin⟩ := s
  obtain ⟨name', uid', kind', origin'⟩ := t
  injection h with hname huid hkind horigin
  dsimp only at huid hkind horigin
  subst huid hkind horigin
  cases origin with
  | library =>
    obtain rfl : name = name' := hname
    rfl
  | declared =>
    obtain rfl := g.apply_inj.1 hname
    rfl

namespace Node

mutual

def rename : Node → Node
  | program statements => program (renameAll statements)
  | declare v initializer => declare (rename v) (rename initializer)
  | assign target source => assign (rename target) (rename source)
  | print e => print (rename e)
  | ifElse test consequent alternate =>
    ifElse (rename test) (renameAll consequent) (rename alternate)
  | ifOnly test consequent => ifOnly (rename test) (renameAll consequent)
  | whileLoop test body => whileLoop (rename test) (renameAll body)
  | repeatLoop count body => repeatLoop (rename count) (renameAll body)
  | rangeLoop v low high step body =>
    rangeLoop (rename v) (rename low) (rename high) (rename step) (renameAll body)
  | eachLoop v collection body => eachLoop (rename v) (rename collection) (renameAll body)
  | breakLoop => breakLoop
  | continueLoop => continueLoop
  | returnValue e => returnValue (rename e)
  | returnNone => returnNone
  | throwValue e => throwValue (rename e)
  | tryCatch body params handler => tryCatch (renameAll body) (renameAll params) (renameAll handler)
  | function f params body => function (rename f) (renameAll params) (renameAll body)
  | callAlone c => callAlone (rename c)
  | conditional test yes no => conditional (rename test) (rename yes) (rename no)
  | binary op left right => binary op (rename left) (rename right)
  | unary op operand => unary op (rename operand)
  | array elements => array (renameAll elements)
  | dict items => dict (renameAll items)
  | dictItem key value => dictItem key (rename value)
  | member object access name => member (rename object) access name
  | subscript collection index => subscript (rename collection) (rename index)
  | call callee args => call (rename callee) (renameAll args)
  | number a => number a
  | string t => string t
  | boolean b => boolean b
  | symbol s => symbol (s.rename g)
  | list items => list (renameAll items)
  | foreign c => foreign c
termination_by structural n => n

def renameAll : List Node → List Node
  | [] => []
  | n :: ns => rename n :: renameAll ns
termination_by structural ns => ns

end

theorem renameAll_eq_map (ns : List Node) : renameAll g ns = ns.map (rename g) := by
  induction ns with
  | nil => rfl
  | cons n ns ih => rw [renameAll, ih, List.map_cons]

theorem length_renameAll (ns : List Node) : (renameAll g ns).length = ns.length := by
  rw [renameAll_eq_map, List.length_map]

end Node

/-- The name in the message is renamed. -/
def Cause.rename : Cause → Cause
  | duplicate name => duplicate (g.apply name)
  | undeclared name => undeclared (g.apply name)
  | notCallable name => notCallable (g.apply name)
  | notVariable name => notVariable (g.apply name)
  | c => c

def AnalysisError.rename : AnalysisError → AnalysisError
  | compile e => compile { e with cause := e.cause.rename g }
  | e => e

end Terse
