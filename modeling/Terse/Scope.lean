import Terse.CompileError
import Terse.Symbol

/-! Lexical scopes. -/
namespace Terse

/-- One scope: what it declares, in order, and what it stands in. -/
structure Frame where
  locals : List (String × Symbol)
  inLoop : Bool
  function : Option Symbol
deriving DecidableEq, Repr

namespace Frame

def empty : Frame := ⟨[], false, none⟩

/-- The outermost scope of a program declares the library. -/
def root : Frame := ⟨Symbol.library.map fun s => (s.name, s), false, none⟩

def lookup (f : Frame) (name : String) : Option Symbol := f.locals.lookup name

/-- A name may be declared once in a scope. -/
def declare (f : Frame) (s : Symbol) (loc : Option Loc) : Except CompileError Frame :=
  match f.lookup s.name with
  | some _ => .error ⟨.duplicate s.name, loc⟩
  | none => .ok { f with locals := f.locals ++ [(s.name, s)] }

/-- An inner scope stands in the same loop and function, unless told otherwise. -/
def child (f : Frame) (inLoop : Option Bool) (function : Option Symbol) : Frame :=
  ⟨[], inLoop.getD f.inLoop, function.orElse fun _ => f.function⟩

/-- The body of a function is in no loop. -/
def functionChild (function : Symbol) : Frame := ⟨[], false, some function⟩

end Frame

/-- A scope within its enclosing ones, innermost first. -/
abbrev Scope := List Frame

/-- The innermost declaration of a name. -/
def Scope.lookup (s : Scope) (name : String) : Option Symbol := s.findSome? (·.lookup name)

/-- Scopes that share their enclosing ones: a declaration in a scope is seen from all inside it,
also from those that were opened before. Scopes are known by the order of their opening, and a
scope is opened after the one around it. -/
structure ScopeForest where
  scopes : Array (Frame × Option Nat)

namespace ScopeForest

def empty : ScopeForest := ⟨#[]⟩

/-- Opens a scope, which gets the next number. -/
def add (F : ScopeForest) (frame : Frame) (parent : Option Nat) : ScopeForest :=
  ⟨F.scopes.push (frame, parent)⟩

def frame? (F : ScopeForest) (i : Nat) : Option Frame := (F.scopes[i]?).map (·.1)

def parent? (F : ScopeForest) (i : Nat) : Option Nat := (F.scopes[i]?).bind (·.2)

/-- A scope with all that enclose it. -/
def scope (F : ScopeForest) (i : Nat) : Scope :=
  match F.scopes[i]? with
  | none => []
  | some (f, none) => [f]
  | some (f, some p) => if p < i then f :: F.scope p else [f]
termination_by i

def lookup (F : ScopeForest) (i : Nat) (name : String) : Option Symbol := (F.scope i).lookup name

def lookupHere (F : ScopeForest) (i : Nat) (name : String) : Option Symbol :=
  (F.frame? i).bind (·.lookup name)

/-- Opens a scope inside another. -/
def child (F : ScopeForest) (i : Nat) (inLoop : Option Bool) (function : Option Symbol) :
    ScopeForest :=
  F.add (((F.frame? i).getD .empty).child inLoop function) (some i)

def functionChild (F : ScopeForest) (i : Nat) (function : Symbol) : ScopeForest :=
  F.add (.functionChild function) (some i)

def declare (F : ScopeForest) (i : Nat) (s : Symbol) (loc : Option Loc) :
    Except CompileError ScopeForest :=
  match F.scopes[i]? with
  | none => .ok F
  | some (f, p) => do
    let f ← f.declare s loc
    return ⟨F.scopes.setIfInBounds i (f, p)⟩

end ScopeForest

end Terse
