/-! Variables and functions that names resolve to. -/
namespace Terse

/-- What tells symbols apart. Two symbols with the same name and number are still two if they were
declared apart. -/
inductive Origin where
  | library
  | declared (serial : Nat)
deriving DecidableEq, Repr

inductive SymbolKind where
  | var (readonly : Bool)
  | fn (arity : Nat) (intrinsic : Bool)
deriving DecidableEq, Repr

structure Symbol where
  name : String
  /-- Numbers count from one in order of declaration; the library has zero. -/
  uid : Nat
  kind : SymbolKind
  origin : Origin
deriving DecidableEq, Repr

namespace Symbol

def isFunction (s : Symbol) : Bool := match s.kind with
  | .fn .. => true
  | .var _ => false

/-- A variable that may be assigned to. -/
def isWritable (s : Symbol) : Bool := match s.kind with
  | .var readonly => !readonly
  | .fn .. => false

/-- Symbols that stand for something of the target language. -/
def isIntrinsic (s : Symbol) : Bool := match s.kind with
  | .var readonly => readonly
  | .fn _ intrinsic => intrinsic

def className (s : Symbol) : String := if s.isFunction then "Function" else "Variable"

/-- A symbol on one line: `Variable(x#1)`, `Function(g/2#4)`. -/
def brief (s : Symbol) : String := match s.kind with
  | .var _ => s!"Variable({s.name}#{s.uid})"
  | .fn arity _ => s!"Function({s.name}/{arity}#{s.uid})"

def libraryFunction (name : String) (arity : Nat) : Symbol := ⟨name, 0, .fn arity true, .library⟩

/-- Prints its argument; a call of it that stands alone is a print statement. -/
def log : Symbol := libraryFunction "log" 1

/-- What every program can use without declaring it. -/
def library : List Symbol := [
  ⟨"pi", 0, .var true, .library⟩,
  libraryFunction "sin" 1, libraryFunction "cos" 1, libraryFunction "exp" 1,
  libraryFunction "ln" 1, libraryFunction "hypot" 2, log]

end Symbol

end Terse
