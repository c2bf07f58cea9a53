/-! Places in a source text. -/
namespace Terse

/-- A line and a column, both from one. Columns count characters, and only a line feed ends a
line. -/
structure Loc where
  line : Nat
  col : Nat
deriving DecidableEq, Repr

namespace Loc

def start : Loc := ⟨1, 1⟩

/-- The place after a character. -/
def next (l : Loc) (c : Char) : Loc := if c = '\n' then ⟨l.line + 1, 1⟩ else ⟨l.line, l.col + 1⟩

def advance (l : Loc) (cs : List Char) : Loc := cs.foldl next l

def text (l : Loc) : String := s!"[{l.line}:{l.col}]"

end Loc

end Terse
