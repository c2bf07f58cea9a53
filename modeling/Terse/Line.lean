/-! Indented lines. -/
namespace Terse

/-- A line of a dump or of a program, two blanks to each level. -/
structure Line where
  depth : Nat
  text : String
deriving DecidableEq, Repr

def Line.render (l : Line) : String := "".pushn ' ' (2 * l.depth) ++ l.text

def renderLines (ls : List Line) : String := "\n".intercalate (ls.map Line.render)

end Terse
