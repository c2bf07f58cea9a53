import Terse.Outline

/-! The graph of a node in the DOT language. -/
namespace Terse

/-- A statement of a graph: a vertex with its label, or a labelled edge. -/
inductive GraphLine where
  | vertex (id : Nat) (label : String)
  | edge (source target : Nat) (label : String)
deriving DecidableEq, Repr

namespace GraphLine

def escape (s : String) : String := String.ofList (s.toList.flatMap fun
  | '"' => ['\\', '"']
  | '\\' => ['\\', '\\']
  | '\n' => ['\\', 'n']
  | c => [c])

def render : GraphLine → String
  | vertex id label => s!"n{id} [label=\"" ++ escape label ++ "\"];"
  | edge source target label => s!"n{source} -> n{target} [label=\"" ++ escape label ++ "\"];"

end GraphLine

namespace Outline

mutual

/-- The vertex of an outline with all below it, and the next free number. Vertices are numbered as
they are met, and the edge to a child follows all that is below the child. -/
def draw : Outline → (id : Nat) → List GraphLine × Nat
  | entry _ label parts, id =>
    let (lines, next) := drawParts id parts (id + 1)
    (.vertex id label :: lines, next)
  | list _, id => ([.vertex id "list"], id + 1)
  | foreign c, id => ([.vertex id c], id + 1)
termination_by structural o => o

/-- A part that is a list has an edge to each item; a part of an unknown class has none. -/
def drawParts (parent : Nat) : List Part → (next : Nat) → List GraphLine × Nat
  | [], next => ([], next)
  | .mk field value :: parts, next =>
    let (lines, after) := match value with
      | list items => drawItems parent field items next
      | foreign _ => ([], next)
      | value =>
        let (lines, after) := draw value next
        (lines ++ [.edge parent next field], after)
    let (more, after) := drawParts parent parts after
    (lines ++ more, after)
termination_by structural ps => ps

def drawItems (parent : Nat) (field : String) : List Outline → (next : Nat) → List GraphLine × Nat
  | [], next => ([], next)
  | o :: os, next =>
    let (lines, after) := draw o next
    let (more, after) := drawItems parent field os after
    (lines ++ .edge parent next field :: more, after)
termination_by structural os => os

end

end Outline

namespace Node

/-- The graph of a node. A list as a whole is one vertex. -/
def graph (n : Node) : String :=
  "\n".intercalate <|
    ["digraph AST \x7b", "node [shape=box, fontsize=10];"] ++
      (n.outline.draw 0).1.map GraphLine.render ++ ["\x7d"]

end Node

end Terse
