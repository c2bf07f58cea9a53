import Terse.Line
import Terse.Outline

/-! The indented dump of a node: one line for each node, and one for each part that is a list. -/
namespace Terse

namespace Outline

/-- What stands before a node on its line. -/
def fieldMark (field : String) : String := if field = "" then "" else field ++ ": "

mutual

/-- The lines of an outline that is the part `field` of its parent, or an item if that is empty. -/
def dump (depth : Nat) (field : String) : Outline → List Line
  | entry heading _ parts => ⟨depth, fieldMark field ++ heading⟩ :: dumpParts (depth + 1) parts
  | list [] => [⟨depth, fieldMark field ++ "[]"⟩]
  | list items =>
    if field = "" then ⟨depth, "["⟩ :: dumpItems (depth + 1) items ++ [⟨depth, "]"⟩]
    else ⟨depth, field ++ ":"⟩ :: dumpItems (depth + 1) items
  | foreign c => [⟨depth, fieldMark field ++ c⟩]
termination_by structural o => o

def dumpParts (depth : Nat) : List Part → List Line
  | [] => []
  | .mk field value :: parts => dump depth field value ++ dumpParts depth parts
termination_by structural ps => ps

def dumpItems (depth : Nat) : List Outline → List Line
  | [] => []
  | o :: os => dump depth "" o ++ dumpItems depth os
termination_by structural os => os

end

mutual

/-- Whether something of an unknown class is anywhere inside. -/
def hasForeign : Outline → Bool
  | entry _ _ parts => partsForeign parts
  | list items => itemsForeign items
  | foreign _ => true
termination_by structural o => o

def partsForeign : List Part → Bool
  | [] => false
  | .mk _ value :: parts => hasForeign value || partsForeign parts
termination_by structural ps => ps

def itemsForeign : List Outline → Bool
  | [] => false
  | o :: os => hasForeign o || itemsForeign os
termination_by structural os => os

end

end Outline

namespace Node

/-- The dump of a node, unless something of an unknown class is inside. -/
def dump? (n : Node) : Option String :=
  let o := n.outline
  if o.hasForeign then none else some (renderLines (o.dump 0 ""))

end Node

/-- What is said of a node that cannot be dumped. -/
def dumpFaultMessage : String := "must be called with a dataclass type or instance"

end Terse
