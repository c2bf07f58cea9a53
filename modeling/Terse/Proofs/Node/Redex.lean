import Terse.Proofs.Node.Formed
import Terse.Proofs.Number.Fold

/-! What can be simplified where it stands, said rule by rule, and that these are the rules of
operators. -/
namespace Terse

/-- The truth values that make an operation needless, on either side. -/
def BinOp.idleTruth : BinOp → List Bool
  | .and => [true]
  | .or => [false]
  | _ => []

namespace Node

/-- A node that simplification does not leave as it is, whatever its parts. A negated number is
none. -/
inductive IsRedex : Node → Prop
  | fold {op : BinOp} {a b : Number} {c : Constant} :
      fold? op a b = some c → IsRedex (binary op (number a) (number b))
  | idleLeft {op : BinOp} {a : Number} {v : Int} {right : Node} :
      v ∈ op.idleLeft → a.isValue v → IsRedex (binary op (number a) right)
  | idleRight {op : BinOp} {left : Node} {a : Number} {v : Int} :
      v ∈ op.idleRight → a.isValue v → IsRedex (binary op left (number a))
  | truthLeft {op : BinOp} {b : Bool} {right : Node} :
      b ∈ op.idleTruth → IsRedex (binary op (boolean b) right)
  | truthRight {op : BinOp} {left : Node} {b : Bool} :
      b ∈ op.idleTruth → IsRedex (binary op left (boolean b))
  | not (b : Bool) : IsRedex (unary .not (boolean b))
  | length (t : Text) : IsRedex (unary .length (string t))
  | conditional (b : Bool) (yes no : Node) : IsRedex (conditional (boolean b) yes no)
  | ifElse (b : Bool) (yes : List Node) (no : Node) : IsRedex (ifElse (boolean b) yes no)
  | ifOnly (b : Bool) (yes : List Node) : IsRedex (ifOnly (boolean b) yes)
  | whileLoop (body : List Node) : IsRedex (whileLoop (boolean false) body)
  | repeatLoop {a : Number} (body : List Node) :
      a.compare? (.int 0) = some .lt ∨ a.compare? (.int 0) = some .eq →
      IsRedex (repeatLoop (number a) body)
  | rangeLoop {a b : Number} (v step : Node) (body : List Node) :
      a.compare? b = some .gt → IsRedex (rangeLoop v (number a) (number b) step body)
  | eachLoop (v : Node) (body : List Node) : IsRedex (eachLoop v (array []) body)
  | assign (s : Symbol) : IsRedex (assign (symbol s) (symbol s))

variable {op : BinOp} {l r : Node}

theorem folded?_eq_none_iff : folded? op l r = none ↔
    ∀ a b, l = number a → r = number b → fold? op a b = none := by
  unfold folded?
  split
  · rename_i a b
    rw [Option.map_eq_none_iff]
    constructor
    · rintro h a b ⟨⟩ ⟨⟩
      exact h
    · exact fun h => h a b rfl rfl
  · rename_i hne
    exact iff_of_true rfl fun a b hl hr => absurd hr (hne a b hl)

/-- The rules for a literal side, read off its operator. -/
theorem identity?_eq_none_iff : identity? op l r = none ↔
    (∀ v ∈ op.idleLeft, l.isNumber v = false) ∧ (∀ v ∈ op.idleRight, r.isNumber v = false) ∧
      ∀ b ∈ op.idleTruth, l.isBoolean b = false ∧ r.isBoolean b = false := by
  cases op <;> grind [identity?, BinOp.idleLeft, BinOp.idleRight, BinOp.idleTruth]

end Node

end Terse
