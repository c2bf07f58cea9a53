import Terse.Proofs.Node.Within

/-! What a program can be seen to do, node by node, and that simplification only removes from it. -/
namespace Terse

/-- What there is to see of a node. -/
inductive Head where
  | declaration (s : Symbol)
  | assignment
  | printing
  | throwing
  | returning
  | breaking
  | continuing
  | call (callee : Symbol)
  | increment
  | decrement
  | reference (s : Symbol)
deriving DecidableEq, Repr

namespace Node

/-- The variables of loops are declared by the loop. -/
def head? : Node → Option Head
  | declare v _ | rangeLoop v _ _ _ _ | eachLoop v _ _ | function v _ _ =>
    v.symbol?.map .declaration
  | assign .. => some .assignment
  | print _ => some .printing
  | throwValue _ => some .throwing
  | returnValue _ | returnNone => some .returning
  | breakLoop => some .breaking
  | continueLoop => some .continuing
  | call f _ => f.symbol?.map .call
  | unary .incr _ => some .increment
  | unary .decr _ => some .decrement
  | symbol s => some (.reference s)
  | _ => none

/-- All there is to see of a node and the nodes in it, in the order of a traversal. -/
def observed (n : Node) : List Head := n.within.filterMap head?

theorem head?_shell (n : Node) : n.shell.head? = n.head? := by
  cases n with
  | unary op => cases op <;> rfl
  | _ => rfl

theorem head?_ofConstant (c : Constant) : (ofConstant c).head? = none := by
  cases c <;> rfl

/-- What is seen of `ms` is seen of `ns`, in the same order. -/
def Echoes (ms ns : List Node) : Prop := (ms.filterMap head?).Sublist (ns.filterMap head?)

theorem echoes_of_none {m : Node} (ns : List Node) (hm : m.head? = none) : Echoes [m] ns := by
  rw [Echoes, List.filterMap_cons_none hm]
  exact List.nil_sublist _

/-- What is observed of a result is observed of its source, in the same order. -/
theorem shrinks_echoes : Shrinks Echoes where
  nil := .refl _
  append h h' := by
    rw [Echoes, List.filterMap_append, List.filterMap_append]
    exact h.append h'
  weaken h hs := h.trans (hs.filterMap head?)
  node {m n} _ hshell := by
    have hhead : m.head? = n.head? := by rw [← head?_shell m, hshell, head?_shell]
    simp [Echoes, List.filterMap_cons, hhead]
  constant c _ := echoes_of_none _ (head?_ofConstant c)
  negation _ _ _ := echoes_of_none _ rfl

/-- Simplification removes only: what is seen of the result is seen of its source in the same order,
and the nodes get no more. -/
theorem observed_optimize {n : Node} (h : WellFormed n) :
    ∃ n', n.optimize = .ok n' ∧ n'.observed.Sublist n.observed ∧
      n'.within.length ≤ n.within.length :=
  ⟨n.simplify, h.optimize_eq, h.shrinks shrinks_echoes,
    Nat.le_trans (h.shrinks shrinks_fewer) List.countP_le_length⟩

/-- A loop that never runs between a declaration and a print. -/
def idleLoop (x : Symbol) : Node :=
  program [declare (symbol x) one, whileLoop (binary .lt one zero) [unary .incr (symbol x)],
    print (binary .sub zero (symbol x))]

theorem observed_optimize_idleLoop :
    ∃ x : Symbol, WellFormed (idleLoop x) ∧
      (idleLoop x).observed = [.declaration x, .reference x, .increment, .reference x, .printing,
        .reference x] ∧
      ∃ n', (idleLoop x).optimize = .ok n' ∧ n'.observed.Sublist (idleLoop x).observed ∧
        n'.within.length ≤ (idleLoop x).within.length := by
  let x : Symbol := ⟨"x", 1, .var false, .declared 1⟩
  have hx : ExpForm .value (symbol x) := .symbol x
  have hnumber (a : Number) : ExpForm .value (number a) := .number a
  have h : WellFormed (idleLoop x) := by
    refine .program ?_
    simp only [List.forall_mem_cons, List.not_mem_nil, false_imp_iff, implies_true, and_true]
    refine ⟨.declare (hnumber _), ?_, .print (.binary (hnumber _) hx)⟩
    exact .whileLoop (.binary (hnumber _) (hnumber _)) (List.forall_mem_singleton.2 (.incr hx))
  exact ⟨x, h, rfl, observed_optimize h⟩

end Node

end Terse
