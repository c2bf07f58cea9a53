import Terse.Proofs.Analysis.Formed
import Terse.Proofs.Node.Within

/-! When a second simplification changes nothing. -/
namespace Terse.Node

/-- No number literal stands under a minus sign. -/
def Settled (ns : List Node) : Prop := ∀ m ∈ ns, m.isNegated = false

variable {ms ns : List Node}

theorem settled_append : Settled (ns ++ ms) ↔ Settled ns ∧ Settled ms := List.forall_mem_append

theorem Settled.tail {n : Node} (h : Settled (n :: ns)) : Settled ns := (List.forall_mem_cons.1 h).2

/-- A node that simplification leaves as it is, unless it holds a negated number. -/
def Fixed (n : Node) : Prop := Settled (within n) → n.simplify = n

theorem fixed_ofConstant (c : Constant) : Fixed (ofConstant c) := by
  intro _
  cases c <;> rfl

theorem simplifyUnary_neg {e : Node} (h : isNegated (unary .neg e) = false) :
    simplifyUnary .neg e = unary .neg e := by
  unfold simplifyUnary
  split <;> simp_all [isNegated]

theorem fixed_simplifyBinary {op : BinOp} {left right : Node} (hl : Fixed left) (hr : Fixed right) :
    Fixed (simplifyBinary op left right) := by
  obtain ⟨c, h⟩ | h | h | ⟨_, h⟩ | ⟨hf, hi, h⟩ := simplifyBinary_cases op left right <;> rw [h]
  · exact fixed_ofConstant c
  · exact hl
  · exact hr
  · -- the one rule that builds a node and does not simplify it again
    intro hs
    rw [Node.simplify, hr hs.tail, simplifyUnary_neg (hs _ List.mem_cons_self)]
  · intro hs
    obtain ⟨hsl, hsr⟩ := settled_append.1 hs.tail
    rw [Node.simplify, hl hsl, hr hsr, h]

theorem fixed_simplifyUnary {op : UnOp} {operand : Node} (h : Fixed operand) :
    Fixed (simplifyUnary op operand) := by
  obtain ⟨c, hc⟩ | hu := simplifyUnary_cases op operand
  · rw [hc]
    exact fixed_ofConstant c
  · rw [hu]
    intro hs
    rw [Node.simplify, h hs.tail, hu]

theorem simplifyAll_fixed {es : List Node} (h : ∀ e ∈ es, Fixed e) (hs : Settled (withinAll es)) :
    simplifyAll es = es := by
  induction es with
  | nil => rfl
  | cons e es ih =>
    obtain ⟨he, hes⟩ := List.forall_mem_cons.1 h
    obtain ⟨hse, hses⟩ := settled_append.1 hs
    rw [simplifyAll, he hse, ih hes hses]

/-- An expression is simplified once. -/
theorem ExpForm.fixed_simplify {k : ExpSort} {n : Node} (h : ExpForm k n) : Fixed n.simplify := by
  have hall {es : List Node} (h : ∀ e ∈ es, Fixed e.simplify) : ∀ e ∈ simplifyAll es, Fixed e := by
    rw [simplifyAll_eq]
    exact List.forall_mem_map.2 h
  induction h with
  | number | string | boolean | symbol => exact fun _ => rfl
  | conditional _ _ _ ht hy hn =>
    simp only [Node.simplify]
    split
    · exact hy
    · exact hn
    · rename_i hnt hnf
      intro hs
      obtain ⟨hs, hsn⟩ := settled_append.1 hs.tail
      obtain ⟨hst, hsy⟩ := settled_append.1 hs
      rw [Node.simplify, ht hst, hy hsy, hn hsn]
      split
      · exact absurd ‹_› hnt
      · exact absurd ‹_› hnf
      · rfl
  | binary _ _ hl hr => exact fixed_simplifyBinary hl hr
  | unary _ he => exact fixed_simplifyUnary he
  | array _ hes =>
    intro hs
    rw [Node.simplify, Node.simplify, simplifyAll_fixed (hall hes) hs.tail]
  | dict _ hes =>
    intro hs
    rw [Node.simplify, Node.simplify, simplifyAll_fixed (hall hes) hs.tail]
  | dictItem _ he =>
    intro hs
    rw [Node.simplify, Node.simplify, he hs.tail]
  | member _ he =>
    intro hs
    rw [Node.simplify, Node.simplify, he hs.tail]
  | subscript _ _ hc hi =>
    intro hs
    obtain ⟨hsc, hsi⟩ := settled_append.1 hs.tail
    rw [Node.simplify, Node.simplify, hc hsc, hi hsi]
  | call _ hes =>
    intro hs
    rw [Node.simplify, Node.simplify, simplifyAll_fixed (hall hes) (settled_append.1 hs.tail).2]

/-- The same for statements. -/
def FixedBlock (ss : List Node) : Prop := Settled (withinAll ss) → simplifyBlock ss = ss

theorem fixedBlock_nil : FixedBlock [] := fun _ => rfl

theorem fixedBlock_singleton {s : Node} (h : Settled (within s) → s.simplify.items = [s]) :
    FixedBlock [s] := by
  intro hs
  rw [simplifyBlock, simplifyBlock, List.append_nil]
  exact h (settled_append.1 hs).1

/-- A block is fixed if what its statements become is. -/
theorem fixedBlock_simplifyBlock {ss : List Node} (h : ∀ s ∈ ss, FixedBlock s.simplify.items) :
    FixedBlock (simplifyBlock ss) := by
  intro hs
  induction ss with
  | nil => rfl
  | cons s ss ih =>
    obtain ⟨hs₁, hss⟩ := List.forall_mem_cons.1 h
    rw [simplifyBlock, withinAll_append] at hs
    obtain ⟨hse, hses⟩ := settled_append.1 hs
    rw [simplifyBlock, simplifyBlock_eq, List.flatMap_append, ← simplifyBlock_eq,
      ← simplifyBlock_eq, hs₁ hse, ih hss hses]

/-- The same for what follows a test that fails. -/
structure FixedAlternative (no : Node) : Prop where
  linked_eq : Settled (within no) → linked no no.simplify = no
  items : FixedBlock no.items

theorem fixedAlternative_list {ss : List Node} (h : FixedBlock ss) :
    FixedAlternative (list ss) where
  linked_eq hs := congrArg list (h hs)
  items := h

theorem fixedAlternative_choice {n : Node} (hc : n.isChoice) (h : FixedBlock n.simplify.items) :
    FixedAlternative (linked n n.simplify) := by
  obtain ⟨m, hm, hmc, he⟩ | he := linked_statement (isStatement_of_isChoice hc)
  · rw [he]
    have hitems : m.items = [m] := by cases m <;> simp_all [isChoice, Node.items]
    rw [hm] at h
    -- the choice that is left becomes a block of itself alone, which is linked again
    refine ⟨fun hs => ?_, hitems ▸ h⟩
    have hfixed := h (settled_append.2 ⟨hs, fun m hm => absurd hm List.not_mem_nil⟩)
    rw [simplifyBlock, simplifyBlock, List.append_nil] at hfixed
    rw [simplify_statement (isStatement_of_isChoice hmc), hfixed]
    cases m <;> simp_all [isChoice, linked, chained]
  · rw [he]
    exact fixedAlternative_list h

/-- What is left of a choice is fixed if its parts are. -/
theorem fixedBlock_chosen {test no : Node} {yes : List Node} (ht : Fixed test)
    (hy : FixedBlock yes) (hn : FixedAlternative no) : FixedBlock (chosen test yes no).items := by
  by_cases hb : ∃ b, test = boolean b
  · obtain ⟨b, rfl⟩ := hb
    cases b
    · exact hn.items
    · exact hy
  · have hchosen : chosen test yes no = list [ifElse test yes no] := by
      unfold chosen
      split
      · exact absurd ⟨_, rfl⟩ hb
      · exact absurd ⟨_, rfl⟩ hb
      · rfl
    rw [hchosen]
    refine fixedBlock_singleton fun hs => ?_
    obtain ⟨hs, hsn⟩ := settled_append.1 hs.tail
    obtain ⟨hst, hsy⟩ := settled_append.1 hs
    rw [Node.simplify, ht hst, hy hsy, hn.linked_eq hsn, hchosen]
    rfl

/-- A statement is simplified once. -/
theorem StmtForm.fixed_simplify {s : Node} (h : StmtForm s) : FixedBlock s.simplify.items := by
  induction h with
  | declare he =>
    refine fixedBlock_singleton fun hs => ?_
    rw [Node.simplify, he.fixed_simplify (settled_append.1 hs.tail).2]
    rfl
  | assign ht he =>
    simp only [Node.simplify]
    split
    · exact fixedBlock_nil
    · rename_i hne
      refine fixedBlock_singleton fun hs => ?_
      obtain ⟨hst, hse⟩ := settled_append.1 hs.tail
      simp only [Node.simplify, ht.fixed_simplify hst, he.fixed_simplify hse, hne]
      rfl
  | print he | returnValue he | throwValue he | callAlone he =>
    refine fixedBlock_singleton fun hs => ?_
    rw [Node.simplify, he.fixed_simplify hs.tail]
    rfl
  | ifElse ht _ _ hy hn =>
    exact fixedBlock_chosen ht.fixed_simplify (fixedBlock_simplifyBlock hy)
      (fixedAlternative_list (fixedBlock_simplifyBlock hn))
  | ifChain ht _ hc _ hy hn =>
    exact fixedBlock_chosen ht.fixed_simplify (fixedBlock_simplifyBlock hy)
      (fixedAlternative_choice hc hn)
  | ifOnly ht _ hy =>
    simp only [Node.simplify]
    split
    · exact fixedBlock_simplifyBlock hy
    · exact fixedBlock_nil
    · rename_i hnt hnf
      refine fixedBlock_singleton fun hs => ?_
      obtain ⟨hst, hsy⟩ := settled_append.1 hs.tail
      rw [Node.simplify, ht.fixed_simplify hst, fixedBlock_simplifyBlock hy hsy]
      split
      · exact absurd ‹_› hnt
      · exact absurd ‹_› hnf
      · rfl
  | whileLoop ht _ hb =>
    simp only [Node.simplify]
    split
    · exact fixedBlock_nil
    · rename_i hnf
      refine fixedBlock_singleton fun hs => ?_
      obtain ⟨hst, hsb⟩ := settled_append.1 hs.tail
      rw [Node.simplify, ht.fixed_simplify hst, fixedBlock_simplifyBlock hb hsb]
      split
      · exact absurd ‹_› hnf
      · rfl
  | repeatLoop hc _ hb =>
    simp only [Node.simplify]
    split
    · exact fixedBlock_nil
    · rename_i hn
      refine fixedBlock_singleton fun hs => ?_
      obtain ⟨hsc, hsb⟩ := settled_append.1 hs.tail
      simp only [Node.simplify, hc.fixed_simplify hsc, fixedBlock_simplifyBlock hb hsb, hn]
      rfl
  | rangeLoop hl hh hs _ hb =>
    simp only [Node.simplify]
    split
    · exact fixedBlock_nil
    · rename_i hn
      refine fixedBlock_singleton fun hset => ?_
      obtain ⟨hset, hsb⟩ := settled_append.1 hset.tail
      obtain ⟨hset, hss⟩ := settled_append.1 hset
      obtain ⟨hset, hsh⟩ := settled_append.1 hset
      obtain ⟨-, hsl⟩ := settled_append.1 hset
      simp only [Node.simplify, hl.fixed_simplify hsl, hh.fixed_simplify hsh, hs.fixed_simplify hss,
        fixedBlock_simplifyBlock hb hsb, hn]
      rfl
  | eachLoop hc _ hb =>
    simp only [Node.simplify]
    split
    · exact fixedBlock_nil
    · rename_i hn
      refine fixedBlock_singleton fun hs => ?_
      obtain ⟨hs, hsb⟩ := settled_append.1 hs.tail
      obtain ⟨-, hsc⟩ := settled_append.1 hs
      simp only [Node.simplify, hc.fixed_simplify hsc, fixedBlock_simplifyBlock hb hsb, hn]
      rfl
  | breakLoop | continueLoop | returnNone => exact fun _ => rfl
  | tryCatch _ _ hb hh =>
    refine fixedBlock_singleton fun hs => ?_
    obtain ⟨hs, hsh⟩ := settled_append.1 hs.tail
    obtain ⟨hsb, -⟩ := settled_append.1 hs
    rw [Node.simplify, fixedBlock_simplifyBlock hb hsb, fixedBlock_simplifyBlock hh hsh]
    rfl
  | function _ hb =>
    refine fixedBlock_singleton fun hs => ?_
    rw [Node.simplify, fixedBlock_simplifyBlock hb (settled_append.1 hs.tail).2]
    rfl
  | incr he =>
    refine fixedBlock_singleton fun hs => ?_
    rw [(ExpForm.unary he).fixed_simplify hs]
    rfl
  | decr he =>
    refine fixedBlock_singleton fun hs => ?_
    rw [(ExpForm.unary he).fixed_simplify hs]
    rfl

/-- Whatever can be simplified is simplified once, negated numbers apart. -/
theorem WellFormed.fixed_simplify {n : Node} (h : WellFormed n) : Fixed n.simplify := by
  cases h with
  | exp h => exact h.fixed_simplify
  | stmt h =>
    obtain hs | he := h.isStatement_or_expForm
    · rw [simplify_statement hs]
      exact fun hset => congrArg list (h.fixed_simplify hset)
    · exact he.fixed_simplify
  | block h =>
    have hblock := fixedBlock_simplifyBlock fun s hs => (h s hs).fixed_simplify
    exact fun hset => congrArg list (hblock hset)
  | program h =>
    have hblock := fixedBlock_simplifyBlock fun s hs => (h s hs).fixed_simplify
    exact fun hset => congrArg Node.program (hblock hset.tail)

/-- What simplification leaves as it is holds no negated number: it would lose a node. -/
theorem WellFormed.settled {n : Node} (h : WellFormed n) (hn : n.simplify = n) :
    Settled (within n) := by
  have hfewer := h.shrinks shrinks_fewer
  rw [hn, Fewer] at hfewer
  have hall := List.countP_eq_length.1 (Nat.le_antisymm List.countP_le_length hfewer)
  exact fun m hm => by simpa using hall m hm

/-- A second simplification changes nothing exactly if no negated number is left. -/
theorem WellFormed.simplify_twice_iff {n : Node} (h : WellFormed n) :
    n.simplify.simplify = n.simplify ↔ Settled (within n.simplify) :=
  ⟨h.simplify.settled, h.fixed_simplify⟩

theorem simplifyBlock_twice_iff {ss : List Node} (hs : ∀ s ∈ ss, IsStmt s) :
    simplifyBlock (simplifyBlock ss) = simplifyBlock ss ↔
      Settled (withinAll (simplifyBlock ss)) := by
  have hblock : WellFormed (list ss) := .block fun s hss => (hs s hss).form
  rw [← list.injEq]
  exact hblock.simplify_twice_iff

theorem within_program (ss : List Node) : (program ss).within = program ss :: withinAll ss := rfl

/-- Simplifying a program twice is the same as once, unless a number literal is left under a minus
sign: a literal that is too large to be folded and is taken from zero. -/
theorem optimize_twice_iff {source : String} {tree : Tree} {ss : List Node}
    (hp : parse source = .ok tree) (ha : analyze tree = .ok ss) :
    ∃ ss', (program ss).optimize = .ok (program ss') ∧
      ((program ss').optimize = .ok (program ss') ↔
        ∀ n ∈ (program ss').within, n.isNegated = false) := by
  have hs := isStmt_of_analyze hp ha
  refine ⟨simplifyBlock ss, optimize_program hs, ?_⟩
  rw [optimize_program (isStmt_simplified hs), Except.ok.injEq, program.injEq,
    simplifyBlock_twice_iff hs, within_program, List.forall_mem_cons]
  exact (and_iff_right rfl).symm

/-- A program in which choices and loops dissolve and a variable is taken from zero. -/
theorem optimize_twice_iff_dissolving :
    ∃ tree ss ss',
      parse "x = + 1 2 ? 1 == 1: x = - 0 x w 2 < 1: log(x);; ! : log(- 0 7);" = .ok tree ∧
      analyze tree = .ok ss ∧ (program ss).optimize = .ok (program ss') ∧
      ((program ss').optimize = .ok (program ss') ↔
        ∀ n ∈ (program ss').within, n.isNegated = false) := by
  obtain ⟨tree, ss, hp, ha, -⟩ := exists_of_resolvesTo
    (show resolvesTo "x = + 1 2 ? 1 == 1: x = - 0 x w 2 < 1: log(x);; ! : log(- 0 7);"
      (fun ss => (withinAll (simplifyBlock ss)).all (!isNegated ·)) from by decide +kernel)
  obtain ⟨ss', h⟩ := optimize_twice_iff hp ha
  exact ⟨tree, ss, ss', hp, ha, h⟩

/-- A literal past all doubles is negated only the second time. -/
theorem optimize_twice_ne_once :
    ∃ tree ss ss', parse "x = - 0 1e400" = .ok tree ∧ analyze tree = .ok ss ∧
      (program ss).optimize = .ok (program ss') ∧ (program ss').optimize ≠ .ok (program ss') := by
  obtain ⟨tree, ss, hp, ha, hany⟩ := exists_of_resolvesTo
    (show resolvesTo "x = - 0 1e400"
      (fun ss => (withinAll (simplifyBlock ss)).any isNegated) from by decide +kernel)
  have hs := isStmt_of_analyze hp ha
  refine ⟨tree, ss, simplifyBlock ss, hp, ha, optimize_program hs, ?_⟩
  rw [optimize_program (isStmt_simplified hs), ne_eq, Except.ok.injEq, program.injEq,
    simplifyBlock_twice_iff hs]
  obtain ⟨n, hn, hneg⟩ := List.any_eq_true.1 hany
  exact fun hsettled => absurd hneg (Bool.eq_false_iff.1 (hsettled n hn))

end Terse.Node
