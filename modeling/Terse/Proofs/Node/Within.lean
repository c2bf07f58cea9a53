import Terse.Proofs.Node.Everywhere

/-! The nodes inside a node, and how those of a result are less than those of its source. -/
namespace Terse.Node

mutual

/-- A node and all nodes in it, each before its own parts. Lists are no nodes. -/
def within : Node → List Node
  | program ss => program ss :: withinAll ss
  | declare v e => declare v e :: (within v ++ within e)
  | assign target source => assign target source :: (within target ++ within source)
  | print e => print e :: within e
  | ifElse test yes no => ifElse test yes no :: (within test ++ withinAll yes ++ within no)
  | ifOnly test yes => ifOnly test yes :: (within test ++ withinAll yes)
  | whileLoop test body => whileLoop test body :: (within test ++ withinAll body)
  | repeatLoop count body => repeatLoop count body :: (within count ++ withinAll body)
  | rangeLoop v low high step body => rangeLoop v low high step body ::
      (within v ++ within low ++ within high ++ within step ++ withinAll body)
  | eachLoop v collection body =>
    eachLoop v collection body :: (within v ++ within collection ++ withinAll body)
  | breakLoop => [breakLoop]
  | continueLoop => [continueLoop]
  | returnValue e => returnValue e :: within e
  | returnNone => [returnNone]
  | throwValue e => throwValue e :: within e
  | tryCatch body params handler => tryCatch body params handler ::
      (withinAll body ++ withinAll params ++ withinAll handler)
  | function f params body =>
    function f params body :: (within f ++ withinAll params ++ withinAll body)
  | callAlone c => callAlone c :: within c
  | conditional test yes no => conditional test yes no :: (within test ++ within yes ++ within no)
  | binary op left right => binary op left right :: (within left ++ within right)
  | unary op operand => unary op operand :: within operand
  | array es => array es :: withinAll es
  | dict es => dict es :: withinAll es
  | dictItem key e => dictItem key e :: within e
  | member object access name => member object access name :: within object
  | subscript collection index => subscript collection index :: (within collection ++ within index)
  | call f args => call f args :: (within f ++ withinAll args)
  | number a => [number a]
  | string t => [string t]
  | boolean b => [boolean b]
  | symbol s => [symbol s]
  | list ns => withinAll ns
  | foreign c => [foreign c]
termination_by structural n => n

def withinAll : List Node → List Node
  | [] => []
  | n :: ns => within n ++ withinAll ns
termination_by structural ns => ns

end

theorem withinAll_append (ns ms : List Node) :
    withinAll (ns ++ ms) = withinAll ns ++ withinAll ms := by
  induction ns with
  | nil => rfl
  | cons n ns ih => simp only [List.cons_append, withinAll, ih, List.append_assoc]

theorem withinAll_items (n : Node) : withinAll n.items = within n := by
  cases n <;> simp [items, withinAll, within]

theorem within_ofConstant (c : Constant) : within (ofConstant c) = [ofConstant c] := by
  cases c <;> rfl

/-- Linking adds no nodes. -/
theorem within_linked (before after : Node) : within (linked before after) = within after := by
  unfold linked
  split
  · rfl
  · unfold chained
    split
    · split
      · simp [within, withinAll]
      · rfl
    · rfl

/-- A number literal under a minus sign. -/
def isNegated : Node → Bool
  | unary .neg (number _) => true
  | _ => false

theorem eq_of_isNegated {op : UnOp} {operand : Node} (h : isNegated (unary op operand)) :
    op = .neg ∧ ∃ a, operand = number a := by
  unfold isNegated at h
  split at h
  · rename_i he
    simp only [unary.injEq] at he
    exact ⟨he.1, _, he.2⟩
  · contradiction

/-- A way to compare the nodes of a result with those of its source, for which nodes may be left
out, keep their shell, or give way to a literal or a negation. A negated number has to be left
out. -/
structure Shrinks (R : List Node → List Node → Prop) : Prop where
  nil : R [] []
  append {ms ns ms' ns' : List Node} : R ms ns → R ms' ns' → R (ms ++ ms') (ns ++ ns')
  weaken {ms ns ns' : List Node} : R ms ns → ns.Sublist ns' → R ms ns'
  node {m n : Node} : n.isNegated = false → m.shell = n.shell → R [m] [n]
  constant {n : Node} (c : Constant) : n.isNegated = false → R [ofConstant c] [n]
  negation (e left right : Node) : R [unary .neg e] [binary .sub left right]

section

variable {R : List Node → List Node → Prop} {m n : Node} {ms ns : List Node}

theorem Shrinks.drop (hR : Shrinks R) (ns : List Node) : R [] ns :=
  hR.weaken hR.nil (List.nil_sublist ns)

/-- A node that keeps its shell stays, with what is left of its parts. -/
theorem Shrinks.cons (hR : Shrinks R) (hn : n.isNegated = false) (hshell : m.shell = n.shell)
    (h : R ms ns) : R (m :: ms) (n :: ns) :=
  hR.append (hR.node hn hshell) h

theorem Shrinks.symbol (hR : Shrinks R) (s : Symbol) :
    R (within (symbol s)) (within (symbol s)) :=
  hR.node rfl rfl

theorem Shrinks.params (hR : Shrinks R) (ps : List Symbol) :
    R (withinAll (ps.map Node.symbol)) (withinAll (ps.map Node.symbol)) := by
  induction ps with
  | nil => exact hR.nil
  | cons p ps ih => exact hR.append (hR.symbol p) ih

/-- The nodes of a simplified block compare with those of the block if they do for each
statement. -/
theorem Shrinks.simplifyBlock (hR : Shrinks R) {ss : List Node}
    (h : ∀ s ∈ ss, R (within s.simplify) (within s)) :
    R (withinAll (simplifyBlock ss)) (withinAll ss) := by
  induction ss with
  | nil => exact hR.nil
  | cons s ss ih =>
    obtain ⟨hs, hss⟩ := List.forall_mem_cons.1 h
    rw [Node.simplifyBlock, withinAll_append, withinAll_items]
    exact hR.append hs (ih hss)

theorem Shrinks.simplifyAll (hR : Shrinks R) {es : List Node}
    (h : ∀ e ∈ es, R (within e.simplify) (within e)) :
    R (withinAll (simplifyAll es)) (withinAll es) := by
  induction es with
  | nil => exact hR.nil
  | cons e es ih =>
    obtain ⟨he, hes⟩ := List.forall_mem_cons.1 h
    exact hR.append he (ih hes)

/-- A binary operation gives way to a literal or to one of its sides, or keeps its shell. -/
theorem Shrinks.simplifyBinary (hR : Shrinks R) {op : BinOp} {left right left' right' : Node}
    (hl : R (within left') (within left)) (hr : R (within right') (within right)) :
    R (within (simplifyBinary op left' right')) (within (binary op left right)) := by
  obtain ⟨c, h⟩ | h | h | ⟨rfl, h⟩ | ⟨_, _, h⟩ := simplifyBinary_cases op left' right' <;> rw [h]
  · rw [within_ofConstant]
    exact hR.append (hR.constant c rfl) (hR.drop _)
  · exact hR.weaken hl ((List.sublist_append_left _ _).cons _)
  · exact hR.weaken hr ((List.sublist_append_right _ _).cons _)
  · exact hR.append (hR.negation right' left right) (hR.weaken hr (List.sublist_append_right _ _))
  · exact hR.cons rfl rfl (hR.append hl hr)

theorem Shrinks.simplifyUnary (hR : Shrinks R) {op : UnOp} {operand : Node}
    (h : R (within operand.simplify) (within operand)) :
    R (within (unary op operand).simplify) (within (unary op operand)) := by
  by_cases hn : isNegated (unary op operand)
  · obtain ⟨rfl, a, rfl⟩ := eq_of_isNegated hn
    exact hR.weaken (hR.constant (.number a.neg) rfl) (List.sublist_cons_self _ _)
  · replace hn := Bool.eq_false_iff.2 hn
    rw [Node.simplify]
    obtain ⟨c, hc⟩ | hu := simplifyUnary_cases op operand.simplify
    · rw [hc, within_ofConstant]
      exact hR.append (hR.constant c hn) (hR.drop _)
    · rw [hu]
      exact hR.cons hn rfl h

/-- Each negated number is a node that simplification takes away. -/
theorem ExpForm.shrinks (hR : Shrinks R) {k : ExpSort} {n : Node} (h : ExpForm k n) :
    R (within n.simplify) (within n) := by
  induction h with
  | number | string | boolean | symbol => exact hR.node rfl rfl
  | conditional _ _ _ ht hy hn =>
    simp only [Node.simplify]
    split
    · exact hR.weaken hy (((List.sublist_append_right _ _).trans
        (List.sublist_append_left _ _)).cons _)
    · exact hR.weaken hn ((List.sublist_append_right _ _).cons _)
    · exact hR.cons rfl rfl (hR.append (hR.append ht hy) hn)
  | binary _ _ hl hr => exact hR.simplifyBinary hl hr
  | unary _ he => exact hR.simplifyUnary he
  | array _ hes | dict _ hes =>
    exact hR.cons rfl (by simp only [shell, map_simplifyAll]) (hR.simplifyAll hes)
  | dictItem _ he | member _ he => exact hR.cons rfl rfl he
  | subscript _ _ hc hi => exact hR.cons rfl rfl (hR.append hc hi)
  | call _ hes =>
    exact hR.cons rfl (by simp only [shell, map_simplifyAll])
      (hR.append (hR.symbol _) (hR.simplifyAll hes))

/-- A choice gives way to one of its branches, or keeps its shell. -/
theorem Shrinks.chosen (hR : Shrinks R) {test test' no no' : Node} {yes yes' : List Node}
    (ht : R (within test') (within test)) (hy : R (withinAll yes') (withinAll yes))
    (hn : R (within no') (within no)) :
    R (within (chosen test' yes' no')) (within (ifElse test yes no)) := by
  unfold Node.chosen
  split
  · exact hR.weaken hy (((List.sublist_append_right _ _).trans
      (List.sublist_append_left _ _)).cons _)
  · have hitems : within (list no'.items) = within no' := withinAll_items no'
    rw [hitems]
    exact hR.weaken hn ((List.sublist_append_right _ _).cons _)
  · simp only [within, withinAll, List.append_nil]
    exact hR.cons rfl rfl (hR.append (hR.append ht hy) hn)

/-- The nodes of a simplified statement compare with those of the statement. -/
theorem StmtForm.shrinks (hR : Shrinks R) {s : Node} (h : StmtForm s) :
    R (within s.simplify) (within s) := by
  induction h with
  | declare he =>
    simp only [Node.simplify, within, withinAll, List.append_nil]
    exact hR.cons rfl rfl (hR.append (hR.symbol _) (he.shrinks hR))
  | assign ht he =>
    simp only [Node.simplify]
    split
    · exact hR.drop _
    · simp only [within, withinAll, List.append_nil]
      exact hR.cons rfl rfl (hR.append (ht.shrinks hR) (he.shrinks hR))
  | print he | returnValue he | throwValue he | callAlone he =>
    simp only [Node.simplify, within, withinAll, List.append_nil]
    exact hR.cons rfl rfl (he.shrinks hR)
  | ifElse ht _ _ hy hn =>
    rw [Node.simplify]
    refine hR.chosen (ht.shrinks hR) (hR.simplifyBlock hy) ?_
    rw [within_linked]
    exact hR.simplifyBlock hn
  | ifChain ht _ _ _ hy hn =>
    rw [Node.simplify]
    refine hR.chosen (ht.shrinks hR) (hR.simplifyBlock hy) ?_
    rw [within_linked]
    exact hn
  | ifOnly ht _ hy =>
    simp only [Node.simplify]
    split
    · exact hR.weaken (hR.simplifyBlock hy) ((List.sublist_append_right _ _).cons _)
    · exact hR.drop _
    · simp only [within, withinAll, List.append_nil]
      exact hR.cons rfl rfl (hR.append (ht.shrinks hR) (hR.simplifyBlock hy))
  | whileLoop ht _ hb | repeatLoop ht _ hb =>
    simp only [Node.simplify]
    split
    · exact hR.drop _
    · simp only [within, withinAll, List.append_nil]
      exact hR.cons rfl rfl (hR.append (ht.shrinks hR) (hR.simplifyBlock hb))
  | rangeLoop hl hh hs _ hb =>
    simp only [Node.simplify]
    split
    · exact hR.drop _
    · simp only [within, withinAll, List.append_nil]
      refine hR.cons rfl rfl (hR.append (hR.append ?_ (hs.shrinks hR)) (hR.simplifyBlock hb))
      exact hR.append (hR.append (hR.symbol _) (hl.shrinks hR)) (hh.shrinks hR)
  | eachLoop hc _ hb =>
    simp only [Node.simplify]
    split
    · exact hR.drop _
    · simp only [within, withinAll, List.append_nil]
      exact hR.cons rfl rfl
        (hR.append (hR.append (hR.symbol _) (hc.shrinks hR)) (hR.simplifyBlock hb))
  | breakLoop | continueLoop | returnNone => exact hR.node rfl rfl
  | tryCatch _ _ hb hh =>
    simp only [Node.simplify, within, withinAll, List.append_nil]
    exact hR.cons rfl rfl
      (hR.append (hR.append (hR.simplifyBlock hb) (hR.params _)) (hR.simplifyBlock hh))
  | function _ hb =>
    simp only [Node.simplify, within, withinAll, List.append_nil]
    exact hR.cons rfl rfl
      (hR.append (hR.append (hR.symbol _) (hR.params _)) (hR.simplifyBlock hb))
  | incr he | decr he => exact hR.simplifyUnary (he.shrinks hR)

/-- The nodes of whatever is simplified compare with those of its source. -/
theorem WellFormed.shrinks (hR : Shrinks R) {n : Node} (h : WellFormed n) :
    R (within n.simplify) (within n) := by
  cases h with
  | exp h => exact h.shrinks hR
  | stmt h => exact h.shrinks hR
  | block h => exact hR.simplifyBlock fun s hs => (h s hs).shrinks hR
  | program h => exact hR.cons rfl rfl (hR.simplifyBlock fun s hs => (h s hs).shrinks hR)

end

/-- There are at most as many nodes in `ms` as there are in `ns` that are no negated numbers. -/
def Fewer (ms ns : List Node) : Prop := ms.length ≤ ns.countP (!isNegated ·)

theorem fewer_singleton {m n : Node} (hn : n.isNegated = false) : Fewer [m] [n] := by
  simp [Fewer, hn]

/-- Simplification leaves no more nodes than there were, negated numbers apart. -/
theorem shrinks_fewer : Shrinks Fewer where
  nil := Nat.le_refl 0
  append h h' := by simpa [Fewer] using Nat.add_le_add h h'
  weaken h hs := Nat.le_trans h hs.countP_le
  node hn _ := fewer_singleton hn
  constant _ hn := fewer_singleton hn
  negation _ _ _ := fewer_singleton rfl

end Terse.Node
