import Terse.Proofs.Node.Everywhere

/-! Calls and increments in expressions, and which of them simplification keeps. The other side of a
literal that decides a product, a quotient, a remainder or a power is dropped with all that happens
in it, and nothing else is. -/
namespace Terse

/-- What an expression does besides having a value. -/
inductive Effect where
  | call (callee : Symbol)
  | increment
  | decrement
deriving DecidableEq, Repr

def UnOp.effects : UnOp → List Effect
  | .incr => [.increment]
  | .decr => [.decrement]
  | _ => []

theorem Binary.compareInt_unique {b : Binary} {m n : Int} (hm : b.compareInt m = .eq)
    (hn : b.compareInt n = .eq) : m = n := by
  have heq := (Int.compare_eq_eq.1 hm).symm.trans (Int.compare_eq_eq.1 hn)
  have hpos : Nat.pow 2 (-b.exp).toNat ≠ 0 := Nat.ne_of_gt (Nat.pow_pos Nat.zero_lt_two)
  exact Int.eq_of_mul_eq_mul_right (Int.natCast_ne_zero.2 hpos) heq

/-- A literal has one value. -/
theorem Number.isValue_unique {a : Number} {m n : Int} (hm : a.isValue m) (hn : a.isValue n) :
    m = n := by
  replace hm := eq_of_beq hm
  replace hn := eq_of_beq hn
  cases a with
  | int k =>
    exact (Int.compare_eq_eq.1 (Option.some.inj hm)).symm.trans
      (Int.compare_eq_eq.1 (Option.some.inj hn))
  | float x =>
    simp only [compare?, compareFloatInt?] at hm hn
    cases hx : Binary.ofFloat? x with
    | some b =>
      rw [hx] at hm hn
      exact Binary.compareInt_unique (Option.some.inj hm) (Option.some.inj hn)
    | none =>
      rw [hx] at hm
      dsimp only at hm
      split at hm
      · contradiction
      · split at hm <;> contradiction

namespace Node

/-- Expressions in which nothing is chosen. -/
inductive IsStraight : Node → Prop
  | number (a : Number) : IsStraight (number a)
  | string (t : Text) : IsStraight (string t)
  | boolean (b : Bool) : IsStraight (boolean b)
  | symbol (s : Symbol) : IsStraight (symbol s)
  | binary {op : BinOp} {left right : Node} :
      IsStraight left → IsStraight right → IsStraight (binary op left right)
  | unary {op : UnOp} {operand : Node} : IsStraight operand → IsStraight (unary op operand)
  | array {es : List Node} : (∀ e ∈ es, IsStraight e) → IsStraight (array es)
  | dict {es : List Node} : (∀ e ∈ es, IsStraight e) → IsStraight (dict es)
  | dictItem {key : String} {e : Node} : IsStraight e → IsStraight (dictItem key e)
  | member {object : Node} {access name : String} :
      IsStraight object → IsStraight (member object access name)
  | subscript {collection index : Node} :
      IsStraight collection → IsStraight index → IsStraight (subscript collection index)
  | call {f : Symbol} {args : List Node} :
      (∀ e ∈ args, IsStraight e) → IsStraight (call (symbol f) args)

def calls : Node → List Effect
  | symbol f => [.call f]
  | _ => []

mutual

/-- The effects in an expression, in the order in which they happen. -/
def effects : Node → List Effect
  | binary _ left right | subscript left right => effects left ++ effects right
  | unary op e => effects e ++ op.effects
  | array es | dict es => effectsAll es
  | dictItem _ e | member e _ _ => effects e
  | call f args => effectsAll args ++ f.calls
  | conditional test yes no => effects test ++ effects yes ++ effects no
  | _ => []
termination_by structural n => n

def effectsAll : List Node → List Effect
  | [] => []
  | e :: es => effects e ++ effectsAll es
termination_by structural ns => ns

end

/-- One side is a literal that decides the operation. -/
def absorbs (op : BinOp) (left right : Node) : Bool :=
  match op with
  | .mul => right.isNumber 0 || left.isNumber 0
  | .div => left.isNumber 0
  | .rem => right.isNumber 1 || left.isNumber 0
  | .pow => right.isNumber 0 || left.isNumber 1
  | _ => false

mutual

/-- The effects in an expression outside the operations that a literal decides, where a side counts
as the literal that it is simplified to. -/
def kept : Node → List Effect
  | binary op left right =>
    if absorbs op left.simplify right.simplify then [] else kept left ++ kept right
  | subscript collection index => kept collection ++ kept index
  | unary op e => kept e ++ op.effects
  | array es | dict es => keptAll es
  | dictItem _ e | member e _ _ => kept e
  | call f args => keptAll args ++ f.calls
  | conditional test yes no => kept test ++ kept yes ++ kept no
  | _ => []
termination_by structural n => n

def keptAll : List Node → List Effect
  | [] => []
  | e :: es => kept e ++ keptAll es
termination_by structural ns => ns

end

/-- A literal does not decide an operation in which something happens. -/
def Harmless (_ : List Region) : Node → Prop
  | binary op left right =>
    absorbs op left.simplify right.simplify → (binary op left right).effects = []
  | _ => True

variable {op : BinOp} {e l r c : Node}

theorem effects_ofConstant (k : Constant) : (ofConstant k).effects = [] := by
  cases k <;> rfl

theorem effects_of_isNumber {n : Int} (h : e.isNumber n) : e.effects = [] := by
  cases e with
  | number a => rfl
  | _ => contradiction

theorem not_isNumber_one (hzero : e.isNumber 0) : ¬ e.isNumber 1 := by
  intro hone
  cases e with
  | number a => exact absurd (Number.isValue_unique hzero hone) (by decide)
  | _ => contradiction

theorem effects_of_isBoolean {b : Bool} (h : e.isBoolean b) : e.effects = [] := by
  cases e with
  | boolean c => rfl
  | _ => contradiction

theorem effects_simplifyUnary (op : UnOp) (e : Node) :
    (simplifyUnary op e).effects = e.effects ++ op.effects := by
  unfold simplifyUnary
  split <;> rfl

/-- A literal side has no effects. So the side that is left has them all, unless the literal
decides. -/
theorem effects_identity (h : identity? op l r = some c) :
    c.effects = if absorbs op l r then [] else l.effects ++ r.effects := by
  have hzero : zero.effects = [] := rfl
  have hone : one.effects = [] := rfl
  have hneg : (unary .neg r).effects = r.effects := List.append_nil _
  have hnumber {e : Node} {n : Int} : e.isNumber n → e.effects = [] := effects_of_isNumber
  have hboolean {e : Node} {b : Bool} : e.isBoolean b → e.effects = [] := effects_of_isBoolean
  have hvalue {e : Node} : e.isNumber 0 → ¬ e.isNumber 1 := not_isNumber_one
  cases op <;> simp only [identity?, absorbs] at h ⊢ <;> grind

/-- The simplification of a binary operation keeps all effects, unless a literal decides it. -/
theorem effects_simplifyBinary (op : BinOp) (l r : Node) : (simplifyBinary op l r).effects =
    if absorbs op l r then [] else l.effects ++ r.effects := by
  unfold simplifyBinary
  cases hfold : folded? op l r with
  | some c =>
    unfold folded? at hfold
    split at hfold
    · obtain ⟨k, -, rfl⟩ := Option.map_eq_some_iff.1 hfold
      split <;> exact effects_ofConstant k
    · contradiction
  | none =>
    cases hidentity : identity? op l r with
    | some c => exact effects_identity hidentity
    | none =>
      have hnot : absorbs op l r = false := by
        cases op <;> simp only [identity?, absorbs] at hidentity ⊢ <;> grind
      rw [hnot]
      rfl

theorem IsStraight.fault?_eq_none (h : IsStraight e) : e.fault? = none := by
  induction h with
  | number | string | boolean | symbol => rfl
  | binary _ _ hl hr => simp [fault?, hl, hr]
  | unary _ he => simpa [fault?] using he
  | array _ hes => simpa [fault?] using anyFault?_eq_none hes
  | dict _ hes => simpa [fault?] using anyFault?_eq_none hes
  | dictItem _ he => simpa [fault?] using he
  | member _ ho => simpa [fault?] using ho
  | subscript _ _ hc hi => simp [fault?, hc, hi]
  | call _ hes => simpa [fault?] using anyFault?_eq_none hes

theorem effectsAll_simplifyAll {es : List Node} (h : ∀ e ∈ es, e.simplify.effects = e.kept) :
    effectsAll (simplifyAll es) = keptAll es := by
  induction es with
  | nil => rfl
  | cons e es ih =>
    obtain ⟨he, hes⟩ := List.forall_mem_cons.1 h
    rw [simplifyAll, effectsAll, keptAll, he, ih hes]

/-- Simplification keeps exactly the effects outside the operations that a literal decides. -/
theorem IsStraight.effects_simplify (h : IsStraight e) : e.simplify.effects = e.kept := by
  induction h with
  | number | string | boolean | symbol => rfl
  | binary _ _ hl hr => rw [simplify, effects_simplifyBinary, hl, hr, kept]
  | unary _ he => rw [simplify, effects_simplifyUnary, he, kept]
  | array _ hes => rw [simplify, effects, effectsAll_simplifyAll hes, kept]
  | dict _ hes => rw [simplify, effects, effectsAll_simplifyAll hes, kept]
  | dictItem _ he => rw [simplify, effects, he, kept]
  | member _ ho => rw [simplify, effects, ho, kept]
  | subscript _ _ hc hi => rw [simplify, effects, hc, hi, kept]
  | call _ hes => rw [simplify, effects, effectsAll_simplifyAll hes, kept]

theorem keptAll_sublist {es : List Node} (h : ∀ e ∈ es, e.kept.Sublist e.effects) :
    (keptAll es).Sublist (effectsAll es) := by
  induction es with
  | nil => exact .refl []
  | cons e es ih =>
    obtain ⟨he, hes⟩ := List.forall_mem_cons.1 h
    exact he.append (ih hes)

/-- What is kept are some of the effects, in the same order. -/
theorem IsStraight.kept_sublist (h : IsStraight e) : e.kept.Sublist e.effects := by
  induction h with
  | number | string | boolean | symbol => exact .refl []
  | binary _ _ hl hr =>
    rw [kept, effects]
    split
    · exact List.nil_sublist _
    · exact hl.append hr
  | unary _ he => exact he.append (.refl _)
  | array _ hes => exact keptAll_sublist hes
  | dict _ hes => exact keptAll_sublist hes
  | dictItem _ he => exact he
  | member _ ho => exact ho
  | subscript _ _ hc hi => exact hc.append hi
  | call _ hes => exact (keptAll_sublist hes).append (.refl _)

/-- Parts that are left of two lists make up both only if each is the whole. -/
theorem append_eq_iff_of_sublist {α : Type} {a b a' b' : List α} (ha : a'.Sublist a)
    (hb : b'.Sublist b) : a' ++ b' = a ++ b ↔ a' = a ∧ b' = b := by
  constructor
  · intro h
    have hlength := congrArg List.length h
    rw [List.length_append, List.length_append] at hlength
    have hla := ha.length_le
    have hlb := hb.length_le
    exact ⟨ha.eq_of_length (by omega), hb.eq_of_length (by omega)⟩
  · rintro ⟨rfl, rfl⟩
    rfl

theorem keptAll_eq_iff {es : List Node} (h : ∀ e ∈ es, IsStraight e) :
    keptAll es = effectsAll es ↔ ∀ e ∈ es, e.kept = e.effects := by
  induction es with
  | nil => simp [keptAll, effectsAll]
  | cons e es ih =>
    obtain ⟨he, hes⟩ := List.forall_mem_cons.1 h
    have hsub := keptAll_sublist fun e h => (hes e h).kept_sublist
    rw [keptAll, effectsAll, append_eq_iff_of_sublist he.kept_sublist hsub, ih hes,
      List.forall_mem_cons]

theorem keptAll_eq_iff_everywhere {es : List Node} (h : ∀ e ∈ es, IsStraight e)
    (ih : ∀ e ∈ es, e.kept = e.effects ↔ Everywhere Harmless [] e) :
    keptAll es = effectsAll es ↔ EverywhereIn Harmless [] es := by
  rw [keptAll_eq_iff h]
  exact forall₂_congr ih

theorem everywhere_harmless_iff (h : Harmless [] e) :
    Everywhere Harmless [] e ↔ InParts Harmless [] e := by
  rw [everywhere_iff]
  exact and_iff_right h

/-- All effects are kept exactly if no literal decides an operation in which something happens. -/
theorem IsStraight.kept_eq_iff (h : IsStraight e) :
    e.kept = e.effects ↔ Everywhere Harmless [] e := by
  induction h with
  | number | string | boolean | symbol =>
    rw [everywhere_harmless_iff]
    · simp [kept, effects, InParts]
    · trivial
  | @binary op left right hl hr ihl ihr =>
    rw [everywhere_iff, InParts, ← ihl, ← ihr, Harmless, kept, effects]
    by_cases habsorbs : absorbs op left.simplify right.simplify
    · rw [if_pos habsorbs]
      constructor
      · intro hnil
        -- what is left of nothing is nothing
        obtain ⟨hleft, hright⟩ := List.append_eq_nil_iff.1 hnil.symm
        have hkl := hl.kept_sublist
        have hkr := hr.kept_sublist
        rw [hleft, List.sublist_nil] at hkl
        rw [hright, List.sublist_nil] at hkr
        exact ⟨fun _ => hnil.symm, hkl.trans hleft.symm, hkr.trans hright.symm⟩
      · rintro ⟨hnil, -⟩
        exact (hnil habsorbs).symm
    · rw [if_neg habsorbs, append_eq_iff_of_sublist hl.kept_sublist hr.kept_sublist]
      exact ⟨fun hsides => ⟨fun h => absurd h habsorbs, hsides⟩, fun h => h.2⟩
  | unary he ih =>
    rw [everywhere_harmless_iff, InParts, ← ih]
    · exact List.append_left_inj _
    · trivial
  | array hes ih =>
    rw [everywhere_harmless_iff, InParts]
    · exact keptAll_eq_iff_everywhere hes ih
    · trivial
  | dict hes ih =>
    rw [everywhere_harmless_iff, InParts]
    · exact keptAll_eq_iff_everywhere hes ih
    · trivial
  | dictItem _ ih | member _ ih =>
    rw [everywhere_harmless_iff, InParts]
    · exact ih
    · trivial
  | subscript hc hi ihc ihi =>
    rw [everywhere_harmless_iff, InParts, ← ihc, ← ihi]
    · exact append_eq_iff_of_sublist hc.kept_sublist hi.kept_sublist
    · trivial
  | @call f args hes ih =>
    have hf : Everywhere Harmless [] (Node.symbol f) := everywhere_iff.2 ⟨trivial, trivial⟩
    rw [everywhere_harmless_iff, InParts, ← keptAll_eq_iff_everywhere hes ih, and_iff_right hf]
    · exact List.append_left_inj _
    · trivial

/-- Of an expression in which nothing is chosen, simplification keeps the effects that no literal
decides away, in their order, and adds none. These are all of them exactly if no literal decides an
operation in which something happens. -/
theorem effects_optimize (h : IsStraight e) :
    ∃ e', e.optimize = .ok e' ∧ e'.effects = e.kept ∧ e.kept.Sublist e.effects ∧
      (e'.effects = e.effects ↔ Everywhere Harmless [] e) := by
  refine ⟨e.simplify, ?_, h.effects_simplify, h.kept_sublist, ?_⟩
  · rw [optimize, h.fault?_eq_none]
  · rw [h.effects_simplify, h.kept_eq_iff]

/-- A print that stays, and an increment that a zero decides away. -/
def mixed (x : Symbol) : Node :=
  binary .add (call (symbol .log) [one])
    (binary .mul (unary .incr (symbol x)) (binary .sub one one))

theorem effects_optimize_mixed :
    ∃ x : Symbol, IsStraight (mixed x) ∧ (mixed x).effects = [.call .log, .increment] ∧
      (mixed x).kept = [.call .log] ∧
      ∃ e', (mixed x).optimize = .ok e' ∧ e'.effects = (mixed x).kept ∧
        (mixed x).kept.Sublist (mixed x).effects ∧
        (e'.effects = (mixed x).effects ↔ Everywhere Harmless [] (mixed x)) := by
  let x : Symbol := ⟨"x", 1, .var false, .declared 1⟩
  have h : IsStraight (mixed x) :=
    .binary (.call (List.forall_mem_singleton.2 (.number _)))
      (.binary (.unary (.symbol x)) (.binary (.number _) (.number _)))
  exact ⟨x, h, rfl, rfl, effects_optimize h⟩

/-- A print whose result is multiplied by zero is lost. -/
theorem effects_optimize_ne :
    ∃ e e' : Node, e = binary .mul (call (symbol .log) [one]) zero ∧ IsStraight e ∧
      e.optimize = .ok e' ∧ e'.effects ≠ e.effects :=
  ⟨_, zero, rfl, .binary (.call (List.forall_mem_singleton.2 (.number _))) (.number _),
    rfl, by decide⟩

end Node

end Terse
