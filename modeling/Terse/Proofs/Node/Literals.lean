import Terse.Proofs.Node.Redex

/-! Arithmetic on two number literals. What cannot be folded is left alone, unless one of the
literals makes the operation needless. -/
namespace Terse.Node

open Number

variable {op : BinOp} {a b : Number}

theorem folded?_literals (h : fold? op a b = none) : folded? op (number a) (number b) = none :=
  Option.map_eq_none_iff.2 h

theorem identity?_literals : identity? op (number a) (number b) = none ↔ ¬ Idle op a b := by
  rw [identity?_eq_none_iff]
  simp [isNumber, isBoolean, Idle, not_or]

/-- An operation on two literals is never rebuilt, so that it stands only where no rule has been
used. -/
theorem simplifyBinary_literals :
    simplifyBinary op (number a) (number b) = binary op (number a) (number b) ↔
      fold? op a b = none ∧ ¬ Idle op a b := by
  constructor
  · intro hkept
    obtain ⟨c, h⟩ | h | h | ⟨-, h⟩ | ⟨hfold, hidentity, -⟩ :=
      simplifyBinary_cases op (number a) (number b)
    · rw [h] at hkept
      cases c <;> contradiction
    · rw [h] at hkept
      contradiction
    · rw [h] at hkept
      contradiction
    · rw [h] at hkept
      contradiction
    · exact ⟨folded?_eq_none_iff.1 hfold a b rfl rfl, identity?_literals.1 hidentity⟩
  · rintro ⟨hfold, hidle⟩
    rw [simplifyBinary, folded?_literals hfold, identity?_literals.2 hidle]
    rfl

theorem simplifyBinary_folded {c : Constant} (h : fold? op a b = some c) :
    simplifyBinary op (number a) (number b) = ofConstant c := by
  simp [simplifyBinary, folded?, h]

theorem idle_iff_isZeroByZero (hop : op ∈ BinOp.arithmetic) (hpow : op ≠ .pow)
    (ha : a.toFloat.isFinite) (hb : b.toFloat.isFinite) (hfold : fold? op a b = none) :
    Idle op a b ↔ IsZeroByZero op a b := by
  refine ⟨fun hidle => Decidable.byContradiction fun hdiv => ?_, IsZeroByZero.idle⟩
  have hsome := isSome_fold? hop hpow ha hb hidle hdiv
  rw [hfold] at hsome
  contradiction

/-- Arithmetic on two number literals becomes its value where it can be folded. Where it cannot, it
is left alone exactly if neither literal is neutral or absorbing; in the range of doubles that is to
say that zero is not divided by zero. -/
theorem optimize_literals (hop : op ∈ BinOp.arithmetic) (a b : Number) :
    ∃ e, (binary op (number a) (number b)).optimize = .ok e ∧
      (∀ c, fold? op a b = some c → ∃ v, c = .number v ∧ e = number v) ∧
      (e = binary op (number a) (number b) ↔ fold? op a b = none ∧ ¬ Idle op a b) ∧
      (op ≠ .pow → a.toFloat.isFinite → b.toFloat.isFinite →
        (e = binary op (number a) (number b) ↔ fold? op a b = none ∧ ¬ IsZeroByZero op a b)) := by
  refine ⟨simplifyBinary op (number a) (number b), rfl, ?_, simplifyBinary_literals, ?_⟩
  · intro c hc
    obtain ⟨v, rfl⟩ := fold?_arithmetic hop hc
    exact ⟨v, rfl, simplifyBinary_folded hc⟩
  · intro hpow ha hb
    rw [simplifyBinary_literals]
    exact and_congr_right fun hfold => not_congr (idle_iff_isZeroByZero hop hpow ha hb hfold)

/-- Five by zero has no remainder, and stays. -/
theorem optimize_literals_remainder :
    (binary .rem (number (.int 5)) zero).optimize = .ok (binary .rem (number (.int 5)) zero) := by
  obtain ⟨e, he, -, -, hiff⟩ := @optimize_literals .rem (by decide) (.int 5) (.int 0)
  have hfold : fold? .rem (.int 5) (.int 0) = none :=
    Option.isNone_iff_eq_none.1 (by decide +kernel)
  have hleft := (hiff (by decide) (by decide +kernel) (by decide +kernel)).2 ⟨hfold, fun h => ?_⟩
  · exact hleft ▸ he
  · exact absurd h.2.1 (by decide)

/-- Zero by zero has no quotient, and yet becomes zero. -/
theorem optimize_zero_by_zero :
    fold? .div (.int 0) (.int 0) = none ∧ (binary .div zero zero).optimize = .ok zero := by
  have hfold : fold? .div (.int 0) (.int 0) = none :=
    Option.isNone_iff_eq_none.1 (by decide +kernel)
  have hfolded : folded? .div zero zero = none := folded?_literals hfold
  have hzero : simplifyBinary .div zero zero = zero := by
    rw [simplifyBinary, hfolded]
    rfl
  exact ⟨hfold, congrArg Except.ok hzero⟩

end Terse.Node
