import Terse.Proofs.Run.Basic

/-! Expressions over integers and truth values, evaluated exactly. Simplification keeps their values
as long as no value on the way is past the size up to which doubles are exact. -/
namespace Terse

/-- An integer or a truth value. -/
inductive Scalar where
  | int (n : Int)
  | bool (b : Bool)
deriving DecidableEq, Repr

/-- Up to this size every integer is a double. -/
def Scalar.isSafe : Scalar → Bool
  | int n => n.natAbs ≤ Nat.pow 2 53
  | bool _ => true

/-- Operations that need both of their sides. Arithmetic and order are for integers, equality is for
two values of one kind. The remainder has the sign of the dividend, and there is none by zero. -/
def BinOp.both? : BinOp → Scalar → Scalar → Option Scalar
  | .add, .int m, .int n => some (.int (m + n))
  | .sub, .int m, .int n => some (.int (m - n))
  | .mul, .int m, .int n => some (.int (m * n))
  | .rem, .int m, .int n => if n = 0 then none else some (.int (m.tmod n))
  | .lt, .int m, .int n => some (.bool (m < n))
  | .le, .int m, .int n => some (.bool (m ≤ n))
  | .ge, .int m, .int n => some (.bool (n ≤ m))
  | .gt, .int m, .int n => some (.bool (n < m))
  | .eq, .int m, .int n => some (.bool (m = n))
  | .ne, .int m, .int n => some (.bool (m ≠ n))
  | .eq, .bool a, .bool b => some (.bool (a = b))
  | .ne, .bool a, .bool b => some (.bool (a ≠ b))
  | _, _, _ => none

/-- What the left side of a logical operation has to be for the right side not to matter. -/
def BinOp.decider? : BinOp → Option Bool
  | .and => some false
  | .or => some true
  | _ => none

/-- Operations on sides of which the right one may have no value where the left one decides. A
result past the safe size is none. -/
def BinOp.sides? (op : BinOp) (a b : Option Scalar) : Option Scalar :=
  match op.decider?, a, b with
  | some d, some (.bool c), b =>
    if c = d then some (.bool d)
    else match b with
      | some (.bool b) => some (.bool b)
      | _ => none
  | none, some a, some b => (op.both? a b).filter Scalar.isSafe
  | _, _, _ => none

def UnOp.side? : UnOp → Scalar → Option Scalar
  | .neg, .int n => some (.int (-n))
  | .not, .bool b => some (.bool !b)
  | _, _ => none

namespace Node

/-- The operations of which both sides and the result are integers or truth values. -/
def scalarOps : List BinOp := [.add, .sub, .mul, .rem, .lt, .le, .eq, .ne, .ge, .gt, .and, .or]

/-- Expressions over integers and truth values. -/
inductive IsScalar : Node → Prop
  | int (n : Int) : IsScalar (number (.int n))
  | boolean (b : Bool) : IsScalar (boolean b)
  | symbol {s : Symbol} : s.isFunction = false → IsScalar (symbol s)
  | unary {op : UnOp} {e : Node} : op = .neg ∨ op = .not → IsScalar e → IsScalar (unary op e)
  | binary {op : BinOp} {l r : Node} :
      op ∈ scalarOps → IsScalar l → IsScalar r → IsScalar (binary op l r)
  | conditional {test yes no : Node} :
      IsScalar test → IsScalar yes → IsScalar no → IsScalar (conditional test yes no)

/-- The exact value of an expression where the variables have these values. There is none where an
operation does not fit its operands, nor past the safe size, be it on the way or at the end. A
branch that is not taken need not have one. -/
def value? (σ : Store Scalar) : Node → Option Scalar
  | number (.int n) => (some (.int n)).filter Scalar.isSafe
  | boolean b => some (.bool b)
  | symbol s => if s.isFunction then none else (σ s).filter Scalar.isSafe
  | unary op e => (value? σ e).bind op.side?
  | binary op l r => op.sides? (value? σ l) (value? σ r)
  | conditional test yes no =>
    match value? σ test with
    | some (.bool true) => value? σ yes
    | some (.bool false) => value? σ no
    | _ => none
  | _ => none

/-- Whatever value the first has, the second has it too. -/
def Keeps (σ : Store Scalar) (e e' : Node) : Prop := ∀ v, e.value? σ = some v → e'.value? σ = some v

variable {σ : Store Scalar} {op : BinOp} {l r c e : Node} {v : Scalar}

theorem eq_of_isNumber {n : Int} (h : e.isNumber n) (hv : e.value? σ = some v) : v = .int n := by
  cases e with
  | number a =>
    cases a with
    | int m =>
      obtain ⟨hv, -⟩ := Option.filter_eq_some_iff.1 hv
      obtain rfl := Option.some.inj hv
      have hm : m = n := by simpa [isNumber, Number.isValue, Number.compare?] using h
      rw [hm]
    | float x => contradiction
  | _ => contradiction

theorem eq_of_isBoolean {b : Bool} (h : e.isBoolean b) : e = boolean b := by
  cases e with
  | boolean c => rw [eq_of_beq h]
  | _ => contradiction

/-- A constant stands for its value. -/
def ofScalar : Scalar → Constant
  | .int n => .number (.int n)
  | .bool b => .boolean b

theorem value?_ofScalar (h : v.isSafe) : (ofConstant (ofScalar v)).value? σ = some v := by
  cases v with
  | int n => exact Option.filter_eq_some_iff.2 ⟨rfl, h⟩
  | bool b => rfl

theorem settle?_safe {n : Int} (h : (Scalar.int n).isSafe) :
    (Number.int n).settle? = some (.int n) := by
  have hn : n.natAbs ≤ Number.safeLimit.natAbs := of_decide_eq_true h
  rw [Number.settle?, if_pos hn]

/-- What the order of two integers says about a comparison is what the comparison says. -/
theorem holds?_compare {m n : Int} {b : Bool} (h : op.both? (.int m) (.int n) = some (.bool b)) :
    op.holds? (some (compare m n)) = some b := by
  have hcompare : compare m n = if m < n then .lt else if m = n then .eq else .gt := rfl
  cases op with
  | lt | le | eq | ne | ge | gt =>
    obtain rfl := Scalar.bool.inj (Option.some.inj h)
    rw [hcompare]
    rcases Int.lt_trichotomy m n with hlt | rfl | hgt
    · simp [BinOp.holds?, hlt, Int.ne_of_lt hlt, Int.le_of_lt hlt]
    · simp [BinOp.holds?]
    · simp [BinOp.holds?, hgt, Int.ne_of_gt hgt, Int.le_of_lt hgt, Int.not_lt.2 (Int.le_of_lt hgt)]
  | rem =>
    simp only [BinOp.both?] at h
    split at h <;> simp at h
  | _ => simp [BinOp.both?] at h

theorem intArith?_both {m n k : Int} (h : op.both? (.int m) (.int n) = some (.int k)) :
    op.holds? (some (compare m n)) = none ∧ Number.intArith? op m n = some k := by
  cases op with
  | add | sub | mul =>
    obtain rfl := Scalar.int.inj (Option.some.inj h)
    exact ⟨rfl, rfl⟩
  | rem =>
    simp only [BinOp.both?] at h
    split at h
    · contradiction
    · rename_i hn
      obtain rfl := Scalar.int.inj (Option.some.inj h)
      exact ⟨rfl, by rw [Number.intArith?, if_neg hn]⟩
  | _ => simp [BinOp.both?] at h

/-- Operations on safe integers are folded to their exact result. -/
theorem fold?_safe {m n : Int} (hm : (Scalar.int m).isSafe) (hn : (Scalar.int n).isSafe)
    (h : op.both? (.int m) (.int n) = some v) (hv : v.isSafe) :
    fold? op (.int m) (.int n) = some (ofScalar v) := by
  rw [fold?, settle?_safe hm, settle?_safe hn]
  simp only [Number.compare?]
  cases v with
  | bool b =>
    rw [holds?_compare h]
    rfl
  | int k =>
    obtain ⟨hholds, harith⟩ := intArith?_both h
    rw [hholds]
    have hsafe : k.natAbs ≤ Number.safeLimit.natAbs := of_decide_eq_true hv
    simp only [Number.arith?, harith]
    rw [if_pos hsafe]
    rfl

/-- An operation that no side decides needs the values of both. -/
theorem sides?_strict {a b : Option Scalar} (hop : op.decider? = none)
    (h : op.sides? a b = some v) :
    ∃ x y, a = some x ∧ b = some y ∧ op.both? x y = some v ∧ v.isSafe := by
  simp only [BinOp.sides?, hop] at h
  cases a with
  | none => contradiction
  | some x =>
    cases b with
    | none => contradiction
    | some y =>
      obtain ⟨hv, hsafe⟩ := Option.filter_eq_some_iff.1 h
      exact ⟨x, y, rfl, rfl, hv, hsafe⟩

/-- The left side decides, or the right side is the result. -/
theorem sides?_lazy {a b : Option Scalar} {d : Bool} (hop : op.decider? = some d)
    (h : op.sides? a b = some v) :
    a = some (.bool d) ∧ v = .bool d ∨
      ∃ c, a = some (.bool !d) ∧ b = some (.bool c) ∧ v = .bool c := by
  simp only [BinOp.sides?, hop] at h
  cases a with
  | none => contradiction
  | some x =>
    cases x with
    | int m => contradiction
    | bool c =>
      dsimp only at h
      split at h
      · rename_i hc
        exact .inl ⟨by rw [hc], (Option.some.inj h).symm⟩
      · rename_i hc
        split at h
        · rename_i b
          exact .inr ⟨b, by rw [Bool.eq_not.2 hc], rfl, (Option.some.inj h).symm⟩
        · contradiction

/-- The sides of an operation may be replaced by others that keep their values. -/
theorem sides?_mono {a b a' b' : Option Scalar} (ha : ∀ x, a = some x → a' = some x)
    (hb : ∀ y, b = some y → b' = some y) (h : op.sides? a b = some v) :
    op.sides? a' b' = some v := by
  cases hop : op.decider? with
  | none =>
    obtain ⟨x, y, rfl, rfl, -, -⟩ := sides?_strict hop h
    rwa [ha x rfl, hb y rfl]
  | some d =>
    obtain ⟨rfl, rfl⟩ | ⟨c, rfl, rfl, rfl⟩ := sides?_lazy hop h
    · rw [ha _ rfl]
      simp [BinOp.sides?, hop]
    · rwa [ha _ rfl, hb _ rfl]

/-- The sides of arithmetic are integers, and literals among them are known. -/
theorem sides_of_arith (hop : op ∈ [.add, .sub, .mul, .div, .rem, .pow])
    (h : (binary op l r).value? σ = some v) :
    ∃ m n, l.value? σ = some (.int m) ∧ r.value? σ = some (.int n) ∧
      op.both? (.int m) (.int n) = some v ∧
      (∀ k, l.isNumber k → m = k) ∧ (∀ k, r.isNumber k → n = k) := by
  have hdecider : op.decider? = none := by cases op <;> simp at hop <;> rfl
  obtain ⟨x, y, hl, hr, hboth, -⟩ := sides?_strict hdecider h
  cases x with
  | bool a => cases op <;> simp [BinOp.both?] at hboth hop
  | int m =>
    cases y with
    | bool b => cases op <;> simp [BinOp.both?] at hboth
    | int n =>
      refine ⟨m, n, hl, hr, hboth, fun k hk => ?_, fun k hk => ?_⟩
      · exact Scalar.int.inj (eq_of_isNumber hk hl)
      · exact Scalar.int.inj (eq_of_isNumber hk hr)

theorem int_of_number {a : Number} (h : (number a).value? σ = some v) :
    ∃ n, a = .int n ∧ v = .int n ∧ v.isSafe := by
  cases a with
  | int n =>
    obtain ⟨hv, hsafe⟩ := Option.filter_eq_some_iff.1 h
    exact ⟨n, rfl, (Option.some.inj hv).symm, hsafe⟩
  | float x => contradiction

/-- Folding two literals keeps the value. -/
theorem keeps_folded (h : folded? op l r = some c) : Keeps σ (binary op l r) c := by
  intro v hv
  unfold folded? at h
  split at h
  · rename_i a b
    obtain ⟨k, hk, rfl⟩ := Option.map_eq_some_iff.1 h
    cases hop : op.decider? with
    | none =>
      obtain ⟨x, y, hx, hy, hboth, hsafe⟩ := sides?_strict hop hv
      obtain ⟨m, rfl, rfl, hm⟩ := int_of_number hx
      obtain ⟨n, rfl, rfl, hn⟩ := int_of_number hy
      rw [fold?_safe hm hn hboth hsafe] at hk
      obtain rfl := Option.some.inj hk
      exact value?_ofScalar hsafe
    | some d =>
      -- a number is no truth value
      obtain ⟨hx, -⟩ | ⟨_, hx, -⟩ := sides?_lazy hop hv
      · obtain ⟨_, -, hbool, -⟩ := int_of_number hx
        contradiction
      · obtain ⟨_, -, hbool, -⟩ := int_of_number hx
        contradiction
  · contradiction

/-- A logical operation with a literal side that leaves it to the other. -/
theorem keeps_logical {d : Bool} (hop : op.decider? = some d)
    (h : (if l.isBoolean !d then some r else if r.isBoolean !d then some l else none) = some c) :
    Keeps σ (binary op l r) c := by
  intro v hv
  have hsides := sides?_lazy hop hv
  split at h
  · rename_i hl
    obtain rfl := Option.some.inj h
    rw [eq_of_isBoolean hl] at hsides
    obtain ⟨hd, -⟩ | ⟨b, -, hr, rfl⟩ := hsides
    · simp [value?] at hd
    · exact hr
  · split at h
    · rename_i hr
      obtain rfl := Option.some.inj h
      rw [eq_of_isBoolean hr] at hsides
      obtain ⟨hl, rfl⟩ | ⟨b, hl, hb, rfl⟩ := hsides
      · exact hl
      · rw [hl, ← hb]
        rfl
    · contradiction

theorem keeps_sum (h : identity? .add l r = some c) : Keeps σ (binary .add l r) c := by
  intro v hv
  obtain ⟨m, n, hl, hr, hboth, hm, hn⟩ := sides_of_arith (by decide) hv
  obtain rfl := Option.some.inj hboth
  simp only [identity?] at h
  split at h
  · rename_i hzero
    obtain rfl := Option.some.inj h
    rw [hn 0 hzero, Int.add_zero, hl]
  · split at h
    · rename_i hzero
      obtain rfl := Option.some.inj h
      rw [hm 0 hzero, Int.zero_add, hr]
    · contradiction

theorem keeps_difference (h : identity? .sub l r = some c) : Keeps σ (binary .sub l r) c := by
  intro v hv
  obtain ⟨m, n, hl, hr, hboth, hm, hn⟩ := sides_of_arith (by decide) hv
  obtain rfl := Option.some.inj hboth
  simp only [identity?] at h
  split at h
  · rename_i hzero
    obtain rfl := Option.some.inj h
    rw [hn 0 hzero, Int.sub_zero, hl]
  · split at h
    · rename_i hzero
      obtain rfl := Option.some.inj h
      rw [hm 0 hzero, Int.zero_sub, value?, hr]
      rfl
    · contradiction

theorem keeps_product (h : identity? .mul l r = some c) : Keeps σ (binary .mul l r) c := by
  intro v hv
  obtain ⟨m, n, hl, hr, hboth, hm, hn⟩ := sides_of_arith (by decide) hv
  obtain rfl := Option.some.inj hboth
  simp only [identity?, Bool.or_eq_true] at h
  split at h
  · rename_i hone
    obtain rfl := Option.some.inj h
    rw [hn 1 hone, Int.mul_one, hl]
  · split at h
    · rename_i hone
      obtain rfl := Option.some.inj h
      rw [hm 1 hone, Int.one_mul, hr]
    · split at h
      · rename_i hzero
        obtain rfl := Option.some.inj h
        rcases hzero with hzero | hzero
        · rw [hn 0 hzero, Int.mul_zero]
          rfl
        · rw [hm 0 hzero, Int.zero_mul]
          rfl
      · contradiction

theorem keeps_remainder (h : identity? .rem l r = some c) : Keeps σ (binary .rem l r) c := by
  intro v hv
  obtain ⟨m, n, hl, hr, hboth, hm, hn⟩ := sides_of_arith (by decide) hv
  simp only [BinOp.both?] at hboth
  split at hboth
  · contradiction
  · obtain rfl := Option.some.inj hboth
    simp only [identity?, Bool.or_eq_true] at h
    split at h
    · rename_i hside
      obtain rfl := Option.some.inj h
      rcases hside with hone | hzero
      · rw [hn 1 hone, Int.tmod_one]
        rfl
      · rw [hm 0 hzero, Int.zero_tmod]
        rfl
    · contradiction

/-- No identity changes a value. -/
theorem keeps_identity (h : identity? op l r = some c) : Keeps σ (binary op l r) c := by
  cases op with
  | add => exact keeps_sum h
  | sub => exact keeps_difference h
  | mul => exact keeps_product h
  | rem => exact keeps_remainder h
  | and => exact keeps_logical rfl h
  | or => exact keeps_logical rfl h
  | div | pow =>
    -- neither has an exact value
    intro v hv
    obtain ⟨_, _, -, -, hboth, -⟩ := sides_of_arith (by decide) hv
    contradiction
  | lt | le | eq | ne | ge | gt | other => contradiction

theorem keeps_simplifyBinary : Keeps σ (binary op l r) (simplifyBinary op l r) := by
  unfold simplifyBinary
  cases hfold : folded? op l r with
  | some c => exact keeps_folded hfold
  | none =>
    cases hidentity : identity? op l r with
    | some c => exact keeps_identity hidentity
    | none => exact fun v hv => hv

theorem keeps_simplifyUnary {op : UnOp} : Keeps σ (unary op e) (simplifyUnary op e) := by
  intro v hv
  unfold simplifyUnary
  split
  · obtain ⟨x, hx, hside⟩ := Option.bind_eq_some_iff.1 hv
    obtain ⟨n, rfl, rfl, hn⟩ := int_of_number hx
    obtain rfl := Option.some.inj hside
    have hneg : (Scalar.int (-n)).isSafe := by rwa [Scalar.isSafe, Int.natAbs_neg]
    exact value?_ofScalar hneg
  · contradiction
  · exact hv
  · exact hv

theorem IsScalar.isExp (h : IsScalar e) : IsExp .value e := by
  have hknown : ∀ op ∈ scalarOps, op ∈ BinOp.known := by decide
  induction h with
  | int n => exact .number _
  | boolean b => exact .boolean b
  | symbol _ => exact .symbol _
  | unary hop _ he => exact .unary (by rcases hop with rfl | rfl <;> decide) he
  | binary hop _ _ hl hr => exact .binary (hknown _ hop) hl hr
  | conditional _ _ _ ht hy hn => exact .conditional ht hy hn

theorem value?_conditional {test yes no : Node} {b : Bool} (h : test.value? σ = some (.bool b)) :
    (conditional test yes no).value? σ = (if b then yes else no).value? σ := by
  rw [value?, h]
  cases b <;> rfl

/-- A choice whose test has a value is simplified to one with the value of the branch that is
taken. -/
theorem value?_simplify_conditional {test yes no : Node} {b : Bool}
    (h : test.simplify.value? σ = some (.bool b)) :
    (conditional test yes no).simplify.value? σ =
    (if b then yes.simplify else no.simplify).value? σ := by
  rw [simplify]
  split
  · rename_i htest
    rw [htest] at h
    cases h
    rfl
  · rename_i htest
    rw [htest] at h
    cases h
    rfl
  · exact value?_conditional h

/-- The rules apply to sides that are simplified already: these keep their values, and so does the
rule. -/
theorem IsScalar.keeps_simplify (h : IsScalar e) : Keeps σ e e.simplify := by
  induction h with
  | int | boolean | symbol => exact fun v hv => hv
  | unary _ _ ih =>
    intro v hv
    obtain ⟨x, hx, hside⟩ := Option.bind_eq_some_iff.1 hv
    refine keeps_simplifyUnary v ?_
    rw [value?, ih x hx]
    exact hside
  | binary _ _ _ ihl ihr =>
    intro v hv
    exact keeps_simplifyBinary v (sides?_mono ihl ihr hv)
  | @conditional test yes no _ _ _ iht ihy ihn =>
    intro v hv
    rw [value?] at hv
    split at hv
    · rename_i htest
      rw [value?_simplify_conditional (iht _ htest)]
      exact ihy v hv
    · rename_i htest
      rw [value?_simplify_conditional (iht _ htest)]
      exact ihn v hv
    · contradiction

/-- An expression over integers and truth values that has an exact value is simplified to one with
the same value, and what is left to evaluate stays within the safe size. -/
theorem optimize_preserves_value (he : IsScalar e) (hv : e.value? σ = some v) :
    ∃ e', e.optimize = .ok e' ∧ e'.value? σ = some v := by
  refine ⟨e.simplify, ?_, he.keeps_simplify v hv⟩
  rw [optimize, he.isExp.fault?_eq_none]

/-- A choice between a sum at the safe limit and a product past it, by a remainder of a negative
number. -/
def guarded (p x : Symbol) : Node :=
  conditional
    (binary .and (symbol p)
      (binary .lt (binary .rem (unary .neg (number (.int 7))) (number (.int 3))) (symbol x)))
    (binary .add (number (.int 9007199254740991)) (number (.int 1)))
    (binary .mul (number (.int 9007199254740992)) (number (.int 4)))

theorem optimize_preserves_value_guarded :
    ∃ (p x : Symbol) (σ : Store Scalar), IsScalar (guarded p x) ∧
      (guarded p x).value? σ = some (.int 9007199254740992) ∧
      ∃ e', (guarded p x).optimize = .ok e' ∧ e'.value? σ = some (.int 9007199254740992) := by
  let p : Symbol := ⟨"p", 1, .var false, .declared 1⟩
  let x : Symbol := ⟨"x", 2, .var false, .declared 2⟩
  let σ : Store Scalar := Store.set (Store.set (fun _ => none) p (.bool true)) x (.int 0)
  have he : IsScalar (guarded p x) :=
    .conditional
      (.binary (by decide) (.symbol rfl)
        (.binary (by decide) (.binary (by decide) (.unary (.inl rfl) (.int 7)) (.int 3))
          (.symbol rfl)))
      (.binary (by decide) (.int _) (.int 1)) (.binary (by decide) (.int _) (.int 4))
  have hv : (guarded p x).value? σ = some (.int 9007199254740992) := by decide
  exact ⟨p, x, σ, he, hv, optimize_preserves_value he hv⟩

end Node

end Terse
