import Terse.Proofs.JavaScript.Reader
import Terse.Proofs.JavaScript.Tokens

/-! How the tokens of an expression are read, even where the reading is not the one that was
meant. -/
namespace Terse.JavaScript

/-- Marks that an expression before them takes for its own. -/
def Mark.attaches (m : Mark) : Bool :=
  m ∈ [dot, optionalDot, lbracket, lparen, increment, decrement]

/-- Marks that end an expression. -/
def Mark.closes (m : Mark) : Bool := m ∈ [rparen, rbracket, rbrace, comma, colon]

/-- What an operand stops at. -/
def Settled (ts : List Token) : Prop :=
  ts = [] ∨ ∃ m us, ts = .mark m :: us ∧ m.attaches = false ∧ m ≠ .power

/-- What an operation stops at. -/
def Complete (ts : List Token) : Prop :=
  ts = [] ∨ ∃ m us, ts = .mark m :: us ∧ (m.closes ∨ m = .question)

/-- What an expression stops at. -/
def Closed (ts : List Token) : Prop := ts = [] ∨ ∃ m us, ts = .mark m :: us ∧ m.closes

/-- No list of parameters goes on like that. -/
def NoParams (ts : List Token) : Prop := ∀ w, params? (.word w :: ts) = none

variable {ts us rest : List Token} {e : Expr} {m : Mark} {w : List Char} {r : Option Expr}

theorem length_after (us : List Token) (t : Token) (vs : List Token) :
    vs.length < (us ++ t :: vs).length := by
  rw [List.length_append, List.length_cons]
  omega

theorem length_before (t : Token) (us vs : List Token) : vs.length < (t :: us ++ vs).length := by
  rw [List.cons_append, List.length_cons, List.length_append]
  omega

theorem progress_some {α : Type} (a : α) (h : rest.length < ts.length) :
    progress ts (some (a, rest)) = some (a, ⟨rest, h⟩) := by
  simp [progress, h]

theorem progress_map {α : Type} (r : Option α) (h : rest.length < ts.length) :
    progress ts (r.map (·, rest)) = r.map (·, ⟨rest, h⟩) := by
  cases r with
  | none => rfl
  | some a => exact progress_some a h

theorem Closed.complete (h : Closed ts) : Complete ts := by
  obtain h | ⟨m, us, h, hm⟩ := h
  · exact .inl h
  · exact .inr ⟨m, us, h, .inl hm⟩

/-- What ends an operation ends an operand. -/
theorem Complete.settled (h : Complete ts) : Settled ts := by
  have hall : ∀ m : Mark, m.closes ∨ m = .question → m.attaches = false ∧ m ≠ .power := by
    intro m hm
    cases m <;> revert hm <;> simp [Mark.closes, Mark.attaches]
  obtain h | ⟨m, us, h, hm⟩ := h
  · exact .inl h
  · exact .inr ⟨m, us, h, hall m hm⟩

theorem closed_mark (us : List Token) (h : m.closes) : Closed (.mark m :: us) :=
  .inr ⟨m, us, rfl, h⟩

theorem suffixes_mark (h : m.attaches = false) :
    suffixes e (.mark m :: us) = some (e, .mark m :: us) := by
  simp only [Mark.attaches, List.mem_cons, List.not_mem_nil, or_false, decide_eq_false_iff_not,
    not_or] at h
  rw [suffixes] <;> simp [h]

theorem suffixes_settled (h : Settled ts) : suffixes e ts = some (e, ts) := by
  obtain rfl | ⟨m, us, rfl, hm, -⟩ := h
  · rw [suffixes] <;> simp
  · exact suffixes_mark hm

theorem operators_complete {level : Nat} (h : Complete ts) :
    operators level e ts = some (e, ts) := by
  obtain rfl | ⟨m, us, rfl, hm⟩ := h
  · rw [operators]
    simp
  · have hlevel : m.level? = none := by
      cases m <;> revert hm <;> simp [Mark.closes, Mark.level?]
    rw [operators, hlevel]

/-- Tokens that an expression without a sign can start with. -/
def Token.opens : Token → Bool
  | mark m => m ∈ [Mark.lparen, .lbracket, .lbrace]
  | _ => true

def Expr.signed (sign : Option Sign) (e : Expr) : Expr :=
  match sign with
  | none => e
  | some s => .unary s.mark e

/-- How the tokens after a sign are read. -/
structure Operand (ts : List Token) (r : Option Expr) : Prop where
  opens : ∃ t us, ts = t :: us ∧ t.opens
  update (rest : List Token) : update (ts ++ rest) = r.bind (suffixes · rest)

/-- How a sign and the tokens after it are read; they are not taken for the parameters of a
function. -/
structure Reads (sign : Option Sign) (ts : List Token) (r : Option Expr) : Prop
    extends Operand ts r where
  params {rest : List Token} : NoParams rest → params? (signed sign ts ++ rest) = none
  arrow (rest : List Token) : arrowHead? (signed sign ts ++ rest) = none

variable {sign : Option Sign}

theorem ne_sign_of_opens {t : Token} (h : t.opens) (hm : m = .minus ∨ m = .bang) :
    ∀ us, t :: ts = .mark m :: us → False := by
  rintro us he
  obtain ⟨rfl, -⟩ := List.cons.inj he
  obtain rfl | rfl := hm <;> contradiction

/-- An operand with nothing after it that it could be the base of. -/
theorem exponent_settled {t : Token} (h : t.opens) (hlt : rest.length < (t :: ts).length)
    (hrest : Settled rest) (hu : update (t :: ts) = r.map (·, rest)) :
    exponent (t :: ts) = r.map (·, rest) := by
  rw [exponent.eq_3 _ (ne_sign_of_opens h (.inl rfl)) (ne_sign_of_opens h (.inr rfl)), hu,
    progress_map r hlt]
  cases r with
  | none => rfl
  | some e =>
    obtain rfl | ⟨m, us, rfl, -, hm⟩ := hrest
    · rfl
    · simp only [Option.map_some, Option.bind_eq_bind, Option.bind_some]
      split
      · rename_i he _
        exact absurd (Token.mark.inj (List.cons.inj he).1) hm
      · rfl

theorem exponent_power {t : Token} (h : t.opens)
    (hlt : (Token.mark .power :: us).length < (t :: ts).length)
    (hu : update (t :: ts) = r.map (·, .mark .power :: us)) :
    exponent (t :: ts) = r.bind fun base =>
      (exponent us).map fun p => (.binary .power base p.1, p.2) := by
  rw [exponent.eq_3 _ (ne_sign_of_opens h (.inl rfl)) (ne_sign_of_opens h (.inr rfl)), hu,
    progress_map r hlt]
  cases r with
  | none => rfl
  | some e =>
    simp only [Option.map_some, Option.bind_eq_bind, Option.bind_some]
    cases exponent us <;> rfl

theorem unary_of_opens {t : Token} (h : t.opens) : unary (t :: ts) = update (t :: ts) := by
  rw [unary.eq_3 _ (ne_sign_of_opens h (.inl rfl)) (ne_sign_of_opens h (.inr rfl))]

theorem exponent_sign (s : Sign) : exponent (.mark s.mark :: ts) =
    (unary ts).map fun p => (.unary s.mark p.1, p.2) := by
  cases s <;> rw [Sign.mark, exponent] <;> cases unary ts <;> rfl

/-- An expression that is neither a function nor a choice is an operation. -/
theorem assignment_operation (ha : arrowHead? ts = none) (hlt : rest.length < ts.length)
    (hrest : Closed rest) (ho : operation 0 ts = r.map (·, rest)) :
    assignment ts = r.map (·, rest) := by
  have hnone : progress ts (arrowHead? ts) = none := by
    rw [ha]
    rfl
  rw [assignment, hnone, ho, progress_map r hlt]
  cases r with
  | none => rfl
  | some e =>
    obtain rfl | ⟨m, us, rfl, hm⟩ := hrest
    · rfl
    · have hne : m ≠ .question := by
        rintro rfl
        contradiction
      simp [hne]

namespace Operand

theorem length_lt (h : Operand ts r) (sign : Option Sign) (rest : List Token) :
    rest.length < (signed sign ts ++ rest).length := by
  obtain ⟨t, us, rfl, -⟩ := h.opens
  simp only [signed, List.length_append, List.length_cons]
  omega

theorem update_mark (h : Operand ts r) (hm : m.attaches = false) :
    JavaScript.update (ts ++ .mark m :: us) = r.map (·, .mark m :: us) := by
  rw [h.update]
  cases r with
  | none => rfl
  | some e => exact suffixes_mark hm

theorem update_settled (h : Operand ts r) (hrest : Settled rest) :
    JavaScript.update (ts ++ rest) = r.map (·, rest) := by
  rw [h.update]
  cases r with
  | none => rfl
  | some e => exact suffixes_settled hrest

theorem exponent (h : Operand ts r) (sign : Option Sign) (hrest : Settled rest) :
    exponent (signed sign ts ++ rest) = (r.map (Expr.signed sign)).map (·, rest) := by
  have hu := h.update_settled hrest
  obtain ⟨t, us, rfl, ht⟩ := h.opens
  rw [List.cons_append] at hu
  cases sign with
  | none =>
    have hsigned : signed none (t :: us) ++ rest = t :: (us ++ rest) := rfl
    have hlt : rest.length < (t :: (us ++ rest)).length := length_before t us rest
    rw [hsigned, exponent_settled ht hlt hrest hu]
    cases r <;> rfl
  | some s =>
    have hsigned : signed (some s) (t :: us) ++ rest = .mark s.mark :: t :: (us ++ rest) := rfl
    rw [hsigned, exponent_sign, unary_of_opens ht, hu]
    cases r <;> rfl

/-- The base of a power. -/
theorem exponent_power (h : Operand ts r) :
    JavaScript.exponent (ts ++ .mark .power :: us) = r.bind fun base =>
      (JavaScript.exponent us).map fun p => (.binary .power base p.1, p.2) := by
  have hu : JavaScript.update (ts ++ .mark .power :: us) = _ := h.update_mark rfl
  obtain ⟨t, vs, rfl, ht⟩ := h.opens
  exact JavaScript.exponent_power ht (length_before t vs _) hu

/-- An operand on its own is an operation, at every level. -/
theorem operation (h : Operand ts r) (level : Nat) (sign : Option Sign) (hrest : Complete rest) :
    operation level (signed sign ts ++ rest) = (r.map (Expr.signed sign)).map (·, rest) := by
  rw [JavaScript.operation, h.exponent sign hrest.settled, progress_map _ (h.length_lt sign rest)]
  cases r with
  | none => rfl
  | some e => exact operators_complete hrest

/-- An operand on its own is an expression, if it is not taken for parameters. -/
theorem assignment (h : Operand ts r) (sign : Option Sign) (hrest : Closed rest)
    (harrow : arrowHead? (signed sign ts ++ rest) = none) :
    assignment (signed sign ts ++ rest) = (r.map (Expr.signed sign)).map (·, rest) :=
  assignment_operation harrow (h.length_lt sign rest) hrest (h.operation 0 sign hrest.complete)

end Operand

theorem noParams_mark (us : List Token) (hr : m ≠ .rparen) (hc : m ≠ .comma) :
    NoParams (.mark m :: us) := by
  intro w
  rw [params?] <;> simp [hr, hc]

/-- Parentheses that no arrow follows. -/
theorem noParams_rparen (us : List Token) (hm : m ≠ .arrow) :
    NoParams (.mark .rparen :: .mark m :: us) := by
  intro w
  rw [params?] <;> simp [hm]

theorem params?_mark : params? (.mark m :: us) = none := by
  rw [params?] <;> simp

theorem arrowHead?_mark (h : m ≠ .lparen) : arrowHead? (.mark m :: us) = none := by
  rw [arrowHead?]
  simp [h]

/-- More that belongs to an operand. -/
theorem Reads.suffix {f : Expr → Option Expr} (h : Reads sign ts r) (hr : m ≠ .rparen)
    (hc : m ≠ .comma)
    (hs : ∀ e rest, suffixes e (.mark m :: (us ++ rest)) = (f e).bind (suffixes · rest)) :
    Reads sign (ts ++ .mark m :: us) (r.bind f) where
  opens := by
    obtain ⟨t, vs, rfl, ht⟩ := h.opens
    exact ⟨t, vs ++ .mark m :: us, rfl, ht⟩
  update rest := by
    rw [List.append_assoc, h.update, Option.bind_assoc, List.cons_append]
    simp only [hs]
  params {rest} _ := by
    have hsplit : signed sign (ts ++ .mark m :: us) ++ rest =
        signed sign ts ++ (.mark m :: (us ++ rest)) := by simp [signed]
    rw [hsplit]
    exact h.params (noParams_mark _ hr hc)
  arrow rest := by
    have hsplit : signed sign (ts ++ .mark m :: us) ++ rest =
        signed sign ts ++ (.mark m :: (us ++ rest)) := by simp [signed]
    rw [hsplit]
    exact h.arrow _

theorem update_primary (hp : primary ts = r.map (·, rest)) (hlt : rest.length < ts.length) :
    update ts = r.bind (suffixes · rest) := by
  rw [update, hp, progress_map r hlt]
  cases r <;> rfl

/-- A token that is an expression by itself. -/
theorem reads_token {t : Token} (ht : ∀ m, t ≠ .mark m)
    (hp : ∀ rest, primary (t :: rest) = r.map (·, rest)) : Reads none [t] r where
  opens := by
    refine ⟨t, [], rfl, ?_⟩
    cases t with
    | mark m => exact absurd rfl (ht m)
    | _ => rfl
  update rest := update_primary (hp rest) (length_before t [] rest)
  params {rest} hrest := by
    cases t with
    | word w => exact hrest w
    | mark m => exact absurd rfl (ht m)
    | _ => rfl
  arrow rest := by
    cases t with
    | mark m => exact absurd rfl (ht m)
    | _ => rfl

theorem operand_grouped (h : ∀ rest, assignment (ts ++ .mark .rparen :: rest) =
    r.map (·, .mark .rparen :: rest)) : Operand (grouped ts) (r.map .group) where
  opens := ⟨_, _, rfl, rfl⟩
  update rest := by
    have hsplit : grouped ts ++ rest = .mark .lparen :: (ts ++ .mark .rparen :: rest) := by
      simp [grouped]
    have hprimary : primary (.mark .lparen :: (ts ++ .mark .rparen :: rest)) =
        (r.map Expr.group).map (·, rest) := by
      rw [primary, h]
      cases r <;> rfl
    rw [hsplit]
    exact update_primary hprimary (length_after (.mark .lparen :: ts) _ rest)

variable {s₁ s₂ s₃ : Option Sign} {t₁ t₂ t₃ : List Token} {r₁ r₂ r₃ : Option Expr}

/-- What a sign and the tokens after it are read as. -/
def whole (sign : Option Sign) (r : Option Expr) : Option Expr := r.map (Expr.signed sign)

theorem whole_none (r : Option Expr) : whole none r = r := by cases r <;> rfl

/-- A sign and its operand are read as an expression up to where it closes. -/
theorem Reads.assignment (h : Reads sign ts r) (hrest : Closed rest) :
    assignment (signed sign ts ++ rest) = (whole sign r).map (·, rest) :=
  h.toOperand.assignment sign hrest (h.arrow rest)

theorem Reads.grouped (h : Reads sign ts r) :
    Operand (grouped (signed sign ts)) ((whole sign r).map .group) :=
  operand_grouped fun rest => h.assignment (closed_mark rest rfl)

theorem reads_signed (s : Sign) (h : Reads sign ts r) :
    Reads (some s) (JavaScript.grouped (signed sign ts)) ((whole sign r).map .group) where
  toOperand := h.grouped
  params _ := params?_mark
  arrow _ := arrowHead?_mark (by cases s <;> simp [Sign.mark])

theorem reads_grouped (h : ∀ rest, JavaScript.assignment (ts ++ .mark .rparen :: rest) =
      r.map (·, .mark .rparen :: rest))
    (hp : ∀ rest, params? (ts ++ .mark .rparen :: rest) = none) :
    Reads none (JavaScript.grouped ts) (r.map .group) where
  toOperand := operand_grouped h
  params _ := params?_mark
  arrow rest := by
    have hsplit : signed none (JavaScript.grouped ts) ++ rest =
        .mark .lparen :: (ts ++ .mark .rparen :: rest) := by simp [signed, JavaScript.grouped]
    rw [hsplit, arrowHead?, hp]

/-- An operation of two operands, where the operator is none of powers. -/
theorem assignment_binary {level : Nat} (hm : m.level? = some level) (hl : Reads s₁ t₁ r₁)
    (hr : Reads s₂ t₂ r₂) (hrest : Closed rest) :
    assignment (signed s₁ t₁ ++ .mark m :: (signed s₂ t₂ ++ rest)) =
      ((whole s₁ r₁).bind fun l => (whole s₂ r₂).map (.binary m l)).map (·, rest) := by
  have hmark : m.attaches = false ∧ m ≠ .power := by
    cases m <;> revert hm <;> simp [Mark.level?, Mark.attaches]
  have hlt : rest.length < (signed s₁ t₁ ++ .mark m :: (signed s₂ t₂ ++ rest)).length := by
    rw [List.length_append, List.length_cons, List.length_append]
    omega
  refine assignment_operation (hl.arrow _) hlt hrest ?_
  rw [operation, hl.toOperand.exponent s₁ (.inr ⟨m, _, rfl, hmark⟩),
    progress_map _ (hl.length_lt s₁ _)]
  cases r₁ with
  | none => rfl
  | some l =>
    have hright : operation (level + 1) (signed s₂ t₂ ++ rest) = (whole s₂ r₂).map (·, rest) :=
      hr.toOperand.operation _ s₂ hrest.complete
    simp only [whole, Option.map_some, Option.bind_some, Option.bind_eq_bind]
    rw [operators, hm]
    simp only [Nat.zero_le, if_true, hright, progress_map _ (hr.length_lt s₂ rest)]
    cases r₂ with
    | none => rfl
    | some r => exact operators_complete hrest.complete

theorem assignment_power (hl : Operand t₁ r₁)
    (ha : arrowHead? (t₁ ++ .mark .power :: (signed s₂ t₂ ++ rest)) = none) (hr : Reads s₂ t₂ r₂)
    (hrest : Closed rest) :
    assignment (t₁ ++ .mark .power :: (signed s₂ t₂ ++ rest)) =
      (r₁.bind fun l => (whole s₂ r₂).map (.binary .power l)).map (·, rest) := by
  have hlt : rest.length < (t₁ ++ .mark .power :: (signed s₂ t₂ ++ rest)).length := by
    rw [List.length_append, List.length_cons, List.length_append]
    omega
  have hpower : exponent (t₁ ++ .mark .power :: (signed s₂ t₂ ++ rest)) =
      (r₁.bind fun l => (whole s₂ r₂).map (.binary .power l)).map (·, rest) := by
    rw [hl.exponent_power, hr.toOperand.exponent s₂ hrest.complete.settled, whole]
    cases r₁ <;> cases r₂ <;> rfl
  refine assignment_operation ha hlt hrest ?_
  rw [operation, hpower, progress_map _ hlt]
  generalize (r₁.bind fun l => (whole s₂ r₂).map (Expr.binary .power l)) = r
  cases r with
  | none => rfl
  | some e => exact operators_complete hrest.complete

/-- A binary operation in parentheses, at whatever level its operator is. -/
theorem reads_binary {level : Nat} (hm : m.level? = some level) (hl : Reads s₁ t₁ r₁)
    (hr : Reads s₂ t₂ r₂) :
    Reads none (grouped (signed s₁ t₁ ++ .mark m :: signed s₂ t₂))
      (((whole s₁ r₁).bind fun l => (whole s₂ r₂).map (.binary m l)).map .group) := by
  have hmark : m ≠ .rparen ∧ m ≠ .comma := by
    cases m <;> revert hm <;> simp [Mark.level?]
  have hsplit (rest : List Token) : (signed s₁ t₁ ++ .mark m :: signed s₂ t₂) ++ rest =
      signed s₁ t₁ ++ .mark m :: (signed s₂ t₂ ++ rest) := by simp
  refine reads_grouped (fun rest => ?_) fun rest => ?_
  · rw [hsplit]
    exact assignment_binary hm hl hr (closed_mark rest rfl)
  · rw [hsplit]
    exact hl.params (noParams_mark _ hmark.1 hmark.2)

/-- A power in parentheses, where no sign stands before its base. -/
theorem reads_power (hl : Reads none t₁ r₁) (hr : Reads s₂ t₂ r₂) :
    Reads none (grouped (t₁ ++ .mark .power :: signed s₂ t₂))
      ((r₁.bind fun l => (whole s₂ r₂).map (.binary .power l)).map .group) := by
  have hsplit (rest : List Token) : (t₁ ++ .mark .power :: signed s₂ t₂) ++ rest =
      t₁ ++ .mark .power :: (signed s₂ t₂ ++ rest) := by simp
  refine reads_grouped (fun rest => ?_) fun rest => ?_
  · rw [hsplit]
    exact assignment_power hl.toOperand (hl.arrow _) hr (closed_mark rest rfl)
  · rw [hsplit]
    exact hl.params (noParams_mark _ (by simp) (by simp))

/-- A base with a sign stands in parentheses of its own. -/
theorem reads_signed_power {s : Sign} (hl : Reads (some s) t₁ r₁) (hr : Reads s₂ t₂ r₂) :
    Reads none (grouped (grouped (signed (some s) t₁) ++ .mark .power :: signed s₂ t₂))
      (((whole (some s) r₁).bind fun l =>
        (whole s₂ r₂).map (.binary .power (.group l))).map .group) := by
  have hbase : Reads none (grouped (signed (some s) t₁)) ((whole (some s) r₁).map .group) :=
    reads_grouped (fun rest => hl.assignment (closed_mark rest rfl)) fun _ => params?_mark
  have h := reads_power hbase hr
  rwa [Option.bind_map] at h

theorem arrowHead?_grouped :
    arrowHead? (grouped ts ++ rest) = params? (ts ++ .mark .rparen :: rest) := by
  have hsplit : grouped ts ++ rest = .mark .lparen :: (ts ++ .mark .rparen :: rest) := by
    simp [grouped]
  rw [hsplit, arrowHead?]

/-- A part of a choice, which stands in parentheses. -/
theorem assignment_grouped (h : Reads sign ts r) (hm : m.closes) :
    assignment (grouped (signed sign ts) ++ .mark m :: us) =
      ((whole sign r).map .group).map (·, .mark m :: us) := by
  have hne : m ≠ .arrow := by
    rintro rfl
    contradiction
  have harrow : arrowHead? (grouped (signed sign ts) ++ .mark m :: us) = none := by
    rw [arrowHead?_grouped]
    exact h.params (noParams_rparen us hne)
  have ha := h.grouped.assignment none (closed_mark us hm) harrow
  rwa [← whole, whole_none] at ha

/-- A test and the two values after it. -/
theorem assignment_question {vs : List Token} (ha : arrowHead? ts = none)
    (hlt : (Token.mark .question :: us).length < ts.length)
    (hlt' : (Token.mark .colon :: vs).length < us.length)
    (ht : operation 0 ts = r₁.map (·, .mark .question :: us))
    (hy : assignment us = r₂.map (·, .mark .colon :: vs))
    (hn : assignment vs = r₃.map (·, rest)) :
    assignment ts =
      (r₁.bind fun t => r₂.bind fun y => r₃.map fun n => .conditional t y n).map (·, rest) := by
  have hnone : progress ts (arrowHead? ts) = none := by
    rw [ha]
    rfl
  rw [assignment, hnone, ht, progress_map r₁ hlt]
  cases r₁ with
  | none => rfl
  | some t =>
    simp only [Option.map_some, Option.bind_some, Option.bind_eq_bind, hy, progress_map r₂ hlt']
    cases r₂ with
    | none => rfl
    | some y =>
      simp only [Option.map_some, Option.bind_some, hn]
      cases r₃ <;> rfl

/-- A choice with all its parts in parentheses. -/
theorem assignment_conditional (ht : Reads s₁ t₁ r₁) (hy : Reads s₂ t₂ r₂) (hn : Reads s₃ t₃ r₃)
    (hm : m.closes) :
    assignment (grouped (signed s₁ t₁) ++ .mark .question :: (grouped (signed s₂ t₂) ++
      .mark .colon :: (grouped (signed s₃ t₃) ++ .mark m :: us))) =
      ((whole s₁ r₁).bind fun t => (whole s₂ r₂).bind fun y => (whole s₃ r₃).map fun n =>
        .conditional (.group t) (.group y) (.group n)).map (·, .mark m :: us) := by
  have hquestion (us : List Token) : Complete (.mark .question :: us) := .inr ⟨_, us, rfl, .inr rfl⟩
  have harrow (us : List Token) :
      arrowHead? (grouped (signed s₁ t₁) ++ .mark .question :: us) = none := by
    rw [arrowHead?_grouped]
    exact ht.params (noParams_rparen _ (by simp))
  refine (assignment_question (harrow _) (ht.grouped.length_lt none _)
    (hy.grouped.length_lt none _) (ht.grouped.operation 0 none (hquestion _))
    (assignment_grouped hy rfl) (assignment_grouped hn hm)).trans ?_
  cases whole s₁ r₁ <;> cases whole s₂ r₂ <;> cases whole s₃ r₃ <;> rfl

theorem reads_conditional (ht : Reads s₁ t₁ r₁) (hy : Reads s₂ t₂ r₂) (hn : Reads s₃ t₃ r₃) :
    Reads none (grouped (grouped (signed s₁ t₁) ++ .mark .question ::
      (grouped (signed s₂ t₂) ++ .mark .colon :: grouped (signed s₃ t₃))))
      (((whole s₁ r₁).bind fun t => (whole s₂ r₂).bind fun y => (whole s₃ r₃).map fun n =>
        .conditional (.group t) (.group y) (.group n)).map .group) := by
  have hsplit (rest : List Token) : (grouped (signed s₁ t₁) ++ .mark .question ::
      (grouped (signed s₂ t₂) ++ .mark .colon :: grouped (signed s₃ t₃))) ++ rest =
      grouped (signed s₁ t₁) ++ .mark .question :: (grouped (signed s₂ t₂) ++
        .mark .colon :: (grouped (signed s₃ t₃) ++ rest)) := by simp
  refine reads_grouped (fun rest => ?_) fun rest => ?_
  · rw [hsplit]
    exact assignment_conditional ht hy hn rfl
  · rw [hsplit]
    exact params?_mark

/-! ### Accesses, increments and calls -/

namespace Expr

/-- Nothing can be asked of an increment. -/
def access (optional : Bool) (name : List Char) (e : Expr) : Option Expr :=
  if e.isUpdate then none else some (.member e optional name)

def at? (i : Option Expr) (e : Expr) : Option Expr := if e.isUpdate then none else i.map (.index e)

def call? (args : Option (List Expr)) (e : Expr) : Option Expr :=
  if e.isUpdate then none else args.map (.call e)

def bump (op : Mark) (e : Expr) : Option Expr := if e.isTarget then some (.update op e) else none

end Expr

theorem Reads.access (h : Reads sign ts r) (name : List Char) :
    Reads sign (ts ++ [.mark .dot, .word name]) (r.bind (Expr.access false name)) := by
  refine h.suffix (by simp) (by simp) fun e rest => ?_
  rw [List.singleton_append, suffixes, Expr.access]
  split <;> rfl

theorem Reads.optionalAccess (h : Reads sign ts r) (name : List Char) :
    Reads sign (ts ++ [.mark .optionalDot, .word name]) (r.bind (Expr.access true name)) := by
  refine h.suffix (by simp) (by simp) fun e rest => ?_
  rw [List.singleton_append, suffixes, Expr.access]
  split <;> rfl

theorem Reads.increment (h : Reads sign ts r) :
    Reads sign (ts ++ [.mark .increment]) (r.bind (Expr.bump .increment)) := by
  refine h.suffix (by simp) (by simp) fun e rest => ?_
  rw [List.nil_append, suffixes, Expr.bump]
  split <;> rfl

theorem Reads.decrement (h : Reads sign ts r) :
    Reads sign (ts ++ [.mark .decrement]) (r.bind (Expr.bump .decrement)) := by
  refine h.suffix (by simp) (by simp) fun e rest => ?_
  rw [List.nil_append, suffixes, Expr.bump]
  split <;> rfl

theorem Reads.index (h : Reads sign ts r) (hi : Reads s₁ t₁ r₁) :
    Reads sign (ts ++ .mark .lbracket :: (signed s₁ t₁ ++ [.mark .rbracket]))
      (r.bind (Expr.at? (whole s₁ r₁))) := by
  refine h.suffix (by simp) (by simp) fun e rest => ?_
  rw [List.append_assoc, List.singleton_append, suffixes, Expr.at?,
    hi.assignment (closed_mark rest rfl), progress_map _ (hi.length_lt s₁ _)]
  split
  · rfl
  · cases whole s₁ r₁ <;> rfl

/-! ### Lists -/

/-- What stands between two commas. -/
structure Listed (close : Mark) (ts : List Token) (r : Option Expr) : Prop where
  head : ∃ t us, ts = t :: us ∧ t ≠ .mark close
  item {rest : List Token} : Closed rest → item close (ts ++ rest) = r.map (·, rest)

/-- All of them, if none is missing. -/
def gather : List (Option Expr) → Option (List Expr)
  | [] => some []
  | r :: rs => r.bind fun e => (gather rs).map (e :: ·)

theorem items_last {close : Mark} (h : Listed close ts r) (hclose : close.closes)
    (hcomma : close ≠ .comma) :
    items close (ts ++ .mark close :: rest) = r.map ([·], rest) := by
  have hitem := h.item (closed_mark rest hclose)
  obtain ⟨t, us, rfl, ht⟩ := h.head
  rw [items, hitem, if_neg (by simpa using ht), progress_map r (length_before t us _)]
  cases r with
  | none => rfl
  | some e =>
    simp only [Option.map_some, Option.bind_eq_bind, Option.bind_some, if_true]
    rfl

theorem items_cons {close : Mark} (h : Listed close ts r) :
    items close (ts ++ .mark .comma :: us) = r.bind fun e =>
      (items close us).map fun p => (e :: p.1, p.2) := by
  have hitem := h.item (closed_mark us (show Mark.comma.closes from rfl))
  obtain ⟨t, ts, rfl, ht⟩ := h.head
  rw [items, hitem, if_neg (by simpa using ht), progress_map r (length_before t ts _)]
  cases r with
  | none => rfl
  | some e =>
    simp only [Option.map_some, Option.bind_eq_bind, Option.bind_some]
    cases items close us <;> rfl

/-- Items between commas are read one by one, to the mark that closes the list. -/
theorem items_commas {close : Mark} {tss : List (List Token)} {rs : List (Option Expr)}
    (h : List.Forall₂ (Listed close) tss rs) (hclose : close.closes) (hcomma : close ≠ .comma) :
    items close (commas tss ++ .mark close :: rest) = (gather rs).map (·, rest) := by
  induction h with
  | nil =>
    rw [items]
    simp [commas, gather]
  | @cons ts r tss rs h hs ih =>
    cases hs with
    | nil =>
      rw [commas, items_last h hclose hcomma]
      cases r <;> rfl
    | @cons ts' r' tss rs h' hs =>
      rw [commas.eq_3 _ _ (by simp), List.append_assoc, List.cons_append, items_cons h, ih]
      cases r with
      | none => rfl
      | some e =>
        have hsequence : gather (some e :: r' :: rs) = (gather (r' :: rs)).map (e :: ·) := rfl
        rw [hsequence]
        cases gather (r' :: rs) <;> rfl

/-- An expression in a list starts with no mark that could close it. -/
theorem Reads.item {close : Mark} (h : Reads sign ts r)
    (hclose : close = .rparen ∨ close = .rbracket) :
    Listed close (signed sign ts) (whole sign r) where
  head := by
    obtain ⟨t, us, rfl, ht⟩ := h.opens
    cases sign with
    | none =>
      refine ⟨t, us, rfl, ?_⟩
      rintro rfl
      obtain rfl | rfl := hclose <;> contradiction
    | some s =>
      refine ⟨.mark s.mark, t :: us, rfl, ?_⟩
      obtain rfl | rfl := hclose <;> cases s <;> simp [Sign.mark]
  item hrest := by
    have hne : close ≠ .rbrace := by
      rintro rfl
      simp at hclose
    rw [JavaScript.item.eq_def, if_neg hne, h.assignment hrest]

/-- A key, a colon and an expression are an entry of an object. -/
theorem item_entry {key : Token} (hkey : (∃ w, key = .word w) ∨ ∃ w, key = .string w)
    (h : Reads sign ts r) :
    Listed .rbrace (key :: .mark .colon :: signed sign ts) ((whole sign r).map (.entry key)) where
  head := by
    refine ⟨key, _, rfl, ?_⟩
    rintro rfl
    simp at hkey
  item {rest} hrest := by
    have ha := h.assignment hrest
    obtain ⟨w, rfl⟩ | ⟨w, rfl⟩ := hkey
    all_goals
      rw [List.cons_append, List.cons_append, JavaScript.item, if_pos rfl]
      simp only [ha]
      cases whole sign r <;> rfl

/-- A list in brackets of its own. -/
theorem reads_listed {opener close : Mark} {build : List Expr → Expr} {tss : List (List Token)}
    {rs : List (Option Expr)} (hopens : (Token.mark opener).opens) (hclose : close.closes)
    (hcomma : close ≠ .comma) (hparen : opener ≠ .lparen)
    (hprimary : ∀ us, primary (.mark opener :: us) =
      (items close us).map fun p => (build p.1, p.2))
    (h : List.Forall₂ (Listed close) tss rs) :
    Reads none (.mark opener :: (commas tss ++ [.mark close])) ((gather rs).map build) where
  opens := ⟨_, _, rfl, hopens⟩
  update rest := by
    have hsplit : .mark opener :: (commas tss ++ [.mark close]) ++ rest =
        .mark opener :: (commas tss ++ .mark close :: rest) := by simp
    have hread : primary (.mark opener :: (commas tss ++ .mark close :: rest)) =
        ((gather rs).map build).map (·, rest) := by
      rw [hprimary, items_commas h hclose hcomma]
      cases gather rs <;> rfl
    rw [hsplit]
    exact update_primary hread (length_after (.mark opener :: commas tss) _ rest)
  params _ := params?_mark
  arrow _ := arrowHead?_mark hparen

theorem reads_array {tss : List (List Token)} {rs : List (Option Expr)}
    (h : List.Forall₂ (Listed .rbracket) tss rs) :
    Reads none (.mark .lbracket :: (commas tss ++ [.mark .rbracket]))
      ((gather rs).map .array) := by
  refine reads_listed rfl rfl (by simp) (by simp) (fun us => ?_) h
  rw [primary]
  cases items .rbracket us <;> rfl

theorem reads_object {tss : List (List Token)} {rs : List (Option Expr)}
    (h : List.Forall₂ (Listed .rbrace) tss rs) :
    Reads none (.mark .lbrace :: (commas tss ++ [.mark .rbrace]))
      ((gather rs).map .object) := by
  refine reads_listed rfl rfl (by simp) (by simp) (fun us => ?_) h
  rw [primary]
  cases items .rbrace us <;> rfl

/-- A list in parentheses after an operand is a call. -/
theorem Reads.call {tss : List (List Token)} {rs : List (Option Expr)} (h : Reads sign ts r)
    (hs : List.Forall₂ (Listed .rparen) tss rs) :
    Reads sign (ts ++ .mark .lparen :: (commas tss ++ [.mark .rparen]))
      (r.bind (Expr.call? (gather rs))) := by
  refine h.suffix (by simp) (by simp) fun e rest => ?_
  rw [List.append_assoc, List.singleton_append, suffixes, Expr.call?,
    items_commas hs rfl (by simp), progress_map _ (length_after (commas tss) _ rest)]
  split
  · rfl
  · cases gather rs <;> rfl

/-! ### Atoms -/

theorem reads_word (hw : ofWord w = some e) : Reads none [.word w] (some e) :=
  reads_token (by simp) fun rest => (primary.eq_1 w rest).trans (by simp [hw])

theorem reads_number (w : List Char) : Reads none [.number w] (some (.number w)) :=
  reads_token (by simp) fun rest => primary.eq_2 w rest

theorem reads_string (w : List Char) : Reads none [.string w] (some (.string w)) :=
  reads_token (by simp) fun rest => primary.eq_3 w rest

theorem reads_malformed : Reads none [.malformed] none :=
  reads_token (by simp) fun rest => by rw [primary] <;> simp

/-- A function of two parameters that gives the result of an operation. -/
theorem item_arrow (p q : List Char) {level : Nat} (hm : m.level? = some level)
    (hl : Reads s₁ t₁ r₁) (hr : Reads s₂ t₂ r₂) :
    Listed .rparen (.mark .lparen :: .word p :: .mark .comma :: .word q :: .mark .rparen ::
      .mark .arrow :: (signed s₁ t₁ ++ .mark m :: signed s₂ t₂))
      (((whole s₁ r₁).bind fun l => (whole s₂ r₂).map (.binary m l)).map (.arrow [p, q])) where
  head := ⟨_, _, rfl, by simp⟩
  item {rest} hrest := by
    have hsplit : .mark .lparen :: .word p :: .mark .comma :: .word q :: .mark .rparen ::
        .mark .arrow :: (signed s₁ t₁ ++ .mark m :: signed s₂ t₂) ++ rest =
        .mark .lparen :: .word p :: .mark .comma :: .word q :: .mark .rparen :: .mark .arrow ::
        (signed s₁ t₁ ++ .mark m :: (signed s₂ t₂ ++ rest)) := by simp
    have harrow (ts : List Token) : arrowHead? (.mark .lparen :: .word p :: .mark .comma ::
        .word q :: .mark .rparen :: .mark .arrow :: ts) = some ([p, q], ts) := rfl
    have hlt (ts : List Token) : ts.length < (.mark .lparen :: .word p :: .mark .comma ::
        .word q :: .mark .rparen :: .mark .arrow :: ts).length := by
      simp only [List.length_cons]
      omega
    rw [hsplit, item.eq_def, if_neg (by simp), assignment, harrow, progress_some _ (hlt _)]
    simp only [assignment_binary hm hl hr hrest]
    cases (whole s₁ r₁).bind fun l => (whole s₂ r₂).map (Expr.binary m l) <;> rfl

/-- The product of the numbers from one on. -/
def factorialExpr (e : Expr) : Expr :=
  .call (.member (.call (.member (.ident "Array".toList) false "from".toList)
    [.object [.entry (word "length") e],
      .arrow ["_".toList, "i".toList] (.binary .plus (.ident "i".toList) (.number ['1']))]) false
    "reduce".toList)
    [.arrow ["a".toList, "b".toList] (.binary .times (.ident "a".toList) (.ident "b".toList)),
      .number ['1']]

theorem reads_ident (w : String) (h : ofWord w.toList = some (.ident w.toList)) :
    Reads none [word w] (some (.ident w.toList)) := reads_word h

/-- The text of a factorial is read as the product of the numbers from one on. -/
theorem reads_factorial (h : Reads sign ts r) :
    Reads none (factorialTokens (signed sign ts)) ((whole sign r).map factorialExpr) := by
  have hobject := reads_object (.cons (item_entry (.inl ⟨"length".toList, rfl⟩) h) .nil)
  have hstep := item_arrow "_".toList "i".toList (m := .plus) rfl (reads_ident "i" rfl)
    (reads_number ['1'])
  have hproduct := item_arrow "a".toList "b".toList (m := .times) rfl (reads_ident "a" rfl)
    (reads_ident "b" rfl)
  have hrow := ((reads_ident "Array" rfl).access "from".toList).call
    (.cons (hobject.item (.inl rfl)) (.cons hstep .nil))
  have hall := (hrow.access "reduce".toList).call
    (.cons hproduct (.cons ((reads_number ['1']).item (.inl rfl)) .nil))
  convert hall using 1
  · simp [factorialTokens, commas, signed, word]
  · cases whole sign r <;> rfl

end Terse.JavaScript
