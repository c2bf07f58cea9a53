import Terse.Proofs.JavaScript.Expression
import Terse.Proofs.Emit.Total

/-! Which expressions are read back as they were meant. -/
namespace Terse

open JavaScript (Expr whole gather ofWord)

namespace Node

/-! ### What is meant -/

mutual

/-- The operator tree that an expression stands for. -/
@[simp] def translate : Node → Expr
  | conditional test yes no => .conditional (translate test) (translate yes) (translate no)
  | binary op left right => .binary op.mark (translate left) (translate right)
  | unary op e =>
    match op with
    | .neg => .unary .minus (translate e)
    | .not => .unary .bang (translate e)
    | .length => .member (translate e) false "length".toList
    | .incr => .update .increment (translate e)
    | .decr => .update .decrement (translate e)
    | .fact => JavaScript.factorialExpr (translate e)
    | .other _ => translate e
  | array es => .array (translateAll es)
  | dict es => .object (translateAll es)
  | dictItem key e => .entry (.string (Text.ofString key).keyChars) (translate e)
  | member object access name => .member (translate object) (access = "?.") name.toList
  | subscript collection index => .index (translate collection) (translate index)
  | call f args => .call (translate f) (translateAll args)
  | number a => .signed (sign (number a)) (.number a.sizeChars)
  | string t => .string t.literalChars
  | boolean b => .boolean b
  | symbol s => s.expr
  | _ => .ident []
termination_by structural n => n

@[simp] def translateAll : List Node → List Expr
  | [] => []
  | e :: es => translate e :: translateAll es
termination_by structural es => es

end

/-- An access before may cut the rest of the chain short. -/
def isChained : Node → Bool
  | member object access _ => access = "?." || isChained object
  | subscript collection _ => isChained collection
  | unary op e =>
    match op with
    | .length => isChained e
    | _ => false
  | _ => false
termination_by structural n => n

def isIncrement : Node → Bool
  | unary .incr _ | unary .decr _ => true
  | _ => false

/-- What the target language can assign to. -/
def isAssignable : Node → Bool
  | symbol _ => true
  | member object access _ => access ≠ "?." && !isChained object
  | subscript collection _ => !isChained collection
  | unary .length e => !isChained e
  | _ => false

/-- An access may follow: it would take a sign before the text for less than it is, and it may not
follow an increment. -/
def isTight (e : Node) : Bool := e.sign.isNone && !e.isIncrement

mutual

/-- The text of an expression groups as it should. -/
@[simp] def isGrouped : Node → Bool
  | conditional test yes no => isGrouped test && isGrouped yes && isGrouped no
  | binary _ left right => isGrouped left && isGrouped right
  | unary op e =>
    isGrouped e &&
      match op with
      | .length => e.isTight && !e.isBare
      | .incr | .decr => e.isTight && e.isAssignable
      | _ => true
  | array es | dict es => areGrouped es
  | dictItem _ e => isGrouped e
  | member object access _ =>
    isGrouped object && object.isTight && (access = "?." || !object.isBare)
  | subscript collection index =>
    isGrouped collection && collection.isTight && isGrouped index
  | call _ args => areGrouped args
  | number a => a.isFinite
  | string _ | boolean _ | symbol _ => true
  | _ => false
termination_by structural n => n

@[simp] def areGrouped : List Node → Bool
  | [] => true
  | e :: es => isGrouped e && areGrouped es
termination_by structural es => es

end

/-! ### Where the two agree -/

/-- The text is read as what is meant. -/
def IsMeant (e : Node) : Prop := (whole e.sign e.reading).map Expr.ungroup = some e.translate

theorem ungroup_signed (sign : Option JavaScript.Sign) (x : Expr) :
    (x.signed sign).ungroup = x.ungroup.signed sign := by
  cases sign <;> rfl

/-- A text that starts with a sign is read as an operation of that sign. -/
theorem isMeant_iff {e : Node} (h : ∀ s y, e.translate ≠ .unary s y) :
    e.IsMeant ↔ e.sign = none ∧ e.reading.map Expr.ungroup = some e.translate := by
  unfold IsMeant
  cases hs : e.sign with
  | none => simp [JavaScript.whole_none]
  | some s =>
    simp only [reduceCtorEq, false_and, iff_false]
    intro he
    obtain ⟨x, hx, hu⟩ := Option.map_eq_some_iff.1 he
    obtain ⟨y, -, rfl⟩ := Option.map_eq_some_iff.1 hx
    rw [ungroup_signed] at hu
    exact h _ _ hu.symm

variable {e test yes no left right : Node} {x : Expr} {es : List Node}

theorem isMeant_conditional :
    (conditional test yes no).IsMeant ↔ test.IsMeant ∧ yes.IsMeant ∧ no.IsMeant := by
  simp only [IsMeant, reading, translate, sign, JavaScript.whole_none]
  cases whole test.sign test.reading <;> cases whole yes.sign yes.reading <;>
    cases whole no.sign no.reading <;> simp

theorem isMeant_binary {op : BinOp} :
    (binary op left right).IsMeant ↔ left.IsMeant ∧ right.IsMeant := by
  simp only [IsMeant, reading, translate, sign, JavaScript.whole_none]
  cases whole left.sign left.reading <;> cases whole right.sign right.reading <;>
    split <;> simp

theorem isMeant_neg : (unary .neg e).IsMeant ↔ e.IsMeant := by
  simp only [IsMeant, reading, translate, sign]
  cases whole e.sign e.reading <;>
    simp [whole, Expr.signed, JavaScript.Sign.mark]

theorem isMeant_not : (unary .not e).IsMeant ↔ e.IsMeant := by
  simp only [IsMeant, reading, translate, sign]
  cases whole e.sign e.reading <;>
    simp [whole, Expr.signed, JavaScript.Sign.mark]

theorem isMeant_fact : (unary .fact e).IsMeant ↔ e.IsMeant := by
  simp only [IsMeant, reading, translate, sign, JavaScript.whole_none]
  cases whole e.sign e.reading <;>
    simp [JavaScript.factorialExpr]

theorem isMeant_dictItem {key : String} : (dictItem key e).IsMeant ↔ e.IsMeant := by
  simp only [IsMeant, reading, translate, sign, JavaScript.whole_none]
  cases whole e.sign e.reading <;> simp

/-- A list is read as it is meant if all of its elements are. -/
theorem areMeant_iff : (gather (readings es)).map Expr.ungroupAll = some (translateAll es) ↔
    ∀ e ∈ es, e.IsMeant := by
  induction es with
  | nil => simp [gather]
  | cons e es ih =>
    rw [List.forall_mem_cons, ← ih, IsMeant, readings, gather, translateAll]
    cases whole e.sign e.reading <;> cases gather (readings es) <;> simp

theorem isMeant_array : (array es).IsMeant ↔ ∀ e ∈ es, e.IsMeant := by
  rw [← areMeant_iff]
  simp only [IsMeant, reading, translate, sign, JavaScript.whole_none]
  cases gather (readings es) <;> simp

theorem isMeant_dict : (dict es).IsMeant ↔ ∀ e ∈ es, e.IsMeant := by
  rw [← areMeant_iff]
  simp only [IsMeant, reading, translate, sign, JavaScript.whole_none]
  cases gather (readings es) <;> simp

theorem isMeant_number (a : Number) : (number a).IsMeant ↔ a.isFinite := by
  unfold IsMeant
  rw [reading]
  by_cases h : a.isFinite
  · simp only [h, if_true, whole, Option.map_some, ungroup_signed, translate, Expr.ungroup]
  · rw [if_neg h, ofWord_sizeChars (Bool.eq_false_iff.2 h), iff_false_right h]
    simp only [whole, Option.map_some, ungroup_signed, translate, Expr.ungroup]
    cases sign (number a) <;> simp [Expr.signed]

/-! ### Names -/

theorem path_induction {P : Expr → Prop} (hident : ∀ w, P (.ident w))
    (hmember : ∀ x w, P x → P (.member x false w)) (s : Symbol) : P s.expr := by
  have hfold (ws : List (List Char)) (x : Expr) (hx : P x) :
      P (ws.foldl (fun e w => .member e false w) x) := by
    induction ws generalizing x with
    | nil => exact hx
    | cons w ws ih => exact ih _ (hmember x w hx)
  unfold Symbol.expr
  split
  · exact hident _
  · exact hfold _ _ (hident _)

theorem ungroup_symbol (s : Symbol) : s.expr.ungroup = s.expr :=
  path_induction (P := fun x => x.ungroup = x) (fun _ => rfl)
    (fun x w hx => by rw [Expr.ungroup, hx]) s

theorem isUpdate_symbol (s : Symbol) : s.expr.isUpdate = false :=
  path_induction (P := fun x => x.isUpdate = false) (fun _ => rfl) (fun _ _ _ => rfl) s

theorem inChain_symbol (s : Symbol) : s.expr.inChain = false :=
  path_induction (P := fun x => x.inChain = false) (fun _ => rfl) (fun _ _ hx => hx) s

theorem isTarget_symbol (s : Symbol) : s.expr.isTarget :=
  have h : s.expr.isTarget ∧ s.expr.inChain = false :=
    path_induction (P := fun x => x.isTarget ∧ x.inChain = false) (fun _ => ⟨rfl, rfl⟩)
      (fun x w hx => by simp [Expr.isTarget, Expr.inChain, hx.2]) s
  h.1

theorem isMeant_symbol (s : Symbol) : (symbol s).IsMeant := by
  simp [IsMeant, JavaScript.whole_none, ungroup_symbol]

theorem isMeant_call {f : Symbol} : (call (symbol f) es).IsMeant ↔ ∀ e ∈ es, e.IsMeant := by
  rw [← areMeant_iff]
  simp only [IsMeant, reading, translate, sign, JavaScript.whole_none, Option.bind_some,
    Expr.call?, isUpdate_symbol]
  cases gather (readings es) <;> simp [ungroup_symbol]

/-! ### Accesses and increments -/

/-- A point after a whole number belongs to the number, and after anything else to an access. -/
theorem exists_of_accessReading {r : Option Expr} {name : List Char}
    (hx : accessReading e r name = some x) :
    (e.isBare ∧ ∃ text, x = .number text) ∨
      e.isBare = false ∧ r.bind (Expr.access false name) = some x := by
  unfold accessReading at hx
  split at hx
  · refine .inl ⟨rfl, ?_⟩
    split at hx
    · exact ⟨_, (Option.some.inj hx).symm⟩
    · contradiction
  · rename_i hne
    refine .inr ⟨?_, hx⟩
    unfold isBare
    split
    · exact absurd rfl (hne _)
    · rfl

theorem exists_of_access {r : Option Expr} {o : Bool} {name : List Char}
    (hx : r.bind (Expr.access o name) = some x) :
    ∃ y, r = some y ∧ y.isUpdate = false ∧ x = .member y o name := by
  obtain ⟨y, rfl, hy⟩ := Option.bind_eq_some_iff.1 hx
  unfold Expr.access at hy
  split at hy
  · contradiction
  · rename_i hu
    exact ⟨y, rfl, Bool.eq_false_iff.2 hu, (Option.some.inj hy).symm⟩

theorem exists_of_at? {r i : Option Expr} (hx : r.bind (Expr.at? i) = some x) :
    ∃ y z, r = some y ∧ i = some z ∧ y.isUpdate = false ∧ x = .index y z := by
  obtain ⟨y, rfl, hy⟩ := Option.bind_eq_some_iff.1 hx
  unfold Expr.at? at hy
  split at hy
  · contradiction
  · rename_i hu
    obtain ⟨z, rfl, rfl⟩ := Option.map_eq_some_iff.1 hy
    exact ⟨y, z, rfl, rfl, Bool.eq_false_iff.2 hu, rfl⟩

theorem exists_of_bump {r : Option Expr} {op : JavaScript.Mark}
    (hx : r.bind (Expr.bump op) = some x) : ∃ y, r = some y ∧ y.isTarget ∧ x = .update op y := by
  obtain ⟨y, rfl, hy⟩ := Option.bind_eq_some_iff.1 hx
  unfold Expr.bump at hy
  split at hy
  · exact ⟨y, rfl, ‹_›, (Option.some.inj hy).symm⟩
  · contradiction

theorem exists_of_call? {r : Option Expr} {args : Option (List Expr)}
    (hx : r.bind (Expr.call? args) = some x) : ∃ y ys, r = some y ∧ x = .call y ys := by
  obtain ⟨y, rfl, hy⟩ := Option.bind_eq_some_iff.1 hx
  unfold Expr.call? at hy
  split at hy
  · contradiction
  · obtain ⟨ys, rfl, rfl⟩ := Option.map_eq_some_iff.1 hy
    exact ⟨y, ys, rfl, rfl⟩

/-- What is known of an expression from how its text is read. -/
structure Shape (e : Node) (x : Expr) : Prop where
  isUpdate : x.isUpdate = e.isIncrement
  inChain : x.inChain = e.isChained
  /-- Unless a point was taken for that of a number. -/
  isTarget : e.sign = none → x.ungroup = e.translate → x.isTarget = e.isAssignable

theorem shape_number {a : Number} (hx : (number a).reading = some x) : Shape (number a) x := by
  rw [reading] at hx
  split at hx
  · obtain rfl := Option.some.inj hx
    exact ⟨rfl, rfl, fun _ _ => rfl⟩
  · rename_i h
    rw [ofWord_sizeChars (Bool.eq_false_iff.2 h)] at hx
    obtain rfl := Option.some.inj hx
    refine ⟨rfl, rfl, fun hs he => ?_⟩
    rw [translate, hs] at he
    exact Expr.noConfusion he

/-- An access is never an increment, and it is in a chain if its object is. -/
theorem shape_access {name : List Char} (ih : ∀ y, e.reading = some y → Shape e y)
    (hx : accessReading e e.reading name = some x) :
    x.isUpdate = false ∧ x.inChain = e.isChained ∧
      (x.ungroup = .member e.translate false name → x.isTarget = !e.isChained) := by
  obtain ⟨hb, text, rfl⟩ | ⟨-, h⟩ := exists_of_accessReading hx
  · have hc : e.isChained = false := by
      unfold isBare at hb
      split at hb
      · rfl
      · contradiction
    exact ⟨rfl, hc.symm, fun he => Expr.noConfusion he⟩
  · obtain ⟨y, hy, -, rfl⟩ := exists_of_access h
    have hc := (ih y hy).inChain
    exact ⟨rfl, hc, fun _ => congrArg not hc⟩

/-- The shape of a unary operator follows from its operand. -/
theorem shape_unary {op : UnOp} (hop : op ∈ UnOp.known) (ih : ∀ y, e.reading = some y → Shape e y)
    (hx : (unary op e).reading = some x) : Shape (unary op e) x := by
  simp only [UnOp.known, List.mem_cons, List.not_mem_nil, or_false] at hop
  obtain rfl | rfl | rfl | rfl | rfl | rfl := hop
  · obtain ⟨y, -, rfl⟩ := Option.map_eq_some_iff.1 hx
    exact ⟨rfl, rfl, fun hs _ => absurd hs (Option.some_ne_none _)⟩
  · obtain ⟨y, -, rfl⟩ := Option.map_eq_some_iff.1 hx
    exact ⟨rfl, rfl, fun hs _ => absurd hs (Option.some_ne_none _)⟩
  · rw [reading] at hx
    obtain ⟨hu, hc, ht⟩ := shape_access ih hx
    exact ⟨hu, hc, fun _ => ht⟩
  · obtain ⟨y, -, -, rfl⟩ := exists_of_bump hx
    exact ⟨rfl, rfl, fun _ _ => rfl⟩
  · obtain ⟨y, -, -, rfl⟩ := exists_of_bump hx
    exact ⟨rfl, rfl, fun _ _ => rfl⟩
  · obtain ⟨y, -, rfl⟩ := Option.map_eq_some_iff.1 hx
    exact ⟨rfl, rfl, fun _ _ => rfl⟩

/-- What can be told of a reading from the node alone. -/
theorem IsExp.shape {k : ExpSort} (h : IsExp k e) (hx : e.reading = some x) : Shape e x := by
  induction h generalizing x with
  | number a => exact shape_number hx
  | string t =>
    obtain rfl := Option.some.inj hx
    exact ⟨rfl, rfl, fun _ _ => rfl⟩
  | boolean v =>
    obtain rfl := Option.some.inj hx
    exact ⟨rfl, rfl, fun _ _ => rfl⟩
  | symbol s =>
    obtain rfl := Option.some.inj hx
    exact ⟨isUpdate_symbol s, inChain_symbol s, fun _ _ => isTarget_symbol s⟩
  | conditional _ _ _ _ _ _ =>
    obtain ⟨y, hy, rfl⟩ := Option.map_eq_some_iff.1 hx
    obtain ⟨t, -, hy⟩ := Option.bind_eq_some_iff.1 hy
    obtain ⟨u, -, hy⟩ := Option.bind_eq_some_iff.1 hy
    obtain ⟨v, -, rfl⟩ := Option.map_eq_some_iff.1 hy
    exact ⟨rfl, rfl, fun _ _ => rfl⟩
  | binary _ _ _ _ _ =>
    obtain ⟨y, hy, rfl⟩ := Option.map_eq_some_iff.1 hx
    obtain ⟨l, -, hy⟩ := Option.bind_eq_some_iff.1 hy
    obtain ⟨r, -, rfl⟩ := Option.map_eq_some_iff.1 hy
    exact ⟨rfl, rfl, fun _ _ => rfl⟩
  | unary hop _ ih => exact shape_unary hop (fun _ => ih) hx
  | array _ _ =>
    obtain ⟨y, -, rfl⟩ := Option.map_eq_some_iff.1 hx
    exact ⟨rfl, rfl, fun _ _ => rfl⟩
  | dict _ _ =>
    obtain ⟨y, -, rfl⟩ := Option.map_eq_some_iff.1 hx
    exact ⟨rfl, rfl, fun _ _ => rfl⟩
  | dictItem _ _ =>
    obtain ⟨y, -, rfl⟩ := Option.map_eq_some_iff.1 hx
    exact ⟨rfl, rfl, fun _ _ => rfl⟩
  | @member object access name ha _ ih =>
    obtain rfl | rfl := ha
    · obtain ⟨hu, hc, ht⟩ := shape_access (fun _ => ih) hx
      exact ⟨hu, hc, fun _ => ht⟩
    · obtain ⟨y, hy, -, rfl⟩ := exists_of_access hx
      exact ⟨rfl, rfl, fun _ _ => rfl⟩
  | subscript _ _ ihc _ =>
    obtain ⟨y, z, hy, -, -, rfl⟩ := exists_of_at? hx
    have hc := (ihc hy).inChain
    exact ⟨rfl, hc, fun _ _ => congrArg not hc⟩
  | call _ _ =>
    obtain ⟨y, ys, hy, rfl⟩ := exists_of_call? hx
    obtain rfl := Option.some.inj hy
    exact ⟨rfl, inChain_symbol _, fun _ _ => rfl⟩

theorem isMeant_of_sign (h : e.sign = none) :
    e.IsMeant ↔ e.reading.map Expr.ungroup = some e.translate := by
  rw [IsMeant, h, JavaScript.whole_none]

theorem isTight_iff : e.isTight ↔ e.sign = none ∧ e.isIncrement = false := by
  simp [isTight, Option.isNone_iff_eq_none]

theorem access_iff {o : Bool} {name : List Char} (h : IsExp .value e) :
    (e.reading.bind (Expr.access o name)).map Expr.ungroup = some (.member e.translate o name) ↔
      e.isIncrement = false ∧ e.reading.map Expr.ungroup = some e.translate := by
  cases hx : e.reading with
  | none => simp
  | some x =>
    rw [Option.bind_some, Expr.access, (h.shape hx).isUpdate]
    cases e.isIncrement <;> simp

/-- An access is read as meant if its object is meant and binds tightly. -/
theorem isMeant_access {n : Node} {o : Bool} {name : List Char} (h : IsExp .value e)
    (hsign : n.sign = e.sign) (hreading : n.reading = e.reading.bind (Expr.access o name))
    (htranslate : n.translate = .member e.translate o name) :
    n.IsMeant ↔ e.IsMeant ∧ e.isTight := by
  rw [isMeant_iff (by simp [htranslate]), hsign, hreading, htranslate, access_iff h, isTight_iff]
  constructor
  · rintro ⟨hs, hi, hr⟩
    exact ⟨(isMeant_of_sign hs).2 hr, hs, hi⟩
  · rintro ⟨hm, hs, hi⟩
    exact ⟨hs, hi, (isMeant_of_sign hs).1 hm⟩

/-- After a point the object must not be a bare whole number either. -/
theorem isMeant_point {n : Node} {name : List Char} (h : IsExp .value e)
    (hsign : n.sign = e.sign) (hreading : n.reading = accessReading e e.reading name)
    (htranslate : n.translate = .member e.translate false name) :
    n.IsMeant ↔ e.IsMeant ∧ e.isTight ∧ e.isBare = false := by
  by_cases hb : e.isBare
  · refine iff_of_false ?_ (by simp [hb])
    rw [isMeant_iff (by simp [htranslate]), hreading, htranslate]
    rintro ⟨-, hr⟩
    obtain ⟨x, hx, hu⟩ := Option.map_eq_some_iff.1 hr
    obtain ⟨-, text, rfl⟩ | ⟨hn, -⟩ := exists_of_accessReading hx
    · exact Expr.noConfusion hu
    · exact absurd hb (by simp [hn])
  · have hread : accessReading e e.reading name = e.reading.bind (Expr.access false name) := by
      unfold accessReading
      split
      · exact absurd rfl hb
      · rfl
    rw [isMeant_access h hsign (hreading.trans hread) htranslate]
    simp [hb]

/-- A subscript is read as meant if its collection is meant and binds tightly and its index is
meant. -/
theorem isMeant_subscript {index : Node} (h : IsExp .value e) :
    (subscript e index).IsMeant ↔ e.IsMeant ∧ e.isTight ∧ index.IsMeant := by
  rw [isMeant_iff (by simp), isTight_iff, sign, reading, translate]
  have hread : ((e.reading).bind (Expr.at? (whole index.sign index.reading))).map Expr.ungroup =
        some (.index e.translate index.translate) ↔
      e.isIncrement = false ∧ e.reading.map Expr.ungroup = some e.translate ∧ index.IsMeant := by
    unfold IsMeant
    cases hx : e.reading with
    | none => simp
    | some x =>
      rw [Option.bind_some, Expr.at?, (h.shape hx).isUpdate]
      cases e.isIncrement <;> cases whole index.sign index.reading <;> simp
  rw [hread]
  constructor
  · rintro ⟨hs, hi, hr, hm⟩
    exact ⟨(isMeant_of_sign hs).2 hr, ⟨hs, hi⟩, hm⟩
  · rintro ⟨hr, ⟨hs, hi⟩, hm⟩
    exact ⟨hs, hi, (isMeant_of_sign hs).1 hr, hm⟩

theorem isIncrement_of_isAssignable (h : e.isAssignable) : e.isIncrement = false := by
  unfold isAssignable at h
  split at h <;> first | rfl | contradiction

/-- An increment needs a target that is meant and can be assigned to. -/
theorem isMeant_bump {n : Node} {op : JavaScript.Mark} (h : IsExp .value e)
    (hsign : n.sign = e.sign) (hreading : n.reading = e.reading.bind (Expr.bump op))
    (htranslate : n.translate = .update op e.translate) :
    n.IsMeant ↔ e.IsMeant ∧ e.isTight ∧ e.isAssignable := by
  rw [isMeant_iff (by simp [htranslate]), hsign, hreading, htranslate, isTight_iff]
  constructor
  · rintro ⟨hs, hr⟩
    obtain ⟨x, hx, hu⟩ := Option.map_eq_some_iff.1 hr
    obtain ⟨y, hy, ht, rfl⟩ := exists_of_bump hx
    have hm : y.ungroup = e.translate := (Expr.update.inj hu).2
    have ha : e.isAssignable := (h.shape hy).isTarget hs hm ▸ ht
    refine ⟨(isMeant_of_sign hs).2 ?_, ⟨hs, isIncrement_of_isAssignable ha⟩, ha⟩
    rw [hy, Option.map_some, hm]
  · rintro ⟨hm, ⟨hs, -⟩, ha⟩
    obtain ⟨y, hy, hu⟩ := Option.map_eq_some_iff.1 ((isMeant_of_sign hs).1 hm)
    have ht : y.isTarget := ((h.shape hy).isTarget hs hu).trans ha
    refine ⟨hs, ?_⟩
    rw [hy, Option.bind_some, Expr.bump, if_pos ht, Option.map_some, Expr.ungroup, hu]

theorem areGrouped_iff : areGrouped es ↔ ∀ e ∈ es, e.isGrouped := by
  induction es with
  | nil => simp
  | cons e es ih => simp [ih]

theorem isGrouped_unary {op : UnOp} (hop : op ∈ UnOp.known) (h : IsExp .value e)
    (ih : e.IsMeant ↔ e.isGrouped) : (unary op e).IsMeant ↔ (unary op e).isGrouped := by
  simp only [UnOp.known, List.mem_cons, List.not_mem_nil, or_false] at hop
  obtain rfl | rfl | rfl | rfl | rfl | rfl := hop
  · simp [isMeant_neg, ih]
  · simp [isMeant_not, ih]
  · have hm := isMeant_point (n := unary .length e) h rfl rfl rfl
    simp [hm, ih]
  · have hm := isMeant_bump (n := unary .incr e) h rfl rfl rfl
    simp [hm, ih]
  · have hm := isMeant_bump (n := unary .decr e) h rfl rfl rfl
    simp [hm, ih]
  · simp [isMeant_fact, ih]

/-- The text of an expression is read as it is meant if it groups as it should. -/
theorem IsExp.isMeant_iff_isGrouped {k : ExpSort} (h : IsExp k e) :
    e.IsMeant ↔ e.isGrouped := by
  have hall {es : List Node} (ih : ∀ e ∈ es, e.IsMeant ↔ e.isGrouped) :
      (∀ e ∈ es, e.IsMeant) ↔ areGrouped es :=
    (forall₂_congr ih).trans areGrouped_iff.symm
  induction h with
  | number a => exact isMeant_number a
  | string t => exact iff_of_true rfl rfl
  | boolean v => exact iff_of_true rfl rfl
  | symbol s => exact iff_of_true (isMeant_symbol s) rfl
  | conditional _ _ _ iht ihy ihn => simp [isMeant_conditional, iht, ihy, ihn, and_assoc]
  | binary _ _ _ ihl ihr => simp [isMeant_binary, ihl, ihr]
  | unary hop h ih => exact isGrouped_unary hop h ih
  | array _ ih => exact isMeant_array.trans (hall ih)
  | dict _ ih => exact isMeant_dict.trans (hall ih)
  | dictItem _ ih => exact isMeant_dictItem.trans ih
  | @member object access name ha h ih =>
    obtain rfl | rfl := ha
    · have hm := isMeant_point (n := Node.member object "." name) h rfl rfl rfl
      simp [hm, ih, and_assoc]
    · have hm := isMeant_access (n := Node.member object "?." name) h rfl rfl rfl
      simp [hm, ih]
  | subscript h _ ihc ihi => simp [isMeant_subscript h, ihc, ihi, and_assoc]
  | call _ ih => exact isMeant_call.trans (hall ih)

/-! ### Whole programs -/

/-- The text of an expression is read as its reading, with the parentheses removed. -/
theorem IsExp.read_code {path : List Region} (h : IsExp .value e)
    (hl : Everywhere Lexical path e) :
    JavaScript.read e.code = (whole e.sign e.reading).map Expr.ungroup := by
  have hlex : JavaScript.lex e.code.toList = e.tokens := by
    have hall := (h.spelled hl).lex JavaScript.apart_nil (by simp)
    simpa [tokens] using hall
  have hread : JavaScript.assignment e.tokens = (whole e.sign e.reading).map (·, []) := by
    have hall := JavaScript.Reads.assignment (h.reads hl) (.inl rfl)
    simpa [tokens] using hall
  rw [JavaScript.read, hlex, hread]
  cases whole e.sign e.reading <;> rfl

theorem IsExp.emitExpr_eq {path : List Region} (h : IsExp .value e)
    (hl : Everywhere Lexical path e) : e.emitExpr = .ok e.code := by
  have hnamed : Symbol.Named e.symbols := by
    intro s hs
    obtain hlibrary | ⟨hs, -⟩ := lexical_of_occurs hl (occurs_of_mem_symbols e hs)
    · exact Symbol.named_library s hlibrary
    · exact Symbol.isSome_target? hs
  rw [emitExpr, h.exprFault?_eq_none hnamed (List.Subset.refl _)]

/-- Every expression in a program is emitted, and read back as meant where it is grouped. -/
theorem emitExpr_of_lies {ss : List Node} (hs : ∀ s ∈ ss, IsStmt s)
    (hl : EverywhereIn Lexical [] ss) {path : List Region} (he : Lies (program ss) path e)
    (hexp : e.isExpression) :
    ∃ text, e.emitExpr = .ok text ∧ (JavaScript.read text = some e.translate ↔ e.isGrouped) := by
  have hmeant : Everywhere Meant [] (program ss) :=
    everywhere_iff.2 ⟨meant_statement rfl, fun s hmem => (hs s hmem).meant⟩
  have hlexical : Everywhere Lexical [] (program ss) := everywhere_iff.2 ⟨trivial, hl⟩
  have h : IsExp .value e := hmeant.of_lies he hexp
  refine ⟨e.code, h.emitExpr_eq (hlexical.inside he), ?_⟩
  rw [h.read_code (hlexical.inside he)]
  exact h.isMeant_iff_isGrouped

end Node

open Node (program Lies)

/-- The text of every expression in a program whose names are resolved, and in what simplification
makes of it, is read with the operators as the tree has them just if it groups as it should. -/
theorem read_emitExpr_iff {source : String} {tree : Tree} {ss : List Node}
    (hp : parse source = .ok tree) (ha : analyze tree = .ok ss) :
    ∃ ss', (program ss).optimize = .ok (program ss') ∧
      ∀ p, p = program ss ∨ p = program ss' → ∀ path e, Lies p path e → e.isExpression →
        ∃ text, e.emitExpr = .ok text ∧
          (JavaScript.read text = some e.translate ↔ e.isGrouped) := by
  have hs := isStmt_of_analyze hp ha
  have hl := lexical_of_analyze hp ha
  refine ⟨_, Node.optimize_program hs, ?_⟩
  rintro p (rfl | rfl) path e he hexp
  · exact Node.emitExpr_of_lies hs hl he hexp
  · exact Node.emitExpr_of_lies (Node.isStmt_simplified hs)
      (Node.everywhereIn_simplified Node.steady_lexical hs hl) he hexp

/-- The second variable of a program starts with a value that passes a test. -/
def startsWith (test : Node → Bool) : List Node → Bool
  | [.declare _ _, .declare _ e] => test e
  | _ => false

theorem lies_of_startsWith {test : Node → Bool} {ss : List Node} (h : startsWith test ss) :
    ∃ e, test e ∧ Lies (program ss) [] e := by
  unfold startsWith at h
  split at h
  · rename_i x a y e
    have hy := Lies.part (n := .declare y e) (r := none)
      (List.mem_cons_of_mem _ List.mem_cons_self) .here
    exact ⟨e, h, .part (r := none) (List.mem_cons_of_mem _ List.mem_cons_self) hy⟩
  · contradiction

/-- A negated base has parentheses of its own. -/
theorem read_emitExpr_iff_power :
    ∃ tree ss e text, parse "x = 5 y = _x ^ #x" = .ok tree ∧ analyze tree = .ok ss ∧
      Lies (program ss) [] e ∧ e.emitExpr = .ok text ∧ JavaScript.read text = some e.translate := by
  obtain ⟨tree, ss, hp, ha, hstarts⟩ := exists_of_resolvesTo
    (show resolvesTo "x = 5 y = _x ^ #x" (startsWith fun e => e.isExpression && e.isGrouped) from
      by decide +kernel)
  obtain ⟨e, htest, he⟩ := lies_of_startsWith hstarts
  obtain ⟨hexp, hgrouped⟩ := (Bool.and_eq_true _ _).mp htest
  obtain ⟨ss', -, hread⟩ := read_emitExpr_iff hp ha
  obtain ⟨text, htext, hiff⟩ := hread _ (.inl rfl) [] e he hexp
  exact ⟨tree, ss, e, text, hp, ha, he, htext, hiff.2 hgrouped⟩

/-- The length of a negation is read as the negation of a length. -/
theorem read_emitExpr_ne_translate :
    ∃ tree ss e text, parse "x = 5 y = #(_x)" = .ok tree ∧ analyze tree = .ok ss ∧
      Lies (program ss) [] e ∧ e.isExpression ∧ e.emitExpr = .ok text ∧
      JavaScript.read text ≠ some e.translate := by
  obtain ⟨tree, ss, hp, ha, hstarts⟩ := exists_of_resolvesTo
    (show resolvesTo "x = 5 y = #(_x)" (startsWith fun e => e.isExpression && !e.isGrouped) from
      by decide +kernel)
  obtain ⟨e, htest, he⟩ := lies_of_startsWith hstarts
  obtain ⟨hexp, hgrouped⟩ := (Bool.and_eq_true _ _).mp htest
  obtain ⟨text, htext, hiff⟩ :=
    Node.emitExpr_of_lies (isStmt_of_analyze hp ha) (lexical_of_analyze hp ha) he hexp
  refine ⟨tree, ss, e, text, hp, ha, he, hexp, htext, fun hr => ?_⟩
  simp [hiff.1 hr] at hgrouped

end Terse
