import Terse.Proofs.JavaScript.Reading

/-! What the text of an expression is read as. -/
namespace Terse

open JavaScript (Expr Reads Listed whole gather glued ofWord)

/-- A path of names is an access to fields. -/
def Symbol.expr (s : Symbol) : Expr :=
  match s.path with
  | [] => .ident []
  | w :: ws => ws.foldl (fun e w => .member e false w) (.ident w)

namespace Node

/-- What an access to a field is read as; a whole number takes the point for its own. -/
def accessReading (object : Node) (r : Option Expr) (name : List Char) : Option Expr :=
  match object with
  | number (.int n) =>
    match glued (Number.int n).sizeChars name with
    | .number text => some (.number text)
    | _ => none
  | _ => r.bind (Expr.access false name)

mutual

/-- What the tokens after the sign are read as. -/
@[simp] def reading : Node → Option Expr
  | conditional test yes no =>
    ((whole test.sign (reading test)).bind fun t => (whole yes.sign (reading yes)).bind fun y =>
      (whole no.sign (reading no)).map fun n =>
        .conditional (.group t) (.group y) (.group n)).map .group
  | binary op left right =>
    ((whole left.sign (reading left)).bind fun l => (whole right.sign (reading right)).map
      (.binary op.mark (if op = .pow ∧ left.sign.isSome then .group l else l))).map .group
  | unary op e =>
    match op with
    | .length => accessReading e (reading e) "length".toList
    | .incr => (reading e).bind (Expr.bump .increment)
    | .decr => (reading e).bind (Expr.bump .decrement)
    | .fact => (whole e.sign (reading e)).map JavaScript.factorialExpr
    | _ => (whole e.sign (reading e)).map .group
  | array es => (gather (readings es)).map .array
  | dict es => (gather (readings es)).map .object
  | dictItem key e =>
    (whole e.sign (reading e)).map (.entry (.string (Text.ofString key).keyChars))
  | member object access name =>
    if access = "?." then (reading object).bind (Expr.access true name.toList)
    else accessReading object (reading object) name.toList
  | subscript collection index =>
    (reading collection).bind (Expr.at? (whole index.sign (reading index)))
  | call f args => (reading f).bind (Expr.call? (gather (readings args)))
  | number a => if a.isFinite then some (.number a.sizeChars) else ofWord a.sizeChars
  | string t => some (.string t.literalChars)
  | boolean b => some (.boolean b)
  | symbol s => some s.expr
  | _ => none
termination_by structural n => n

@[simp] def readings : List Node → List (Option Expr)
  | [] => []
  | e :: es => whole e.sign (reading e) :: readings es
termination_by structural es => es

end

/-- The tokens of a node are read like that; entries stand between braces. -/
def ReadsAs (k : ExpSort) (e : Node) : Prop :=
  match k with
  | .value => Reads e.sign e.unsigned e.reading
  | .entry => Listed .rbrace e.tokens (whole e.sign e.reading)

/-- No word of the language has an underscore. -/
theorem ofWord_code {s : Symbol} (h : s.isIntrinsic = false) :
    ofWord s.code.toList = some (.ident s.code.toList) := by
  have hmem : '_' ∈ s.code.toList := by simp [JavaScript.toList_code h]
  have hall : ∀ w ∈ "true" :: "false" :: JavaScript.reserved, '_' ∉ w.toList := by decide
  have hne {w : String} (hw : w ∈ "true" :: "false" :: JavaScript.reserved) :
      s.code.toList ≠ w.toList := fun he => hall w hw (he ▸ hmem)
  have hreserved : s.code.toList ∉ JavaScript.reserved.map String.toList := by
    intro hs
    obtain ⟨w, hw, he⟩ := List.mem_map.1 hs
    exact hne (List.mem_cons_of_mem _ (List.mem_cons_of_mem _ hw)) he.symm
  rw [ofWord, if_neg (hne (by simp)), if_neg (hne (by simp)), if_neg hreserved]

theorem reads_symbol {s : Symbol} (h : s.Lexical) :
    Reads none (JavaScript.dotted s.path) (some s.expr) := by
  unfold Symbol.expr
  obtain h | ⟨h, hname⟩ := h
  · obtain ⟨owner, field, howner, -, hpath, -⟩ := JavaScript.path_library h
    have hident : ofWord owner.toList = some (.ident owner.toList) := by
      simp only [List.mem_cons, List.not_mem_nil, or_false] at howner
      obtain rfl | rfl := howner <;> rfl
    rw [hpath]
    exact (JavaScript.reads_word hident).access field.toList
  · rw [JavaScript.path_code h hname]
    exact JavaScript.reads_word (ofWord_code h)

theorem reads_size (sign : Option JavaScript.Sign) {t : JavaScript.Token} {r : Option Expr}
    (h : Reads none [t] r) : Reads sign [t] r where
  toOperand := h.toOperand
  params {rest} hrest := by
    cases sign with
    | none => exact h.params hrest
    | some s => exact JavaScript.params?_mark
  arrow rest := by
    cases sign with
    | none => exact h.arrow rest
    | some s => exact JavaScript.arrowHead?_mark (by cases s <;> simp [JavaScript.Sign.mark])

/-- A number without digits is read as an identifier. -/
theorem ofWord_sizeChars {a : Number} (h : a.isFinite = false) :
    ofWord a.sizeChars = some (.ident a.sizeChars) := by
  cases a with
  | int n => exact absurd h.symm Bool.false_ne_true
  | float x =>
    have hnone : Binary.ofFloat? x = none := by simpa [Number.isFinite] using h
    simp only [Number.sizeChars, hnone]
    split <;> rfl

/-- A number is read as a literal, or as an identifier if it is not finite. -/
theorem reads_number (a : Number) :
    Reads (sign (number a)) [a.sizeToken] (reading (number a)) := by
  refine reads_size _ ?_
  rw [reading, Number.sizeToken]
  split
  · exact JavaScript.reads_number _
  · rename_i h
    have hident := ofWord_sizeChars (Bool.eq_false_iff.2 h)
    rw [hident]
    exact JavaScript.reads_word hident

theorem reads_glued (sign : Option JavaScript.Sign) (n : Int) (name : List Char) {r : Option Expr} :
    Reads sign [glued (Number.int n).sizeChars name] (accessReading (number (.int n)) r name) := by
  refine reads_size _ ?_
  unfold accessReading glued
  dsimp only
  split
  · exact JavaScript.reads_number _
  · exact JavaScript.reads_malformed

theorem reads_access {e : Node} {name : List Char} (h : Reads e.sign e.unsigned e.reading) :
    Reads e.sign (accessTokens e e.unsigned name) (accessReading e e.reading name) := by
  unfold accessTokens
  split
  · exact reads_glued _ _ name
  · rename_i hne
    have hreading : accessReading e e.reading name = e.reading.bind (Expr.access false name) := by
      unfold accessReading
      split
      · exact absurd rfl (hne _)
      · rfl
    rw [hreading]
    exact h.access name

theorem reads_unary {op : UnOp} {e : Node} (hop : op ∈ UnOp.known)
    (h : Reads e.sign e.unsigned e.reading) :
    Reads (unary op e).sign (unary op e).unsigned (unary op e).reading := by
  simp only [UnOp.known, List.mem_cons, List.not_mem_nil, or_false] at hop
  obtain rfl | rfl | rfl | rfl | rfl | rfl := hop
  · exact JavaScript.reads_signed .minus h
  · exact JavaScript.reads_signed .bang h
  · exact reads_access h
  · exact h.increment
  · exact h.decrement
  · exact JavaScript.reads_factorial h

/-- A binary operator is read as one, and the parentheses keep its operands apart. -/
theorem reads_binary {op : BinOp} {left right : Node} (hop : op ∈ BinOp.known)
    (hl : Reads left.sign left.unsigned left.reading)
    (hr : Reads right.sign right.unsigned right.reading) :
    Reads none (binary op left right).unsigned (binary op left right).reading := by
  rw [unsigned, reading]
  by_cases hpow : op = .pow
  · subst hpow
    generalize left.sign = s at hl
    cases s with
    | none =>
      have h := JavaScript.reads_power hl hr
      rw [← JavaScript.whole_none left.reading] at h
      exact h
    | some s => exact JavaScript.reads_signed_power hl hr
  · have hall : ∀ op ∈ BinOp.known, op ≠ .pow → op.mark.level?.isSome := by decide
    obtain ⟨level, hlevel⟩ := Option.isSome_iff_exists.1 (hall op hop hpow)
    have h := JavaScript.reads_binary hlevel hl hr
    simpa [hpow] using h

theorem reads_dictItem {key : String} {e : Node} (h : Reads e.sign e.unsigned e.reading) :
    ReadsAs .entry (dictItem key e) := by
  have hitem := JavaScript.item_entry (.inr ⟨(Text.ofString key).keyChars, rfl⟩) h
  unfold ReadsAs
  rw [sign, JavaScript.whole_none]
  · exact hitem
  all_goals simp

theorem forall₂_items {close : JavaScript.Mark} {es : List Node}
    (h : ∀ e ∈ es, Listed close e.tokens (whole e.sign e.reading)) :
    List.Forall₂ (Listed close) (unsignedAll es) (readings es) := by
  induction es with
  | nil => exact .nil
  | cons e es ih =>
    obtain ⟨he, hes⟩ := List.forall_mem_cons.1 h
    exact .cons he (ih hes)

/-- The tokens of an expression are read as its reading. -/
theorem IsExp.reads {k : ExpSort} {e : Node} {path : List Region} (h : IsExp k e)
    (hl : Everywhere Lexical path e) : ReadsAs k e := by
  induction h with
  | number a => exact reads_number a
  | string t => exact JavaScript.reads_string _
  | boolean v => cases v <;> exact JavaScript.reads_word rfl
  | symbol s => exact reads_symbol (everywhere_iff.1 hl).1
  | conditional _ _ _ iht ihy ihn =>
    obtain ⟨-, ht, hy, hn⟩ := everywhere_iff.1 hl
    exact JavaScript.reads_conditional (iht ht) (ihy hy) (ihn hn)
  | binary hop _ _ ihl ihr =>
    obtain ⟨-, hleft, hright⟩ := everywhere_iff.1 hl
    exact reads_binary hop (ihl hleft) (ihr hright)
  | unary hop _ ih => exact reads_unary hop (ih (everywhere_iff.1 hl).2)
  | array _ ih =>
    have hes := (everywhere_iff.1 hl).2
    exact JavaScript.reads_array (forall₂_items fun e he => (ih e he (hes e he)).item (.inr rfl))
  | dict _ ih =>
    have hes := (everywhere_iff.1 hl).2
    exact JavaScript.reads_object (forall₂_items fun e he => ih e he (hes e he))
  | dictItem _ ih => exact reads_dictItem (ih (everywhere_iff.1 hl).2)
  | @member object access name ha _ ih =>
    have he := ih (everywhere_iff.1 hl).2
    obtain rfl | rfl := ha
    · exact reads_access he
    · exact he.optionalAccess _
  | subscript _ _ ihc ihi =>
    obtain ⟨-, hc, hi⟩ := everywhere_iff.1 hl
    exact (ihc hc).index (ihi hi)
  | @call f args _ ih =>
    obtain ⟨-, hf, hargs⟩ := everywhere_iff.1 hl
    exact (reads_symbol (everywhere_iff.1 hf).1).call
      (forall₂_items fun e he => (ih e he (hargs e he)).item (.inl rfl))

end Node

end Terse
