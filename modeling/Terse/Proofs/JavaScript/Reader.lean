import Terse.Proofs.JavaScript.Lexer

/-! How JavaScript reads an expression, with one function for each level of its grammar. Left out
are assignments, the comma operator, and all that needs more than the tokens known here. -/
namespace Terse.JavaScript

/-- Expressions as they are read. -/
inductive Expr where
  | ident (name : List Char)
  | number (literal : List Char)
  | string (literal : List Char)
  | boolean (value : Bool)
  | array (elements : List Expr)
  | object (entries : List Expr)
  | entry (key : Token) (value : Expr)
  | member (object : Expr) (optional : Bool) (name : List Char)
  | index (object index : Expr)
  | call (callee : Expr) (args : List Expr)
  /-- An increment or decrement, after its target. -/
  | update (op : Mark) (target : Expr)
  | unary (op : Mark) (operand : Expr)
  | binary (op : Mark) (left right : Expr)
  | conditional (test yes no : Expr)
  | arrow (params : List (List Char)) (body : Expr)
  /-- An expression in parentheses. -/
  | group (inner : Expr)

namespace Expr

def isUpdate : Expr → Bool
  | update .. => true
  | _ => false

/-- Whether an access before may cut the rest of the chain short. -/
def inChain : Expr → Bool
  | member e optional _ => optional || inChain e
  | index e _ | call e _ => inChain e
  | _ => false

/-- What can be assigned to. -/
def isTarget : Expr → Bool
  | ident _ => true
  | member e optional _ => !optional && !inChain e
  | index e _ => !inChain e
  | group e => isTarget e
  | _ => false

mutual

/-- The operator tree: parentheses have done their work once an expression is read. -/
@[simp] def ungroup : Expr → Expr
  | group e => ungroup e
  | array es => array (ungroupAll es)
  | object es => object (ungroupAll es)
  | entry key e => entry key (ungroup e)
  | member e optional name => member (ungroup e) optional name
  | index e i => index (ungroup e) (ungroup i)
  | call f args => call (ungroup f) (ungroupAll args)
  | update op e => update op (ungroup e)
  | unary op e => unary op (ungroup e)
  | binary op l r => binary op (ungroup l) (ungroup r)
  | conditional c y n => conditional (ungroup c) (ungroup y) (ungroup n)
  | arrow params e => arrow params (ungroup e)
  | e => e
termination_by structural e => e

@[simp] def ungroupAll : List Expr → List Expr
  | [] => []
  | e :: es => ungroup e :: ungroupAll es
termination_by structural es => es

end

end Expr

/-- Binary operators from the loosest to the tightest; powers are apart. -/
def Mark.level? : Mark → Option Nat
  | or => some 0
  | and => some 1
  | equal | notEqual => some 2
  | less | lessEqual | greater | greaterEqual => some 3
  | plus | minus => some 4
  | times | divide | remainder => some 5
  | _ => none

/-- Words that are no identifiers. -/
def reserved : List String := ["await", "break", "case", "catch", "class", "const", "continue",
  "debugger", "default", "delete", "do", "else", "enum", "export", "extends", "finally", "for",
  "function", "if", "import", "in", "instanceof", "let", "new", "null", "return", "static", "super",
  "switch", "this", "throw", "try", "typeof", "var", "void", "while", "with", "yield"]

def ofWord (w : List Char) : Option Expr :=
  if w = "true".toList then some (.boolean true)
  else if w = "false".toList then some (.boolean false)
  else if w ∈ reserved.map String.toList then none
  else some (.ident w)

/-- The parameters of an arrow function and what comes after the arrow. -/
def params? : List Token → Option (List (List Char) × List Token)
  | .word p :: .mark .rparen :: .mark .arrow :: ts => some ([p], ts)
  | .word p :: .mark .comma :: ts => (params? ts).map fun (ps, ts) => (p :: ps, ts)
  | _ => none

def arrowHead? : List Token → Option (List (List Char) × List Token)
  | .mark .lparen :: ts => params? ts
  | _ => none

/-- What was read, if it left less than there was. -/
def progress {α : Type} (ts : List Token) (r : Option (α × List Token)) :
    Option (α × { us : List Token // us.length < ts.length }) :=
  r.bind fun (a, us) => if h : us.length < ts.length then some (a, ⟨us, h⟩) else none

mutual

def assignment (ts : List Token) : Option (Expr × List Token) :=
  match progress ts (arrowHead? ts) with
  | some (params, ⟨us, _⟩) => do
    let (body, vs) ← assignment us
    return (.arrow params body, vs)
  | none => do
    let (test, ⟨us, hus⟩) ← progress ts (operation 0 ts)
    match us, hus with
    | .mark .question :: us, _ => do
      let (yes, ⟨vs, hvs⟩) ← progress us (assignment us)
      match vs, hvs with
      | .mark .colon :: vs, _ => do
        let (no, ws) ← assignment vs
        return (.conditional test yes no, ws)
      | _, _ => none
    | us, _ => return (test, us)
termination_by (ts.length, 4)
decreasing_by all_goals grind

/-- Operations that bind at least as tightly as `level`. -/
def operation (level : Nat) (ts : List Token) : Option (Expr × List Token) := do
  let (left, ⟨us, _⟩) ← progress ts (exponent ts)
  operators level left us
termination_by (ts.length, 3)

def operators (level : Nat) (left : Expr) (ts : List Token) : Option (Expr × List Token) :=
  match ts with
  | .mark op :: us =>
    match op.level? with
    | some l =>
      if level ≤ l then do
        let (right, ⟨vs, _⟩) ← progress us (operation (l + 1) us)
        operators level (.binary op left right) vs
      else some (left, ts)
    | none => some (left, ts)
  | ts => some (left, ts)
termination_by (ts.length, 0)

/-- A power, whose base must have no sign. -/
def exponent (ts : List Token) : Option (Expr × List Token) :=
  match ts with
  | .mark .minus :: us => do
    let (e, vs) ← unary us
    return (.unary .minus e, vs)
  | .mark .bang :: us => do
    let (e, vs) ← unary us
    return (.unary .bang e, vs)
  | ts => do
    let (base, ⟨us, hus⟩) ← progress ts (update ts)
    match us, hus with
    | .mark .power :: us, _ => do
      let (power, vs) ← exponent us
      return (.binary .power base power, vs)
    | us, _ => return (base, us)
termination_by (ts.length, 2)
decreasing_by all_goals grind

def unary (ts : List Token) : Option (Expr × List Token) :=
  match ts with
  | .mark .minus :: us => do
    let (e, vs) ← unary us
    return (.unary .minus e, vs)
  | .mark .bang :: us => do
    let (e, vs) ← unary us
    return (.unary .bang e, vs)
  | ts => update ts
termination_by (ts.length, 2)

def update (ts : List Token) : Option (Expr × List Token) := do
  let (e, ⟨us, _⟩) ← progress ts (primary ts)
  suffixes e us
termination_by (ts.length, 1)

/-- Accesses and calls, and an increment after which there are none. -/
def suffixes (e : Expr) (ts : List Token) : Option (Expr × List Token) :=
  match ts with
  | .mark .dot :: .word name :: us =>
    if e.isUpdate then none else suffixes (.member e false name) us
  | .mark .optionalDot :: .word name :: us =>
    if e.isUpdate then none else suffixes (.member e true name) us
  | .mark .lbracket :: us =>
    if e.isUpdate then none
    else do
      let (i, ⟨vs, hvs⟩) ← progress us (assignment us)
      match vs, hvs with
      | .mark .rbracket :: vs, _ => suffixes (.index e i) vs
      | _, _ => none
  | .mark .lparen :: us =>
    if e.isUpdate then none
    else do
      let (args, ⟨vs, _⟩) ← progress us (items .rparen us)
      suffixes (.call e args) vs
  | .mark .increment :: us =>
    if e.isTarget then suffixes (.update .increment e) us else none
  | .mark .decrement :: us =>
    if e.isTarget then suffixes (.update .decrement e) us else none
  | us => some (e, us)
termination_by (ts.length, 0)
decreasing_by all_goals grind

/-- What stands between commas, up to the closing bracket. -/
def items (close : Mark) (ts : List Token) : Option (List Expr × List Token) :=
  if ts.head? = some (.mark close) then some ([], ts.tail)
  else do
    let (e, ⟨us, hus⟩) ← progress ts (item close ts)
    match us, hus with
    | .mark .comma :: us, _ => do
      let (es, vs) ← items close us
      return (e :: es, vs)
    | .mark m :: us, _ => if m = close then return ([e], us) else none
    | _, _ => none
termination_by (ts.length, 6)
decreasing_by all_goals grind

/-- Entries stand between braces, and other expressions elsewhere. -/
def item (close : Mark) (ts : List Token) : Option (Expr × List Token) :=
  if close = .rbrace then
    match ts with
    | .word key :: .mark .colon :: us => do
      let (e, vs) ← assignment us
      return (.entry (.word key) e, vs)
    | .string key :: .mark .colon :: us => do
      let (e, vs) ← assignment us
      return (.entry (.string key) e, vs)
    | _ => none
  else assignment ts
termination_by (ts.length, 5)

def primary (ts : List Token) : Option (Expr × List Token) :=
  match ts with
  | .word w :: us => (ofWord w).map (·, us)
  | .number text :: us => some (.number text, us)
  | .string text :: us => some (.string text, us)
  | .mark .lparen :: us => do
    let (e, vs) ← assignment us
    match vs with
    | .mark .rparen :: vs => return (.group e, vs)
    | _ => none
  | .mark .lbracket :: us => do
    let (es, vs) ← items .rbracket us
    return (.array es, vs)
  | .mark .lbrace :: us => do
    let (es, vs) ← items .rbrace us
    return (.object es, vs)
  | _ => none
termination_by (ts.length, 0)

end

/-- The operator tree of a text that is one expression. -/
def read (text : String) : Option Expr :=
  match assignment (lex text.toList) with
  | some (e, []) => some e.ungroup
  | _ => none

end Terse.JavaScript
