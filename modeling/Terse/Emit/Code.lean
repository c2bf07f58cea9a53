import Terse.Emit.Fault
import Terse.Emit.Quote
import Terse.Line

/-! The JavaScript text of a program. The functions here write what `Emit.Fault` finds no fault in,
and write nothing for the rest. -/
namespace Terse

def respell (op : String) : String := (respellings.lookup op).getD op

/-- The base of a power may not start with an operator of its own. -/
def startsWithSign (code : String) : Bool :=
  match code.toList with
  | '-' :: _ => true
  | '!' :: _ => true
  | _ => false

/-- A binary operation is always in parentheses. -/
def binaryCode (op left right : String) : String :=
  let left := if op = "**" ∧ startsWithSign left then "(" ++ left ++ ")" else left
  "(" ++ left ++ " " ++ op ++ " " ++ right ++ ")"

def unaryCode (op : UnOp) (operand : String) : String :=
  match op with
  | .length => operand ++ ".length"
  | .incr => operand ++ "++"
  | .decr => operand ++ "--"
  | .fact => "Array.from(\x7b length: " ++ operand ++
      " \x7d, (_, i) => i + 1).reduce((a, b) => a * b, 1)"
  | op => respell op.word ++ "(" ++ operand ++ ")"

def commaJoin (codes : List String) : String := ", ".intercalate codes

def Symbol.code (s : Symbol) : String := s.target?.getD ""

namespace Node

def symbolCode : Node → String
  | symbol s => s.code
  | _ => ""

mutual

/-- The text of an expression. -/
def code : Node → String
  | conditional test yes no =>
    "((" ++ code test ++ ") ? (" ++ code yes ++ ") : (" ++ code no ++ "))"
  | binary op left right => binaryCode (respell op.word) (code left) (code right)
  | unary op operand => unaryCode op (code operand)
  | array elements => "[" ++ commaJoin (codes elements) ++ "]"
  | dict items => "\x7b" ++ commaJoin (codes items) ++ "\x7d"
  | dictItem key value => keyLiteral key ++ ": " ++ code value
  | member object access name => code object ++ access ++ name
  | subscript collection index => code collection ++ "[" ++ code index ++ "]"
  | call callee args => symbolCode callee ++ "(" ++ commaJoin (codes args) ++ ")"
  | number a => a.text
  | string t => t.literal
  | boolean b => if b then "true" else "false"
  | symbol s => s.code
  | _ => ""
termination_by structural n => n

def codes : List Node → List String
  | [] => []
  | e :: es => code e :: codes es
termination_by structural es => es

end

/-- Several parameters of a handler are taken apart from one value. -/
def catchHead (params : List Node) : String :=
  match codes params with
  | [] => "\x7d catch \x7b"
  | [p] => "\x7d catch (" ++ p ++ ") \x7b"
  | ps => "\x7d catch ([" ++ commaJoin ps ++ "]) \x7b"

/-- The head of a counted loop. -/
def forHead (v start stop step : String) : String :=
  "for (let " ++ v ++ " = " ++ start ++ "; " ++ v ++ " < " ++ stop ++ "; " ++ v ++ step ++ ") \x7b"

mutual

/-- The lines of a statement. `lead` stands before the first line of a choice, which may continue a
chain. `n` repetitions were counted before, and the second result counts those so far. -/
def lines (depth : Nat) (lead : String) : Node → (n : Nat) → List Line × Nat
  | declare v e, n => ([⟨depth, "let " ++ code v ++ " = " ++ code e ++ ";"⟩], n)
  | assign target source, n => ([⟨depth, code target ++ " = " ++ code source ++ ";"⟩], n)
  | print e, n => ([⟨depth, "console.log(" ++ code e ++ ");"⟩], n)
  | ifElse test yes no, n =>
    let head : Line := ⟨depth, lead ++ "if (" ++ code test ++ ") \x7b"⟩
    let (yes, n) := blockLines (depth + 1) yes n
    match no with
    | list [] => (head :: yes ++ [⟨depth, "\x7d"⟩], n)
    | list ss =>
      let (no, n) := blockLines (depth + 1) ss n
      (head :: yes ++ ⟨depth, "\x7d else \x7b"⟩ :: no ++ [⟨depth, "\x7d"⟩], n)
    | no =>
      let (rest, n) := lines depth "\x7d else " no n
      (head :: yes ++ rest, n)
  | ifOnly test yes, n =>
    let (yes, n) := blockLines (depth + 1) yes n
    (⟨depth, lead ++ "if (" ++ code test ++ ") \x7b"⟩ :: yes ++ [⟨depth, "\x7d"⟩], n)
  | whileLoop test body, n =>
    let (body, n) := blockLines (depth + 1) body n
    (⟨depth, "while (" ++ code test ++ ") \x7b"⟩ :: body ++ [⟨depth, "\x7d"⟩], n)
  | repeatLoop count body, n =>
    let head : Line := ⟨depth, forHead (counterName (n + 1)) "0" (code count) "++"⟩
    let (body, n) := blockLines (depth + 1) body (n + 1)
    (head :: body ++ [⟨depth, "\x7d"⟩], n)
  | rangeLoop v low high step body, n =>
    let head : Line := ⟨depth, forHead (code v) (code low) (code high) (" += " ++ code step)⟩
    let (body, n) := blockLines (depth + 1) body n
    (head :: body ++ [⟨depth, "\x7d"⟩], n)
  | eachLoop v collection body, n =>
    let head : Line := ⟨depth, "for (let " ++ code v ++ " of " ++ code collection ++ ") \x7b"⟩
    let (body, n) := blockLines (depth + 1) body n
    (head :: body ++ [⟨depth, "\x7d"⟩], n)
  | breakLoop, n => ([⟨depth, "break;"⟩], n)
  | continueLoop, n => ([⟨depth, "continue;"⟩], n)
  | returnValue e, n => ([⟨depth, "return " ++ code e ++ ";"⟩], n)
  | returnNone, n => ([⟨depth, "return;"⟩], n)
  | throwValue e, n => ([⟨depth, "throw " ++ code e ++ ";"⟩], n)
  | tryCatch body params handler, n =>
    let (body, n) := blockLines (depth + 1) body n
    let (handler, n) := blockLines (depth + 1) handler n
    (⟨depth, "try \x7b"⟩ :: body ++ ⟨depth, catchHead params⟩ :: handler ++ [⟨depth, "\x7d"⟩], n)
  | function f params body, n =>
    let head : Line :=
      ⟨depth, "function " ++ symbolCode f ++ "(" ++ commaJoin (codes params) ++ ") \x7b"⟩
    let (body, n) := blockLines (depth + 1) body n
    (head :: body ++ [⟨depth, "\x7d"⟩], n)
  | callAlone c, n => ([⟨depth, code c ++ ";"⟩], n)
  | unary op operand, n => ([⟨depth, code operand ++ op.word ++ ";"⟩], n)
  | _, n => ([], n)
termination_by structural s => s

def blockLines (depth : Nat) : List Node → (n : Nat) → List Line × Nat
  | [], n => ([], n)
  | s :: ss, n =>
    let (first, n) := lines depth "" s n
    let (rest, n) := blockLines depth ss n
    (first ++ rest, n)
termination_by structural ss => ss

end

/-- Emits an expression that stands alone. -/
def emitExpr (n : Node) : Except EmitFault String :=
  match n.exprFault? with
  | some f => .error f
  | none => .ok n.code

/-- Emits a statement that stands alone. -/
def emitStmt (n : Node) : Except EmitFault String :=
  match n.stmtFault? with
  | some f => .error f
  | none => .ok (renderLines (n.lines 0 "" 0).1)

/-- Emits a whole program. -/
def emit (n : Node) : Except EmitFault String :=
  match n with
  | program ss =>
    match stmtsFault? ss with
    | some f => .error f
    | none => .ok (renderLines (blockLines 0 ss 0).1)
  | n => .error (.notProgram n.className)

end Node

end Terse
