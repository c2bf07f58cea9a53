import Terse.Node
import Terse.Number.Fold

/-! Simplification of programs: constants are folded, operations with a neutral or absorbing literal
are dropped, and statements that do nothing are removed. A statement becomes a list of statements.

A node that no pass knows is a fault. `fault?` finds the first one that is met on the way, and
`simplify` goes on as if there were none. -/
namespace Terse

/-- A node that cannot be simplified, by its class. -/
inductive SimplifyFault where
  | unknownStatement (className : String)
  | unknownNode (className : String)
deriving DecidableEq, Repr

def SimplifyFault.message : SimplifyFault → String
  | unknownStatement c => "optimizer: unknown statement " ++ c
  | unknownNode c => "optimizer: unknown node " ++ c

namespace Node

def isNumber (n : Node) (v : Int) : Bool := match n with
  | number a => a.isValue v
  | _ => false

def isBoolean (n : Node) (b : Bool) : Bool := match n with
  | boolean v => v == b
  | _ => false

/-- Two references to one symbol. No other two nodes are one and the same. -/
def sameSymbol : Node → Node → Bool
  | symbol s, symbol t => s = t
  | _, _ => false

def zero : Node := number (.int 0)

def one : Node := number (.int 1)

/-- An operation of which one side is a literal that makes the operation needless. -/
def identity? (op : BinOp) (left right : Node) : Option Node :=
  match op with
  | .add =>
    if right.isNumber 0 then some left else if left.isNumber 0 then some right else none
  | .sub =>
    if right.isNumber 0 then some left
    else if left.isNumber 0 then some (unary .neg right) else none
  | .mul =>
    if right.isNumber 1 then some left else if left.isNumber 1 then some right
    else if right.isNumber 0 || left.isNumber 0 then some zero else none
  | .div =>
    if right.isNumber 1 then some left else if left.isNumber 0 then some zero else none
  | .rem => if right.isNumber 1 || left.isNumber 0 then some zero else none
  | .pow => if right.isNumber 0 || left.isNumber 1 then some one else none
  | .and =>
    if left.isBoolean true then some right else if right.isBoolean true then some left else none
  | .or =>
    if left.isBoolean false then some right else if right.isBoolean false then some left else none
  | _ => none

def ofConstant : Constant → Node
  | .number a => number a
  | .boolean b => boolean b

/-- The value of an operation on two number literals. -/
def folded? (op : BinOp) (left right : Node) : Option Node :=
  match left, right with
  | number a, number b => (fold? op a b).map ofConstant
  | _, _ => none

def simplifyBinary (op : BinOp) (left right : Node) : Node :=
  (folded? op left right <|> identity? op left right).getD (binary op left right)

/-- The length of a string counts UTF-16 units. -/
def simplifyUnary (op : UnOp) (operand : Node) : Node :=
  match op, operand with
  | .neg, number a => number a.neg
  | .length, string t => number (.int t.units.length)
  | .not, boolean b => boolean (!b)
  | op, operand => unary op operand

/-- An alternative that has become a single choice again stays a link in the chain. -/
def chained (alternate : Node) : Node :=
  match alternate with
  | list [n] => if n.isChoice then n else list [n]
  | n => n

/-- The alternative of a choice after its simplification. One that was a list stays one. -/
def linked (before after : Node) : Node :=
  match before with
  | list _ => after
  | _ => chained after

/-- A choice whose parts are simplified. The side that a literal test takes stands in its place. -/
def chosen (test : Node) (yes : List Node) (no : Node) : Node :=
  match test with
  | boolean true => list yes
  | boolean false => list no.items
  | test => list [ifElse test yes no]

def isEmptyArray : Node → Bool
  | array [] => true
  | _ => false

/-- A range that is over before it starts. -/
def isEmptyRange (low high : Node) : Bool := match low, high with
  | number a, number b => a.compare? b == some .gt
  | _, _ => false

/-- A count for which nothing is repeated. -/
def isNoCount : Node → Bool
  | number a => a.compare? (.int 0) == some .lt || a.compare? (.int 0) == some .eq
  | _ => false

mutual

/-- Statements become lists, and every other node stays one node. -/
def simplify : Node → Node
  | program statements => program (simplifyBlock statements)
  | list statements => list (simplifyBlock statements)
  | declare v initializer => list [declare v (simplify initializer)]
  | assign target source =>
    let source := simplify source
    let target := simplify target
    if sameSymbol source target then list [] else list [assign target source]
  | print e => list [print (simplify e)]
  | ifElse test consequent alternate =>
    chosen (simplify test) (simplifyBlock consequent) (linked alternate (simplify alternate))
  | ifOnly test consequent =>
    let yes := simplifyBlock consequent
    match simplify test with
    | boolean true => list yes
    | boolean false => list []
    | test => list [ifOnly test yes]
  | whileLoop test body =>
    match simplify test with
    | boolean false => list []
    | test => list [whileLoop test (simplifyBlock body)]
  | repeatLoop count body =>
    let count := simplify count
    if count.isNoCount then list [] else list [repeatLoop count (simplifyBlock body)]
  | rangeLoop v low high step body =>
    let low := simplify low
    let high := simplify high
    if isEmptyRange low high then list []
    else list [rangeLoop v low high (simplify step) (simplifyBlock body)]
  | eachLoop v collection body =>
    let collection := simplify collection
    if collection.isEmptyArray then list [] else list [eachLoop v collection (simplifyBlock body)]
  | breakLoop => list [breakLoop]
  | continueLoop => list [continueLoop]
  | returnValue e => list [returnValue (simplify e)]
  | returnNone => list [returnNone]
  | throwValue e => list [throwValue (simplify e)]
  | tryCatch body params handler =>
    list [tryCatch (simplifyBlock body) params (simplifyBlock handler)]
  | function f params body => list [function f params (simplifyBlock body)]
  | callAlone c => list [callAlone (simplify c)]
  | conditional test yes no =>
    match simplify test with
    | boolean true => simplify yes
    | boolean false => simplify no
    | test => conditional test (simplify yes) (simplify no)
  | binary op left right => simplifyBinary op (simplify left) (simplify right)
  | unary op operand => simplifyUnary op (simplify operand)
  | array elements => array (simplifyAll elements)
  | dict items => dict (simplifyAll items)
  | dictItem key value => dictItem key (simplify value)
  | member object access name => member (simplify object) access name
  | subscript collection index => subscript (simplify collection) (simplify index)
  | call callee args => call callee (simplifyAll args)
  | number a => number a
  | string t => string t
  | boolean b => boolean b
  | symbol s => symbol s
  | foreign c => foreign c
termination_by structural n => n

/-- The statements that come of each statement, one after another. -/
def simplifyBlock : List Node → List Node
  | [] => []
  | s :: rest => (simplify s).items ++ simplifyBlock rest
termination_by structural ns => ns

def simplifyAll : List Node → List Node
  | [] => []
  | e :: rest => simplify e :: simplifyAll rest
termination_by structural ns => ns

end

mutual

/-- The first node in the order of simplification that has no rule. Parts that are dropped unseen
are not looked into. -/
def fault? : Node → Option SimplifyFault
  | program statements | list statements => blockFault? statements
  | declare _ initializer => fault? initializer
  | assign target source => fault? source <|> fault? target
  | print e | returnValue e | throwValue e | callAlone e => fault? e
  | ifElse test consequent alternate =>
    fault? test <|> blockFault? consequent <|>
      match alternate with
      | list statements => blockFault? statements
      | n => if n.isStatement then fault? n else some (.unknownStatement n.className)
  | ifOnly test consequent => fault? test <|> blockFault? consequent
  | whileLoop test body =>
    fault? test <|> if (simplify test).isBoolean false then none else blockFault? body
  | repeatLoop count body =>
    fault? count <|> if (simplify count).isNoCount then none else blockFault? body
  | rangeLoop _ low high step body =>
    fault? low <|> fault? high <|>
      if isEmptyRange (simplify low) (simplify high) then none
      else fault? step <|> blockFault? body
  | eachLoop _ collection body =>
    fault? collection <|> if (simplify collection).isEmptyArray then none else blockFault? body
  | tryCatch body _ handler => blockFault? body <|> blockFault? handler
  | function _ _ body => blockFault? body
  | conditional test yes no =>
    fault? test <|>
      match simplify test with
      | boolean true => fault? yes
      | boolean false => fault? no
      | _ => fault? yes <|> fault? no
  | binary _ left right => fault? left <|> fault? right
  | unary _ operand => fault? operand
  | array elements | dict elements | call _ elements => anyFault? elements
  | dictItem _ value => fault? value
  | member object _ _ => fault? object
  | subscript collection index => fault? collection <|> fault? index
  | breakLoop | continueLoop | returnNone | number _ | string _ | boolean _ | symbol _ => none
  | foreign c => some (.unknownNode c)
termination_by structural n => n

/-- In a block only statements may stand, and unary expressions. -/
def blockFault? : List Node → Option SimplifyFault
  | [] => none
  | s :: rest =>
    (match s with
      | unary _ operand => fault? operand
      | s => if s.isStatement then fault? s else some (.unknownStatement s.className)) <|>
      blockFault? rest
termination_by structural ns => ns

def anyFault? : List Node → Option SimplifyFault
  | [] => none
  | e :: rest => fault? e <|> anyFault? rest
termination_by structural ns => ns

end

/-- Simplifies any node, or tells the first one that cannot be simplified. -/
def optimize (n : Node) : Except SimplifyFault Node :=
  match n.fault? with
  | some f => .error f
  | none => .ok n.simplify

end Node

end Terse
