import Terse.Literal
import Terse.Node
import Terse.Scope
import Terse.Tree

/-! From parse tree to resolved program. Names are looked up as the tree is walked in text order,
and the first error ends the walk. -/
namespace Terse

/-- A tree that no source text has. -/
inductive TreeFault where
  /-- A token stands where a tree is needed. -/
  | strayToken (t : Token)
  /-- The rule of a node has no meaning where it stands. -/
  | noRule (name : String)
  /-- A node lacks a part, or has one too many. -/
  | malformed (rule : Rule)
deriving DecidableEq, Repr

def TreeFault.message : TreeFault → String
  | strayToken t => "unexpected token in parse tree: " ++ t.shown
  | noRule name => s!"no analyzer rule for '{name}'"
  | malformed rule => s!"malformed '{rule.name}'"

inductive AnalysisError where
  | compile (e : CompileError)
  | numeral (e : NumeralError)
  | escape (e : EscapeError)
  | tree (f : TreeFault)
deriving DecidableEq, Repr

namespace Analysis

/-- The scope that is being filled, and the number of the next symbol. -/
structure State where
  scope : Scope
  nextUid : Nat

abbrev Walk := StateT State (Except AnalysisError)

def fail {α : Type} (cause : Cause) (loc : Option Loc) : Walk α := throw (.compile ⟨cause, loc⟩)

/-- The innermost scope. -/
def here : Walk Frame := return (← get).scope.head?.getD .empty

/-- Runs a walk in a scope of its own inside the present one. -/
def inside {α : Type} (frame : Frame) (walk : Walk α) : Walk α := do
  modify fun s => { s with scope := frame :: s.scope }
  let a ← walk
  modify fun s => { s with scope := s.scope.tail }
  return a

def lookup (name : String) : Walk (Option Symbol) := return (← get).scope.lookup name

def resolve (name : Tree) : Walk Symbol := do
  match ← lookup name.word with
  | some s => return s
  | none => fail (.undeclared name.word) name.loc

def resolveVariable (name : Tree) : Walk Symbol := do
  let s ← resolve name
  if s.isFunction then fail (.notVariable name.word) name.loc else return s

/-- Declares a symbol in the innermost scope, with the next number. -/
def declare (name : Tree) (kind : SymbolKind) : Walk Symbol := do
  let s ← get
  let symbol : Symbol := ⟨name.word, s.nextUid, kind, .declared s.nextUid⟩
  match s.scope.head?.getD .empty |>.declare symbol name.loc with
  | .error e => throw (.compile e)
  | .ok frame =>
    set { s with scope := frame :: s.scope.tail, nextUid := s.nextUid + 1 }
    return symbol

def declareVariable (name : Tree) : Walk Symbol := declare name (.var false)

def declareVariables : List Tree → Walk (List Node)
  | [] => return []
  | name :: names => do
    let s ← declareVariable name
    return .symbol s :: (← declareVariables names)

def readNumber (text : String) : Walk Node :=
  match Numeral.read text.toList with
  | .ok a => return .number a
  | .error e => throw (.numeral e)

def readString (text : String) : Walk Node :=
  match Literal.value text.toList with
  | .ok t => return .string t
  | .error e => throw (.escape e)

/-- The operator of a compound assignment is the first character of its token. -/
def compoundOp (token : Tree) : BinOp := .ofWord (String.ofList (token.word.toList.take 1))

def requireLoop (cause : Cause) (token : Tree) : Walk Unit := do
  unless (← here).inLoop do fail cause token.loc

def requireFunction (token : Tree) : Walk Unit := do
  if (← here).function.isNone then fail .returnOutsideFunction token.loc

/-- A call of `log` that stands alone prints. -/
def callStatement (call : Node) : Node :=
  match call with
  | .call (.symbol s) (arg :: _) => if s = .log then .print arg else .callAlone call
  | _ => .callAlone call

/-- A name is assigned to if it is a writable variable in sight, and declared otherwise. -/
def assignName (name : Tree) (source : Node) : Walk Node := do
  match ← lookup name.word with
  | some s => if s.isWritable then return .assign (.symbol s) source else introduce
  | none => introduce
where
  introduce : Walk Node := return .declare (.symbol (← declareVariable name)) source

def loopFrame : Walk Frame := return (← here).child (some true) none

def blockFrame : Walk Frame := return (← here).child none none

mutual

/-- The node of a tree. The scope in which a part is resolved is the one at its place: the head of
a loop is outside the loop, a function is declared before its body, and a further choice is
resolved in the scope of the first. -/
def node : Tree → Walk Node
  | .token t => throw (.tree (.strayToken t))
  | .node rule kids loc => match rule, kids with
    | .varDecl, [name, exp] => do
      let source ← node exp
      assignName name source
    | .indexAssign, [name, index, exp] => do
      let target ← resolve name
      let index ← node index
      return .assign (.subscript (.symbol target) index) (← node exp)
    | .memberAssign, [name, field, exp] => do
      let target ← resolve name
      return .assign (.member (.symbol target) "." field.word) (← node exp)
    | .mathAssign, [name, op, exp] => do
      let target ← resolveVariable name
      return .assign (.symbol target) (.binary (compoundOp op) (.symbol target) (← node exp))
    | .incDecStmt, [operand, op] => return .unary (.ofWord op.word) (← node operand)
    | .callStmt, [call] => return callStatement (← node call)
    | .funcDecl, name :: .node _ params _ :: body => do
      let f ← declare name (.fn params.length false)
      inside (.functionChild f) do
        let params ← declareVariables params
        return .function (.symbol f) params (← nodes body)
    | .ifStmt, [test, .node _ yes _] => do
      let test ← node test
      return .ifOnly test (← inside (← blockFrame) (nodes yes))
    | .ifStmt, [test, .node _ yes _, .node .ifStmt chain loc] => do
      let test ← node test
      let yes ← inside (← blockFrame) (nodes yes)
      return .ifElse test yes (← node (.node .ifStmt chain loc))
    | .ifStmt, [test, .node _ yes _, .node _ no _] => do
      let test ← node test
      let yes ← inside (← blockFrame) (nodes yes)
      return .ifElse test yes (.list (← inside (← blockFrame) (nodes no)))
    | .whileStmt, [test, .node _ body _] => do
      let test ← node test
      return .whileLoop test (← inside (← loopFrame) (nodes body))
    | .repeatStmt, [_, .token count, .node _ body _] => do
      let count ← if count.kind = .number then readNumber count.text
        else Node.symbol <$> resolveVariable (.token count)
      return .repeatLoop count (← inside (← loopFrame) (nodes body))
    | .rangeStmt, [name, low, high, .node _ body _] => do
      let low ← node low
      let high ← node high
      inside (← loopFrame) do
        let i ← declareVariable name
        return .rangeLoop (.symbol i) low high (.number (.int 1)) (← nodes body)
    | .rangeStmt, [name, low, high, step, .node _ body _] => do
      let low ← node low
      let high ← node high
      let step ← node step
      inside (← loopFrame) do
        let i ← declareVariable name
        return .rangeLoop (.symbol i) low high step (← nodes body)
    | .forStmt, [name, collection, .node _ body _] => do
      let collection ← node collection
      inside (← loopFrame) do
        let i ← declareVariable name
        return .eachLoop (.symbol i) collection (← nodes body)
    | .breakStmt, [token] => do
      requireLoop .breakOutsideLoop token
      return .breakLoop
    | .continueStmt, [token] => do
      requireLoop .continueOutsideLoop token
      return .continueLoop
    | .returnStmt, [token, exp] => do
      requireFunction token
      return .returnValue (← node exp)
    | .shortReturnStmt, [token] => do
      requireFunction token
      return .returnNone
    | .throwStmt, [exp] => return .throwValue (← node exp)
    | .tryStmt, [.node _ body _, .node _ params _, .node _ handler _] => do
      let body ← inside (← blockFrame) (nodes body)
      inside (← blockFrame) do
        let params ← declareVariables params
        return .tryCatch body params (← nodes handler)
    | .conditional, [test, yes, no] => do
      let test ← node test
      let yes ← node yes
      return .conditional test yes (← node no)
    | .orExp, [left, right] => do
      let left ← node left
      return .binary .or left (← node right)
    | .andExp, [left, right] => do
      let left ← node left
      return .binary .and left (← node right)
    | .relational, [left, op, right] => do
      let left ← node left
      return .binary (.ofWord op.word) left (← node right)
    | .binary, [op, left, right] => do
      let left ← node left
      return .binary (.ofWord op.word) left (← node right)
    | .power, [left, right] => do
      let left ← node left
      return .binary .pow left (← node right)
    | .unary, [op, operand] => return .unary (.ofWord op.word) (← node operand)
    | .postfixUnary, [operand, op] => return .unary (.ofWord op.word) (← node operand)
    | .number, token :: _ => readNumber token.word
    | .string, token :: _ => readString token.word
    | .trueLit, _ => return .boolean true
    | .falseLit, _ => return .boolean false
    | .var, name :: _ => return .symbol (← resolve name)
    | .call, name :: args => do
      let f ← resolve name
      match f.kind with
      | .var _ => fail (.notCallable name.word) name.loc
      | .fn arity _ => do
        let args ← nodes args
        if args.length = arity then return .call (.symbol f) args
        else fail (.arity arity args.length) loc
    | .array, elements => return .array (← nodes elements)
    | .dict, items => return .dict (← nodes items)
    | .dictItem, [key, value] => return .dictItem key.word (← node value)
    | .member, [object, name] => return .member (← node object) "." name.word
    | .optionalMember, [object, name] => return .member (← node object) "?." name.word
    | .subscript, [collection, index] => do
      let collection ← node collection
      return .subscript collection (← node index)
    | .other name, _ => throw (.tree (.noRule name))
    | .start, _ | .params, _ | .block, _ => throw (.tree (.noRule rule.name))
    | rule, _ => throw (.tree (.malformed rule))
termination_by structural t => t

/-- Nodes one after another, in one scope. -/
def nodes : List Tree → Walk (List Node)
  | [] => return []
  | t :: ts => do
    let n ← node t
    return n :: (← nodes ts)
termination_by structural ts => ts

end

end Analysis

/-- Resolves a whole tree. The rule at its root is not looked at. -/
def analyze (tree : Tree) : Except AnalysisError (List Node) :=
  (Analysis.nodes tree.kids).run' ⟨[.root], 1⟩

end Terse
