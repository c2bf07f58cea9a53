import Terse.Source.Token

/-! Parse trees. -/
namespace Terse

/-- The rules that name nodes of a tree. A tree made by hand may name any other. -/
inductive Rule where
  | start | varDecl | indexAssign | memberAssign | mathAssign | incDecStmt | callStmt | funcDecl
  | params | block | ifStmt | whileStmt | repeatStmt | rangeStmt | forStmt | breakStmt
  | continueStmt | returnStmt | shortReturnStmt | throwStmt | tryStmt
  | conditional | orExp | andExp | relational | binary | power | unary | postfixUnary
  | number | string | trueLit | falseLit | var | array | dict | member | optionalMember | subscript
  | call | dictItem
  | other (name : String)
deriving DecidableEq, Repr

namespace Rule

def name : Rule → String
  | start => "start" | varDecl => "var_decl" | indexAssign => "index_assign"
  | memberAssign => "member_assign" | mathAssign => "math_assign" | incDecStmt => "incdec_stmt"
  | callStmt => "call_stmt" | funcDecl => "func_decl" | params => "params" | block => "block"
  | ifStmt => "if_stmt" | whileStmt => "while_stmt" | repeatStmt => "repeat_stmt"
  | rangeStmt => "range_stmt" | forStmt => "for_stmt" | breakStmt => "break_stmt"
  | continueStmt => "continue_stmt" | returnStmt => "return_stmt"
  | shortReturnStmt => "short_return_stmt" | throwStmt => "throw_stmt" | tryStmt => "try_stmt"
  | conditional => "conditional" | orExp => "or_exp" | andExp => "and_exp"
  | relational => "relational" | binary => "binary" | power => "power" | unary => "unary"
  | postfixUnary => "postfix_unary" | number => "number" | string => "string"
  | trueLit => "true_lit" | falseLit => "false_lit" | var => "var" | array => "array"
  | dict => "dict" | member => "member" | optionalMember => "optional_member"
  | subscript => "subscript" | call => "call" | dictItem => "dict_item"
  | other n => n

def known : List Rule := [
  start, varDecl, indexAssign, memberAssign, mathAssign, incDecStmt, callStmt, funcDecl, params,
  block, ifStmt, whileStmt, repeatStmt, rangeStmt, forStmt, breakStmt, continueStmt, returnStmt,
  shortReturnStmt, throwStmt, tryStmt, conditional, orExp, andExp, relational, binary, power, unary,
  postfixUnary, number, string, trueLit, falseLit, var, array, dict, member, optionalMember,
  subscript, call, dictItem]

def ofName (n : String) : Rule := (known.find? (·.name = n)).getD (other n)

end Rule

/-- A token, or a rule with its parts. A node that was read from a source has the place of its
first token. -/
inductive Tree where
  | token (t : Token)
  | node (rule : Rule) (kids : List Tree) (loc : Option Loc)

instance : Inhabited Tree := ⟨.node .start [] none⟩

namespace Tree

def loc : Tree → Option Loc
  | token t => t.loc
  | node _ _ loc => loc

/-- The text of a token; a node has none. -/
def word : Tree → String
  | token t => t.text
  | node .. => ""

def kids : Tree → List Tree
  | token _ => []
  | node _ kids _ => kids

end Tree

end Terse
