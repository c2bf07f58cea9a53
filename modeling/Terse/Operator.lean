/-! Operators of the language and how they are spelled. -/
namespace Terse

/-- Binary operators. A tree made by hand may carry any other word, which no pass knows. -/
inductive BinOp where
  | add | sub | mul | div | rem | pow
  | lt | le | eq | ne | ge | gt
  | or | and
  | other (word : String)
deriving DecidableEq, Repr

namespace BinOp

def word : BinOp → String
  | add => "+" | sub => "-" | mul => "*" | div => "/" | rem => "%" | pow => "^"
  | lt => "<" | le => "<=" | eq => "==" | ne => "~=" | ge => ">=" | gt => ">"
  | or => "|" | and => "&"
  | other w => w

def known : List BinOp := [add, sub, mul, div, rem, pow, lt, le, eq, ne, ge, gt, or, and]

def ofWord (w : String) : BinOp := (known.find? (·.word = w)).getD (other w)

end BinOp

/-- Unary operators: negation, logical not, length, increment, decrement, factorial. -/
inductive UnOp where
  | neg | not | length | incr | decr | fact
  | other (word : String)
deriving DecidableEq, Repr

namespace UnOp

def word : UnOp → String
  | neg => "_" | not => "~" | length => "#" | incr => "++" | decr => "--" | fact => "F"
  | other w => w

def known : List UnOp := [neg, not, length, incr, decr, fact]

def ofWord (w : String) : UnOp := (known.find? (·.word = w)).getD (other w)

end UnOp

end Terse
