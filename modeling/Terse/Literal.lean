import Terse.Number.Numeral

/-! The value of a string literal. -/
namespace Terse

/-- What can be wrong with the escapes of a literal. The lexer lets none of these through. -/
inductive EscapeError where
  | digits (e : NumeralError)
  | notCodePoint
  | tooLarge
  | unclosedBrace
  | cutShort
deriving DecidableEq, Repr

def EscapeError.message : EscapeError → String
  | digits e => e.message
  | notCodePoint => "chr() arg not in range(0x110000)"
  | tooLarge => "Python int too large to convert to C int"
  | unclosedBrace => "substring not found"
  | cutShort => "string index out of range"

namespace Literal

/-- The code point that hexadecimal digits name. Numbers past a machine word are refused with a
cause of their own. -/
def codePoint (digits : List Char) : Except EscapeError CodePoint :=
  match Numeral.readInt 16 digits with
  | .error e => .error (.digits e)
  | .ok n =>
    match if n < 0 then none else CodePoint.ofNat? n.toNat with
    | some p => .ok p
    | none => .error (if -0x80000000 ≤ n ∧ n < 0x80000000 then .notCodePoint else .tooLarge)

/-- The character after a backslash. Without a meaning of its own it stands for itself. -/
def escaped (c : Char) : Char :=
  match c with
  | 'n' => '\n'
  | 't' => '\t'
  | 'r' => '\r'
  | '0' => '\x00'
  | c => c

/-- What follows the first closing brace. -/
def afterBrace (cs : List Char) : List Char := (cs.dropWhile (· ≠ '\x7d')).drop 1

theorem length_afterBrace_le (cs : List Char) : (afterBrace cs).length ≤ cs.length := by
  have h := (List.dropWhile_suffix (fun c : Char => decide (c ≠ '\x7d')) (l := cs)).length_le
  simp only [afterBrace, List.length_drop]
  omega

/-- The code points that the text between the quotes spells, one for each escape. -/
def spelled (body : List Char) : Except EscapeError Text :=
  match body with
  | [] => .ok []
  | '\\' :: 'x' :: rest => do
    let p ← codePoint (rest.take 2)
    return p :: (← spelled (rest.drop 2))
  | ['\\', 'u'] => .error .cutShort
  | '\\' :: 'u' :: '\x7b' :: rest =>
    if '\x7d' ∈ rest then do
      let p ← codePoint (rest.takeWhile (· ≠ '\x7d'))
      return p :: (← spelled (afterBrace rest))
    else .error .unclosedBrace
  | '\\' :: 'u' :: rest => do
    let p ← codePoint (rest.take 4)
    return p :: (← spelled (rest.drop 4))
  | '\\' :: c :: rest => return .ofChar (escaped c) :: (← spelled rest)
  | c :: rest => return .ofChar c :: (← spelled rest)
termination_by body.length
decreasing_by
  all_goals simp only [List.length_cons, List.length_drop]
  · omega
  · have := length_afterBrace_le rest
    omega
  all_goals omega

/-- The value of a literal given with its quotes, whatever they are. Surrogate pairs spelled as two
escapes are one code point. -/
def value (text : List Char) : Except EscapeError Text :=
  Text.joinPairs <$> spelled (text.drop 1).dropLast

end Literal

end Terse
