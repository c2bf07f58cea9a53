import Terse.Number.Basic
import Terse.Text.Digit
import Terse.Text.Quoted

/-! Reading numerals. Blanks may surround a numeral, a sign may lead it, single underscores may
stand between digits, and the digits may be of any script. -/
namespace Terse

inductive NumeralError where
  | notInteger (base : Nat) (text : List Char)
  | notDecimal (text : List Char)
  | tooManyDigits (count : Nat)
deriving DecidableEq, Repr

namespace NumeralError

def quote (text : List Char) : List Char := (Text.ofChars text).quotedChars

/-- A text that is no integer is quoted up to two hundred characters. -/
def message : NumeralError → String
  | notInteger base text =>
    s!"invalid literal for int() with base {base}: " ++ String.ofList ((quote text).take 200)
  | notDecimal text => "could not convert string to float: " ++ String.ofList (quote text)
  | tooManyDigits count =>
    s!"Exceeds the limit (4300 digits) for integer string conversion: value has {count} digits; " ++
      "use sys.set_int_max_str_digits() to increase the limit"

end NumeralError

namespace Numeral

/-- The most digits a decimal integer may have. -/
def digitLimit : Nat := 4300

/-- A leading sign, and what follows it. -/
def sign : List Char → Bool × List Char
  | '-' :: cs => (true, cs)
  | '+' :: cs => (false, cs)
  | cs => (false, cs)

def digitIn? (base : Nat) (c : Char) : Option Nat :=
  if base = 16 then hexValue? c else decimalValue? c

/-- Underscores stand only between digits, one at a time. -/
def spacedWell (isDigit : Char → Bool) : (before : Char) → List Char → Bool
  | before, [] => before ≠ '_'
  | before, c :: cs =>
    (if c = '_' then isDigit before else before ≠ '_' || isDigit c) && spacedWell isDigit c cs

/-- The number that a run of digits spells; underscores are passed over. -/
def ofDigits (base : Nat) (cs : List Char) : Nat :=
  cs.foldl (fun n c => match digitIn? base c with | some d => base * n + d | none => n) 0

/-- In base sixteen the digits may follow a zero of any script and an `x`, and one underscore may
follow that. -/
def skipMark (base : Nat) : List Char → List Char
  | zero :: x :: rest =>
    if base = 16 ∧ decimalValue? zero = some 0 ∧ (x = 'x' ∨ x = 'X') then
      match rest with
      | '_' :: rest => rest
      | rest => rest
    else zero :: x :: rest
  | cs => cs

/-- Reads an integer in base ten or sixteen. Only base ten limits the number of digits. -/
def readInt (base : Nat) (text : List Char) : Except NumeralError Int :=
  let (neg, cs) := sign (text.dropWhile isBlank)
  let cs := skipMark base cs
  let isDigit := fun c => (digitIn? base c).isSome
  let run := cs.takeWhile fun c => isDigit c || c = '_'
  let rest := cs.dropWhile fun c => isDigit c || c = '_'
  let count := run.countP isDigit
  if count = 0 ∨ !spacedWell isDigit ' ' run then .error (.notInteger base text)
  else if base = 10 ∧ digitLimit < count then .error (.tooManyDigits count)
  else if !rest.all isBlank then .error (.notInteger base text)
  else
    let n := ofDigits base run
    .ok (if neg then -n else n)

def trim (cs : List Char) : List Char :=
  ((cs.dropWhile isBlank).reverse.dropWhile isBlank).reverse

/-- `e` or `E`, an optional sign, and digits; nothing at all is exponent zero. -/
def exponent? : List Char → Option Int
  | [] => some 0
  | c :: cs =>
    if c = 'e' ∨ c = 'E' then
      let (neg, ds) := sign cs
      if ds ≠ [] ∧ ds.all isDecimal then
        let n := ofDigits 10 ds
        some (if neg then -n else n)
      else none
    else none

/-- Digits with a point among them or not, and an exponent. -/
def decimal? (cs : List Char) : Option (Nat × Int) := do
  let whole := cs.takeWhile isDecimal
  let rest := cs.dropWhile isDecimal
  let (places, rest) := match rest with
    | '.' :: rest => (rest.takeWhile isDecimal, rest.dropWhile isDecimal)
    | rest => ([], rest)
  if whole = [] ∧ places = [] then none
  else
    let e ← exponent? rest
    some (ofDigits 10 (whole ++ places), e - places.length)

/-- Reads a double. Besides decimals there are names for infinity and NaN, in any letter case. -/
def readFloat (text : List Char) : Except NumeralError Float :=
  let cs := trim text
  if !spacedWell isDecimal ' ' cs then .error (.notDecimal text)
  else
    let (neg, cs) := sign (cs.filter (· ≠ '_'))
    let word := String.ofList (cs.map Char.toLower)
    if word = "inf" ∨ word = "infinity" then .ok (if neg then -(1.0 / 0.0) else 1.0 / 0.0)
    else if word = "nan" then .ok (0.0 / 0.0)
    else match decimal? cs with
      | some (m, e) => .ok (floatOfDecimal neg m e)
      | none => .error (.notDecimal text)

/-- A numeral with a point or an exponent letter is a double, any other an integer. -/
def read (text : List Char) : Except NumeralError Number :=
  if text.any fun c => c = '.' || c = 'e' || c = 'E' then Number.float <$> readFloat text
  else Number.int <$> readInt 10 text

end Numeral

end Terse
