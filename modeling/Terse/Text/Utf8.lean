import Terse.Text.CodePoint

/-! Reading bytes as UTF-8. -/
namespace Terse.Utf8

/-- What is wrong with some bytes, which go from `start` up to but not including `stop`. -/
inductive Flaw where
  | badStart
  | badContinuation
  | endOfData
deriving DecidableEq, Repr

structure DecodeError where
  flaw : Flaw
  start : Nat
  stop : Nat
  /-- The first of the bytes. -/
  byte : UInt8
deriving DecidableEq, Repr

def Flaw.reason : Flaw → String
  | badStart => "invalid start byte"
  | badContinuation => "invalid continuation byte"
  | endOfData => "unexpected end of data"

def DecodeError.message (e : DecodeError) : String :=
  let reason := ": " ++ e.flaw.reason
  if e.stop = e.start + 1 then
    let byte := String.ofList (hexDigits 2 e.byte.toNat)
    s!"'utf-8' codec can't decode byte 0x{byte} in position {e.start}" ++ reason
  else s!"'utf-8' codec can't decode bytes in position {e.start}-{e.stop - 1}" ++ reason

def isContinuation (b : UInt8) : Bool := 0x80 ≤ b && b < 0xc0

/-- How many bytes a character takes that starts with `b`. -/
def width (b : UInt8) : Option Nat :=
  if b < 0x80 then some 1
  else if b < 0xc2 then none
  else if b < 0xe0 then some 2
  else if b < 0xf0 then some 3
  else if b < 0xf5 then some 4
  else none

/-- Whether `c` may come second after `b`: overlong forms, surrogates and numbers past the last
code point are left out. -/
def mayFollow (b c : UInt8) : Bool :=
  isContinuation c &&
    (if b = 0xe0 then 0xa0 ≤ c else if b = 0xed then c < 0xa0
      else if b = 0xf0 then 0x90 ≤ c else if b = 0xf4 then c < 0x90 else true)

/-- How many of the bytes after `b` fit, out of those that should be there. -/
def fitting (b : UInt8) (tail : List UInt8) : Nat :=
  match tail with
  | [] => 0
  | c :: cs => if mayFollow b c then 1 + (cs.takeWhile isContinuation).length else 0

/-- The number that the bytes of one character spell. -/
def number (b : UInt8) (tail : List UInt8) : Nat :=
  let lead := match tail.length with
    | 0 => b.toNat
    | 1 => b.toNat % 0x20
    | 2 => b.toNat % 0x10
    | _ => b.toNat % 0x08
  tail.foldl (fun n c => 64 * n + c.toNat % 64) lead

/-- Decodes bytes of which the first stands at `offset`. -/
def decodeFrom (offset : Nat) (bytes : List UInt8) : Except DecodeError (List Char) :=
  match bytes with
  | [] => .ok []
  | b :: rest =>
    match width b with
    | none => .error ⟨.badStart, offset, offset + 1, b⟩
    | some n =>
      let tail := rest.take (n - 1)
      let fit := fitting b tail
      if fit = n - 1 then do
        let cs ← decodeFrom (offset + n) (rest.drop (n - 1))
        return Char.ofNat (number b tail) :: cs
      else if fit = tail.length then .error ⟨.endOfData, offset, offset + 1 + tail.length, b⟩
      else .error ⟨.badContinuation, offset, offset + 1 + fit, b⟩
termination_by bytes.length
decreasing_by simp only [List.length_cons, List.length_drop]; omega

def decode (bytes : List UInt8) : Except DecodeError (List Char) := decodeFrom 0 bytes

/-- Every way to end a line becomes a line feed. -/
def normalizeNewlines : List Char → List Char
  | [] => []
  | '\r' :: '\n' :: cs => '\n' :: normalizeNewlines cs
  | '\r' :: cs => '\n' :: normalizeNewlines cs
  | c :: cs => c :: normalizeNewlines cs

end Terse.Utf8
