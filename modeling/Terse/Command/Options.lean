import Terse.Pipeline
import Terse.Text.Digit

/-! The options of the command. Long options may be abbreviated, values may follow an equals sign or
stand alone, one-letter flags may share a dash, and `--` ends the options. -/
namespace Terse.Command

/-- What the command is asked to do. -/
structure Request where
  file : String
  /-- Nothing if a stage was asked for and its name was lost. -/
  stage : Option Stage
  /-- Where to save the graph of the program. -/
  dot : Option String
  verbose : Bool
deriving DecidableEq, Repr

inductive Switch where
  | help | stage | dot | verbose
deriving DecidableEq, Repr

namespace Switch

/-- Whether a value belongs to the switch. -/
def takesValue : Switch → Bool
  | stage | dot => true
  | help | verbose => false

/-- How messages name a switch. -/
def title : Switch → String
  | help => "-h/--help"
  | stage => "--stage"
  | dot => "--dot"
  | verbose => "-v/--verbose"

def long : List (String × Switch) :=
  [("--help", help), ("--stage", stage), ("--dot", dot), ("--verbose", verbose)]

def ofLetter? : Char → Option Switch
  | 'h' => some help
  | 'v' => some verbose
  | _ => none

end Switch

/-- Why a command line asks for nothing that can be done. -/
inductive UsageError where
  | ambiguous (option : String) (candidates : List String)
  | ignoredValue (s : Switch) (value : String)
  | expectedValue (s : Switch)
  | invalidStage (value : String)
  | missingFile
  | unrecognized (args : List String)
deriving DecidableEq, Repr

def UsageError.message : UsageError → String
  | ambiguous option candidates =>
    s!"ambiguous option: {option} could match " ++ ", ".intercalate candidates
  | ignoredValue s value => s!"argument {s.title}: ignored explicit argument {quotedString value}"
  | expectedValue s => s!"argument {s.title}: expected one argument"
  | invalidStage value =>
    s!"argument --stage: invalid choice: {quotedString value} (choose from " ++
      ", ".intercalate (Stage.all.map fun s => quotedString s.name) ++ ")"
  | missingFile => "the following arguments are required: file"
  | unrecognized args => "unrecognized arguments: " ++ " ".intercalate args

/-- What one argument is, looked at alone. -/
inductive Arg where
  | word (text : String)
  /-- The argument `--`. -/
  | separator
  /-- Switches without values, which may share an argument. -/
  | flags (switches : List Switch)
  /-- A switch that takes a value, with the value if it is in the same argument. -/
  | valued (s : Switch) (value : Option String)
  /-- An option that does not exist. -/
  | unknown (text : String)
  /-- A switch with a value that it does not take. -/
  | refused (e : UsageError)

/-- A minus sign and a decimal numeral. -/
def isMinusNumeral : List Char → Bool
  | '-' :: cs =>
    match cs.dropWhile isDecimal with
    | [] => cs ≠ []
    | '.' :: places => places ≠ [] && places.all isDecimal
    | _ => false
  | _ => false

/-- A negative number is a word, not an option. A line feed may end it. -/
def isNegativeNumber (cs : List Char) : Bool :=
  isMinusNumeral (if cs.getLast? = some '\n' then cs.dropLast else cs)

/-- The text before the first equals sign, and the one after it if there is one. -/
def cutEquals (cs : List Char) : List Char × Option (List Char) :=
  match cs.dropWhile (· ≠ '=') with
  | [] => (cs, none)
  | _ :: value => (cs.takeWhile (· ≠ '='), some value)

/-- A long option with its value. -/
def longArg (s : Switch) (value : Option (List Char)) : Arg :=
  if s.takesValue then .valued s (value.map String.ofList)
  else match value with
    | none => .flags [s]
    | some v => .refused (.ignoredValue s (String.ofList v))

/-- The letters after a one-letter flag. Each is a flag of its own, and the last flag before one
that is none is blamed for all that follows it. -/
def cluster (flag : Switch) (before : List Switch) : List Char → Arg
  | [] => .flags (before ++ [flag])
  | c :: cs =>
    match Switch.ofLetter? c with
    | some next => cluster next (before ++ [flag]) cs
    | none => .refused (.ignoredValue flag (String.ofList (c :: cs)))

/-- A one-letter flag and what follows it in its argument. An equals sign right after the flag is
passed over, unless nothing follows it. -/
def shortArg (flag : Switch) : List Char → Arg
  | ['='] => .refused (.ignoredValue flag "")
  | '=' :: cs => cluster flag [] cs
  | cs => cluster flag [] cs

/-- An argument that starts with a dash and names no option. -/
def unknownArg (text : String) : Arg :=
  let cs := text.toList
  if isNegativeNumber cs || cs.contains ' ' then .word text else .unknown text

/-- Looks at one argument before `--`. -/
def classify (text : String) : Except UsageError Arg :=
  match text.toList with
  | '-' :: '-' :: [] => .ok .separator
  | '-' :: '-' :: cs =>
    let (name, value) := cutEquals ('-' :: '-' :: cs)
    match Switch.long.lookup (String.ofList name) with
    | some s => .ok (longArg s value)
    | none =>
      match Switch.long.filter fun o => name.isPrefixOf o.1.toList with
      | [] => .ok (unknownArg text)
      | [(_, s)] => .ok (longArg s value)
      | candidates => .error (.ambiguous text (candidates.map (·.1)))
  | '-' :: c :: cs =>
    match Switch.ofLetter? c with
    | some flag => .ok (shortArg flag cs)
    | none => .ok (unknownArg text)
  | _ => .ok (.word text)

/-- Looks at all arguments. After `--` there are only words. -/
def classifyAll : List String → Except UsageError (List Arg)
  | [] => .ok []
  | text :: rest => do
    match ← classify text with
    | .separator => return .separator :: rest.map .word
    | arg => return arg :: (← classifyAll rest)

/-- What was asked for so far. -/
structure Draft where
  file : Option String
  stage : Option Stage
  dot : Option String
  verbose : Bool
  extras : List String

/-- The end of reading a command line without a request. -/
inductive Stop where
  | help
  | wrong (e : UsageError)

namespace Draft

def start : Draft := ⟨none, some .generated, none, false, []⟩

def extra (d : Draft) (text : String) : Draft := { d with extras := d.extras ++ [text] }

/-- Sets a switch to a value. -/
def setValue (d : Draft) (s : Switch) (value : String) : Except Stop Draft :=
  match s with
  | .stage =>
    match Stage.ofName? value with
    | some stage => .ok { d with stage := some stage }
    | none => .error (.wrong (.invalidStage value))
  | .dot => .ok { d with dot := some value }
  | _ => .ok d

/-- Unsets a switch. -/
def dropValue (d : Draft) : Switch → Draft
  | .stage => { d with stage := none }
  | .dot => { d with dot := none }
  | _ => d

/-- Sets switches without values, in order. -/
def setFlags (d : Draft) : List Switch → Except Stop Draft
  | [] => .ok d
  | .help :: _ => .error .help
  | .verbose :: rest => { d with verbose := true }.setFlags rest
  | _ :: rest => d.setFlags rest

/-- Takes the arguments in order. The first word is the file, and takes a `--` next to it along. A
value that is `--` is lost. -/
def take (d : Draft) : List Arg → Except Stop Draft
  | [] => .ok d
  | .refused e :: _ => .error (.wrong e)
  | .separator :: rest =>
    match d.file, rest with
    | none, .word w :: rest => { d with file := some w }.take rest
    | _, rest => (d.extra "--").take rest
  | .word w :: rest =>
    match d.file, rest with
    | none, .separator :: rest => { d with file := some w }.take rest
    | none, rest => { d with file := some w }.take rest
    | some _, rest => (d.extra w).take rest
  | .flags switches :: rest => do (← d.setFlags switches).take rest
  | .valued s (some v) :: rest => do
    if v = "--" then (d.dropValue s).take rest else (← d.setValue s v).take rest
  | .valued s none :: .word w :: rest => do (← d.setValue s w).take rest
  | .valued s none :: _ => .error (.wrong (.expectedValue s))
  | .unknown text :: rest => (d.extra text).take rest

end Draft

/-- Reads a command line. An empty place for the graph is as good as none. -/
def readArgs (args : List String) : Except Stop Request := do
  let args ← (classifyAll args).mapError Stop.wrong
  let d ← Draft.start.take args
  match d.file with
  | none => throw (.wrong .missingFile)
  | some file =>
    if d.extras ≠ [] then throw (.wrong (.unrecognized d.extras))
    return ⟨file, d.stage, if d.dot = some "" then none else d.dot, d.verbose⟩

end Terse.Command
