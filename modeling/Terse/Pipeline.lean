import Terse.Analysis
import Terse.Dump
import Terse.Emit.Code
import Terse.Parse
import Terse.Simplify

/-! The stages of a compilation and their log. -/
namespace Terse

inductive Stage where
  | parsed | analyzed | optimized | generated
deriving DecidableEq, Repr

namespace Stage

def name : Stage → String
  | parsed => "parsed"
  | analyzed => "analyzed"
  | optimized => "optimized"
  | generated => "generated"

/-- In the order in which they are run. -/
def all : List Stage := [parsed, analyzed, optimized, generated]

def ofName? (n : String) : Option Stage := all.find? (·.name = n)

/-- What is said of a stage that does not exist. -/
def unknownMessage : String := "Unknown output type"

end Stage

/-- Why a compilation ended early. The source program is to blame for the first three only. -/
inductive Failure where
  | compile (e : CompileError)
  | numeral (e : NumeralError)
  | escape (e : EscapeError)
  | tree (f : TreeFault)
  | simplify (f : SimplifyFault)
  | emit (f : EmitFault)
deriving DecidableEq, Repr

namespace Failure

def ofAnalysis : AnalysisError → Failure
  | .compile e => compile e
  | .numeral e => numeral e
  | .escape e => escape e
  | .tree f => tree f

/-- The compiler handed itself something that it does not understand. -/
def isInternal : Failure → Bool
  | tree _ | simplify _ => true
  | emit f => f.isInternal
  | compile _ | numeral _ | escape _ => false

def message : Failure → String
  | compile e => e.message
  | numeral e => e.message
  | escape e => e.message
  | tree f => f.message
  | simplify f => f.message
  | emit f => f.message

end Failure

/-- An internal failure under its heading. -/
def internalText (message : String) : String := "internal compiler error: " ++ message

inductive LogLevel where
  | debug | info
deriving DecidableEq, Repr

structure LogRecord where
  level : LogLevel
  logger : String
  message : String
deriving DecidableEq, Repr

def LogRecord.text (r : LogRecord) : String :=
  (match r.level with | .debug => "DEBUG " | .info => "INFO ") ++ r.logger ++ ": " ++ r.message

/-- What a stage gives. -/
inductive Product where
  | message (text : String)
  | program (statements : List Node)

/-- A program is shown by its dump. -/
def Product.text : Product → String
  | message s => s
  | program ss => (Node.program ss).dump?.getD ""

/-- How many lines a text has; an empty one has none. -/
def lineCount (code : String) : Nat := if code = "" then 0 else code.toList.count '\n' + 1

namespace Compilation

/-- A compilation leaves a log, whether it succeeds or not. -/
abbrev Logged := ExceptT Failure (StateM (List LogRecord))

def log (level : LogLevel) (logger message : String) : Logged Unit :=
  modify (· ++ [⟨level, logger, message⟩])

def debug (logger message : String) : Logged Unit := log .debug logger message

def toTree (source : String) : Logged Tree :=
  match parse source with
  | .ok tree => do
    debug "pythscrip.compiler" "parse ok"
    return tree
  | .error e => do
    let place := (e.loc.map Loc.text).getD "None"
    debug "pythscrip.parser" ("syntax error at " ++ place ++ ": " ++ e.cause.detail)
    throw (.compile e)

def toProgram (tree : Tree) : Logged (List Node) :=
  match analyze tree with
  | .ok statements => do
    debug "pythscrip.sema.analyzer" s!"analyzed {statements.length} top-level statements"
    debug "pythscrip.compiler" s!"analysis ok: {statements.length} statements"
    return statements
  | .error e => throw (.ofAnalysis e)

def toSimpler (statements : List Node) : Logged (List Node) :=
  match Node.blockFault? statements with
  | some f => throw (.simplify f)
  | none => do
    let simpler := Node.simplifyBlock statements
    debug "pythscrip.compiler" s!"optimized: {simpler.length} statements"
    return simpler

def toCode (statements : List Node) : Logged String :=
  match (Node.program statements).emit with
  | .ok code => do
    log .info "pythscrip.compiler" s!"generated {lineCount code} lines of JavaScript"
    return code
  | .error f => throw (.emit f)

/-- Runs a compilation up to a stage. -/
def run (source : String) (stage : Stage) : Logged Product := do
  let tree ← toTree source
  if stage = .parsed then return .message "Syntax is ok"
  let statements ← toProgram tree
  if stage = .analyzed then return .program statements
  let simpler ← toSimpler statements
  if stage = .optimized then return .program simpler
  return .message (← toCode simpler)

end Compilation

/-- The product of a stage, without the log. -/
def compile (source : String) (stage : Stage) : Except Failure Product :=
  ((Compilation.run source stage).run.run []).1

/-- The texts of the stages up to the first that fails, and the error of that one. -/
structure StageReport where
  texts : List (Stage × String)
  error : Option CompileError

/-- Runs every stage on its own. Only an error of the source program is reported with the stages
before it; any other failure takes their place. -/
def runStages (source : String) : Except Failure StageReport :=
  go Stage.all
where
  go : List Stage → Except Failure StageReport
    | [] => .ok ⟨[], none⟩
    | stage :: rest =>
      match compile source stage with
      | .ok product => (fun r => ⟨(stage, product.text) :: r.texts, r.error⟩) <$> go rest
      | .error (.compile e) => .ok ⟨[], some e⟩
      | .error e => .error e

end Terse
