import Terse.Command.FileSystem
import Terse.Command.Options
import Terse.Graph
import Terse.Text.Utf8

/-! One run of the command over a file system. -/
namespace Terse.Command

def usage : String :=
  "usage: pythscrip [-h] [--stage \x7bparsed,analyzed,optimized,generated\x7d]\n" ++
  "                 [--dot PATH] [-v]\n" ++
  "                 file\n"

def helpText : String :=
  usage ++ "\n" ++
  "Compila un programa PythScrip a JavaScript.\n\n" ++
  "positional arguments:\n" ++
  "  file                  archivo fuente (.pys)\n\n" ++
  "options:\n" ++
  "  -h, --help            show this help message and exit\n" ++
  "  --stage \x7bparsed,analyzed,optimized,generated\x7d\n" ++
  "                        etapa a imprimir (por defecto: generated)\n" ++
  "  --dot PATH            guarda el AST en formato DOT (Graphviz)\n" ++
  "  -v, --verbose         log de depuración\n"

/-- What a run leaves behind besides files. -/
structure Report where
  exit : Nat
  stdout : String
  stderr : String
deriving DecidableEq, Repr

/-- An error that the command does not handle. -/
inductive Crash where
  | failure (f : Failure)
  | decode (e : Utf8.DecodeError)
  | cannotWrite (e : FileError) (path : String)
  /-- A path holds a character that no path has. -/
  | noPath
  | noStage
deriving DecidableEq, Repr

def Crash.message : Crash → String
  | failure f => f.message
  | decode e => e.message
  | noPath => FileError.nullInPath.reason
  | noStage => Stage.unknownMessage
  | cannotWrite e path => s!"[Errno {e.number}] {e.reason}: {quotedString path}"

inductive Outcome where
  | exited (r : Report) (fs : FileSystem)
  | crashed (c : Crash)

def unlines (ls : List String) : String := String.join (ls.map (· ++ "\n"))

/-- The stage whose program the graph shows. -/
def graphStage : Stage → Stage
  | .parsed | .analyzed => .analyzed
  | .optimized | .generated => .optimized

def productGraph : Product → String
  | .program ss => (Node.program ss).graph
  | .message _ => ""

/-- Compiles for the output and, if it is wanted, once more for the graph. -/
def products (source : String) (stage : Stage) (wantsGraph : Bool) :
    Compilation.Logged (Product × Option String) := do
  let product ← Compilation.run source stage
  if !wantsGraph then return (product, none)
  let program ← Compilation.run source (graphStage stage)
  return (product, some (productGraph program))

/-- What is left to do when a source was compiled: the report, and a graph to save before it. -/
structure Compiled where
  report : Report
  graph : Option String

/-- Compiles a source text. Errors of the program are told; others are not handled. -/
def compileSource (r : Request) (source : String) : Except Crash Compiled :=
  match r.stage with
  | none => .error .noStage
  | some stage =>
    let (result, records) := (products source stage r.dot.isSome).run.run []
    let log := if r.verbose then records.map LogRecord.text else []
    match result with
    | .ok (product, graph) => .ok ⟨⟨0, unlines [product.text], unlines log⟩, graph⟩
    | .error (.compile e) => .ok ⟨⟨1, "", unlines (log ++ [e.text])⟩, none⟩
    | .error f =>
      if f.isInternal then .ok ⟨⟨1, "", unlines (log ++ [internalText f.message])⟩, none⟩
      else .error (.failure f)

/-- Compiles a file as it was read, or not. -/
def compileFile (r : Request) (contents : Except FileError (List UInt8)) : Except Crash Compiled :=
  match contents with
  | .error .nullInPath => .error .noPath
  | .error e => .ok ⟨⟨1, "", s!"pythscrip: no se pudo leer {r.file}: {e.reason}\n"⟩, none⟩
  | .ok bytes =>
    match Utf8.decode bytes with
    | .error e => .error (.decode e)
    | .ok cs => compileSource r (String.ofList (Utf8.normalizeNewlines cs))

/-- The report after the graph was saved. -/
def savedReport (r : Request) (path : String) (report : Report) : Report :=
  let record : LogRecord := ⟨.info, "pythscrip.cli", "AST (DOT) saved to " ++ path⟩
  if r.verbose then { report with stderr := report.stderr ++ unlines [record.text] } else report

/-- What is reported for a command line that is no request. -/
def stopReport : Stop → Report
  | .help => ⟨0, helpText, ""⟩
  | .wrong e => ⟨2, "", usage ++ "pythscrip: error: " ++ e.message ++ "\n"⟩

/-- A graph that cannot be saved is not handled. -/
def saveCrash (path : String) : FileError → Crash
  | .nullInPath => .noPath
  | e => .cannotWrite e path

/-- Runs the command with some arguments. -/
def run (fs : FileSystem) (args : List String) : Outcome :=
  match readArgs args with
  | .error stop => .exited (stopReport stop) fs
  | .ok r =>
    match compileFile r (fs.read r.file) with
    | .error c => .crashed c
    | .ok ⟨report, graph⟩ =>
      match r.dot, graph with
      | some path, some text =>
        match fs.write path text.toUTF8.toList with
        | .error e => .crashed (saveCrash path e)
        | .ok fs => .exited (savedReport r path report) fs
      | _, _ => .exited report fs

end Terse.Command
