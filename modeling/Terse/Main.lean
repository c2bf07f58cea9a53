import Terse.Command.Run

/-! The command on the files of the machine. -/
namespace Terse.Command

def fileErrorOf (e : IO.Error) : FileError :=
  match e with
  | .noFileOrDirectory .. => .notFound
  | .inappropriateType _ code _ => if code = 20 then .notDirectory else .isDirectory
  | .permissionDenied _ code details => .refused code.toNat details
  | e => .refused 5 (toString e)

def readFile (path : String) : IO (Except FileError (List UInt8)) := do
  try
    let bytes ← IO.FS.readBinFile path
    return .ok bytes.toList
  catch e => return .error (fileErrorOf e)

def writeFile (path text : String) : IO (Except FileError Unit) := do
  try
    IO.FS.writeFile path text
    return .ok ()
  catch e => return .error (fileErrorOf e)

def tell (r : Report) : IO UInt32 := do
  (← IO.getStderr).putStr r.stderr
  (← IO.getStdout).putStr r.stdout
  return r.exit.toUInt32

def tellCrash (c : Crash) : IO UInt32 := do
  (← IO.getStderr).putStrLn c.message
  return 1

end Terse.Command

open Terse.Command in
/-- Runs the command as `Command.run` does, with the machine for a file system. -/
def main (args : List String) : IO UInt32 := do
  match readArgs args with
  | .error stop => tell (stopReport stop)
  | .ok r =>
    match compileFile r (← readFile r.file) with
    | .error c => tellCrash c
    | .ok ⟨report, graph⟩ =>
      match r.dot, graph with
      | some path, some text =>
        match ← writeFile path text with
        | .error e => tellCrash (saveCrash path e)
        | .ok () => tell (savedReport r path report)
      | _, _ => tell report
