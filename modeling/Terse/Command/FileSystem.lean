/-! Files and directories, as the command sees them. -/
namespace Terse

/-- Files and directories by their places, each a list of names from the root down, and the
directory that the command runs in. -/
structure FileSystem where
  files : List (List String × List UInt8)
  dirs : List (List String)
  workingDir : List String

inductive FileError where
  | notFound
  | isDirectory
  | notDirectory
  | nameTooLong
  /-- A path holds the null character. -/
  | nullInPath
  /-- Any other refusal of the operating system. -/
  | refused (number : Nat) (reason : String)
deriving DecidableEq, Repr

namespace FileError

def number : FileError → Nat
  | notFound => 2
  | isDirectory => 21
  | notDirectory => 20
  | nameTooLong => 36
  | nullInPath => 22
  | refused number _ => number

def reason : FileError → String
  | notFound => "No such file or directory"
  | isDirectory => "Is a directory"
  | notDirectory => "Not a directory"
  | nameTooLong => "File name too long"
  | nullInPath => "embedded null byte"
  | refused _ reason => reason

end FileError

namespace FileSystem

def names (path : String) : List String := (path.toList.splitOn '/').map String.ofList

/-- A directory is there if anything is in it, and the working directory always is. -/
def isDir (fs : FileSystem) (place : List String) : Bool :=
  place.isPrefixOf fs.workingDir || fs.dirs.any (place.isPrefixOf ·) ||
    fs.files.any fun f => place.isPrefixOf f.1.dropLast

def contents? (fs : FileSystem) (place : List String) : Option (List UInt8) :=
  fs.files.lookup place

/-- A name has at most 255 bytes. -/
def isLongName (name : String) : Bool := 255 < name.utf8ByteSize

/-- A path has at most 4095 bytes. -/
def isLongPath (path : String) : Bool := 4095 < path.utf8ByteSize

/-- What a path leads to. -/
inductive Target where
  | dir
  /-- The last name of the path, in a directory that is there. `slash` tells that a slash follows,
  so that only a directory is meant. -/
  | entry (dir : List String) (name : String) (slash : Bool)
  | failed (e : FileError)

/-- Follows names from a directory on. The root is the directory above itself. -/
def follow (fs : FileSystem) (here : List String) : List String → Target
  | [] => .dir
  | name :: rest =>
    if name = "" ∨ name = "." then follow fs here rest
    else if name = ".." then follow fs here.dropLast rest
    else if fs.isDir (here ++ [name]) then follow fs (here ++ [name]) rest
    else if rest.all (· = "") then .entry here name !rest.isEmpty
    else if isLongName name then .failed .nameTooLong
    else .failed (if (fs.contents? (here ++ [name])).isSome then .notDirectory else .notFound)

/-- A path that begins with a slash is followed from the root on. -/
def start (fs : FileSystem) (path : String) : List String :=
  if path.toList.head? = some '/' then [] else fs.workingDir

/-- The empty path leads nowhere. -/
def target (fs : FileSystem) (path : String) : Target :=
  if path.contains '\x00' then .failed .nullInPath
  else if path = "" then .failed .notFound
  else if isLongPath path then .failed .nameTooLong
  else fs.follow (fs.start path) (names path)

def read (fs : FileSystem) (path : String) : Except FileError (List UInt8) :=
  match fs.target path with
  | .dir => .error .isDirectory
  | .entry dir name slash =>
    if isLongName name then .error .nameTooLong
    else match fs.contents? (dir ++ [name]) with
      | some bytes => if slash then .error .notDirectory else .ok bytes
      | none => .error .notFound
  | .failed e => .error e

/-- Puts a file in place, over the old one if there is one. -/
def put (fs : FileSystem) (place : List String) (bytes : List UInt8) : FileSystem :=
  { fs with files := (place, bytes) :: fs.files.filter (·.1 ≠ place) }

def write (fs : FileSystem) (path : String) (bytes : List UInt8) : Except FileError FileSystem :=
  match fs.target path with
  | .dir => .error .isDirectory
  | .entry dir name slash =>
    if slash then .error .isDirectory
    else if isLongName name then .error .nameTooLong
    else .ok (fs.put (dir ++ [name]) bytes)
  | .failed e => .error e

/-- A working directory with files and empty directories at the given paths, and nothing around
it. -/
def ofContents (files : List (String × List UInt8)) (dirs : List String) : FileSystem :=
  let workingDir := ["work"]
  let place := fun path => workingDir ++ (names path).filter (· ≠ "")
  { files := files.map fun f => (place f.1, f.2), dirs := dirs.map place, workingDir }

end FileSystem

end Terse
