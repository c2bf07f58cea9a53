import Terse.Command.Options

/-! Every file, stage and place for a graph can be asked for, but for a place called `--`. -/
namespace Terse.Command

variable {dot : Option String}

theorem classify_valued {s : Switch} (hs : s.takesValue) (value : String) :
    classify (s.title ++ "=" ++ value) = .ok (.valued s (some value)) := by
  have htext : (s.title ++ "=" ++ value).toList = s.title.toList ++ '=' :: value.toList := by simp
  have hvalue : value = String.ofList value.toList := String.ofList_toList.symm
  unfold classify
  rw [htext]
  -- what follows the equals sign is not looked at, so that the rest computes for any characters
  generalize value.toList = cs at hvalue
  subst hvalue
  cases s with
  | help | verbose => contradiction
  | stage | dot => rfl

/-- The plainest command line of a request: values stand in the arguments of their options, and the
file comes last, where no file is taken for an option. -/
def commandLine (file : String) (stage : Stage) (dot : Option String) (verbose : Bool) :
    List String :=
  [Switch.stage.title ++ "=" ++ stage.name] ++ (dot.map (Switch.dot.title ++ "=" ++ ·)).toList ++
    (if verbose then ["-v"] else []) ++ ["--", file]

/-- The same line, argument by argument. -/
def commandArgs (file : String) (stage : Stage) (dot : Option String) (verbose : Bool) : List Arg :=
  .valued .stage (some stage.name) :: ((dot.map fun path => .valued .dot (some path)).toList ++
    ((if verbose then [.flags [.verbose]] else []) ++ [.separator, .word file]))

theorem classifyAll_cons {text : String} {arg : Arg} (h : classify text = .ok arg)
    (harg : arg ≠ .separator) {rest : List String} {args : List Arg}
    (hrest : classifyAll rest = .ok args) : classifyAll (text :: rest) = .ok (arg :: args) := by
  rw [classifyAll, h]
  cases arg with
  | separator => contradiction
  | _ =>
    rw [hrest]
    rfl

/-- A full command line falls apart into the arguments that it was made of. -/
theorem classifyAll_commandLine (file : String) (stage : Stage) (dot : Option String)
    (verbose : Bool) : classifyAll (commandLine file stage dot verbose) =
      .ok (commandArgs file stage dot verbose) := by
  have hfile : classifyAll ["--", file] = .ok [.separator, .word file] := rfl
  have hflags : classifyAll ((if verbose then ["-v"] else []) ++ ["--", file]) =
      .ok ((if verbose then [.flags [.verbose]] else []) ++ [.separator, .word file]) := by
    cases verbose with
    | false => exact hfile
    | true => exact classifyAll_cons rfl (by simp) hfile
  rw [commandLine, List.append_assoc, List.append_assoc, List.singleton_append]
  refine classifyAll_cons (classify_valued rfl _) (by simp) ?_
  cases dot with
  | none => exact hflags
  | some path => exact classifyAll_cons (classify_valued rfl path) (by simp) hflags

namespace Draft

variable {d d' : Draft} {s : Switch} {value : String}

theorem take_valued (hvalue : value ≠ "--") (h : d.setValue s value = .ok d') (rest : List Arg) :
    d.take (.valued s (some value) :: rest) = d'.take rest := by
  rw [take, if_neg hvalue, h]
  rfl

theorem setValue_stage (d : Draft) (stage : Stage) :
    d.setValue .stage stage.name = .ok { d with stage := some stage } := by
  cases stage <;> rfl

end Draft

theorem take_commandArgs (file : String) (stage : Stage) (verbose : Bool)
    (hdash : dot ≠ some "--") : Draft.start.take (commandArgs file stage dot verbose) =
      .ok ⟨some file, some stage, dot, verbose, []⟩ := by
  have hname : stage.name ≠ "--" := by cases stage <;> decide
  rw [commandArgs, Draft.take_valued hname (Draft.setValue_stage _ stage)]
  cases dot with
  | none => cases verbose <;> rfl
  | some path =>
    have hpath : path ≠ "--" := fun h => hdash (congrArg some h)
    rw [Option.map_some, Option.toList_some, List.singleton_append, Draft.take_valued hpath rfl]
    cases verbose <;> rfl

/-- A full command line is read as the request that it was written for. -/
theorem readArgs_commandLine (file : String) (stage : Stage) (verbose : Bool) (hdot : dot ≠ some "")
    (hdash : dot ≠ some "--") :
    readArgs (commandLine file stage dot verbose) = .ok ⟨file, some stage, dot, verbose⟩ := by
  rw [readArgs, classifyAll_commandLine]
  change (Draft.start.take _ >>= _) = _
  rw [take_commandArgs file stage verbose hdash]
  change Except.ok _ = _
  rw [if_neg hdot]

end Terse.Command
