import FrameBasic.CommandLine

/-!
# The program

Reads the source file and the files that it includes, and does what the command line asks for.
-/

namespace FrameBasic

/-- The wording of an error of the system. -/
def systemReason : IO.Error → String
  | .noFileOrDirectory .. => DiskFault.notFound.message
  | .inappropriateType _ _ details =>
    if details.toLower = "is a directory" then DiskFault.isDirectory.message
    else DiskFault.notDirectory.message
  | .invalidArgument _ _ details =>
    if details = "string contains NUL bytes" then DiskFault.nullCharacter.message
    else DiskFault.tooLong.message
  | e => toString e

/-- The contents of a file, or the reason why there are none. -/
def readText (path : String) : IO (Except String String) := do
  try
    return .ok (← IO.FS.readFile path)
  catch e =>
    return .error (systemReason e)

/-- The files that were read so far, by the path in the `Include` line. -/
abbrev Snapshot := Dict (Except String String)

/-- The library of the files that were read so far. -/
def Snapshot.library (known : Snapshot) : Library :=
  { read := fun path => (Dict.get? path known).getD (.error "")
    texts := known.filterMap fun entry => entry.2.toOption }

/-- The paths that a text asks for and that were not read yet. -/
def Snapshot.wanted (known : Snapshot) (source : String) : List String :=
  (known.library.expand source).errors.filterMap fun e =>
    match e.fault with
    | .unreadable path _ => if Dict.contains path known then none else some path
    | .cycle _ => none

/-- Reads the files that a text includes, until none is missing. -/
partial def gather (directory source : String) (known : Snapshot) : IO Snapshot := do
  match known.wanted source with
  | [] => return known
  | path :: _ =>
    let contents ← readText (Path.join directory path)
    gather directory source (Dict.insert path contents known)

/-- Writes the file of a report. -/
def writeFile (report : Report) : IO (Except String Unit) := do
  match report.file with
  | none => return .ok ()
  | some (path, contents) =>
    try
      IO.FS.writeFile path contents
      return .ok ()
    catch e =>
      return .error (systemReason e)

end FrameBasic

open FrameBasic in
/-- Does what the command line asks for. -/
def main (args : List String) : IO UInt32 := do
  match Options.ofArgs? args with
  | none =>
    IO.eprintln "usage: [OPTIONS] FILE"
    return 2
  | some options =>
    let source ← readText options.input
    let text := source.toOption.getD ""
    let known ← gather (Path.parent options.input) text []
    let report := options.report known.library source
    let outcome := report.finish (← writeFile report)
    IO.print outcome.out
    IO.eprint outcome.err
    return outcome.exit.toUInt32
