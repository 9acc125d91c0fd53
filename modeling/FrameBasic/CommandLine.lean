import FrameBasic.Command.Standard
import FrameBasic.Compiler
import FrameBasic.Disk.Basic
import FrameBasic.Tree.Listing

/-!
# The command line

A command names one source file.  Its tokens or its outline are shown, or its script is written to a
file; what was found is reported on the way.

## Main definitions

* `Options` — what a command asks for; `Options.ofArgs?` reads it.
* `Report` — what a command shows and writes.
* `Options.report` — the report on a source text.
* `Outcome` — what is left of a command when it has ended.
* `Disk.run` — a command on a disk.
-/

namespace FrameBasic

/-- What a command asks for. -/
structure Options where
  /-- The source file. -/
  input : String
  /-- The file for the script. -/
  output : Option String := none
  /-- Show the tokens. -/
  tokens : Bool := false
  /-- Show the outline of the program. -/
  outline : Bool := false
  /-- Fail if anything was found. -/
  strict : Bool := false
  /-- Tell what is done. -/
  verbose : Bool := false
deriving DecidableEq, Repr, Inhabited

namespace Options

/-- What follows the equals sign of the long form of the output option. -/
def outputValue? (arg : String) : Option String :=
  let start := "--output=".toList
  if start.isPrefixOf arg.toList then some (String.ofList (arg.toList.drop start.length)) else none

/-- The options with those of more arguments; `named` says whether the source file is known. -/
def addArgs (o : Options) (named : Bool) : List String → Option Options
  | [] => if named then some o else none
  | "-o" :: file :: rest => addArgs { o with output := some file } named rest
  | "--output" :: file :: rest => addArgs { o with output := some file } named rest
  | "--tokens" :: rest => addArgs { o with tokens := true } named rest
  | "--ast" :: rest => addArgs { o with outline := true } named rest
  | "--strict" :: rest => addArgs { o with strict := true } named rest
  | "-v" :: rest => addArgs { o with verbose := true } named rest
  | "--verbose" :: rest => addArgs { o with verbose := true } named rest
  | arg :: rest =>
    match outputValue? arg with
    | some file => addArgs { o with output := some file } named rest
    | none =>
      if named ∨ (arg.toList.head? = some '-' ∧ arg ≠ "-") then none
      else addArgs { o with input := arg } true rest

/-- The options of a command; nothing if its arguments make no sense. -/
def ofArgs? (args : List String) : Option Options :=
  addArgs { input := "" } false args

/-- The file for the script: the source file with another extension, unless another file is
named. -/
def scriptPath (o : Options) : String :=
  o.output.getD (Path.withExtension o.input Script.extension)

end Options

/-- What a command shows and writes. -/
structure Report where
  /-- The lines for the standard output. -/
  out : List String := []
  /-- The lines for the error output. -/
  err : List String := []
  /-- The file to write, with its contents. -/
  file : Option (String × String) := none
  /-- The lines for the standard output when the file is written. -/
  written : List String := []
  /-- The lines for the error output at the end, with which the command fails. -/
  failure : List String := []
deriving DecidableEq, Repr, Inhabited

/-- A text with blanks before it up to a width. -/
def padLeft (width : Nat) (s : String) : String :=
  String.ofList (List.replicate (width - s.length) ' ') ++ s

/-- A text with blanks after it up to a width. -/
def padRight (width : Nat) (s : String) : String :=
  s ++ String.ofList (List.replicate (width - s.length) ' ')

/-- The line of a token: its place, its kind and its text. -/
def Token.row (t : Token) : String :=
  padLeft 4 (toString t.span.line) ++ ":" ++ padRight 4 (toString t.span.column) ++ " " ++
    padRight 20 t.kind.name ++ " " ++ Text.shown t.text

namespace Options

/-- The lines of the tokens of a text.  Line feeds are shown on request only. -/
def tokenRows (o : Options) (source : String) : List String :=
  let shown := (FrameBasic.tokens .standard source).filter fun t =>
    o.verbose || t.kind ≠ .newline
  ("Tokens for " ++ o.input ++ ":") :: String.ofList (List.replicate 60 '-') ::
    shown.map Token.row

/-- The line of a diagnostic. -/
def diagnosticRow (o : Options) (d : Diagnostic) : String :=
  o.input ++ ":" ++ d.text ++ " (" ++ d.phase.name ++ ")"

/-- The lines that tell what is compiled. -/
def opening (o : Options) (source : String) : List String :=
  if o.verbose then
    ["Compiling: " ++ o.input, "Source length: " ++ toString source.utf8ByteSize ++ " bytes"]
  else []

/-- The lines that tell what was written. -/
def closing (o : Options) (code : String) : List String :=
  if o.verbose then
    ["Wrote " ++ o.scriptPath ++ " (" ++ toString code.utf8ByteSize ++ " bytes)"]
  else []

/-- The lines with which a strict command fails. -/
def complaint (o : Options) (found : List Diagnostic) : List String :=
  if o.strict ∧ found ≠ [] then [toString found.length ++ " diagnostic(s) reported"] else []

/-- The report on a compilation. -/
def compileReport (o : Options) (library : Library) (source : String) : Report :=
  let c := compile .standard library source
  let err := c.diagnostics.map o.diagnosticRow
  let failure := o.complaint c.diagnostics
  if o.outline then
    { out := o.opening source ++ [c.parsed.program.listing.render], err, failure }
  else
    { out := o.opening source, err, failure
      file := some (o.scriptPath, c.code)
      written := o.closing c.code }

/-- The report on a source text, or on the reason why there is none. -/
def report (o : Options) (library : Library) : Except String String → Report
  | .error reason => { failure := ["Error reading '" ++ o.input ++ "': " ++ reason] }
  | .ok source =>
    if o.tokens then { out := o.opening source ++ o.tokenRows source }
    else o.compileReport library source

end Options

/-- What is left of a command when it has ended. -/
structure Outcome where
  /-- The exit code. -/
  exit : Nat
  /-- The standard output. -/
  out : String
  /-- The error output. -/
  err : String
deriving DecidableEq, Repr, Inhabited

/-- What is left of a command whose file was written, or could not be for a reason. -/
def Report.finish (r : Report) (writing : Except String Unit) : Outcome :=
  match r.file, writing with
  | some (path, _), .error reason =>
    { exit := 1
      out := Script.unlines r.out
      err := Script.unlines (r.err ++ ["Error writing '" ++ path ++ "': " ++ reason]) }
  | _, _ =>
    { exit := if r.failure.isEmpty then 0 else 1
      out := Script.unlines (r.out ++ r.written)
      err := Script.unlines (r.err ++ r.failure) }

/-- A command on a disk: what is left of it, and the disk after it. -/
def Disk.run (disk : Disk) (o : Options) : Outcome × Disk :=
  let source :=
    match disk.read o.input with
    | .ok text => Except.ok text
    | .error fault => .error fault.message
  let report := o.report (disk.library (Path.parent o.input)) source
  match report.file with
  | none => (report.finish (.ok ()), disk)
  | some (path, contents) =>
    match disk.write path contents with
    | .ok after => (report.finish (.ok ()), after)
    | .error fault => (report.finish (.error fault.message), disk)

end FrameBasic
