import FrameBasic.Diagnostic
import FrameBasic.Script.Notice
import FrameBasic.Tree.Parser.Program

/-!
# Compiling

No fault stops a compilation: there is always a script, and a list of everything that was found.

## Main definitions

* `Compilation` — what a compilation gives.
* `compile` — compiles a text with the files of a library.
* `Compilation.trace` — the steps of a compilation in words.
-/

namespace FrameBasic

/-- What a compilation gives. -/
structure Compilation where
  /-- The size of the text in bytes. -/
  sourceSize : Nat
  /-- The text with its files. -/
  expansion : Expansion
  /-- The program with what was found while reading it. -/
  parsed : Parsed
  /-- What is known about the program. -/
  plan : Script.Plan
  /-- The script. -/
  script : Script
  /-- Everything that was found. -/
  diagnostics : List Diagnostic

/-- Compiles a text with the files of a library: first the table is looked at, then the files, the
characters, and the program. -/
def compile (commands : CommandTable) (library : Library) (source : String) : Compilation :=
  let expansion := library.expand source
  let text := expansion.text
  let parsed := Program.parse commands (tokens commands text)
  let plan := Script.Plan.ofProgram commands parsed.program
  { sourceSize := source.utf8ByteSize
    expansion, parsed, plan
    script := Script.ofPlan plan
    diagnostics :=
      commands.faults.map .ofTable ++ expansion.errors.map .ofInclude ++
        (lexicalErrors commands text).map .ofLexical ++ parsed.errors.map .ofParse }

namespace Compilation

/-- The text of the script. -/
def code (c : Compilation) : String :=
  c.script.render

/-- What is left out of the script. -/
def notices (c : Compilation) : List Notice :=
  c.plan.notices

/-- The steps of a compilation in words. -/
def trace (c : Compilation) : List String :=
  let expanded := c.expansion.text.utf8ByteSize
  let includeErrors := c.expansion.errors.length
  let functions := c.parsed.foretold.countP Symbol.isFunction
  let types := c.parsed.foretold.countP Symbol.isType
  let stmts := c.parsed.program.stmts.length
  let parseErrors := c.parsed.errors.length
  let calling := c.plan.graph.size
  let suspending := c.plan.suspending.marked.length
  let passes := c.plan.suspending.passes
  let parts := c.plan.schedule
  let typeCount := parts.types.length
  let functionCount := parts.functions.length
  let constantCount := parts.constants.length
  let mainLoop := if parts.mainLoop.isSome then "found" else "absent"
  let postponed := c.plan.postponed.length
  let size := c.code.utf8ByteSize
  let source := c.sourceSize
  let found := c.diagnostics.length
  [ s!"preprocessed {source} bytes into {expanded} bytes with {includeErrors} include errors",
    s!"pre-scan found {functions} functions and {types} types",
    s!"parsed {stmts} top-level statements with {parseErrors} errors",
    s!"call graph has {calling} functions",
    s!"{suspending} suspending functions after {passes} passes",
    s!"partition: {typeCount} types, {functionCount} functions, {constantCount} constants, " ++
      s!"main loop {mainLoop}" ] ++
    (if postponed = 0 then [] else [s!"{postponed} constants initialised in $init"]) ++
    [ s!"generated {size} bytes of {Script.language}",
      s!"compiled {source} bytes with {found} diagnostics" ]

end Compilation

end FrameBasic
