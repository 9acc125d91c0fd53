import FrameBasic.Source.Include
import FrameBasic.Token.Scan
import FrameBasic.Tree.Parser.Fault

/-!
# Diagnostics

What was found while compiling, in one form whatever it comes from.

## Main definitions

* `Phase` — what a diagnostic comes from.
* `Diagnostic` — a message with its place; `Diagnostic.text` is its line.
-/

namespace FrameBasic

/-- What a diagnostic comes from. -/
inductive Phase where
  /-- The included files. -/
  | preprocess
  /-- The characters. -/
  | lexical
  /-- The form of the program. -/
  | form
  /-- The meaning of the program, and the command table. -/
  | semantic
deriving DecidableEq, Repr, Inhabited

/-- The name of a phase. -/
def Phase.name : Phase → String
  | .preprocess => "preprocess"
  | .lexical => "lexical"
  | .form => "syntax"
  | .semantic => "semantic"

/-- A message with its place; line and column are zero if it has none. -/
structure Diagnostic where
  /-- What it comes from. -/
  phase : Phase
  /-- The line, from one. -/
  line : Nat
  /-- The column, from one. -/
  column : Nat
  /-- The message. -/
  message : String
deriving DecidableEq, Repr, Inhabited

namespace Diagnostic

/-- The line of a diagnostic. -/
def text (d : Diagnostic) : String :=
  toString d.line ++ ":" ++ toString d.column ++ ": " ++ d.message

/-- An inconsistency of the command table. -/
def ofTable (fault : TableFault) : Diagnostic :=
  ⟨.semantic, 0, 0, fault.message⟩

/-- A file that is not had. -/
def ofInclude (e : IncludeError) : Diagnostic :=
  ⟨.preprocess, e.line, 1, e.fault.message⟩

/-- An error in the characters. -/
def ofLexical (e : LexicalError) : Diagnostic :=
  ⟨.lexical, e.span.line, e.span.column, e.fault.message⟩

/-- An error in the program. -/
def ofParse (e : ParseError) : Diagnostic :=
  ⟨if e.fault.isSemantic then .semantic else .form, e.span.line, e.span.column, e.fault.message⟩

end Diagnostic

end FrameBasic
