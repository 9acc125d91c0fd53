import FrameBasic.Source.Library
import FrameBasic.Text.Blank
import FrameBasic.Text.Lines

/-!
# Included files

A line with `Include` and a path in quotes is replaced by the lines of that file, in which such
lines are replaced likewise.  A file that is being replaced already is not entered again.  A line
whose file cannot be had becomes an empty one.

## Main definitions

* `includePath?` — the path of an `Include` line.
* `IncludeFault`, `IncludeError` — why a file is not had, and for which line of the result.
* `Expansion` — the lines of the result and the errors.
* `Library.expand` — a text with its files.
* `Expansion.text` — the text of the result.
-/

namespace FrameBasic

/-- The path in quotes, if a line is an `Include` line. -/
def includePath? (line : List Char) : Option String :=
  let start := Text.skipBlank line
  if (start.take 7).map Char.toLower = "include".toList then
    match Text.skipBlank (start.drop 7) with
    | '"' :: rest =>
      let path := rest.takeWhile (· != '"')
      if path.length < rest.length then some (String.ofList path) else none
    | _ => none
  else none

/-- Why a file is not had. -/
inductive IncludeFault where
  /-- It cannot be read. -/
  | unreadable (path reason : String)
  /-- It is being read already. -/
  | cycle (path : String)
deriving DecidableEq, Repr, Inhabited

/-- The wording of a fault. -/
def IncludeFault.message : IncludeFault → String
  | .unreadable path reason => "cannot include `" ++ path ++ "`: " ++ reason
  | .cycle path => "`" ++ path ++ "` includes itself"

/-- A fault with the number of the line in the result that stands for the file. -/
structure IncludeError where
  /-- Why the file is not had. -/
  fault : IncludeFault
  /-- The line of the result. -/
  line : Nat
deriving DecidableEq, Repr, Inhabited

/-- The lines of the result and the errors. -/
structure Expansion where
  /-- The lines. -/
  lines : List (List Char) := []
  /-- The errors, by increasing line. -/
  errors : List IncludeError := []
deriving DecidableEq, Repr, Inhabited

namespace Expansion

/-- One result after the other. -/
def append (a b : Expansion) : Expansion :=
  ⟨a.lines ++ b.lines, a.errors ++ b.errors⟩

/-- The text of the result: a line feed ends every line. -/
def text (e : Expansion) : String :=
  String.ofList (e.lines.flatMap (· ++ ['\n']))

end Expansion

/-- The lines with their `Include` lines replaced; `count` lines stand before them. -/
def expandLines (replace : Nat → String → Expansion) (count : Nat) :
    List (List Char) → Expansion
  | [] => {}
  | line :: rest =>
    let first : Expansion :=
      match includePath? line with
      | some path => replace count path
      | none => ⟨[line], []⟩
    first.append (expandLines replace (count + first.lines.length) rest)

namespace Library

/-- What stands for an `Include` line after `count` lines; `enter` expands the contents of the
file. -/
def replacement (library : Library) (enter : List String → Nat → String → Expansion)
    (stack : List String) (count : Nat) (path : String) : Expansion :=
  let key := foldPath path
  if key ∈ stack then ⟨[[]], [⟨.cycle path, count + 1⟩]⟩
  else
    match library.read path with
    | .ok contents => enter (key :: stack) count contents
    | .error reason => ⟨[[]], [⟨.unreadable path reason, count + 1⟩]⟩

/-- A text with its files, after `count` lines.  The first argument bounds the nesting, and `stack`
holds the paths of the files that are being expanded. -/
def expandAt (library : Library) : Nat → List String → Nat → String → Expansion
  | 0, _, _, _ => {}
  | nesting + 1, stack, count, contents =>
    expandLines (library.replacement (library.expandAt nesting) stack) count
      (Text.lines contents.toList)

/-- A bound of the nesting: the files that are being expanded are named in different lines. -/
def nestingBound (library : Library) (source : String) : Nat :=
  (source :: library.texts).foldl
    (fun bound contents => bound + (Text.lines contents.toList).length) 1

/-- A text with its files. -/
def expand (library : Library) (source : String) : Expansion :=
  library.expandAt (library.nestingBound source) [] 0 source

end Library

end FrameBasic
