import FrameBasic.Script.Fragment

/-!
# Lines of the script

A routine is a tree of lines.  Loops are numbered, and a loop is left through its number, so that a
`switch` in between does not catch it.

## Main definitions

* `Script.Code` — lines, deeper lines, loops, and the lines that speak of a loop's number.
* `Script.Code.lines` — the lines of a tree with their depth.
* `Script.renderLines` — the text of such lines.
-/

namespace FrameBasic.Script

/-- A tree of lines. -/
inductive Code where
  /-- One line. -/
  | line (f : Fragment)
  /-- Lines one level deeper. -/
  | nest (body : List Code)
  /-- A numbered loop with its head, its body and its last line. -/
  | loop (number : Nat) (head : Fragment) (body : List Code) (foot : Fragment)
  /-- Binds the step of a numbered loop. -/
  | step (number : Nat) (value : Fragment)
  /-- Leaves a numbered loop. -/
  | leave (number : Nat)

/-- The label of a loop. -/
def loopLabel (number : Nat) : String :=
  "$loop" ++ toString number

/-- The variable that holds the step of a loop. -/
def stepName (number : Nat) : String :=
  "$step" ++ toString number

mutual

/-- The lines of a tree with their depth. -/
def Code.lines (depth : Nat) : Code → List (Nat × Fragment)
  | .line f => [(depth, f)]
  | .nest body => codeLines (depth + 1) body
  | .loop number head body foot =>
    (depth, plain (loopLabel number ++ ": ") ++ head ++ plain " \x7b") ::
      (codeLines (depth + 1) body ++ [(depth, foot)])
  | .step number value =>
    [(depth, plain ("let " ++ stepName number ++ " = ") ++ value ++ plain ";")]
  | .leave number => [(depth, plain ("break " ++ loopLabel number ++ ";"))]

/-- The lines of a list of trees with their depth. -/
def codeLines (depth : Nat) : List Code → List (Nat × Fragment)
  | [] => []
  | code :: rest => code.lines depth ++ codeLines depth rest

end

/-- The blanks before a line. -/
def indent (depth : Nat) : String :=
  String.ofList (List.replicate (4 * depth) ' ')

/-- The text of lines. -/
def renderLines (lines : List (Nat × Fragment)) : String :=
  lines.foldl (fun out line => out ++ indent line.1 ++ line.2.render ++ "\n") ""

end FrameBasic.Script
