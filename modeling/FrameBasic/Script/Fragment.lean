import FrameBasic.Script.Identifier

/-!
# Fragments of the script

A fragment is a piece of a line.  The names of variables, the calls of functions and the words that
wait for a result are kept apart from the text around them, so that they can be found again.

## Main definitions

* `Script.Piece` — a text, a variable, the call of a function, or a word that waits.
* `Script.Fragment` — a list of pieces.
* `Script.Fragment.render` — the text of a fragment.
* `Script.commas` — fragments with commas between them.
-/

namespace FrameBasic.Script

/-- A part of a line. -/
inductive Piece where
  /-- Fixed text. -/
  | text (s : String)
  /-- A variable or an array, by its name in the script. -/
  | name (name : String)
  /-- Waits for the result of what follows. -/
  | await
  /-- The name of a called function, by its folded name; `awaited` waits for its result. -/
  | call (awaited : Bool) (function : String)
deriving DecidableEq, Repr, Inhabited

/-- A list of pieces. -/
abbrev Fragment := List Piece

/-- The text of a piece. -/
def Piece.render : Piece → String
  | .text s => s
  | .name s => s
  | .await => "await "
  | .call awaited function => (if awaited then "await " else "") ++ functionName function

/-- Whether the piece waits for a result. -/
def Piece.waits : Piece → Bool
  | .await => true
  | .call awaited _ => awaited
  | _ => false

/-- A fragment of fixed text. -/
def plain (s : String) : Fragment := [.text s]

/-- The text of a fragment. -/
def Fragment.render (f : Fragment) : String :=
  f.foldl (fun out piece => out ++ piece.render) ""

/-- Fragments with commas between them. -/
def commas (fs : List Fragment) : Fragment :=
  fs.intersperse (plain ", ") |>.flatten

theorem toList_foldl_append {α : Type} (text : α → String) (xs : List α) (out : String) :
    (xs.foldl (fun out x => out ++ text x) out).toList =
      out.toList ++ xs.flatMap fun x => (text x).toList := by
  induction xs generalizing out with
  | nil => simp
  | cons x xs ih =>
    rw [List.foldl_cons, ih, String.toList_append, List.flatMap_cons, List.append_assoc]

theorem Fragment.toList_render (f : Fragment) :
    f.render.toList = f.flatMap fun piece => piece.render.toList :=
  toList_foldl_append Piece.render f ""

end FrameBasic.Script
