/-!
# Lines of a text

A text is cut at its line feeds.  A carriage return right before a line feed belongs to the line
break, and a text that ends with a line feed has no further, empty line after it.

## Main definitions

* `Text.split sep cs` — the stretches between the occurrences of a character, one more than there
  are occurrences.
* `Text.rows cs` — the stretches between line feeds.
* `Text.lines cs` — the lines of the text.
-/

namespace FrameBasic.Text

/-- The stretches between the occurrences of a character. -/
def split (sep : Char) : List Char → List (List Char)
  | [] => [[]]
  | c :: rest =>
    if c = sep then [] :: split sep rest
    else
      match split sep rest with
      | [] => [[c]]
      | row :: others => (c :: row) :: others

/-- The stretches between the line feeds of a text. -/
def rows (cs : List Char) : List (List Char) :=
  split '\n' cs

/-- A row without the carriage return at its end. -/
def dropReturn (row : List Char) : List Char :=
  if row.getLast? = some '\r' then row.dropLast else row

/-- The lines of a text: every row that a line feed ends, without its carriage return, and the
last row as it is unless it is empty. -/
def lines (cs : List Char) : List (List Char) :=
  let all := rows cs
  all.dropLast.map dropReturn ++ (all.getLast?.toList.filter (· ≠ []))

end FrameBasic.Text
