import FrameBasic.Decimal.Layout
import FrameBasic.Text.Blank
import FrameBasic.Value

/-!
# Literals of the script

## Main definitions

* `Script.escapeChar`, `Script.quoted` — a text between double quotes.
* `Script.float` — a number with a point or a fraction.
* `Initial` — the first value of a variable; `Initial.ofName` chooses it for a declared name.
-/

namespace FrameBasic

namespace Script

/-- The spelling of a character between quotes.  Control characters are written by number. -/
def escapeChar (c : Char) : List Char :=
  if c = '"' then ['\\', '"']
  else if c = '\\' then ['\\', '\\']
  else if c = '\n' then ['\\', 'n']
  else if c = '\r' then ['\\', 'r']
  else if c = '\t' then ['\\', 't']
  else if Text.isControl c then '\\' :: 'u' :: Text.padZeros 4 (Text.hexDigits c.toNat)
  else [c]

/-- A text between double quotes. -/
def quoted (s : String) : String :=
  "\"" ++ String.ofList (s.toList.flatMap escapeChar) ++ "\""

/-- The spelling of a number.  What is not finite is written as zero. -/
def float (value : Binary64) : String :=
  Decimal.write Decimal.scriptStyle value

end Script

/-- The first value of a variable. -/
inductive Initial where
  /-- Zero. -/
  | zero
  /-- The empty text. -/
  | text
  /-- The null reference. -/
  | null
  /-- An array without elements. -/
  | array
deriving DecidableEq, Repr, Inhabited

namespace Initial

/-- The spelling of a first value. -/
def spelling : Initial → String
  | .zero => "0"
  | .text => "\"\""
  | .null => "null"
  | .array => "[]"

/-- The first value of a variable of a type. -/
def ofType : ValueType → Initial
  | .string => .text
  | .object | .null => .null
  | _ => .zero

/-- The first value of a declared name: an object with a type name, else as the marker says, else a
number. -/
def ofName (name : String) (typeName : Option String) : Initial :=
  if typeName.isSome then .null else ofType ((Name.markedType? name).getD .number)

end Initial

end FrameBasic
