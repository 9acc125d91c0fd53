import FrameBasic.Text.Letters

/-!
# Values and names

A name is a number unless a marker at its end or its use says otherwise.  Types are only compared to
find arguments that are obviously wrong, so there are few of them and an unknown one fits
everywhere.

## Main definitions

* `ValueType` — the types; `ValueType.accepts` says which value may stand where.
* `Marker` — the type marker at the end of a name; `Name.split` takes it off.
* `Name.fold name` — the key under which a name is looked up: no marker, small letters.
-/

namespace FrameBasic

/-- The type of an expression, a variable or a parameter. -/
inductive ValueType where
  /-- An integer or a fraction. -/
  | number
  /-- A text. -/
  | string
  /-- The result of a comparison or a logical operator. -/
  | boolean
  /-- A reference to an object of a user type. -/
  | object
  /-- The null reference. -/
  | null
  /-- Nothing is known. -/
  | unknown
deriving DecidableEq, Repr, Inhabited

namespace ValueType

/-- Whether a value of type `actual` may stand where `expected` is wanted. -/
def accepts (expected actual : ValueType) : Bool :=
  match expected, actual with
  | .unknown, _ => true
  | _, .unknown => true
  | .number, .boolean => true
  | .boolean, .number => true
  | .object, .null => true
  | _, _ => expected = actual

/-- Whether the type counts as a number. -/
def isNumeric : ValueType → Bool
  | .number => true
  | .boolean => true
  | _ => false

/-- The name of the type in messages. -/
def name : ValueType → String
  | .number => "number"
  | .string => "string"
  | .boolean => "boolean"
  | .object => "object"
  | .null => "null"
  | .unknown => "unknown"

end ValueType

/-- The type marker at the end of a name. -/
inductive Marker where
  /-- The percent sign. -/
  | int
  /-- The number sign. -/
  | float
  /-- The dollar sign. -/
  | str
deriving DecidableEq, Repr, Inhabited

namespace Marker

/-- The marker that a character stands for. -/
def ofChar? (c : Char) : Option Marker :=
  if c = '%' then some .int
  else if c = '#' then some .float
  else if c = '$' then some .str
  else none

/-- The character of a marker. -/
def toChar : Marker → Char
  | .int => '%'
  | .float => '#'
  | .str => '$'

/-- The type that a marker says. -/
def valueType : Marker → ValueType
  | .int => .number
  | .float => .number
  | .str => .string

end Marker

namespace Name

/-- A name without its marker, and the marker.  A marker alone is a name without one. -/
def split (name : String) : String × Option Marker :=
  match name.toList.getLast?.bind Marker.ofChar? with
  | some marker =>
    if 1 < name.toList.length then (String.ofList name.toList.dropLast, some marker)
    else (name, none)
  | none => (name, none)

/-- The name without its marker. -/
def base (name : String) : String :=
  (split name).1

/-- The type that the marker of a name says. -/
def markedType? (name : String) : Option ValueType :=
  (split name).2.map Marker.valueType

/-- The key under which a name is looked up. -/
def fold (name : String) : String :=
  Text.lower (base name)

end Name

end FrameBasic
