import FrameBasic.Value

/-!
# Names in the script

Names of a program have no case and may end in a type marker; names of the script have neither.
Names that the script's language reserves get an underscore, functions and types a mark in front.
Names of the host and of helpers begin with a dollar sign, which no name of a program does.

## Main definitions

* `Script.identifier` — a variable, an array, a parameter or a field.
* `Script.functionName` — a function.
* `Script.className` — a user type.
-/

namespace FrameBasic.Script

/-- The words that a variable must not be called, in small letters. -/
def reserved : List String :=
  [ "arguments", "await", "break", "case", "catch", "class", "const", "continue", "debugger",
    "default", "delete", "do", "else", "enum", "eval", "export", "extends", "false", "finally",
    "for", "function", "globalthis", "if", "implements", "import", "in", "infinity", "instanceof",
    "interface", "let", "math", "nan", "new", "null", "package", "private", "protected", "public",
    "return", "static", "super", "switch", "this", "throw", "true", "try", "typeof", "undefined",
    "var", "void", "while", "with", "yield" ]

/-- The script's name of a variable, an array, a parameter or a field. -/
def identifier (name : String) : String :=
  let folded := Name.fold name
  if folded ∈ reserved then folded ++ "_" else folded

/-- The script's name of a function, given by its folded name. -/
def functionName (folded : String) : String :=
  "fn_" ++ folded

/-- The script's name of a user type. -/
def className (typeName : String) : String :=
  "$T_" ++ Name.fold typeName

end FrameBasic.Script
