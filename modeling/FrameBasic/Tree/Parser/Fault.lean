import FrameBasic.Decimal.Real
import FrameBasic.Decimal.Whole
import FrameBasic.Typing

/-!
# What can be wrong in a program

## Main definitions

* `Expected` — what a message says was wanted.
* `Construct` — the blocks that have to be closed.
* `Closer` — what closes a block.
* `Fault` — what is wrong; `Fault.message` words it.
* `ParseError` — a fault with its place.
-/

namespace FrameBasic

/-- What a message says was wanted. -/
inductive Expected where
  | expression | statement | statementEnd | identifier
  | openingParen | closingParen | equals
  /-- The equals sign after a name that begins a statement. -/
  | equalsAfter (name : String)
  | assignable | variableName | arrayName | dimensions | constantName | labelName | loopVariable
  | functionName | parameterName | typeName | fieldName
  | dataValue | dataLiteral
  /-- A reserved word. -/
  | word (word : Keyword)
  | side | caseOrDefault | fieldOrEnd
deriving DecidableEq, Repr, Inhabited

/-- The wording of what was wanted. -/
def Expected.text : Expected → String
  | .expression => "expression"
  | .statement => "statement"
  | .statementEnd => "end of statement"
  | .identifier => "identifier"
  | .openingParen => "`(`"
  | .closingParen => "`)`"
  | .equals => "`=`"
  | .equalsAfter name => "`=` after `" ++ name ++ "`"
  | .assignable => "variable"
  | .variableName => "variable name"
  | .arrayName => "array name"
  | .dimensions => "`(` and array dimensions"
  | .constantName => "constant name"
  | .labelName => "label name"
  | .loopVariable => "loop variable"
  | .functionName => "function name"
  | .parameterName => "parameter name"
  | .typeName => "type name"
  | .fieldName => "field name"
  | .dataValue => "data value"
  | .dataLiteral => "number or string in `Data`"
  | .word w => "`" ++ w.spelling ++ "`"
  | .side => "`Before` or `After`"
  | .caseOrDefault => "`Case`, `Default` or `End Select`"
  | .fieldOrEnd => "`Field` or `End Type`"

/-- What closes a block. -/
inductive Closer where
  /-- A reserved word. -/
  | word (word : Keyword)
  /-- `End` and a reserved word. -/
  | endOf (word : Keyword)
deriving DecidableEq, Repr, Inhabited

namespace Closer

/-- Everything that closes a block. -/
def all : List Closer :=
  [ .word .elseIf, .word .else_, .word .endIf, .word .wend, .word .until_, .word .forever,
    .word .next, .word .case, .word .default, .endOf .if_, .endOf .function, .endOf .select,
    .endOf .type ]

/-- The spelling in messages. -/
def text : Closer → String
  | .word w => "`" ++ w.spelling ++ "`"
  | .endOf w => "`End " ++ w.spelling ++ "`"

end Closer

/-- The constructs whose blocks have to be closed. -/
inductive Construct where
  | if_ | while_ | repeat_ | for_ | forEach | select | function | type
deriving DecidableEq, Repr, Inhabited

namespace Construct

/-- The name in messages. -/
def name : Construct → String
  | .if_ => "If"
  | .while_ => "While"
  | .repeat_ => "Repeat"
  | .for_ => "For"
  | .forEach => "For Each"
  | .select => "Select"
  | .function => "Function"
  | .type => "Type"

/-- The closer that messages ask for. -/
def closer : Construct → Closer
  | .if_ => .word .endIf
  | .while_ => .word .wend
  | .repeat_ => .word .until_
  | .for_ => .word .next
  | .forEach => .word .next
  | .select => .endOf .select
  | .function => .endOf .function
  | .type => .endOf .type

end Construct

/-- What is wrong in a program. -/
inductive Fault where
  /-- Another token stands where something was wanted. -/
  | unexpected (expected : Expected) (found : Token)
  /-- The input ends where something was wanted. -/
  | endOfInput (expected : Expected)
  /-- A token cannot begin an expression. -/
  | badExpression (found : Token)
  /-- A token cannot begin a statement. -/
  | badStatement (found : Token)
  /-- `End` with a word, and no block to close. -/
  | strayEnd (word : Keyword)
  /-- A function stands inside a block of the main program. -/
  | functionInBlock
  /-- A function stands inside a function. -/
  | functionInFunction
  /-- A type stands inside a block. -/
  | typeInBlock
  /-- A whole number cannot be read. -/
  | badWhole (fault : Decimal.WholeFault)
  /-- A number with a fraction cannot be read. -/
  | badReal (fault : Decimal.RealFault)
  /-- A hexadecimal number has more than 32 bits. -/
  | hexRange
  /-- A whole number of a `Data` list cannot be read. -/
  | dataRange
  /-- A number with a fraction of a `Data` list cannot be read. -/
  | dataReal
  /-- A block is not closed. -/
  | unclosed (construct : Construct)
  /-- An array without dimensions. -/
  | noDimension
  /-- A second `Default`. -/
  | secondDefault
  /-- The loop variable has another type than the objects. -/
  | loopType (typeName : String)
  /-- An argument of a command has the wrong type. -/
  | argument (command : String) (position : Nat) (expected found : ValueType)
  /-- A name with an index is no array. -/
  | notArray (name : String)
  /-- A name is no type. -/
  | unknownType (name : String)
  /-- A function has the name of a command. -/
  | commandName (name : String)
deriving DecidableEq, Repr, Inhabited

namespace Fault

/-- The wording of a fault. -/
def message : Fault → String
  | .unexpected expected found => "expected " ++ expected.text ++ ", found " ++ found.describe
  | .endOfInput expected => "unexpected end of input, expected " ++ expected.text
  | .badExpression found => "invalid expression: unexpected " ++ found.describe
  | .badStatement found => "invalid statement: unexpected " ++ found.describe
  | .strayEnd word =>
    "invalid statement: `End " ++ word.spelling ++ "` without a matching `" ++ word.spelling ++ "`"
  | .functionInBlock => "invalid statement: functions must be declared at the top level"
  | .functionInFunction => "invalid statement: functions cannot be nested"
  | .typeInBlock => "invalid statement: types must be declared at the top level"
  | .badWhole fault => "invalid number: " ++ fault.message
  | .badReal fault => "invalid number: " ++ fault.message
  | .hexRange => "invalid number: hex literal out of range"
  | .dataRange => "invalid number: integer out of range"
  | .dataReal => "invalid number: malformed float"
  | .unclosed construct => "missing " ++ construct.closer.text ++ " for " ++ construct.name
  | .noDimension => "an array needs at least one dimension"
  | .secondDefault => "`Select` has more than one `Default`"
  | .loopType typeName =>
    "loop variable is declared as a different type than `" ++ typeName ++ "`"
  | .argument command position expected found =>
    "argument " ++ toString position ++ " of `" ++ command ++ "`: expected " ++ expected.name ++
      ", found " ++ found.name
  | .notArray name => "`" ++ name ++ "` is not an array"
  | .unknownType name => "unknown type `" ++ name ++ "`"
  | .commandName name => "`" ++ name ++ "` is a builtin command and cannot be redefined"

/-- Whether the fault is about the meaning and not about the form of the program. -/
def isSemantic : Fault → Bool
  | .argument .. | .notArray _ | .unknownType _ | .commandName _ => true
  | _ => false

end Fault

/-- A fault with its place. -/
structure ParseError where
  /-- What is wrong. -/
  fault : Fault
  /-- Where it is. -/
  span : Span
deriving DecidableEq, Repr, Inhabited

end FrameBasic
