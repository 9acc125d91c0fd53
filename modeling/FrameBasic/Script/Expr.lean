import FrameBasic.Command.Table
import FrameBasic.Program.DataPool
import FrameBasic.Script.Arguments
import FrameBasic.Script.Literal

/-!
# Expressions in the script

Every operation is in parentheses of its own, so that the order of evaluation of the program is
kept.  Equality is the loose one, because truth values count as numbers.  The result of a command or
a function that suspends is awaited, and an expression that could not be read is a missing value.

## Main definitions

* `Script.Context` — what is known about a program when it is written down.
* `Script.commandCode` — a command with its arguments.
* `Script.exprCode` — an expression.
-/

namespace FrameBasic.Script

/-- What is known about a program when it is written down. -/
structure Context where
  /-- The builtin commands. -/
  commands : CommandTable
  /-- The folded names of the functions that suspend. -/
  suspending : List String
  /-- The data pool. -/
  pool : DataPool
deriving Inhabited

namespace Context

/-- Whether calls of a function must be awaited. -/
def functionSuspends (ctx : Context) (name : String) : Bool :=
  ctx.suspending.contains (Name.fold name)

/-- Whether calls of a command must be awaited. -/
def commandSuspends (ctx : Context) (name : String) : Bool :=
  ctx.commands.suspendingNames.contains (Text.lower name)

end Context

/-- The script's spelling of a binary operator. -/
def operator : BinaryOp → String
  | .power => "**"
  | .multiply => "*"
  | .divide => "/"
  | .modulo => "%"
  | .add => "+"
  | .subtract => "-"
  | .shiftLeft => "<<"
  | .shiftRight => ">>>"
  | .shiftArith => ">>"
  | .equal => "=="
  | .notEqual => "!="
  | .lessThan => "<"
  | .lessEqual => "<="
  | .greaterThan => ">"
  | .greaterEqual => ">="
  | .and => "&&"
  | .or => "||"
  | .xor => "^"

/-- Two operands joined by an operator. -/
def binaryCode (op : BinaryOp) (left right : Fragment) : Fragment :=
  match op with
  | .xor => plain "((" ++ left ++ plain ") ^ (" ++ right ++ plain "))"
  | _ => plain "(" ++ left ++ plain (" " ++ operator op ++ " ") ++ right ++ plain ")"

/-- The script's spelling of a unary operator. -/
def sign : UnaryOp → String
  | .negate => "-"
  | .plus => "+"
  | .not => "!"

/-- A command with its lowered arguments, without waiting for it; nothing for a command that is not
known or not supported. -/
def commandCode (ctx : Context) (name : String) (args : List Fragment) : Option Fragment :=
  match ctx.commands.get? name with
  | none => none
  | some d =>
    let args := d.arguments args
    match d.category with
    | .call => some (plain ("$" ++ d.target ++ "(") ++ commas args ++ plain ")")
    | .property => some (plain ("$" ++ d.target))
    | .inline => some (d.filled args)
    | .unsupported => none

/-- A function with its lowered arguments. -/
def callCode (ctx : Context) (name : String) (args : List Fragment) : Fragment :=
  .call (ctx.functionSuspends name) (Name.fold name) :: plain "(" ++ commas args ++ plain ")"

mutual

/-- An expression in the script. -/
def exprCode (ctx : Context) : Expr → Fragment
  | .integer _ n => plain (toString n)
  | .float _ x => plain (float x)
  | .string _ s => plain (quoted s)
  | .boolean _ b => plain (if b then "true" else "false")
  | .null _ => plain "null"
  | .var _ name _ => [.name (identifier name)]
  | .binary _ left op right => binaryCode op (exprCode ctx left) (exprCode ctx right)
  | .unary _ op operand => plain ("(" ++ sign op) ++ exprCode ctx operand ++ plain ")"
  | .grouped _ inner => plain "(" ++ exprCode ctx inner ++ plain ")"
  | .call _ name args =>
    let code := callCode ctx name (exprCodes ctx args)
    if ctx.functionSuspends name then plain "(" ++ code ++ plain ")" else code
  | .command _ name args =>
    match commandCode ctx name (exprCodes ctx args) with
    | some code =>
      if ctx.commandSuspends name then plain "(" ++ .await :: code ++ plain ")" else code
    | none => missing
  | .element _ name indices => .name (identifier name) :: indexCode ctx indices
  | .field _ object name => exprCode ctx object ++ plain ("." ++ identifier name)
  | .new _ typeName => plain ("new " ++ className typeName ++ "()")
  | .first _ typeName => plain ("$first(" ++ className typeName ++ ")")
  | .last _ typeName => plain ("$last(" ++ className typeName ++ ")")
  | .after _ object => plain "$after(" ++ exprCode ctx object ++ plain ")"
  | .before _ object => plain "$before(" ++ exprCode ctx object ++ plain ")"
  | .error _ => missing

/-- A list of expressions in the script. -/
def exprCodes (ctx : Context) : List Expr → List Fragment
  | [] => []
  | e :: rest => exprCode ctx e :: exprCodes ctx rest

/-- The indices of an element, each in brackets. -/
def indexCode (ctx : Context) : List Expr → Fragment
  | [] => []
  | e :: rest => plain "[" ++ exprCode ctx e ++ plain "]" ++ indexCode ctx rest

end

theorem exprCodes_eq_map (ctx : Context) (es : List Expr) :
    exprCodes ctx es = es.map (exprCode ctx) := by
  induction es with
  | nil => rfl
  | cons e rest ih => simp [exprCodes, ih]

end FrameBasic.Script
