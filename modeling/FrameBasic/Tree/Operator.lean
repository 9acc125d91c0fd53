import FrameBasic.Token.Basic

/-!
# Operators

## Main definitions

* `Precedence` — how tightly an operator binds, from `or` to `unary`.
* `BinaryOp`, `UnaryOp` — the operators with their spelling in programs.
* `BinaryOp.precedence` — the level of a binary operator.
* `BinaryOp.operandLevel` — the lowest level that its right operand may have.
* `Kind.binaryOp?` — the operator that a token stands for between two operands.
-/

namespace FrameBasic

/-- How tightly an operator binds, loosest first. -/
inductive Precedence where
  | or | and | comparison | shift | additive | multiplicative | power | unary
deriving DecidableEq, Repr, Inhabited

namespace Precedence

/-- The place of a level in the order. -/
def rank : Precedence → Nat
  | .or => 1
  | .and => 2
  | .comparison => 3
  | .shift => 4
  | .additive => 5
  | .multiplicative => 6
  | .power => 7
  | .unary => 8

/-- The next tighter level. -/
def next : Precedence → Precedence
  | .or => .and
  | .and => .comparison
  | .comparison => .shift
  | .shift => .additive
  | .additive => .multiplicative
  | .multiplicative => .power
  | .power => .unary
  | .unary => .unary

end Precedence

/-- The binary operators. -/
inductive BinaryOp where
  | power | multiply | divide | modulo | add | subtract
  | shiftLeft | shiftRight | shiftArith
  | equal | notEqual | lessThan | lessEqual | greaterThan | greaterEqual
  | and | or | xor
deriving DecidableEq, Repr, Inhabited

namespace BinaryOp

/-- Every binary operator. -/
def all : List BinaryOp :=
  [ .power, .multiply, .divide, .modulo, .add, .subtract, .shiftLeft, .shiftRight, .shiftArith,
    .equal, .notEqual, .lessThan, .lessEqual, .greaterThan, .greaterEqual, .and, .or, .xor ]

/-- Whether the operator groups to the right, as only the power does. -/
def isRightAssociative : BinaryOp → Bool
  | .power => true
  | _ => false

/-- Whether the operator compares. -/
def isComparison : BinaryOp → Bool
  | .equal | .notEqual | .lessThan | .lessEqual | .greaterThan | .greaterEqual => true
  | _ => false

/-- Whether the operator joins truth values. -/
def isLogical : BinaryOp → Bool
  | .and | .or | .xor => true
  | _ => false

/-- The spelling in programs. -/
def spelling : BinaryOp → String
  | .power => "^"
  | .multiply => "*"
  | .divide => "/"
  | .modulo => "Mod"
  | .add => "+"
  | .subtract => "-"
  | .shiftLeft => "Shl"
  | .shiftRight => "Shr"
  | .shiftArith => "Sar"
  | .equal => "="
  | .notEqual => "<>"
  | .lessThan => "<"
  | .lessEqual => "<="
  | .greaterThan => ">"
  | .greaterEqual => ">="
  | .and => "And"
  | .or => "Or"
  | .xor => "Xor"

/-- The operator with a spelling. -/
def ofSpelling? (spelling : String) : Option BinaryOp :=
  all.find? fun op => op.spelling == spelling

/-- The name in listings. -/
def name : BinaryOp → String
  | .power => "Power"
  | .multiply => "Multiply"
  | .divide => "Divide"
  | .modulo => "Modulo"
  | .add => "Add"
  | .subtract => "Subtract"
  | .shiftLeft => "ShiftLeft"
  | .shiftRight => "ShiftRight"
  | .shiftArith => "ShiftArith"
  | .equal => "Equal"
  | .notEqual => "NotEqual"
  | .lessThan => "LessThan"
  | .lessEqual => "LessEqual"
  | .greaterThan => "GreaterThan"
  | .greaterEqual => "GreaterEqual"
  | .and => "And"
  | .or => "Or"
  | .xor => "Xor"

/-- How tightly the operator binds. -/
def precedence : BinaryOp → Precedence
  | .or | .xor => .or
  | .and => .and
  | .equal | .notEqual | .lessThan | .lessEqual | .greaterThan | .greaterEqual => .comparison
  | .shiftLeft | .shiftRight | .shiftArith => .shift
  | .add | .subtract => .additive
  | .multiply | .divide | .modulo => .multiplicative
  | .power => .power

/-- The lowest level of an operator in the right operand: an operator that groups to the right
accepts its own level there. -/
def operandLevel (op : BinaryOp) : Precedence :=
  if op.isRightAssociative then op.precedence else op.precedence.next

end BinaryOp

/-- The unary operators. -/
inductive UnaryOp where
  | negate | plus | not
deriving DecidableEq, Repr, Inhabited

namespace UnaryOp

/-- Every unary operator. -/
def all : List UnaryOp := [.negate, .plus, .not]

/-- The spelling in programs. -/
def spelling : UnaryOp → String
  | .negate => "-"
  | .plus => "+"
  | .not => "Not"

/-- The name in listings. -/
def name : UnaryOp → String
  | .negate => "Negate"
  | .plus => "Plus"
  | .not => "Not"

end UnaryOp

/-- The operator that a token stands for between two operands. -/
def Kind.binaryOp? : Kind → Option BinaryOp
  | .keyword .or => some .or
  | .keyword .xor => some .xor
  | .keyword .and => some .and
  | .equals => some .equal
  | .notEquals => some .notEqual
  | .lessThan => some .lessThan
  | .lessEquals => some .lessEqual
  | .greaterThan => some .greaterThan
  | .greaterEquals => some .greaterEqual
  | .keyword .shl => some .shiftLeft
  | .keyword .shr => some .shiftRight
  | .keyword .sar => some .shiftArith
  | .plus => some .add
  | .minus => some .subtract
  | .star => some .multiply
  | .slash => some .divide
  | .keyword .mod => some .modulo
  | .caret => some .power
  | _ => none

/-- Whether a token can begin an expression. -/
def Kind.startsExpression : Kind → Bool
  | .integer | .float | .hex | .string | .identifier | .command | .leftParen | .minus | .plus =>
    true
  | .keyword word =>
    word ∈ [.not, .new, .first, .last, .after, .before, .null, .true_, .false_]
  | _ => false

end FrameBasic
