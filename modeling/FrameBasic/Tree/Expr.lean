import FrameBasic.Decimal.Binary64
import FrameBasic.Tree.Operator
import FrameBasic.Value

/-!
# Expressions

Every node carries its place in the source and the type that was inferred for it.  An expression
that could not be read is an `error` node, so that a tree is always complete.

## Main definitions

* `Info` — place and type of a node.
* `Expr` — the expressions.
* `Expr.isAssignable` — whether a value can be stored in the expression.
* `Expr.subterms` — the expression and everything below it, from the outside in and from left to
  right.
-/

namespace FrameBasic

/-- The place of a node and the type inferred for it. -/
structure Info where
  /-- The place in the source. -/
  span : Span
  /-- The inferred type. -/
  type : ValueType := .unknown
deriving DecidableEq, Repr, Inhabited

/-- The expressions. -/
inductive Expr where
  /-- A whole number. -/
  | integer (info : Info) (value : Int)
  /-- A number with a fraction or an exponent. -/
  | float (info : Info) (value : Binary64)
  /-- A text. -/
  | string (info : Info) (value : String)
  /-- A truth value. -/
  | boolean (info : Info) (value : Bool)
  /-- The null reference. -/
  | null (info : Info)
  /-- A variable as it is spelled, with the type name after its point. -/
  | var (info : Info) (name : String) (typeName : Option String)
  /-- Two operands joined by an operator. -/
  | binary (info : Info) (left : Expr) (op : BinaryOp) (right : Expr)
  /-- An operator before its operand. -/
  | unary (info : Info) (op : UnaryOp) (operand : Expr)
  /-- An expression in parentheses. -/
  | grouped (info : Info) (inner : Expr)
  /-- The call of a function of the program. -/
  | call (info : Info) (name : String) (args : List Expr)
  /-- A builtin command. -/
  | command (info : Info) (name : String) (args : List Expr)
  /-- An element of an array. -/
  | element (info : Info) (name : String) (indices : List Expr)
  /-- A field of an object. -/
  | field (info : Info) (object : Expr) (name : String)
  /-- A new object of a type. -/
  | new (info : Info) (typeName : String)
  /-- The first object of a type. -/
  | first (info : Info) (typeName : String)
  /-- The last object of a type. -/
  | last (info : Info) (typeName : String)
  /-- The object after another one. -/
  | after (info : Info) (object : Expr)
  /-- The object before another one. -/
  | before (info : Info) (object : Expr)
  /-- An expression that could not be read. -/
  | error (info : Info)
deriving Inhabited

namespace Expr

/-- Place and type of a node. -/
def info : Expr → Info
  | .integer i _ | .float i _ | .string i _ | .boolean i _ | .null i | .var i _ _
  | .binary i _ _ _ | .unary i _ _ | .grouped i _ | .call i _ _ | .command i _ _ | .element i _ _
  | .field i _ _ | .new i _ | .first i _ | .last i _ | .after i _ | .before i _ | .error i => i

/-- The node with other place and type. -/
def withInfo (i : Info) : Expr → Expr
  | .integer _ v => .integer i v
  | .float _ v => .float i v
  | .string _ v => .string i v
  | .boolean _ v => .boolean i v
  | .null _ => .null i
  | .var _ name typeName => .var i name typeName
  | .binary _ left op right => .binary i left op right
  | .unary _ op operand => .unary i op operand
  | .grouped _ inner => .grouped i inner
  | .call _ name args => .call i name args
  | .command _ name args => .command i name args
  | .element _ name indices => .element i name indices
  | .field _ object name => .field i object name
  | .new _ typeName => .new i typeName
  | .first _ typeName => .first i typeName
  | .last _ typeName => .last i typeName
  | .after _ object => .after i object
  | .before _ object => .before i object
  | .error _ => .error i

/-- The place of a node. -/
def span (e : Expr) : Span := e.info.span

/-- The type of a node. -/
def type (e : Expr) : ValueType := e.info.type

/-- The node with another type. -/
def withType (t : ValueType) (e : Expr) : Expr :=
  e.withInfo { e.info with type := t }

/-- Whether a value can be stored in the expression. -/
def isAssignable : Expr → Bool
  | .var .. | .element .. | .field .. => true
  | _ => false

/-- Whether the node stands for an expression that could not be read. -/
def isError : Expr → Bool
  | .error _ => true
  | _ => false

mutual

/-- The expression and everything below it, from the outside in and from left to right. -/
def subterms : Expr → List Expr
  | e@(.binary _ left _ right) => e :: (subterms left ++ subterms right)
  | e@(.unary _ _ operand) => e :: subterms operand
  | e@(.grouped _ inner) => e :: subterms inner
  | e@(.call _ _ args) => e :: subtermsAll args
  | e@(.command _ _ args) => e :: subtermsAll args
  | e@(.element _ _ indices) => e :: subtermsAll indices
  | e@(.field _ object _) => e :: subterms object
  | e@(.after _ object) => e :: subterms object
  | e@(.before _ object) => e :: subterms object
  | e => [e]

/-- The expressions of a list and everything below them. -/
def subtermsAll : List Expr → List Expr
  | [] => []
  | e :: rest => subterms e ++ subtermsAll rest

end

@[simp] theorem info_withInfo (i : Info) (e : Expr) : (e.withInfo i).info = i := by
  cases e <;> rfl

@[simp] theorem span_withType (t : ValueType) (e : Expr) : (e.withType t).span = e.span := by
  simp [withType, span]

@[simp] theorem isAssignable_withInfo (i : Info) (e : Expr) :
    (e.withInfo i).isAssignable = e.isAssignable := by
  cases e <;> rfl

@[simp] theorem isAssignable_withType (t : ValueType) (e : Expr) :
    (e.withType t).isAssignable = e.isAssignable := by
  simp [withType]

end Expr

end FrameBasic
