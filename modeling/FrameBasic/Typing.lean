import FrameBasic.Command.Table
import FrameBasic.Scope
import FrameBasic.Tree.Stmt

/-!
# Inferred types

Inference looks at one node whose parts have their types already.  A marker on a name decides, then
what the name was declared as, and else a name is a number.

## Main definitions

* `nameType` — the type of a name.
* `Expr.inferredType` — the type of a node.
* `Expr.typed` — the node with that type.
* `Mismatch`, `mismatches` — arguments of a command whose type is wrong.
-/

namespace FrameBasic

/-- The type of a name: its marker, else its declaration, else a number. -/
def nameType (scopes : Scopes) (name : String) : ValueType :=
  match Name.markedType? name with
  | some type => type
  | none => ((scopes.lookup? name).map Symbol.type).getD .number

namespace Expr

/-- The type of a node, from the types of its parts. -/
def inferredType (scopes : Scopes) (commands : CommandTable) : Expr → ValueType
  | .integer .. | .float .. => .number
  | .string .. => .string
  | .boolean .. => .boolean
  | .null _ => .null
  | .var _ _ (some _) => .object
  | .var _ name none => nameType scopes name
  | .element _ name _ | .call _ name _ => nameType scopes name
  | .binary _ left op right =>
    if op.isComparison || op.isLogical then .boolean
    else if op = .add ∧ (left.type = .string ∨ right.type = .string) then .string
    else .number
  | .unary _ .not _ => .boolean
  | .unary _ .negate _ | .unary _ .plus _ => .number
  | .grouped _ inner => inner.type
  | .command _ name _ => ((commands.get? name).map Descriptor.returns).getD .unknown
  | .field _ _ name => (Name.markedType? name).getD .unknown
  | .new .. | .first .. | .last .. | .after .. | .before .. => .object
  | .error _ => .unknown

/-- The node with its inferred type. -/
def typed (scopes : Scopes) (commands : CommandTable) (e : Expr) : Expr :=
  e.withType (e.inferredType scopes commands)

end Expr

/-- An argument whose type does not fit its parameter. -/
structure Mismatch where
  /-- The position of the argument, from one. -/
  position : Nat
  /-- The type of the parameter. -/
  expected : ValueType
  /-- The type of the argument. -/
  found : ValueType
  /-- The place of the argument. -/
  span : Span
deriving DecidableEq, Repr, Inhabited

/-- The arguments that do not fit their parameters, when the first of them stands at `position`.
Parameters without an argument and arguments without a parameter are not compared. -/
def mismatchesFrom (position : Nat) : List ValueType → List Expr → List Mismatch
  | expected :: params, arg :: args =>
    (if expected.accepts arg.type then [] else [⟨position, expected, arg.type, arg.span⟩]) ++
      mismatchesFrom (position + 1) params args
  | _, _ => []

/-- The arguments that do not fit the parameters of a command. -/
def mismatches (d : Descriptor) (args : List Expr) : List Mismatch :=
  mismatchesFrom 1 d.params args

end FrameBasic
