import FrameBasic.Tree.Expr

/-!
# Statements

## Main definitions

* `Stmt` — the statements; `ElseIf` and `CaseClause` are the branches of `If` and `Select`.
* `Program` — a list of statements, with its functions.
* `Stmt.span` — the place of a statement.
-/

namespace FrameBasic

/-- Where the names of a declaration live. -/
inductive DeclScope where
  /-- In the innermost scope. -/
  | inner
  /-- In the global scope. -/
  | global
deriving DecidableEq, Repr, Inhabited

/-- One name of a `Local` or `Global` list. -/
structure VarDecl where
  /-- The name as it is spelled. -/
  name : String
  /-- The type name after the point. -/
  typeName : Option String
  /-- The first value. -/
  value : Option Expr
  /-- The place in the source. -/
  span : Span
deriving Inhabited

/-- One array of a `Dim` list. -/
structure ArrayDecl where
  /-- The name as it is spelled. -/
  name : String
  /-- The type name after the point. -/
  typeName : Option String
  /-- The highest index of each dimension. -/
  dimensions : List Expr
  /-- The place in the source. -/
  span : Span
deriving Inhabited

/-- A parameter of a function. -/
structure Param where
  /-- The name as it is spelled. -/
  name : String
  /-- The type name after the point. -/
  typeName : Option String
  /-- The value of a missing argument. -/
  default : Option Expr
  /-- The place in the source. -/
  span : Span
deriving Inhabited

/-- A field of a user type. -/
structure FieldDecl where
  /-- The name as it is spelled. -/
  name : String
  /-- The type name after the point. -/
  typeName : Option String
  /-- The place in the source. -/
  span : Span
deriving Inhabited

/-- On which side `Insert` puts an object. -/
inductive Side where
  | before
  | after
deriving DecidableEq, Repr, Inhabited

/-- A value of a `Data` list. -/
inductive DataValue where
  /-- A whole number. -/
  | integer (value : Int)
  /-- A number with a fraction or an exponent. -/
  | float (value : Binary64)
  /-- A text or a bare word. -/
  | string (value : String)
deriving DecidableEq, Repr, Inhabited

mutual

/-- The statements. -/
inductive Stmt where
  /-- Stores a value. -/
  | assign (span : Span) (target value : Expr)
  /-- `Local` or `Global` with its names. -/
  | declare (span : Span) (scope : DeclScope) (vars : List VarDecl)
  /-- `Dim` with its arrays. -/
  | dim (span : Span) (arrays : List ArrayDecl)
  /-- `Const`. -/
  | const (span : Span) (name : String) (value : Expr)
  /-- `If` with its branches. -/
  | if_ (span : Span) (condition : Expr) (thenBranch : List Stmt) (elseIfs : List ElseIf)
      (elseBranch : Option (List Stmt))
  /-- `While` up to `Wend`. -/
  | while_ (span : Span) (condition : Expr) (body : List Stmt)
  /-- `Repeat` up to `Until` with its condition, or up to `Forever`. -/
  | repeat_ (span : Span) (body : List Stmt) (condition : Option Expr)
  /-- `For` over numbers. -/
  | for_ (span : Span) (name : String) (first last : Expr) (step : Option Expr)
      (body : List Stmt)
  /-- `For` over the objects of a type. -/
  | forEach (span : Span) (name : String) (typeName : String) (body : List Stmt)
  /-- `Select` with its cases. -/
  | select (span : Span) (subject : Expr) (cases : List CaseClause)
      (default : Option (List Stmt))
  /-- The declaration of a function. -/
  | function (span : Span) (name : String) (returns : Option String) (params : List Param)
      (body : List Stmt)
  /-- The declaration of a type. -/
  | type (span : Span) (name : String) (fields : List FieldDecl)
  /-- `Return`. -/
  | return_ (span : Span) (value : Option Expr)
  /-- `Exit`, which leaves the innermost loop. -/
  | exit (span : Span)
  /-- `End`, which stops the program. -/
  | end_ (span : Span)
  /-- `Goto`. -/
  | goto (span : Span) (label : String)
  /-- `Gosub`. -/
  | gosub (span : Span) (label : String)
  /-- A label. -/
  | label (span : Span) (name : String)
  /-- `Data` with its values. -/
  | data (span : Span) (values : List DataValue)
  /-- `Read` with its targets. -/
  | read (span : Span) (targets : List Expr)
  /-- `Restore`. -/
  | restore (span : Span) (label : Option String)
  /-- `Delete` of one object. -/
  | delete (span : Span) (object : Expr)
  /-- `Delete Each` of a type. -/
  | deleteEach (span : Span) (typeName : String)
  /-- `Insert` of an object before or after another one. -/
  | insert (span : Span) (object : Expr) (side : Side) (anchor : Expr)
  /-- A command or a call. -/
  | expr (span : Span) (expr : Expr)

/-- A branch that is taken when its condition is the first one that holds. -/
inductive ElseIf where
  | mk (condition : Expr) (body : List Stmt)

/-- A branch that is taken when the subject has one of its values. -/
inductive CaseClause where
  | mk (values : List Expr) (body : List Stmt) (span : Span)

end

instance : Inhabited Stmt := ⟨.exit .unknown⟩

namespace ElseIf

/-- The condition of the branch. -/
def condition : ElseIf → Expr
  | .mk condition _ => condition

/-- The statements of the branch. -/
def body : ElseIf → List Stmt
  | .mk _ body => body

end ElseIf

namespace CaseClause

/-- The values of the clause. -/
def values : CaseClause → List Expr
  | .mk values _ _ => values

/-- The statements of the clause. -/
def body : CaseClause → List Stmt
  | .mk _ body _ => body

/-- The place of the clause. -/
def span : CaseClause → Span
  | .mk _ _ span => span

end CaseClause

namespace Stmt

/-- The place of a statement. -/
def span : Stmt → Span
  | .assign s _ _ | .declare s _ _ | .dim s _ | .const s _ _ | .if_ s _ _ _ _ | .while_ s _ _
  | .repeat_ s _ _ | .for_ s _ _ _ _ _ | .forEach s _ _ _ | .select s _ _ _ | .function s _ _ _ _
  | .type s _ _ | .return_ s _ | .exit s | .end_ s | .goto s _ | .gosub s _ | .label s _
  | .data s _ | .read s _ | .restore s _ | .delete s _ | .deleteEach s _ | .insert s _ _ _
  | .expr s _ => s

/-- Whether the statement declares a function. -/
def isFunction : Stmt → Bool
  | .function .. => true
  | _ => false

/-- Whether the statement declares a type. -/
def isType : Stmt → Bool
  | .type .. => true
  | _ => false

end Stmt

/-- A program is a list of statements. -/
structure Program where
  /-- The statements at the top level. -/
  stmts : List Stmt
deriving Inhabited

/-- The functions that are declared at the top level. -/
def Program.functions (p : Program) : List Stmt :=
  p.stmts.filter Stmt.isFunction

end FrameBasic
