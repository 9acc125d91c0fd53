import FrameBasic.Decimal.Layout
import FrameBasic.Text.Shown
import FrameBasic.Tree.Stmt

/-!
# Listings

A listing shows a program as an outline: every node with its name, and its parts indented below it.

## Main definitions

* `Listing` — an outline.
* `Listing.lines`, `Listing.render` — its lines and its text.
* `Expr.listing`, `Stmt.listing`, `Program.listing` — the outlines of expressions, statements and
  programs.
-/

namespace FrameBasic

/-- An outline. -/
inductive Listing where
  /-- A text. -/
  | atom (s : String)
  /-- An outline with a label before it. -/
  | labelled (label : String) (value : Listing)
  /-- Outlines between an opening and a closing text. -/
  | group (opening closing : String) (items : List Listing)
deriving Inhabited

namespace Listing

/-- The lines with a text before the first one. -/
def withLabel (label : String) : List String → List String
  | [] => [label]
  | first :: rest => (label ++ first) :: rest

/-- The lines of an item of a group: indented, and with a comma after the last one. -/
def asItem : List String → List String
  | [] => []
  | [last] => ["    " ++ last ++ ","]
  | line :: rest => ("    " ++ line) :: asItem rest

mutual

/-- The lines of an outline. -/
def lines : Listing → List String
  | .atom s => [s]
  | .labelled label value => withLabel (label ++ ": ") (lines value)
  | .group opening closing [] => [opening ++ closing]
  | .group opening closing (item :: rest) =>
    opening :: (asItem (lines item) ++ itemLines rest ++ [closing])

/-- The lines of the items of a group. -/
def itemLines : List Listing → List String
  | [] => []
  | item :: rest => asItem (lines item) ++ itemLines rest

end

/-- The text of an outline. -/
def render (listing : Listing) : String :=
  String.intercalate "\n" listing.lines

/-- A node with named parts. -/
def record (name : String) (parts : List (String × Listing)) : Listing :=
  .group (name ++ " \x7b") "\x7d" (parts.map fun part => .labelled part.1 part.2)

/-- A node with parts. -/
def tuple (name : String) (parts : List Listing) : Listing :=
  .group (name ++ "(") ")" parts

/-- A list. -/
def list (items : List Listing) : Listing :=
  .group "[" "]" items

/-- A text in quotes. -/
def text (s : String) : Listing :=
  .atom (Text.shown s)

/-- A number. -/
def number (n : Nat) : Listing :=
  .atom (toString n)

/-- Something that may be missing. -/
def option : Option Listing → Listing
  | some value => tuple "Some" [value]
  | none => .atom "None"

/-- The name of a type, which may be missing. -/
def typeName (name : Option String) : Listing :=
  option (name.map text)

end Listing

open Listing (record tuple list text option)

/-- The outline of a place. -/
def Span.listing (s : Span) : Listing :=
  record "Span"
    [ ("start", .number s.start), ("end", .number s.stop), ("line", .number s.line),
      ("column", .number s.column) ]

/-- The outline of a type. -/
def ValueType.listing : ValueType → Listing
  | .number => .atom "Number"
  | .string => .atom "String"
  | .boolean => .atom "Boolean"
  | .object => .atom "Object"
  | .null => .atom "Null"
  | .unknown => .atom "Unknown"

/-- The outline of a number with a fraction or an exponent. -/
def Binary64.listing (x : Binary64) : Listing :=
  .atom (Decimal.write Decimal.listingStyle x)

/-- The outline of an expression, given the outline of what it is. -/
def Info.listing (i : Info) (kind : Listing) : Listing :=
  record "Expr" [("kind", kind), ("span", i.span.listing), ("ty", i.type.listing)]

mutual

/-- The outline of an expression. -/
def Expr.listing : Expr → Listing
  | .integer i n => i.listing (tuple "IntegerLiteral" [.atom (toString n)])
  | .float i x => i.listing (tuple "FloatLiteral" [x.listing])
  | .string i s => i.listing (tuple "StringLiteral" [text s])
  | .boolean i b => i.listing (tuple "BooleanLiteral" [.atom (toString b)])
  | .null i => i.listing (.atom "Null")
  | .var i name typeName =>
    i.listing (record "Variable" [("name", text name), ("type_name", .typeName typeName)])
  | .binary i left op right =>
    i.listing (record "Binary"
      [("left", left.listing), ("op", .atom op.name), ("right", right.listing)])
  | .unary i op operand =>
    i.listing (record "Unary" [("op", .atom op.name), ("operand", operand.listing)])
  | .grouped i inner => i.listing (tuple "Grouped" [inner.listing])
  | .call i name args =>
    i.listing (record "Call" [("name", text name), ("args", list (exprListings args))])
  | .command i name args =>
    i.listing (record "Command" [("name", text name), ("args", list (exprListings args))])
  | .element i name indices =>
    i.listing (record "ArrayAccess" [("name", text name), ("indices", list (exprListings indices))])
  | .field i object name =>
    i.listing (record "FieldAccess" [("object", object.listing), ("field", text name)])
  | .new i typeName => i.listing (tuple "New" [text typeName])
  | .first i typeName => i.listing (tuple "First" [text typeName])
  | .last i typeName => i.listing (tuple "Last" [text typeName])
  | .after i object => i.listing (tuple "After" [object.listing])
  | .before i object => i.listing (tuple "Before" [object.listing])
  | .error i => i.listing (.atom "Error")

/-- The outlines of a list of expressions. -/
def exprListings : List Expr → List Listing
  | [] => []
  | e :: rest => e.listing :: exprListings rest

end

/-- The outline of an expression that may be missing. -/
def optionListing (e : Option Expr) : Listing :=
  option (e.map Expr.listing)

/-- The outline of a name of a `Local` or `Global` list. -/
def VarDecl.listing (v : VarDecl) : Listing :=
  record "VarDecl"
    [ ("name", text v.name), ("type_name", .typeName v.typeName),
      ("value", optionListing v.value), ("span", v.span.listing) ]

/-- The outline of an array of a `Dim` list. -/
def ArrayDecl.listing (a : ArrayDecl) : Listing :=
  record "ArrayDecl"
    [ ("name", text a.name), ("type_name", .typeName a.typeName),
      ("dimensions", list (exprListings a.dimensions)), ("span", a.span.listing) ]

/-- The outline of a parameter. -/
def Param.listing (p : Param) : Listing :=
  record "Parameter"
    [ ("name", text p.name), ("type_name", .typeName p.typeName),
      ("default", optionListing p.default), ("span", p.span.listing) ]

/-- The outline of a field. -/
def FieldDecl.listing (f : FieldDecl) : Listing :=
  record "FieldDecl"
    [("name", text f.name), ("type_name", .typeName f.typeName), ("span", f.span.listing)]

/-- The outline of where names live. -/
def DeclScope.listing : DeclScope → Listing
  | .inner => .atom "Local"
  | .global => .atom "Global"

/-- The outline of a side. -/
def Side.listing : Side → Listing
  | .before => .atom "Before"
  | .after => .atom "After"

/-- The outline of a value of the data pool. -/
def DataValue.listing : DataValue → Listing
  | .integer n => tuple "Integer" [.atom (toString n)]
  | .float x => tuple "Float" [x.listing]
  | .string s => tuple "String" [text s]

/-- The outline of a statement, given the outline of what it is. -/
def Span.stmtListing (span : Span) (kind : Listing) : Listing :=
  record "Statement" [("kind", kind), ("span", span.listing)]

mutual

/-- The outline of what a statement is. -/
def Stmt.kindListing : Stmt → Listing
  | .assign _ target value =>
    record "Assignment" [("target", target.listing), ("value", value.listing)]
  | .declare _ scope vars =>
    record "Declaration"
      [("scope", scope.listing), ("vars", list (vars.map VarDecl.listing))]
  | .dim _ arrays => record "Dim" [("arrays", list (arrays.map ArrayDecl.listing))]
  | .const _ name value => record "Const" [("name", text name), ("value", value.listing)]
  | .if_ _ condition thenBranch elseIfs none =>
    record "If"
      [ ("condition", condition.listing), ("then_branch", list (stmtListings thenBranch)),
        ("elseif_branches", list (elseIfListings elseIfs)), ("else_branch", option none) ]
  | .if_ _ condition thenBranch elseIfs (some elseBranch) =>
    record "If"
      [ ("condition", condition.listing), ("then_branch", list (stmtListings thenBranch)),
        ("elseif_branches", list (elseIfListings elseIfs)),
        ("else_branch", option (some (list (stmtListings elseBranch)))) ]
  | .while_ _ condition body =>
    record "While" [("condition", condition.listing), ("body", list (stmtListings body))]
  | .repeat_ _ body condition =>
    record "Repeat" [("body", list (stmtListings body)), ("until", optionListing condition)]
  | .for_ _ name first last step body =>
    record "For"
      [ ("variable", text name), ("start", first.listing), ("end", last.listing),
        ("step", optionListing step), ("body", list (stmtListings body)) ]
  | .forEach _ name typeName body =>
    record "ForEach"
      [ ("variable", text name), ("type_name", text typeName),
        ("body", list (stmtListings body)) ]
  | .select _ subject cases none =>
    record "Select"
      [ ("subject", subject.listing), ("cases", list (caseListings cases)),
        ("default", option none) ]
  | .select _ subject cases (some default) =>
    record "Select"
      [ ("subject", subject.listing), ("cases", list (caseListings cases)),
        ("default", option (some (list (stmtListings default)))) ]
  | .function _ name returns params body =>
    record "FunctionDeclaration"
      [ ("name", text name), ("return_type", .typeName returns),
        ("params", list (params.map Param.listing)), ("body", list (stmtListings body)) ]
  | .type _ name fields =>
    record "TypeDeclaration"
      [("name", text name), ("fields", list (fields.map FieldDecl.listing))]
  | .return_ _ value => tuple "Return" [optionListing value]
  | .exit _ => .atom "Exit"
  | .end_ _ => .atom "End"
  | .goto _ label => tuple "Goto" [text label]
  | .gosub _ label => tuple "Gosub" [text label]
  | .label _ name => tuple "Label" [text name]
  | .data _ values => tuple "Data" [list (values.map DataValue.listing)]
  | .read _ targets => tuple "Read" [list (exprListings targets)]
  | .restore _ label => tuple "Restore" [.typeName label]
  | .delete _ object => tuple "Delete" [object.listing]
  | .deleteEach _ typeName => tuple "DeleteEach" [text typeName]
  | .insert _ object side anchor =>
    record "Insert"
      [("object", object.listing), ("position", side.listing), ("anchor", anchor.listing)]
  | .expr _ e => tuple "Expression" [e.listing]

/-- The outlines of branches. -/
def elseIfListings : List ElseIf → List Listing
  | [] => []
  | .mk condition body :: rest =>
    tuple "" [condition.listing, list (stmtListings body)] :: elseIfListings rest

/-- The outlines of clauses. -/
def caseListings : List CaseClause → List Listing
  | [] => []
  | .mk values body span :: rest =>
    record "CaseClause"
      [ ("values", list (exprListings values)), ("body", list (stmtListings body)),
        ("span", span.listing) ] :: caseListings rest

/-- The outlines of a list of statements. -/
def stmtListings : List Stmt → List Listing
  | [] => []
  | s :: rest => s.span.stmtListing s.kindListing :: stmtListings rest

end

/-- The outline of a program. -/
def Program.listing (p : Program) : Listing :=
  record "Program" [("statements", list (stmtListings p.stmts))]

end FrameBasic
