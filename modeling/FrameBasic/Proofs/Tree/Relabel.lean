import FrameBasic.Tree.Stmt

/-!
# Trees with other labels

The labels of a tree are its places, the types that were inferred, and its names.  Changing them
keeps the form of the tree.  Two trees are the same up to some of their labels when they become equal
once these are replaced.

## Main definitions

* `Relabel` — what becomes of each kind of label.
* `Expr.relabel`, `Stmt.relabel` — a tree with other labels.
* `Expr.bare`, `Stmt.bare` — a tree without places and types.

## Main results

* `Expr.relabel_keep`, `Stmt.relabel_keep` — a tree whose labels are kept.
-/

namespace FrameBasic

/-- What becomes of the labels of a tree. -/
structure Relabel where
  /-- The places and types of expressions. -/
  info : Info → Info
  /-- The places of statements and declarations. -/
  span : Span → Span
  /-- The names. -/
  name : String → String
  /-- The names of commands. -/
  command : String → String
  /-- The values of `Data` lists. -/
  data : DataValue → DataValue

/-- Places and types are left out. -/
def Relabel.bare : Relabel := ⟨fun _ => default, fun _ => default, id, id, id⟩

@[simp] theorem Relabel.info_bare (i : Info) : Relabel.bare.info i = default := rfl

@[simp] theorem Relabel.span_bare (s : Span) : Relabel.bare.span s = default := rfl

@[simp] theorem Relabel.name_bare (name : String) : Relabel.bare.name name = name := rfl

@[simp] theorem Relabel.command_bare (name : String) : Relabel.bare.command name = name := rfl

/-- Everything stays as it is. -/
def Relabel.keep : Relabel := ⟨id, id, id, id, id⟩

namespace Relabel

@[simp] theorem info_keep : keep.info = id := rfl

@[simp] theorem span_keep : keep.span = id := rfl

@[simp] theorem name_keep : keep.name = id := rfl

@[simp] theorem command_keep : keep.command = id := rfl

@[simp] theorem data_keep : keep.data = id := rfl

end Relabel

variable (r : Relabel)

/-! ### Expressions -/

mutual

/-- An expression with other labels. -/
def Expr.relabel : Expr → Expr
  | .integer i n => .integer (r.info i) n
  | .float i x => .float (r.info i) x
  | .string i s => .string (r.info i) s
  | .boolean i b => .boolean (r.info i) b
  | .null i => .null (r.info i)
  | .var i name typeName => .var (r.info i) (r.name name) (typeName.map r.name)
  | .binary i left op right => .binary (r.info i) (left.relabel) op (right.relabel)
  | .unary i op operand => .unary (r.info i) op (operand.relabel)
  | .grouped i inner => .grouped (r.info i) (inner.relabel)
  | .call i name args => .call (r.info i) (r.name name) (relabelAll args)
  | .command i name args => .command (r.info i) (r.command name) (relabelAll args)
  | .element i name indices => .element (r.info i) (r.name name) (relabelAll indices)
  | .field i object name => .field (r.info i) (object.relabel) (r.name name)
  | .new i typeName => .new (r.info i) (r.name typeName)
  | .first i typeName => .first (r.info i) (r.name typeName)
  | .last i typeName => .last (r.info i) (r.name typeName)
  | .after i object => .after (r.info i) (object.relabel)
  | .before i object => .before (r.info i) (object.relabel)
  | .error i => .error (r.info i)

/-- Expressions with other labels. -/
def relabelAll : List Expr → List Expr
  | [] => []
  | e :: rest => e.relabel :: relabelAll rest

end

theorem relabelAll_eq_map (es : List Expr) : relabelAll r es = es.map (Expr.relabel r) := by
  induction es with
  | nil => rfl
  | cons e rest ih => rw [relabelAll, ih, List.map_cons]

/-- An expression without places and types. -/
abbrev Expr.bare (e : Expr) : Expr := e.relabel .bare

/-- Expressions without places and types. -/
abbrev bareAll (es : List Expr) : List Expr := relabelAll .bare es

/-! ### Statements -/

/-- A declaration with other labels. -/
def VarDecl.relabel (d : VarDecl) : VarDecl :=
  ⟨r.name d.name, d.typeName.map r.name, d.value.map (Expr.relabel r), r.span d.span⟩

/-- The declaration of an array with other labels. -/
def ArrayDecl.relabel (d : ArrayDecl) : ArrayDecl :=
  ⟨r.name d.name, d.typeName.map r.name, d.dimensions.map (Expr.relabel r), r.span d.span⟩

/-- A parameter with other labels. -/
def Param.relabel (p : Param) : Param :=
  ⟨r.name p.name, p.typeName.map r.name, p.default.map (Expr.relabel r), r.span p.span⟩

/-- A field with other labels. -/
def FieldDecl.relabel (d : FieldDecl) : FieldDecl :=
  ⟨r.name d.name, d.typeName.map r.name, r.span d.span⟩

mutual

/-- A statement with other labels. -/
def Stmt.relabel : Stmt → Stmt
  | .assign s target value => .assign (r.span s) (target.relabel r) (value.relabel r)
  | .declare s scope vars => .declare (r.span s) scope (vars.map (VarDecl.relabel r))
  | .dim s arrays => .dim (r.span s) (arrays.map (ArrayDecl.relabel r))
  | .const s name value => .const (r.span s) (r.name name) (value.relabel r)
  | .if_ s condition thenBranch elseIfs none =>
    .if_ (r.span s) (condition.relabel r) (relabelStmts thenBranch) (relabelElseIfs elseIfs) none
  | .if_ s condition thenBranch elseIfs (some elseBranch) =>
    .if_ (r.span s) (condition.relabel r) (relabelStmts thenBranch) (relabelElseIfs elseIfs)
      (some (relabelStmts elseBranch))
  | .while_ s condition body => .while_ (r.span s) (condition.relabel r) (relabelStmts body)
  | .repeat_ s body condition =>
    .repeat_ (r.span s) (relabelStmts body) (condition.map (Expr.relabel r))
  | .for_ s name first last step body =>
    .for_ (r.span s) (r.name name) (first.relabel r) (last.relabel r) (step.map (Expr.relabel r))
      (relabelStmts body)
  | .forEach s name typeName body =>
    .forEach (r.span s) (r.name name) (r.name typeName) (relabelStmts body)
  | .select s subject cases none =>
    .select (r.span s) (subject.relabel r) (relabelCases cases) none
  | .select s subject cases (some default) =>
    .select (r.span s) (subject.relabel r) (relabelCases cases) (some (relabelStmts default))
  | .function s name returns params body =>
    .function (r.span s) (r.name name) (returns.map r.name) (params.map (Param.relabel r))
      (relabelStmts body)
  | .type s name fields => .type (r.span s) (r.name name) (fields.map (FieldDecl.relabel r))
  | .return_ s value => .return_ (r.span s) (value.map (Expr.relabel r))
  | .exit s => .exit (r.span s)
  | .end_ s => .end_ (r.span s)
  | .goto s label => .goto (r.span s) (r.name label)
  | .gosub s label => .gosub (r.span s) (r.name label)
  | .label s name => .label (r.span s) (r.name name)
  | .data s values => .data (r.span s) (values.map r.data)
  | .read s targets => .read (r.span s) (targets.map (Expr.relabel r))
  | .restore s label => .restore (r.span s) (label.map r.name)
  | .delete s object => .delete (r.span s) (object.relabel r)
  | .deleteEach s typeName => .deleteEach (r.span s) (r.name typeName)
  | .insert s object side anchor =>
    .insert (r.span s) (object.relabel r) side (anchor.relabel r)
  | .expr s e => .expr (r.span s) (e.relabel r)

/-- The branches of `If` with other labels. -/
def relabelElseIfs : List ElseIf → List ElseIf
  | [] => []
  | .mk condition body :: rest =>
    .mk (condition.relabel r) (relabelStmts body) :: relabelElseIfs rest

/-- The clauses of `Select` with other labels. -/
def relabelCases : List CaseClause → List CaseClause
  | [] => []
  | .mk values body span :: rest =>
    .mk (relabelAll r values) (relabelStmts body) (r.span span) :: relabelCases rest

/-- Statements with other labels. -/
def relabelStmts : List Stmt → List Stmt
  | [] => []
  | s :: rest => s.relabel :: relabelStmts rest

end

theorem Stmt.relabel_if (s : Span) (condition : Expr) (thenBranch : List Stmt)
    (elseIfs : List ElseIf) (elseBranch : Option (List Stmt)) :
    (Stmt.if_ s condition thenBranch elseIfs elseBranch).relabel r =
      .if_ (r.span s) (condition.relabel r) (relabelStmts r thenBranch) (relabelElseIfs r elseIfs)
        (elseBranch.map (relabelStmts r)) := by
  cases elseBranch <;> rfl

theorem Stmt.relabel_select (s : Span) (subject : Expr) (cases : List CaseClause)
    (default : Option (List Stmt)) :
    (Stmt.select s subject cases default).relabel r =
      .select (r.span s) (subject.relabel r) (relabelCases r cases)
        (default.map (relabelStmts r)) := by
  cases default <;> rfl

theorem relabelStmts_eq_map (stmts : List Stmt) :
    relabelStmts r stmts = stmts.map (Stmt.relabel r) := by
  induction stmts with
  | nil => rfl
  | cons s rest ih => rw [relabelStmts, ih, List.map_cons]

/-- A statement without places and types. -/
abbrev Stmt.bare (s : Stmt) : Stmt := s.relabel .bare

/-- Statements without places and types. -/
abbrev bareStmts (stmts : List Stmt) : List Stmt := relabelStmts .bare stmts

/-! ### Nothing is changed -/

mutual

@[simp] theorem Expr.relabel_keep : ∀ e : Expr, e.relabel .keep = e
  | .binary _ left _ right => by simp [Expr.relabel, Expr.relabel_keep left, Expr.relabel_keep right]
  | .unary _ _ e | .grouped _ e | .field _ e _ | .after _ e | .before _ e => by
    simp [Expr.relabel, Expr.relabel_keep e]
  | .call _ _ args | .command _ _ args | .element _ _ args => by
    simp [Expr.relabel, relabelAll_keep args]
  | .var .. => by simp [Expr.relabel]
  | .integer .. | .float .. | .string .. | .boolean .. | .null _ | .new .. | .first .. | .last ..
  | .error _ => rfl

@[simp] theorem relabelAll_keep : ∀ es : List Expr, relabelAll .keep es = es
  | [] => rfl
  | e :: rest => by rw [relabelAll, Expr.relabel_keep e, relabelAll_keep rest]

end

@[simp] theorem Expr.relabel_keep_eq : Expr.relabel .keep = id := funext Expr.relabel_keep

@[simp] theorem VarDecl.relabel_keep_eq : VarDecl.relabel .keep = id := by
  funext d
  simp [relabel]

@[simp] theorem ArrayDecl.relabel_keep_eq : ArrayDecl.relabel .keep = id := by
  funext d
  simp [relabel]

@[simp] theorem Param.relabel_keep_eq : Param.relabel .keep = id := by
  funext p
  simp [relabel]

@[simp] theorem FieldDecl.relabel_keep_eq : FieldDecl.relabel .keep = id := by
  funext d
  simp [relabel]

mutual

theorem Stmt.relabel_keep : ∀ s : Stmt, s.relabel .keep = s
  | .if_ _ _ body elseIfs none => by
    simp [Stmt.relabel, relabelStmts_keep body, relabelElseIfs_keep elseIfs]
  | .if_ _ _ body elseIfs (some rest) => by
    simp [Stmt.relabel, relabelStmts_keep body, relabelElseIfs_keep elseIfs, relabelStmts_keep rest]
  | .while_ _ _ body | .repeat_ _ body _ | .for_ _ _ _ _ _ body | .forEach _ _ _ body
  | .function _ _ _ _ body => by simp [Stmt.relabel, relabelStmts_keep body]
  | .select _ _ cases none => by simp [Stmt.relabel, relabelCases_keep cases]
  | .select _ _ cases (some body) => by
    simp [Stmt.relabel, relabelCases_keep cases, relabelStmts_keep body]
  | .assign .. | .declare .. | .dim .. | .const .. | .type .. | .return_ .. | .exit _ | .end_ _
  | .goto .. | .gosub .. | .label .. | .data .. | .read .. | .restore .. | .delete ..
  | .deleteEach .. | .insert .. | .expr .. => by simp [Stmt.relabel]

theorem relabelElseIfs_keep : ∀ branches : List ElseIf, relabelElseIfs .keep branches = branches
  | [] => rfl
  | .mk _ body :: rest => by
    rw [relabelElseIfs, Expr.relabel_keep, relabelStmts_keep body, relabelElseIfs_keep rest]

theorem relabelCases_keep : ∀ clauses : List CaseClause, relabelCases .keep clauses = clauses
  | [] => rfl
  | .mk _ body _ :: rest => by simp [relabelCases, relabelStmts_keep body, relabelCases_keep rest]

theorem relabelStmts_keep : ∀ stmts : List Stmt, relabelStmts .keep stmts = stmts
  | [] => rfl
  | s :: rest => by rw [relabelStmts, Stmt.relabel_keep s, relabelStmts_keep rest]

end

end FrameBasic
