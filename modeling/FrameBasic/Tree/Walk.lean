import FrameBasic.Tree.Stmt

/-!
# Walking through programs

Analyses look at every statement, or at every expression, in the order of the source.  Only the
statements of a `Default` come behind those of all cases, wherever it is written.

## Main definitions

* `Stmt.ownExprs` — the expressions that belong to a statement and not to its blocks.
* `Stmt.within` — a statement and the statements of its blocks; the bodies of functions are entered
  on request.
* `stmtsWithin`, `exprsWithin` — the statements and the expressions of a list of statements.
-/

namespace FrameBasic

/-- The expressions that belong to a statement and not to its blocks. -/
def Stmt.ownExprs : Stmt → List Expr
  | .assign _ target value => [target, value]
  | .declare _ _ vars => vars.filterMap VarDecl.value
  | .dim _ arrays => arrays.flatMap ArrayDecl.dimensions
  | .const _ _ value => [value]
  | .if_ _ condition _ elseIfs _ => condition :: elseIfs.map ElseIf.condition
  | .while_ _ condition _ => [condition]
  | .repeat_ _ _ condition => condition.toList
  | .for_ _ _ first last step _ => [first, last] ++ step.toList
  | .select _ subject cases _ => subject :: cases.flatMap CaseClause.values
  | .function _ _ _ params _ => params.filterMap Param.default
  | .return_ _ value => value.toList
  | .read _ targets => targets
  | .delete _ object => [object]
  | .insert _ object _ anchor => [object, anchor]
  | .expr _ e => [e]
  | .forEach .. | .type .. | .exit _ | .end_ _ | .goto .. | .gosub .. | .label .. | .data ..
  | .restore .. | .deleteEach .. => []

mutual

/-- A statement and the statements of its blocks, in the order of the source.  The bodies of
functions are entered when `into` is set. -/
def Stmt.within (into : Bool) : Stmt → List Stmt
  | s@(.if_ _ _ thenBranch elseIfs none) =>
    s :: (stmtsWithin into thenBranch ++ elseIfsWithin into elseIfs)
  | s@(.if_ _ _ thenBranch elseIfs (some elseBranch)) =>
    s :: (stmtsWithin into thenBranch ++ elseIfsWithin into elseIfs ++
      stmtsWithin into elseBranch)
  | s@(.while_ _ _ body) => s :: stmtsWithin into body
  | s@(.repeat_ _ body _) => s :: stmtsWithin into body
  | s@(.for_ _ _ _ _ _ body) => s :: stmtsWithin into body
  | s@(.forEach _ _ _ body) => s :: stmtsWithin into body
  | s@(.select _ _ cases none) => s :: casesWithin into cases
  | s@(.select _ _ cases (some default)) =>
    s :: (casesWithin into cases ++ stmtsWithin into default)
  | s@(.function _ _ _ _ body) => s :: if into then stmtsWithin into body else []
  | s => [s]

/-- The statements of the branches. -/
def elseIfsWithin (into : Bool) : List ElseIf → List Stmt
  | [] => []
  | .mk _ body :: rest => stmtsWithin into body ++ elseIfsWithin into rest

/-- The statements of the clauses. -/
def casesWithin (into : Bool) : List CaseClause → List Stmt
  | [] => []
  | .mk _ body _ :: rest => stmtsWithin into body ++ casesWithin into rest

/-- The statements of a list and of their blocks, in the order of the source. -/
def stmtsWithin (into : Bool) : List Stmt → List Stmt
  | [] => []
  | s :: rest => s.within into ++ stmtsWithin into rest

end

/-- The expressions of a list of statements and of their blocks.  The bodies of functions are
entered when `into` is set. -/
def exprsWithin (into : Bool) (stmts : List Stmt) : List Expr :=
  (stmtsWithin into stmts).flatMap fun s => s.ownExprs.flatMap Expr.subterms

@[simp] theorem stmtsWithin_nil (into : Bool) : stmtsWithin into [] = [] := rfl

@[simp] theorem stmtsWithin_cons (into : Bool) (s : Stmt) (rest : List Stmt) :
    stmtsWithin into (s :: rest) = s.within into ++ stmtsWithin into rest := rfl

theorem stmtsWithin_append (into : Bool) (as bs : List Stmt) :
    stmtsWithin into (as ++ bs) = stmtsWithin into as ++ stmtsWithin into bs := by
  induction as with
  | nil => rfl
  | cons s rest ih => simp [ih]

end FrameBasic
