import FrameBasic.Script.Program

/-!
# Notices

Some things are left out of the script: commands that the table does not know or the host does not
support, jumps, and `Exit` without a loop.  Each is noticed when it is met in the order in which the
script is written.

## Main definitions

* `Notice` — what is left out, with its wording `Notice.message`.
* `Script.exprNotices`, `Script.stmtNotices` — the notices of an expression and of a statement.
* `Script.Plan.notices` — the notices of a program.
-/

namespace FrameBasic

/-- What is left out of the script. -/
inductive Notice where
  /-- `Exit` without a loop. -/
  | strayExit (line : Nat)
  /-- `Goto`. -/
  | goto (line : Nat) (label : String)
  /-- `Gosub`. -/
  | gosub (line : Nat) (label : String)
  /-- A command that the table does not know. -/
  | unknownCommand (name : String)
  /-- A command that the host does not support. -/
  | unsupportedCommand (name : String)
deriving DecidableEq, Repr, Inhabited

/-- The wording of a notice. -/
def Notice.message : Notice → String
  | .strayExit line => s!"line {line}: `Exit` outside of a loop ignored"
  | .goto line label => s!"line {line}: `Goto {label}` is not lowered"
  | .gosub line label => s!"line {line}: `Gosub {label}` is not lowered"
  | .unknownCommand name => s!"no descriptor for command `{name}`; call dropped"
  | .unsupportedCommand name =>
    s!"command `{name}` is not supported in this target; call dropped"

namespace Script

/-- The notices of a command, given those of its arguments.  The arguments of an unknown command are
not looked at. -/
def commandNotices (ctx : Context) (name : String) (args : List Notice) : List Notice :=
  match ctx.commands.get? name with
  | none => [.unknownCommand name]
  | some d => args ++ if d.category = .unsupported then [.unsupportedCommand name] else []

mutual

/-- The notices of an expression. -/
def exprNotices (ctx : Context) : Expr → List Notice
  | .binary _ left _ right => exprNotices ctx left ++ exprNotices ctx right
  | .unary _ _ operand => exprNotices ctx operand
  | .grouped _ inner => exprNotices ctx inner
  | .call _ _ args => exprsNotices ctx args
  | .command _ name args => commandNotices ctx name (exprsNotices ctx args)
  | .element _ _ indices => exprsNotices ctx indices
  | .field _ object _ => exprNotices ctx object
  | .after _ object => exprNotices ctx object
  | .before _ object => exprNotices ctx object
  | _ => []

/-- The notices of a list of expressions. -/
def exprsNotices (ctx : Context) : List Expr → List Notice
  | [] => []
  | e :: rest => exprNotices ctx e ++ exprsNotices ctx rest

end

/-- The notices of an expression that may be missing. -/
def optionNotices (ctx : Context) (e : Option Expr) : List Notice :=
  e.toList.flatMap (exprNotices ctx)

/-- The notices of an expression that only functions have. -/
def functionNotices (ctx : Context) (routine : Routine) (e : Option Expr) : List Notice :=
  match routine with
  | .function _ => optionNotices ctx e
  | _ => []

/-- The notices of `Exit`. -/
def exitNotices (routine : Routine) (inLoop : Bool) (line : Nat) : List Notice :=
  if inLoop || routine = .frame then [] else [.strayExit line]

mutual

/-- The notices of a statement; `inLoop` says whether a loop stands around it. -/
def stmtNotices (ctx : Context) (routine : Routine) (inLoop : Bool) : Stmt → List Notice
  | .assign _ target value => exprNotices ctx target ++ exprNotices ctx value
  | .declare _ _ vars => vars.flatMap fun v => optionNotices ctx v.value
  | .dim _ arrays => arrays.flatMap fun a => exprsNotices ctx a.dimensions
  | .const _ _ value => functionNotices ctx routine (some value)
  | .if_ _ condition thenBranch elseIfs none =>
    exprNotices ctx condition ++ blockNotices ctx routine inLoop thenBranch ++
      elseIfsNotices ctx routine inLoop elseIfs
  | .if_ _ condition thenBranch elseIfs (some elseBranch) =>
    exprNotices ctx condition ++ blockNotices ctx routine inLoop thenBranch ++
      elseIfsNotices ctx routine inLoop elseIfs ++ blockNotices ctx routine inLoop elseBranch
  | .while_ _ condition body => exprNotices ctx condition ++ blockNotices ctx routine true body
  | .repeat_ _ body condition => blockNotices ctx routine true body ++ optionNotices ctx condition
  | .for_ _ _ first last step body =>
    exprNotices ctx first ++ exprNotices ctx last ++ optionNotices ctx step ++
      blockNotices ctx routine true body
  | .forEach _ _ _ body => blockNotices ctx routine true body
  | .select _ subject cases none =>
    exprNotices ctx subject ++ casesNotices ctx routine inLoop cases
  | .select _ subject cases (some default) =>
    exprNotices ctx subject ++ casesNotices ctx routine inLoop cases ++
      blockNotices ctx routine inLoop default
  | .return_ _ value => functionNotices ctx routine value
  | .exit span => exitNotices routine inLoop span.line
  | .goto span label => [.goto span.line label]
  | .gosub span label => [.gosub span.line label]
  | .read _ targets => exprsNotices ctx targets
  | .delete _ object => exprNotices ctx object
  | .insert _ object _ anchor => exprNotices ctx object ++ exprNotices ctx anchor
  | .expr _ e => exprNotices ctx e
  | .function .. | .type .. | .end_ _ | .label .. | .data .. | .restore .. | .deleteEach .. => []

/-- The notices of branches. -/
def elseIfsNotices (ctx : Context) (routine : Routine) (inLoop : Bool) : List ElseIf → List Notice
  | [] => []
  | .mk condition body :: rest =>
    exprNotices ctx condition ++ blockNotices ctx routine inLoop body ++
      elseIfsNotices ctx routine inLoop rest

/-- The notices of clauses. -/
def casesNotices (ctx : Context) (routine : Routine) (inLoop : Bool) :
    List CaseClause → List Notice
  | [] => []
  | .mk values body _ :: rest =>
    exprsNotices ctx values ++ blockNotices ctx routine inLoop body ++
      casesNotices ctx routine inLoop rest

/-- The notices of a list of statements. -/
def blockNotices (ctx : Context) (routine : Routine) (inLoop : Bool) : List Stmt → List Notice
  | [] => []
  | s :: rest => stmtNotices ctx routine inLoop s ++ blockNotices ctx routine inLoop rest

end

/-- The notices of a function that is declared at the top level. -/
def declarationNotices (ctx : Context) : Stmt → List Notice
  | .function _ name returns params body =>
    (params.flatMap fun p => optionNotices ctx p.default) ++
      blockNotices ctx (.function (.ofName name returns)) false body
  | _ => []

/-- The notices of the main loop. -/
def loopNotices (ctx : Context) : Stmt → List Notice
  | .while_ _ condition body => exprNotices ctx condition ++ blockNotices ctx .frame false body
  | .repeat_ _ body condition => blockNotices ctx .frame false body ++ optionNotices ctx condition
  | _ => []

/-- The notices of a program, in the order in which its script is written. -/
def Plan.notices (plan : Plan) : List Notice :=
  let ctx := plan.context
  let parts := plan.schedule
  let fixed := parts.constants.filter fun c => !plan.isPostponed c
  let later := parts.constants.filter plan.isPostponed
  (fixed.flatMap fun c => exprNotices ctx c.value) ++
    parts.functions.flatMap (declarationNotices ctx) ++
    (later.flatMap fun c => exprNotices ctx c.value) ++
    blockNotices ctx .once false parts.init ++
    parts.mainLoop.toList.flatMap (loopNotices ctx) ++
    blockNotices ctx .once false parts.shutdown

end Script

end FrameBasic
