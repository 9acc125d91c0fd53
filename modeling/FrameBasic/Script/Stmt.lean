import FrameBasic.Script.Code
import FrameBasic.Script.Expr

/-!
# Statements in the script

Loops are numbered in the order of the source within one routine.  The number of a loop is the
number of loops that begin before it, so no counter has to be carried along.

## Main definitions

* `Script.Routine` — where a statement runs, which decides what `Return` and `Exit` do.
* `Script.loopCount` — the number of loops in a statement.
* `Script.isNegative?` — the sign of a step that is known beforehand.
* `Script.stmtCode`, `Script.blockCode` — statements in the script.
-/

namespace FrameBasic.Script

/-- Where a statement runs. -/
inductive Routine where
  /-- Before the main loop or after it. -/
  | once
  /-- In the main loop. -/
  | frame
  /-- In a function, with the value of a `Return` without one. -/
  | function (result : Initial)
deriving DecidableEq, Repr, Inhabited

mutual

/-- The number of loops in a statement; functions inside it are routines of their own. -/
def loopCount : Stmt → Nat
  | .if_ _ _ thenBranch elseIfs none => loopCountAll thenBranch + loopCountElseIfs elseIfs
  | .if_ _ _ thenBranch elseIfs (some elseBranch) =>
    loopCountAll thenBranch + loopCountElseIfs elseIfs + loopCountAll elseBranch
  | .while_ _ _ body => 1 + loopCountAll body
  | .repeat_ _ body _ => 1 + loopCountAll body
  | .for_ _ _ _ _ _ body => 1 + loopCountAll body
  | .forEach _ _ _ body => 1 + loopCountAll body
  | .select _ _ cases none => loopCountCases cases
  | .select _ _ cases (some default) => loopCountCases cases + loopCountAll default
  | _ => 0

/-- The number of loops in branches. -/
def loopCountElseIfs : List ElseIf → Nat
  | [] => 0
  | .mk _ body :: rest => loopCountAll body + loopCountElseIfs rest

/-- The number of loops in clauses. -/
def loopCountCases : List CaseClause → Nat
  | [] => 0
  | .mk _ body _ :: rest => loopCountAll body + loopCountCases rest

/-- The number of loops in a list of statements. -/
def loopCountAll : List Stmt → Nat
  | [] => 0
  | s :: rest => loopCount s + loopCountAll rest

end

/-- Whether a step is negative, when its sign is known beforehand. -/
def isNegative? : Expr → Option Bool
  | .integer _ n => some (n < 0)
  | .float _ x => some x.isBelowZero
  | .grouped _ inner => isNegative? inner
  | .unary _ .negate operand => (isNegative? operand).map not
  | .unary _ .plus operand => isNegative? operand
  | _ => none

/-- An assignment. -/
def assignCode (target value : Fragment) : Fragment :=
  target ++ plain " = " ++ value ++ plain ";"

/-- The end of a block. -/
def closing : Fragment := plain "\x7d"

/-- The end of the program's main loop. -/
def stopCode : Fragment :=
  plain "\x7b " ++ .await :: plain "$shutdown(); return; \x7d"

/-- The first value of a name of a `Local` list, or what it is declared with.  A name of a `Global`
list without a value keeps the one it has. -/
def varCode (ctx : Context) (scope : DeclScope) (v : VarDecl) : List Code :=
  let target : Fragment := [.name (identifier v.name)]
  match v.value, scope with
  | some value, _ => [.line (assignCode target (exprCode ctx value))]
  | none, .global => []
  | none, .inner =>
    [.line (assignCode target (plain (Initial.ofName v.name v.typeName).spelling))]

/-- An array.  The highest index is part of it. -/
def arrayCode (ctx : Context) (a : ArrayDecl) : Code :=
  let sizes := a.dimensions.map fun d => exprCode ctx d ++ plain " + 1"
  .line (.name (identifier a.name) :: plain " = $dim([" ++ commas sizes ++
    plain ("], " ++ (Initial.ofName a.name a.typeName).spelling ++ ");"))

/-- The head of a loop over numbers, and the line that binds its step if its sign is not known. -/
def forHead (ctx : Context) (number : Nat) (name : String) (first last : Expr)
    (step : Option Expr) : List Code × Fragment :=
  let v : Piece := .name (identifier name)
  let start := plain "for (" ++ v :: plain " = " ++ exprCode ctx first ++ plain "; "
  let atMost := v :: plain " <= " ++ exprCode ctx last
  let atLeast := v :: plain " >= " ++ exprCode ctx last
  match step with
  | none => ([], start ++ atMost ++ plain "; " ++ v :: plain "++)")
  | some step =>
    match isNegative? step with
    | some negative =>
      let test := if negative then atLeast else atMost
      ([], start ++ test ++ plain "; " ++ v :: plain " += " ++ exprCode ctx step ++ plain ")")
    | none =>
      let s := stepName number
      ([.step number (exprCode ctx step)],
        start ++ plain (s ++ " >= 0 ? ") ++ atMost ++ plain " : " ++ atLeast ++ plain "; " ++
          v :: plain (" += " ++ s ++ ")"))

/-- `Return` in a routine. -/
def returnCode (ctx : Context) (routine : Routine) (value : Option Expr) : Fragment :=
  match routine, value with
  | .function _, some value => plain "return " ++ exprCode ctx value ++ plain ";"
  | .function result, none => plain ("return " ++ result.spelling ++ ";")
  | _, _ => plain "return;"

/-- `Exit` in a routine, with the number of the loop around it. -/
def exitCode (routine : Routine) (enclosing : Option Nat) : Code :=
  match enclosing, routine with
  | some number, _ => .leave number
  | none, .frame => .line stopCode
  | none, _ => .line (plain "// Exit outside of a loop")

/-- A command or a call that is a statement. -/
def callStmtCode (ctx : Context) : Expr → List Code
  | .command _ name args =>
    match commandCode ctx name (exprCodes ctx args) with
    | some code =>
      let code := code ++ plain ";"
      [.line (if ctx.commandSuspends name then .await :: code else code)]
    | none => []
  | .call _ name args => [.line (callCode ctx name (exprCodes ctx args) ++ plain ";")]
  | .error _ => []
  | e => [.line (exprCode ctx e ++ plain ";")]

mutual

/-- A statement in the script.  `number` is the number of the first loop in it, and `enclosing` the
number of the loop around it. -/
def stmtCode (ctx : Context) (routine : Routine) (enclosing : Option Nat) (number : Nat) :
    Stmt → List Code
  | .assign _ target value => [.line (assignCode (exprCode ctx target) (exprCode ctx value))]
  | .declare _ scope vars => vars.flatMap (varCode ctx scope)
  | .dim _ arrays => arrays.map (arrayCode ctx)
  | .const _ name value =>
    match routine with
    | .function _ => [.line (assignCode [.name (identifier name)] (exprCode ctx value))]
    | _ => []
  | .if_ _ condition thenBranch elseIfs none =>
    .line (plain "if (" ++ exprCode ctx condition ++ plain ") \x7b") ::
      .nest (blockCode ctx routine enclosing number thenBranch) ::
      elseIfsCode ctx routine enclosing (number + loopCountAll thenBranch) elseIfs ++
      [.line closing]
  | .if_ _ condition thenBranch elseIfs (some elseBranch) =>
    .line (plain "if (" ++ exprCode ctx condition ++ plain ") \x7b") ::
      .nest (blockCode ctx routine enclosing number thenBranch) ::
      elseIfsCode ctx routine enclosing (number + loopCountAll thenBranch) elseIfs ++
      [ .line (plain "\x7d else \x7b"),
        .nest (blockCode ctx routine enclosing
          (number + loopCountAll thenBranch + loopCountElseIfs elseIfs) elseBranch),
        .line closing ]
  | .while_ _ condition body =>
    [.loop number (plain "while (" ++ exprCode ctx condition ++ plain ")")
      (blockCode ctx routine (some number) (number + 1) body) closing]
  | .repeat_ _ body (some condition) =>
    [.loop number (plain "do") (blockCode ctx routine (some number) (number + 1) body)
      (plain "\x7d while (!(" ++ exprCode ctx condition ++ plain "));")]
  | .repeat_ _ body none =>
    [.loop number (plain "for (;;)")
      (blockCode ctx routine (some number) (number + 1) body) closing]
  | .for_ _ name first last step body =>
    let head := forHead ctx number name first last step
    head.1 ++
      [.loop number head.2 (blockCode ctx routine (some number) (number + 1) body) closing]
  | .forEach _ name typeName body =>
    [.loop number (plain "for (" ++ .name (identifier name) ::
        plain (" of [..." ++ className typeName ++ ".$all])"))
      (blockCode ctx routine (some number) (number + 1) body) closing]
  | .select _ subject cases none =>
    [ .line (plain "switch (" ++ exprCode ctx subject ++ plain ") \x7b"),
      .nest (casesCode ctx routine enclosing number cases),
      .line closing ]
  | .select _ subject cases (some default) =>
    [ .line (plain "switch (" ++ exprCode ctx subject ++ plain ") \x7b"),
      .nest (casesCode ctx routine enclosing number cases ++
        [ .line (plain "default: \x7b"),
          .nest (blockCode ctx routine enclosing (number + loopCountCases cases) default),
          .line closing ]),
      .line closing ]
  | .function .. => []
  | .type .. => []
  | .return_ _ value => [.line (returnCode ctx routine value)]
  | .exit _ => [exitCode routine enclosing]
  | .end_ _ => [.line (plain "$end();")]
  | .goto _ label => [.line (plain ("// Goto " ++ label ++ " (not supported)"))]
  | .gosub _ label => [.line (plain ("// Gosub " ++ label ++ " (not supported)"))]
  | .label _ name => [.line (plain ("// ." ++ name))]
  | .data .. => []
  | .read _ targets =>
    targets.map fun target => .line (assignCode (exprCode ctx target) (plain "$read()"))
  | .restore _ label =>
    [.line (plain ("$dataPtr = " ++ toString (ctx.pool.offset label) ++ ";"))]
  | .delete _ object =>
    [.line (plain "$delete(" ++ exprCode ctx object ++ plain ");")]
  | .deleteEach _ typeName =>
    [.line (plain ("$deleteEach(" ++ className typeName ++ ");"))]
  | .insert _ object side anchor =>
    let after := if side = .after then "true" else "false"
    [.line (plain "$insert(" ++ exprCode ctx object ++ plain ", " ++
      exprCode ctx anchor ++ plain (", " ++ after ++ ");"))]
  | .expr _ e => callStmtCode ctx e

/-- The branches after the first one. -/
def elseIfsCode (ctx : Context) (routine : Routine) (enclosing : Option Nat) (number : Nat) :
    List ElseIf → List Code
  | [] => []
  | .mk condition body :: rest =>
    .line (plain "\x7d else if (" ++ exprCode ctx condition ++ plain ") \x7b") ::
      .nest (blockCode ctx routine enclosing number body) ::
      elseIfsCode ctx routine enclosing (number + loopCountAll body) rest

/-- The clauses of `Select`. -/
def casesCode (ctx : Context) (routine : Routine) (enclosing : Option Nat) (number : Nat) :
    List CaseClause → List Code
  | [] => []
  | .mk values body _ :: rest =>
    (values.map fun value =>
      .line (plain "case " ++ exprCode ctx value ++ plain ":")) ++
      .line (plain "\x7b") ::
      .nest (blockCode ctx routine enclosing number body) ::
      .line closing ::
      .nest [.line (plain "break;")] ::
      casesCode ctx routine enclosing (number + loopCountAll body) rest

/-- A list of statements in the script. -/
def blockCode (ctx : Context) (routine : Routine) (enclosing : Option Nat) (number : Nat) :
    List Stmt → List Code
  | [] => []
  | s :: rest =>
    stmtCode ctx routine enclosing number s ++
      blockCode ctx routine enclosing (number + loopCount s) rest

end

end FrameBasic.Script
