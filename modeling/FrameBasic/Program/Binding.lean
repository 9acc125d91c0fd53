import FrameBasic.Dict
import FrameBasic.Program.Schedule
import FrameBasic.Script.Identifier
import FrameBasic.Script.Literal

/-!
# Bindings

A program need not declare its variables.  The script does: variables of the main program are bound
once for the whole script, and those of a function at its start, each with a first value.

## Main definitions

* `Use` — a name of the script with the first value that a use suggests.
* `addUse` — the bindings with one more use: the first suggestion that is not zero wins.
* `usesIn` — the uses in a list of statements, outside of functions inside them.
* `globalNames` — the names that every function sees as global.
* `scriptBindings` — the variables bound for the whole script.
* `localBindings` — the variables bound at the start of a function.
-/

namespace FrameBasic

open Script (identifier)

/-- A name of the script with the first value that a use suggests. -/
abbrev Use := String × Initial

/-- The bindings with one more use: the first suggestion that is not zero wins. -/
def addUse (bound : Dict Initial) (use : Use) : Dict Initial :=
  match Dict.get? use.1 bound with
  | some known =>
    if known = .zero ∧ use.2 ≠ .zero then Dict.insert use.1 use.2 bound else bound
  | none => Dict.insert use.1 use.2 bound

/-- The names that a statement declares or counts with. -/
def Stmt.uses : Stmt → List Use
  | .for_ _ name _ _ _ _ => [(identifier name, .zero)]
  | .forEach _ name _ _ => [(identifier name, .null)]
  | .declare _ _ vars => vars.map fun v => (identifier v.name, .ofName v.name v.typeName)
  | .dim _ arrays => arrays.map fun a => (identifier a.name, .array)
  | .const _ name _ => [(identifier name, .zero)]
  | _ => []

/-- The names that an expression reads or writes itself. -/
def Expr.uses : Expr → List Use
  | .var i name typeName =>
    let type := if typeName.isSome then .object else (Name.markedType? name).getD i.type
    [(identifier name, .ofType type)]
  | .element _ name _ => [(identifier name, .array)]
  | _ => []

/-- The uses in a list of statements, outside of functions inside them: first those of statements,
then those of expressions. -/
def usesIn (stmts : List Stmt) : List Use :=
  (stmtsWithin false stmts).flatMap Stmt.uses ++ (exprsWithin false stmts).flatMap Expr.uses

/-- The names that a statement declares for the whole script. -/
def Stmt.globalUses : Stmt → List Use
  | .declare s .global vars => (Stmt.declare s .global vars).uses
  | .dim s arrays => (Stmt.dim s arrays).uses
  | _ => []

/-- The names that a statement declares for its function. -/
def Stmt.localUses : Stmt → List Use
  | .declare s .inner vars => (Stmt.declare s .inner vars).uses
  | .const s name value => (Stmt.const s name value).uses
  | _ => []

/-- The names that every function sees as global: those of `Global` and `Dim` anywhere, and the
constants outside of functions. -/
def globalNames (p : Program) : List String :=
  ((stmtsWithin true p.stmts).flatMap Stmt.globalUses).map Prod.fst ++
    ((stmtsWithin false p.stmts).filterMap Stmt.constant?).map fun c => identifier c.name

/-- The variables bound for the whole script, by increasing name: those used outside of functions
and those that functions declare as global, without the constants. -/
def scriptBindings (s : Schedule) : Dict Initial :=
  let outside := s.ordinary.flatMap fun stmt => usesIn [stmt]
  let inside := (stmtsWithin true s.functions).flatMap Stmt.globalUses
  let constants := s.constants.map fun c => identifier c.name
  let used := (outside ++ inside).foldl addUse []
  Dict.sorted (used.filter fun entry => !constants.contains entry.1)

/-- The variables bound at the start of a function, by increasing name: all that its body uses but
the parameters and the globals.  What the body declares hides a global. -/
def localBindings (params globals : List String) (body : List Stmt) : Dict Initial :=
  let declared := ((stmtsWithin false body).flatMap Stmt.localUses).map Prod.fst
  Dict.sorted (((usesIn body).foldl addUse []).filter fun entry =>
    !params.contains entry.1 && (declared.contains entry.1 || !globals.contains entry.1))

end FrameBasic
