import FrameBasic.Command.Basic
import FrameBasic.Program.CallGraph

/-!
# The schedule of a program

A program runs in three parts: what stands before its main loop runs once, one round of the main
loop runs in every frame, and what stands after it runs at the end.  The main loop is the first loop
at the top level that presents a frame.

## Main definitions

* `presentsFrame` — whether statements present a frame, themselves or through a function.
* `Schedule` — the parts of a program; `Schedule.add` puts a statement into its part.
* `Schedule.ofProgram` — the parts of a program, given the functions that present a frame.
-/

namespace FrameBasic

/-- Whether a callee presents a frame. -/
def Callee.presentsFrame (frameFunctions : List String) : Callee → Bool
  | .command name => name = framePrimitive
  | .function name => frameFunctions.contains name

/-- Whether statements present a frame, themselves or through one of the functions. -/
def presentsFrame (frameFunctions : List String) (stmts : List Stmt) : Bool :=
  (callees stmts).any (Callee.presentsFrame frameFunctions)

/-- Whether a statement is a loop that presents a frame. -/
def Stmt.isFrameLoop (frameFunctions : List String) : Stmt → Bool
  | .while_ _ _ body => presentsFrame frameFunctions body
  | .repeat_ _ body _ => presentsFrame frameFunctions body
  | _ => false

/-- A constant with its value. -/
structure Constant where
  /-- The name as it is spelled. -/
  name : String
  /-- The value. -/
  value : Expr
deriving Inhabited

/-- The constant that a statement declares. -/
def Stmt.constant? : Stmt → Option Constant
  | .const _ name value => some ⟨name, value⟩
  | _ => none

/-- The parts of a program. -/
structure Schedule where
  /-- The user types. -/
  types : List Stmt := []
  /-- The functions. -/
  functions : List Stmt := []
  /-- The constants outside of functions, at any depth. -/
  constants : List Constant
  /-- What runs once before the main loop. -/
  init : List Stmt := []
  /-- The main loop. -/
  mainLoop : Option Stmt := none
  /-- What runs after the main loop. -/
  shutdown : List Stmt := []
deriving Inhabited

namespace Schedule

/-- Puts a statement of the top level into its part.  Behind the main loop, other loops are ordinary
statements. -/
def add (frameFunctions : List String) (parts : Schedule) (s : Stmt) : Schedule :=
  if s.isType then { parts with types := parts.types ++ [s] }
  else if s.isFunction then { parts with functions := parts.functions ++ [s] }
  else if parts.mainLoop.isSome then { parts with shutdown := parts.shutdown ++ [s] }
  else if s.isFrameLoop frameFunctions then { parts with mainLoop := some s }
  else { parts with init := parts.init ++ [s] }

/-- The parts of a program, given the functions that present a frame. -/
def ofProgram (frameFunctions : List String) (p : Program) : Schedule :=
  p.stmts.foldl (add frameFunctions)
    { constants := (stmtsWithin false p.stmts).filterMap Stmt.constant? }

/-- What stands at the top level besides types and functions. -/
def ordinary (s : Schedule) : List Stmt :=
  s.init ++ s.mainLoop.toList ++ s.shutdown

end Schedule

end FrameBasic
