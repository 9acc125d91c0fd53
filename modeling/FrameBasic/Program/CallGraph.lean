import FrameBasic.Dict
import FrameBasic.Tree.Walk

/-!
# The call graph

A function must be awaited when it calls a command that suspends, or a function that must be
awaited.  The functions that reach one of a set of commands are found pass by pass: a pass marks
every function that calls one of the commands or a function marked before, and the first pass that
marks nothing ends the search.

## Main definitions

* `Callee` — a command or a function that a body calls.
* `CallGraph` — what the functions of a program call.
* `CallGraph.ofProgram` — the graph of a program.
* `CallGraph.reach` — the functions that reach one of the commands, and the number of passes.
-/

namespace FrameBasic

/-- What a body calls. -/
inductive Callee where
  /-- A command, by its name in small letters. -/
  | command (name : String)
  /-- A function, by its folded name. -/
  | function (name : String)
deriving DecidableEq, Repr, Inhabited

/-- The call that an expression makes itself. -/
def Expr.callee? : Expr → Option Callee
  | .command _ name _ => some (.command (Text.lower name))
  | .call _ name _ => some (.function (Name.fold name))
  | _ => none

/-- What the statements call, outside of functions inside them. -/
def callees (stmts : List Stmt) : List Callee :=
  (exprsWithin false stmts).filterMap Expr.callee?

/-- The folded names of functions, and what they call. -/
structure CallGraph where
  /-- The calls of each function. -/
  calls : Dict (List Callee)
deriving DecidableEq, Repr, Inhabited

/-- What was marked. -/
structure Reach where
  /-- The folded names of the marked functions. -/
  marked : List String
  /-- The number of passes that marked a function. -/
  passes : Nat
deriving DecidableEq, Repr, Inhabited

namespace CallGraph

/-- The graph with the calls of one more function.  Functions of one name share their calls. -/
def add (graph : CallGraph) (name : String) (found : List Callee) : CallGraph :=
  let known := (Dict.get? name graph.calls).getD []
  ⟨Dict.insert name (known ++ found) graph.calls⟩

/-- The graph with one more statement, if it declares a function. -/
def addStmt (graph : CallGraph) : Stmt → CallGraph
  | .function _ name _ _ body => graph.add (Name.fold name) (callees body)
  | _ => graph

/-- The graph of the functions at the top level of a program. -/
def ofProgram (p : Program) : CallGraph :=
  p.functions.foldl addStmt ⟨[]⟩

/-- The number of functions. -/
def size (graph : CallGraph) : Nat :=
  graph.calls.length

/-- Whether one of the calls is a call of the commands or of a marked function. -/
def touches (seeds marked : List String) (found : List Callee) : Bool :=
  found.any fun callee =>
    match callee with
    | .command name => seeds.contains name
    | .function name => marked.contains name

/-- The functions that a pass marks. -/
def pass (graph : CallGraph) (seeds marked : List String) : List String :=
  (graph.calls.filter fun entry =>
    !marked.contains entry.1 && touches seeds marked entry.2).map Prod.fst

/-- The marks after at most `bound` more passes. -/
def spread (graph : CallGraph) (seeds : List String) : Nat → Reach → Reach
  | 0, reach => reach
  | bound + 1, reach =>
    match graph.pass seeds reach.marked with
    | [] => reach
    | found => graph.spread seeds bound ⟨reach.marked ++ found, reach.passes + 1⟩

/-- The functions that reach one of the commands.  A pass marks at least one function, so there are
at most as many passes as functions. -/
def reach (graph : CallGraph) (seeds : List String) : Reach :=
  graph.spread seeds graph.size ⟨[], 0⟩

end CallGraph

end FrameBasic
