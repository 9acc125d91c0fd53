import FrameBasic.Dict
import FrameBasic.Tree.Walk

/-!
# The data pool

All values of `Data` statements form one pool in the order in which a walk meets them, whatever
blocks and functions they stand in.  A label stands for the number of values before it.

## Main definitions

* `DataPool` — the values, and the labels with their offsets.
* `DataPool.ofProgram` — the pool of a program.
* `DataPool.offset` — where reading goes on after `Restore`.
-/

namespace FrameBasic

/-- The values and the labels with their offsets. -/
structure DataPool where
  /-- The values in the order of the walk. -/
  values : List DataValue
  /-- The labels in small letters with the number of values before them; the first one of a name
  counts. -/
  labels : List (String × Nat)
deriving DecidableEq, Repr, Inhabited

/-- The values of a statement. -/
def Stmt.dataValues : Stmt → List DataValue
  | .data _ values => values
  | _ => []

namespace DataPool

/-- The labels of the statements, when `count` values stand before them. -/
def labelsFrom (count : Nat) : List Stmt → List (String × Nat)
  | [] => []
  | .label _ name :: rest => (Text.lower name, count) :: labelsFrom count rest
  | s :: rest => labelsFrom (count + s.dataValues.length) rest

/-- The pool of a program, bodies of functions included. -/
def ofProgram (p : Program) : DataPool :=
  let stmts := stmtsWithin true p.stmts
  ⟨stmts.flatMap Stmt.dataValues, labelsFrom 0 stmts⟩

/-- Where reading goes on after `Restore`.  Without a label, or with one that is not declared, it
starts over. -/
def offset (pool : DataPool) (label : Option String) : Nat :=
  (label.bind fun name => Dict.get? (Text.lower name) pool.labels).getD 0

end DataPool

end FrameBasic
