import FrameBasic.Command.Basic
import FrameBasic.Command.Template
import FrameBasic.Dict
import FrameBasic.Text.Blank
import FrameBasic.Token.Keyword

/-!
# Command tables

A table maps command names in small letters to their descriptions.

## Main definitions

* `CommandTable` — a table, with `insert`, `get?` and `contains` in any case of the name.
* `CommandTable.suspendingNames` — the commands that must be awaited, and the frame primitive.
* `TableFault` — an inconsistency of a description, with its wording.
* `CommandTable.faults` — the inconsistencies of a table, by increasing name.
-/

namespace FrameBasic

/-- Command names in small letters and their descriptions. -/
structure CommandTable where
  /-- The entries in the order in which the names first came. -/
  entries : Dict Descriptor
deriving Repr, Inhabited

/-- An inconsistency of a description. -/
inductive TableFault where
  /-- The name is a reserved word, so that no program can call the command. -/
  | shadowed (name : String)
  /-- There is no target. -/
  | emptyTarget (name : String)
  /-- An adjustment names an argument beyond the parameters. -/
  | transformRange (name : String) (index arity : Nat)
  /-- A slot names an argument beyond the parameters. -/
  | slotRange (name : String) (index arity : Nat)
deriving DecidableEq, Repr, Inhabited

/-- The wording of an inconsistency. -/
def TableFault.message : TableFault → String
  | .shadowed name => "command `" ++ name ++ "` is shadowed by a keyword"
  | .emptyTarget name => "command `" ++ name ++ "` has an empty target"
  | .transformRange name index arity =>
    s!"command `{name}` transforms argument {index}, beyond its {arity} parameters"
  | .slotRange name index arity =>
    "command `" ++ name ++ "` template uses placeholder \x7b" ++ toString index ++
      "\x7d, beyond its " ++ toString arity ++ " parameters"

namespace Descriptor

/-- The highest argument positions that the adjustments name. -/
def transformIndices (d : Descriptor) : List Nat :=
  d.transforms.filterMap Transform.maxIndex?

/-- The inconsistencies of a description under a name. -/
def faults (name : String) (d : Descriptor) : List TableFault :=
  let arity := d.params.length
  (if (Keyword.find? name).isSome then [.shadowed name] else []) ++
  (if d.category ≠ .unsupported ∧ Text.trim d.target.toList = [] then [.emptyTarget name]
  else []) ++
  ((d.transformIndices.filter (arity ≤ ·)).map fun index => .transformRange name index arity) ++
  (if d.category = .inline then
    ((Template.slots d.target.toList).filter (arity ≤ ·)).map fun index =>
      .slotRange name index arity
  else [])

end Descriptor

namespace CommandTable

/-- A table with no commands. -/
def empty : CommandTable := ⟨[]⟩

/-- The description of a command, in any case of its name. -/
def get? (table : CommandTable) (name : String) : Option Descriptor :=
  Dict.get? (Text.lower name) table.entries

/-- Whether a name is a command. -/
def contains (table : CommandTable) (name : String) : Bool :=
  (table.get? name).isSome

/-- The table with a description stored under a name in small letters. -/
def insert (table : CommandTable) (name : String) (d : Descriptor) : CommandTable :=
  ⟨Dict.insert (Text.lower name) d table.entries⟩

/-- A table built by storing descriptions one after the other. -/
def ofList (entries : List (String × Descriptor)) : CommandTable :=
  entries.foldl (fun table entry => table.insert entry.1 entry.2) empty

/-- The number of commands. -/
def size (table : CommandTable) : Nat :=
  table.entries.length

/-- The names of the commands that must be awaited, and the frame primitive. -/
def suspendingNames (table : CommandTable) : List String :=
  let names := (table.entries.filter fun entry => entry.2.suspends).map Prod.fst
  if framePrimitive ∈ names then names else names ++ [framePrimitive]

/-- The inconsistencies of every description, by increasing name. -/
def faults (table : CommandTable) : List TableFault :=
  (Dict.sorted table.entries).flatMap fun entry => entry.2.faults entry.1

/-- The description stored last under a name is the one that is found, in any case. -/
theorem get?_insert (table : CommandTable) (name name' : String) (d : Descriptor) :
    (table.insert name d).get? name' =
      if Text.lower name = Text.lower name' then some d else table.get? name' := by
  simp [get?, insert, Dict.get?_insert]

end CommandTable

end FrameBasic
