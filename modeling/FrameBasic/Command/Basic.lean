import FrameBasic.Command.Device
import FrameBasic.Value

/-!
# Builtin commands

A command is described by data: where it lives in the host, which arguments it expects, how they are
adjusted, and whether calling it suspends the program.  Nothing else knows what a command does.

## Main definitions

* `Transform` — one adjustment of an argument list.
* `Category` — how a command appears in the script.
* `Descriptor` — the description of a command.
* `framePrimitive` — the command that presents a frame.
-/

namespace FrameBasic

/-- One adjustment of the list of lowered arguments. -/
inductive Transform where
  /-- Supplies a value when the argument at `index` is missing. -/
  | default (index : Nat) (value : String)
  /-- Takes the arguments at the listed positions. -/
  | reorder (order : List Nat)
  /-- Turns a numeric flag into a truth value. -/
  | flag (index : Nat)
  /-- Gives the host's code for a code of a device. -/
  | code (index : Nat) (device : Device)
deriving DecidableEq, Repr, Inhabited

/-- The highest argument position that an adjustment names. -/
def Transform.maxIndex? : Transform → Option Nat
  | .default index _ => some index
  | .reorder order => order.max?
  | .flag index => some index
  | .code index _ => some index

/-- How a command appears in the script. -/
inductive Category where
  /-- The call of a host method. -/
  | call
  /-- A template with numbered slots. -/
  | inline
  /-- The reading of a host property. -/
  | property
  /-- Nothing. -/
  | unsupported
deriving DecidableEq, Repr, Inhabited

/-- The description of a command. -/
structure Descriptor where
  /-- How the command appears. -/
  category : Category
  /-- The path in the host, or the template. -/
  target : String := ""
  /-- The types of the parameters. -/
  params : List ValueType := []
  /-- The type of the result. -/
  returns : ValueType := .unknown
  /-- The adjustments of the arguments, in the order in which they apply. -/
  transforms : List Transform := []
  /-- Whether a call must be awaited. -/
  suspends : Bool := false
deriving DecidableEq, Repr, Inhabited

/-- The command that presents a frame. -/
def framePrimitive : String := "flip"

end FrameBasic
