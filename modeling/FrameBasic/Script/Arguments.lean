import FrameBasic.Command.Basic
import FrameBasic.Command.Template
import FrameBasic.Decimal.Whole
import FrameBasic.Script.Fragment
import FrameBasic.Text.Blank

/-!
# Arguments of commands

The arguments of a command are adjusted one rule after the other before they are written down.

## Main definitions

* `Script.hostCode` — the host's code of a device for an argument.
* `Script.truth` — a numeric flag as a truth value.
* `Transform.apply`, `Descriptor.arguments` — the adjusted arguments.
* `Descriptor.filled` — the template of a command with its slots filled.
-/

namespace FrameBasic

/-- The host's function that takes a code of a device to its own. -/
def Device.hostFunction : Device → String
  | .keyboard => "$input.keyCode"
  | .mouse => "$input.mouseButton"

/-- The host's code for a known code of a device. -/
def Device.known? (device : Device) (code : Int) : Option String :=
  match device with
  | .keyboard => (keyName? code).map fun key => "\"" ++ key ++ "\""
  | .mouse => (mouseButton? code).map toString

namespace Script

/-- The missing value. -/
def missing : Fragment := plain "undefined"

/-- The host's code of a device for an argument.  A literal code is looked up; what is no literal or
not known is left to the host. -/
def hostCode (device : Device) (arg : Fragment) : Fragment :=
  let call (inner : Fragment) : Fragment :=
    plain (device.hostFunction ++ "(") ++ inner ++ plain ")"
  match Decimal.readInteger (Text.trim arg.render.toList) with
  | .ok code =>
    match device.known? code with
    | some s => plain s
    | none => call (plain (toString code))
  | .error _ => call arg

/-- A numeric flag as a truth value. -/
def truth (arg : Fragment) : Fragment :=
  let s := arg.render
  if s = "0" ∨ s = "false" then plain "false"
  else if s = "1" ∨ s = "true" then plain "true"
  else plain "!!(" ++ arg ++ plain ")"

end Script

open Script

/-- The arguments with one adjustment applied. -/
def Transform.apply (args : List Fragment) : Transform → List Fragment
  | .default index value =>
    let padded := args ++ List.replicate (index - args.length) missing
    if padded.length = index then padded ++ [plain value] else padded
  | .reorder order => order.filterMap fun i => args[i]?
  | .flag index => args.modify index truth
  | .code index device => args.modify index (hostCode device)

/-- The arguments with all adjustments applied, one after the other. -/
def Descriptor.arguments (d : Descriptor) (args : List Fragment) : List Fragment :=
  d.transforms.foldl Transform.apply args

/-- The template of a command with its slots filled by the arguments. -/
def Descriptor.filled (d : Descriptor) (args : List Fragment) : Fragment :=
  Template.fill (fun c => plain (String.singleton c)) (fun i => (args[i]?).getD missing)
    d.target.toList

end FrameBasic
