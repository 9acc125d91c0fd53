import FrameBasic.Decimal.Whole

/-!
# Inline templates

A slot of a template is a number between braces.  Braces around anything else are text.

## Main definitions

* `Template.readSlot` — the slot after an opening brace, with the length of its spelling.
* `Template.fill` — the template with its slots filled from left to right.
* `Template.slots` — the slot numbers, found by cutting the template at its opening braces.
-/

namespace FrameBasic.Template

/-- The number of the slot that a text after an opening brace spells, and how many characters it
takes with the closing brace. -/
def readSlot (cs : List Char) : Option (Nat × Nat) :=
  let inner := cs.takeWhile (· != '\x7d')
  match cs.drop inner.length, Decimal.readWord 10 inner with
  | _ :: _, .ok index => some (index, inner.length + 1)
  | _, _ => none

/-- The template with every slot replaced by what `slot` gives for its number, and every other
character by what `char` gives for it. -/
def fill {α : Type} (char : Char → List α) (slot : Nat → List α) (cs : List Char) : List α :=
  match cs with
  | [] => []
  | c :: rest =>
    if c = '\x7b' then
      match readSlot rest with
      | some (index, n) => slot index ++ fill char slot (rest.drop n)
      | none => char c ++ fill char slot rest
    else char c ++ fill char slot rest
termination_by cs.length
decreasing_by
  all_goals simp; try omega

/-- The slot that the text between two opening braces begins with. -/
def slotOf? (chunk : List Char) : Option Nat :=
  (readSlot chunk).map Prod.fst

/-- The slot numbers of a template: each opening brace is followed by the text up to the next one,
and that text may begin with a slot. -/
def slots : List Char → List Nat
  | [] => []
  | c :: rest =>
    if c = '\x7b' then (slotOf? (rest.takeWhile (· != '\x7b'))).toList ++ slots rest
    else slots rest

end FrameBasic.Template
