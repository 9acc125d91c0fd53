/-!
# Blank characters

The characters of Unicode's `White_Space` property.  They are what may stand before an include
line's first word, around a key code, and what makes a target count as empty.

## Main definitions

* `Text.isBlank c` — `c` has the property.
* `Text.skipBlank`, `Text.trim` — a text without its leading, or its outer, blank characters.
* `Text.isControl c` — the general category `Cc`.
-/

namespace FrameBasic.Text

/-- Unicode's `White_Space` property. -/
def isBlank (c : Char) : Bool :=
  let n := c.toNat
  (0x09 ≤ n && n ≤ 0x0D) || n == 0x20 || n == 0x85 || n == 0xA0 || n == 0x1680
    || (0x2000 ≤ n && n ≤ 0x200A) || n == 0x2028 || n == 0x2029 || n == 0x202F
    || n == 0x205F || n == 0x3000

/-- Unicode's general category `Cc`. -/
def isControl (c : Char) : Bool :=
  c.toNat < 0x20 || (0x7F ≤ c.toNat && c.toNat < 0xA0)

/-- The characters from the first one that is not blank. -/
def skipBlank (cs : List Char) : List Char :=
  cs.dropWhile isBlank

/-- The characters between the first and the last one that are not blank. -/
def trim (cs : List Char) : List Char :=
  (skipBlank (skipBlank cs).reverse).reverse

end FrameBasic.Text
