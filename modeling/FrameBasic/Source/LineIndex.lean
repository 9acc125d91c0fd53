import FrameBasic.Source.Span

/-!
# The lines of a text

An index holds the byte offsets at which the lines of a text begin.  The line of an offset is found
in it by halving, and the column by counting the characters from the start of that line.

## Main definitions

* `Text.slice?` — some bytes of a text.
* `LineIndex.ofText` — the index of a text.
* `LineIndex.bisect` — how many lines begin up to an offset.
* `LineIndex.position`, `LineIndex.place` — line and column of any byte offset.
-/

namespace FrameBasic

/-- The number of bytes of a text. -/
def Text.byteLength : List Char → Nat
  | [] => 0
  | c :: rest => c.utf8Size + byteLength rest

/-- The next `count` bytes of a text after `skip` bytes.  There are none if a character is cut or the
text ends before. -/
def Text.slice? : List Char → (skip count : Nat) → Option (List Char)
  | _, 0, 0 => some []
  | [], _, _ => none
  | c :: rest, 0, count + 1 =>
    if count + 1 < c.utf8Size then none
    else (slice? rest 0 (count + 1 - c.utf8Size)).map (c :: ·)
  | c :: rest, skip + 1, count =>
    if skip + 1 < c.utf8Size then none else slice? rest (skip + 1 - c.utf8Size) count

/-- The byte offsets at which the lines of a text begin. -/
structure LineIndex where
  /-- The offsets, by increasing line. -/
  starts : Array Nat
deriving Repr, Inhabited

namespace LineIndex

/-- The offsets behind the line feeds of characters that begin at an offset. -/
def startsFrom (offset : Nat) : List Char → List Nat
  | [] => []
  | c :: rest =>
    if c = '\n' then (offset + c.utf8Size) :: startsFrom (offset + c.utf8Size) rest
    else startsFrom (offset + c.utf8Size) rest

/-- The index of a text. -/
def ofText (text : List Char) : LineIndex :=
  ⟨(0 :: startsFrom 0 text).toArray⟩

/-- How many lines begin at an offset or before it, where the answer lies between `low` and
`high`. -/
def bisect (index : LineIndex) (offset low high : Nat) : Nat :=
  if low < high then
    if index.starts[(low + high) / 2]?.getD 0 ≤ offset then
      index.bisect offset ((low + high) / 2 + 1) high
    else index.bisect offset low ((low + high) / 2)
  else low
termination_by high - low

/-- Line and column of a byte offset.  An offset inside of a character or past the end counts as the
first column of its line. -/
def position (index : LineIndex) (text : List Char) (offset : Nat) : Nat × Nat :=
  let line := index.bisect offset 0 index.starts.size
  let start := index.starts[line - 1]?.getD 0
  (line, ((Text.slice? text start (offset - start)).map List.length).getD 0 + 1)

/-- A byte offset with its line and column. -/
def place (index : LineIndex) (text : List Char) (offset : Nat) : Position :=
  let found := index.position text offset
  ⟨offset, found.1, found.2⟩

end LineIndex

/-- Line and column of a byte offset of a text. -/
def locate (text : List Char) (offset : Nat) : Nat × Nat :=
  (LineIndex.ofText text).position text offset

end FrameBasic
