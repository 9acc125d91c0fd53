/-!
# Places in a source text

Offsets count bytes of the text's UTF-8 encoding.  Lines and columns start at one, and a column
counts characters.

## Main definitions

* `Position` — an offset with its line and column.
* `Span` — a stretch of the text with the line and column of its start.
* `Span.merge` — the stretch from the first of two spans to the last.
-/

namespace FrameBasic

/-- A place between two characters. -/
structure Position where
  /-- Bytes before the place. -/
  offset : Nat
  /-- The line, from one. -/
  line : Nat
  /-- The column, from one. -/
  column : Nat
deriving DecidableEq, Repr, Inhabited

/-- A stretch of the text, with the line and column of its start.  All four numbers are zero where
no place is known. -/
structure Span where
  /-- The offset of the first byte. -/
  start : Nat
  /-- The offset after the last byte. -/
  stop : Nat
  /-- The line of the start. -/
  line : Nat
  /-- The column of the start. -/
  column : Nat
deriving DecidableEq, Repr

namespace Span

/-- No place is known. -/
def unknown : Span := ⟨0, 0, 0, 0⟩

instance : Inhabited Span := ⟨unknown⟩

/-- The stretch between two places. -/
def between (first last : Position) : Span :=
  ⟨first.offset, last.offset, first.line, first.column⟩

/-- The stretch that covers both spans.  The line and column are those of the earlier start. -/
def merge (a b : Span) : Span :=
  let first := if b.start < a.start then b else a
  ⟨min a.start b.start, max a.stop b.stop, first.line, first.column⟩

end Span

end FrameBasic
