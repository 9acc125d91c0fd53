import FrameBasic.Proofs.Token.Tiling

/-!
# Tokens are read line by line

No lexeme goes on behind a line feed, so a text that is joined from two by a line feed has the
lexemes of both.  Those of the second text stand as many bytes and lines further as the first one
takes, in the columns that they had: a line feed brings the column back to one.

## Main definitions

* `Span.shift`, `Token.shift`, `LexicalError.shift` — the same, so many bytes and lines further.

## Main results

* `tilesFrom_shift` — tiles that are laid out from a later place are the tiles, shifted.
* `after_newline` — behind a line feed, the places are those of the start, shifted.
* `tokens_append_newline` — **a line feed divides the tokens and the errors of a text**.
-/

namespace FrameBasic

/-! ### Shifted places -/

/-- The place so many bytes and lines further, in the same column. -/
def Position.shift (bytes lines : Nat) (p : Position) : Position :=
  ⟨p.offset + bytes, p.line + lines, p.column⟩

/-- The span so many bytes and lines further, in the same column. -/
def Span.shift (bytes lines : Nat) (span : Span) : Span :=
  ⟨span.start + bytes, span.stop + bytes, span.line + lines, span.column⟩

/-- The token so many bytes and lines further. -/
def Token.shift (bytes lines : Nat) (token : Token) : Token :=
  { token with span := token.span.shift bytes lines }

/-- The error so many bytes and lines further. -/
def LexicalError.shift (bytes lines : Nat) (error : LexicalError) : LexicalError :=
  { error with span := error.span.shift bytes lines }

/-- The tile so many bytes and lines further. -/
def Tile.shift (bytes lines : Nat) (t : Tile) : Tile :=
  ⟨t.stretch, t.first.shift bytes lines, t.last.shift bytes lines⟩

section Shift

variable (bytes lines : Nat)

theorem Position.advance_shift (p : Position) (c : Char) :
    (p.shift bytes lines).advance c = (p.advance c).shift bytes lines := by
  by_cases hc : c = '\n'
  · simp only [advance, hc, shift, if_true, Position.mk.injEq, and_true]
    omega
  · simp only [advance, hc, shift, if_false, Position.mk.injEq, and_true]
    omega

theorem Position.after_shift (p : Position) (cs : List Char) :
    (p.shift bytes lines).after cs = (p.after cs).shift bytes lines := by
  induction cs generalizing p with
  | nil => rfl
  | cons c rest ih => rw [after_cons, after_cons, advance_shift, ih]

theorem tilesFrom_shift (place : Position) (stretches : List Stretch) :
    tilesFrom (place.shift bytes lines) stretches =
      (tilesFrom place stretches).map (Tile.shift bytes lines) := by
  induction stretches generalizing place with
  | nil => rfl
  | cons stretch rest ih =>
    simp only [tilesFrom, List.map_cons, Position.after_shift, ih]
    rfl

@[simp] theorem Tile.token?_shift (commands : CommandTable) (t : Tile) :
    (t.shift bytes lines).token? commands = (t.token? commands).map (Token.shift bytes lines) := by
  obtain ⟨stretch, first, last⟩ := t
  cases stretch with
  | stray c => rfl
  | lexeme shape text =>
    simp only [token?, shift, Option.map_map]
    rfl

@[simp] theorem Tile.error?_shift (t : Tile) :
    (t.shift bytes lines).error? = t.error?.map (LexicalError.shift bytes lines) := by
  obtain ⟨stretch, first, last⟩ := t
  cases stretch with
  | stray c => rfl
  | lexeme shape text =>
    simp only [error?, shift]
    split <;> rfl

end Shift

/-! ### Behind a line feed -/

theorem Position.line_after (p : Position) (cs : List Char) :
    (p.after cs).line = p.line + cs.count '\n' := by
  induction cs generalizing p with
  | nil => rfl
  | cons c rest ih =>
    rw [after_cons, ih, List.count_cons]
    by_cases hc : c = '\n'
    · simp only [advance, hc, if_true, beq_self_eq_true]
      omega
    · simp only [advance, hc, if_false, beq_iff_eq, Nat.add_zero]

/-- Where a source ends. -/
theorem Position.after_source (source : String) : ∃ column,
    start.after source.toList = ⟨source.utf8ByteSize, 1 + source.toList.count '\n', column⟩ := by
  refine ⟨(start.after source.toList).column, ?_⟩
  rw [← offset_end, ← show start.line = 1 from rfl, ← line_after]

/-- Behind a line feed, the places are those of the start, shifted: the column is one again. -/
theorem Position.after_newline (source : String) :
    (start.after source.toList).advance '\n' =
      start.shift (source.utf8ByteSize + 1) (1 + source.toList.count '\n') := by
  obtain ⟨column, hplace⟩ := after_source source
  have hsize : '\n'.utf8Size = 1 := by decide
  rw [hplace]
  simp only [advance, if_true, shift, hsize, start, Position.mk.injEq, and_true]
  omega

/-- The tiles of a joined text: those of the first one, the line feed, and those of the second one
behind it. -/
theorem tiles_append_newline (first second : String) :
    let bytes := first.utf8ByteSize + 1
    let lines := 1 + first.toList.count '\n'
    let place := Position.start.after first.toList
    tiles (first ++ "\n" ++ second) =
      tiles first ++ ⟨.lexeme (.mark .newline) ['\n'], place, place.advance '\n'⟩ ::
        (tiles second).map (Tile.shift bytes lines) := by
  intro bytes lines place
  have hjoined : (first ++ "\n" ++ second).toList = first.toList ++ '\n' :: second.toList := by
    simp
  have hplace : Position.start.after ((stretches first.toList).flatMap Stretch.text) = place := by
    rw [flatMap_text_stretches]
  simp only [tiles, hjoined, stretches_append_newline, tilesFrom_append, hplace, tilesFrom,
    Stretch.text, Position.after_cons, Position.after_nil]
  rw [← tilesFrom_shift, ← Position.after_newline]

/-- A text that is joined from two by a line feed has the tokens of the first one but for its end,
the line feed where that end was, and the tokens of the second one behind it; its errors are those
of both texts, those of the second one as much further. -/
theorem tokens_append_newline (commands : CommandTable) (first second : String) :
    let joined := first ++ "\n" ++ second
    let size := first.utf8ByteSize
    let lines := 1 + first.toList.count '\n'
    (∃ body column,
      tokens commands first = body ++ [⟨.eof, "", ⟨size, size, lines, column⟩⟩] ∧
      tokens commands joined =
        body ++ ⟨.newline, "\n", ⟨size, size + 1, lines, column⟩⟩ ::
          (tokens commands second).map (Token.shift (size + 1) lines)) ∧
    lexicalErrors commands joined =
      lexicalErrors commands first ++
        (lexicalErrors commands second).map (LexicalError.shift (size + 1) lines) := by
  intro joined size lines
  have hnewline := Position.after_newline first
  constructor
  · obtain ⟨column, hplace⟩ := Position.after_source first
    refine ⟨(tiles first).filterMap (Tile.token? commands), column, ?_, ?_⟩
    · rw [tokens_eq, hplace]
      rfl
    · -- the end of the joined text is the end of the second one, shifted
      have hend : Position.start.after joined.toList =
          (Position.start.after second.toList).shift (size + 1) lines := by
        have hjoined : joined.toList = first.toList ++ '\n' :: second.toList := by simp [joined]
        rw [hjoined, Position.after_append, Position.after_cons, hnewline, Position.after_shift]
      have hfeed : Tile.token? commands ⟨.lexeme (.mark .newline) ['\n'], ⟨size, lines, column⟩,
          Position.start.shift (size + 1) lines⟩ =
          some ⟨.newline, "\n", ⟨size, size + 1, lines, column⟩⟩ := by
        have hstop : (Position.start.shift (size + 1) lines).offset = size + 1 := Nat.zero_add _
        simp only [Tile.token?, Tile.span, Span.between, hstop]
        rfl
      rw [tokens_eq, tiles_append_newline, hend, hnewline, hplace, List.filterMap_append,
        List.filterMap_cons_some hfeed, tokens_eq, List.map_append, List.append_assoc,
        List.map_filterMap]
      simp only [List.filterMap_map, Function.comp_def, Tile.token?_shift]
      rfl
  · rw [lexicalErrors_eq, tiles_append_newline, lexicalErrors_eq, lexicalErrors_eq,
      List.filterMap_append, List.map_filterMap]
    simp only [List.filterMap_cons, List.filterMap_map, Function.comp_def, Tile.error?_shift]
    rfl

end FrameBasic
