import FrameBasic.Source.LineIndex
import FrameBasic.Source.Span
import Mathlib.Data.List.Induction
import Mathlib.Data.Prod.Lex
import Mathlib.Data.String.Basic

/-!
# Lines and columns

The line and the column of a place count the line feeds before it and the characters behind the last
of them, so each step of a walk over the characters leads to a later line or to a later column of the
same line.  The index of a text finds the same place without a walk: halving leaves the starts of the
lines up to the place on one side, and the last of them is the start of its line.

## Main results

* `Position.after_start` — what lines and columns count.
* `Position.lt_after` — a later place has a later line, or the same line and a later column.
* `LineIndex.bisect_eq` — halving finds where the starts up to an offset end.
* `LineIndex.position_append` — the index finds the place to which a walk leads.
* `LineIndex.position_place` — **lines and columns count line feeds and characters, in the order of
  the text**.
-/

namespace FrameBasic

open String (utf8Len)

namespace Position

/-! ### Walking over characters -/

/-- The start of a text. -/
def start : Position := ⟨0, 1, 1⟩

/-- The place after one more character. -/
def advance (p : Position) (c : Char) : Position :=
  if c = '\n' then ⟨p.offset + c.utf8Size, p.line + 1, 1⟩
  else ⟨p.offset + c.utf8Size, p.line, p.column + 1⟩

/-- The place after more characters. -/
def after (p : Position) (cs : List Char) : Position :=
  cs.foldl advance p

@[simp] theorem after_nil (p : Position) : p.after [] = p := rfl

@[simp] theorem after_cons (p : Position) (c : Char) (cs : List Char) :
    p.after (c :: cs) = (p.advance c).after cs := rfl

theorem after_append (p : Position) (as bs : List Char) :
    p.after (as ++ bs) = (p.after as).after bs := by
  simp [after]

/-- Line and column, with the lines compared first. -/
def place (p : Position) : Nat ×ₗ Nat :=
  toLex (p.line, p.column)

/-- A place knows the bytes before it, the line feeds among its characters and the characters behind
the last line feed. -/
theorem after_start (cs : List Char) :
    start.after cs =
      ⟨utf8Len cs, 1 + cs.count '\n', 1 + (cs.reverse.takeWhile (· ≠ '\n')).length⟩ := by
  -- what is behind the last line feed grows at the end of the text
  induction cs using List.reverseRecOn with
  | nil => rfl
  | append_singleton cs c ih =>
    rw [after_append, ih, after_cons, after_nil]
    unfold advance
    split
    · next hc => simp [hc, Nat.add_assoc]
    · next hc => simp [hc, Nat.add_assoc]

theorem lt_advance (p : Position) (c : Char) : p.place < (p.advance c).place := by
  unfold place advance
  split
  · exact Prod.Lex.toLex_lt_toLex.mpr (.inl (Nat.lt_succ_self _))
  · exact Prod.Lex.toLex_lt_toLex.mpr (.inr ⟨rfl, Nat.lt_succ_self _⟩)

/-- A later place has a later line, or the same line and a later column. -/
theorem lt_after (p : Position) {cs : List Char} (h : cs ≠ []) : p.place < (p.after cs).place := by
  induction cs generalizing p with
  | nil => exact absurd rfl h
  | cons c rest ih =>
    cases rest with
    | nil => exact p.lt_advance c
    | cons d rest => exact (p.lt_advance c).trans (ih (p.advance c) (List.cons_ne_nil d rest))

end Position

/-! ### The index of lines -/

theorem Text.byteLength_eq (cs : List Char) : byteLength cs = utf8Len cs := by
  induction cs with
  | nil => rfl
  | cons c rest ih =>
    rw [byteLength, ih, String.utf8Len_cons, Nat.add_comm]

/-- The bytes of a character and others, less those of the character. -/
theorem exists_utf8Len_cons (c : Char) (cs : List Char) :
    ∃ n, utf8Len (c :: cs) = n + 1 ∧ ¬ n + 1 < c.utf8Size ∧ n + 1 - c.utf8Size = utf8Len cs := by
  have hsize := c.utf8Size_pos
  exact ⟨utf8Len cs + c.utf8Size - 1, by rw [String.utf8Len_cons]; omega, by omega, by omega⟩

/-- The bytes of some characters are cut out. -/
theorem Text.slice?_append (before inside after : List Char) :
    slice? (before ++ inside ++ after) (utf8Len before) (utf8Len inside) = some inside := by
  induction before with
  | nil =>
    induction inside with
    | nil => simp [slice?]
    | cons c rest ih =>
      obtain ⟨n, hlength, hwhole, hrest⟩ := exists_utf8Len_cons c rest
      rw [List.nil_append] at ih ⊢
      rw [hlength, List.cons_append, String.utf8Len_nil, slice?, if_neg hwhole, hrest]
      exact congrArg (Option.map (c :: ·)) ih
  | cons c rest ih =>
    obtain ⟨n, hlength, hwhole, hrest⟩ := exists_utf8Len_cons c rest
    rw [hlength, List.cons_append, List.cons_append, slice?, if_neg hwhole, hrest, ih]

namespace LineIndex

variable {index : LineIndex} {offset : Nat} {front back : List Nat}

theorem startsFrom_append (offset : Nat) (before after : List Char) :
    startsFrom offset (before ++ after) =
      startsFrom offset before ++ startsFrom (offset + utf8Len before) after := by
  induction before generalizing offset with
  | nil => rfl
  | cons c rest ih =>
    have hoffset : offset + c.utf8Size + utf8Len rest = offset + utf8Len (c :: rest) := by
      rw [String.utf8Len_cons]
      omega
    simp only [List.cons_append, startsFrom, ih, hoffset]
    split <;> rfl

/-- The lines that begin in some characters begin behind the first and not behind the last of them. -/
theorem mem_startsFrom {start : Nat} {cs : List Char} (h : start ∈ startsFrom offset cs) :
    offset < start ∧ start ≤ offset + utf8Len cs := by
  induction cs generalizing offset with
  | nil => cases h
  | cons c rest ih =>
    have hsize := c.utf8Size_pos
    rw [String.utf8Len_cons]
    rw [startsFrom] at h
    split at h
    · rcases List.mem_cons.mp h with rfl | h
      · omega
      · have := ih h
        omega
    · have := ih h
      omega

/-- Halving finds where the starts up to an offset end.  What is below `low` is up to the offset, and
what is from `high` on is not. -/
theorem bisect_eq (hstarts : index.starts.toList = front ++ back)
    (hfront : ∀ start ∈ front, start ≤ offset) (hback : ∀ start ∈ back, offset < start)
    {low high : Nat} (hlow : low ≤ front.length) (hhigh : front.length ≤ high)
    (hsize : high ≤ (front ++ back).length) : index.bisect offset low high = front.length := by
  have hget : ∀ i : Nat, index.starts[i]? = (front ++ back)[i]? := by
    intro i
    rw [← hstarts, Array.getElem?_toList]
  fun_induction index.bisect offset low high with
  | case1 low high hlt hle ih =>
    -- the start in the middle is up to the offset, so it is not in `back`
    refine ih (Nat.lt_of_not_le fun hmiddle => ?_) hhigh hsize
    obtain ⟨start, hstart⟩ : ∃ start, back[(low + high) / 2 - front.length]? = some start := by
      rw [List.length_append] at hsize
      exact ⟨_, List.getElem?_eq_getElem (by omega)⟩
    rw [hget, List.getElem?_append_right hmiddle, hstart] at hle
    exact absurd hle (Nat.not_le_of_lt (hback start (List.mem_of_getElem? hstart)))
  | case2 low high hlt hnot ih =>
    -- it is behind the offset, so it is not in `front`
    refine ih hlow (Nat.le_of_not_lt fun hmiddle => hnot ?_) (by omega)
    rw [hget, List.getElem?_append_left hmiddle, List.getElem?_eq_getElem hmiddle]
    exact hfront _ (List.getElem_mem hmiddle)
  | case3 low high hnot => omega

/-- The last line of some characters, and where it begins. -/
theorem exists_lastLine (cs : List Char) : ∃ before line : List Char, cs = before ++ line ∧
    (0 :: startsFrom 0 cs).getLast? = some (utf8Len before) ∧
    Position.start.after cs =
      ⟨utf8Len cs, (0 :: startsFrom 0 cs).length, line.length + 1⟩ := by
  induction cs using List.reverseRecOn with
  | nil => exact ⟨[], [], rfl, rfl, rfl⟩
  | append_singleton cs c ih =>
    obtain ⟨before, line, hcs, hlast, hplace⟩ := ih
    have hstarts := startsFrom_append 0 cs [c]
    have hlength : utf8Len (cs ++ [c]) = utf8Len cs + c.utf8Size := by simp
    rw [Position.after_append, hplace, hstarts, hlength, Position.after_cons, Position.after_nil]
    -- a line feed begins a line behind it, any other character goes on with the last line
    by_cases hc : c = '\n'
    · refine ⟨cs ++ [c], [], by simp, ?_, ?_⟩
      · simp [startsFrom, hc, List.getLast?_cons]
      · simp [Position.advance, startsFrom, hc]
    · refine ⟨before, line ++ [c], by rw [hcs, List.append_assoc], ?_, ?_⟩
      · simpa [startsFrom, hc] using hlast
      · simp [Position.advance, startsFrom, hc]

/-- The index finds the place to which a walk over the characters leads. -/
theorem position_append (before after : List Char) :
    (ofText (before ++ after)).position (before ++ after) (utf8Len before) =
      ((Position.start.after before).line, (Position.start.after before).column) := by
  obtain ⟨lines, line, hbefore, hlast, hplace⟩ := exists_lastLine before
  -- the starts up to the place are those of the text before it
  have hstarts : (ofText (before ++ after)).starts.toList =
      (0 :: startsFrom 0 before) ++ startsFrom (utf8Len before) after := by
    rw [ofText, startsFrom_append, Nat.zero_add]
    rfl
  have hfront : ∀ start ∈ 0 :: startsFrom 0 before, start ≤ utf8Len before := by
    refine List.forall_mem_cons.mpr ⟨Nat.zero_le _, fun start h => ?_⟩
    exact (Nat.zero_add (utf8Len before)) ▸ (mem_startsFrom h).2
  have hline : (ofText (before ++ after)).bisect (utf8Len before) 0
      (ofText (before ++ after)).starts.size = (0 :: startsFrom 0 before).length := by
    refine bisect_eq hstarts hfront (fun start h => (mem_startsFrom h).1) (Nat.zero_le _) ?_ ?_
    · rw [← Array.length_toList, hstarts, List.length_append]
      exact Nat.le_add_right _ _
    · rw [← Array.length_toList, hstarts]
  have hstart : (ofText (before ++ after)).starts[(0 :: startsFrom 0 before).length - 1]? =
      some (utf8Len lines) := by
    rw [← Array.getElem?_toList, hstarts, List.getElem?_append_left (Nat.lt_succ_self _),
      ← List.getLast?_eq_getElem?, hlast]
  have hslice : Text.slice? (before ++ after) (utf8Len lines) (utf8Len before - utf8Len lines) =
      some line := by
    rw [hbefore, String.utf8Len_append, Nat.add_sub_cancel_left]
    exact Text.slice?_append lines line after
  rw [position, hline, hstart, hplace]
  dsimp only [Option.getD_some]
  rw [hslice]
  rfl

theorem place_append (before after : List Char) :
    (ofText (before ++ after)).place (before ++ after) (utf8Len before) =
      Position.start.after before := by
  rw [place, position_append, Position.after_start]

/-- Lines and columns are counted from one, whatever the offset. -/
theorem one_le_position (text : List Char) (offset : Nat) :
    1 ≤ ((ofText text).position text offset).1 ∧ 1 ≤ ((ofText text).position text offset).2 := by
  have hpos : ∀ low high, 0 < low ∨ 0 < high → 0 < (ofText text).bisect offset low high := by
    intro low high h
    fun_induction (ofText text).bisect offset low high with
    | case1 low high hlt hle ih => exact ih (.inl (Nat.succ_pos _))
    | case2 low high hlt hnot ih =>
      refine ih (.inr (Nat.pos_of_ne_zero fun hmiddle => hnot ?_))
      rw [hmiddle]
      exact Nat.zero_le _
    | case3 low high hnot => omega
  exact ⟨hpos _ _ (.inr (Nat.succ_pos _)), Nat.le_add_left ..⟩

end LineIndex

/-- The characters of a text before a place. -/
theorem position_of_splits {source before after : String} {p : source.Pos}
    (h : p.Splits before after) :
    toLex ((LineIndex.ofText source.toList).position source.toList p.offset.byteIdx) =
      (Position.start.after before.toList).place := by
  have hoffset : p.offset.byteIdx = utf8Len before.toList := by
    rw [h.offset_eq_rawEndPos, String.utf8Len_toList]
    rfl
  have hsource : source.toList = before.toList ++ after.toList := by
    rw [h.eq_append, String.toList_append]
  rw [hoffset, hsource]
  exact congrArg toLex (LineIndex.position_append before.toList after.toList)

/-- The line of a place between two characters is one more than the number of line feeds before it,
and its column one more than the number of characters behind the last of these line feeds.  One place
is before another if and only if its line is, or its column in the same line, so different places
differ in their line or their column. -/
theorem LineIndex.position_place (source : String) :
    let index := ofText source.toList
    let place := fun p : source.Pos => index.position source.toList p.offset.byteIdx
    (∀ p : source.Pos, let before := (source.sliceTo p).copy.toList
      place p =
        (1 + before.count '\n', 1 + (before.reverse.takeWhile (· ≠ '\n')).length)) ∧
    (∀ p q : source.Pos, p < q ↔ toLex (place p) < toLex (place q)) ∧
    ∀ p q : source.Pos, p = q ↔ place p = place q := by
  intro index place
  have hlt : ∀ {p q : source.Pos}, p < q → toLex (place p) < toLex (place q) := by
    intro p q hpq
    obtain ⟨more, hmore, hbefore, -⟩ := (p.splits.lt_iff_exists_eq_append q.splits).mp hpq
    rw [position_of_splits p.splits, position_of_splits q.splits, hbefore, String.toList_append,
      Position.after_append]
    exact Position.lt_after _ (mt String.toList_eq_nil_iff.mp hmore)
  have htotal : ∀ p q : source.Pos, p < q ∨ p = q ∨ q < p := fun p q =>
    (Nat.lt_trichotomy p.offset.byteIdx q.offset.byteIdx).imp id
      (.imp (fun h => String.Pos.ext (String.Pos.Raw.ext h)) id)
  refine ⟨fun p => ?_, fun p q => ⟨hlt, fun h => ?_⟩, fun p q => ⟨congrArg place, fun h => ?_⟩⟩
  · have hplace := position_of_splits p.splits
    rw [Position.after_start] at hplace
    exact toLex.injective hplace
  · rcases htotal p q with hpq | rfl | hqp
    · exact hpq
    · exact absurd h (lt_irrefl _)
    · exact absurd h (hlt hqp).asymm
  · rcases htotal p q with hpq | heq | hqp
    · exact absurd (congrArg toLex h) (hlt hpq).ne
    · exact heq
    · exact absurd (congrArg toLex h) (hlt hqp).ne'

end FrameBasic
