import FrameBasic.Compiler
import FrameBasic.Proofs.Reader.Faithful
import FrameBasic.Proofs.Source.Output

/-!
# Where errors stand

An error about the characters stands at a token or at a character that begins none.  An error about
the program goes from a token up to one that is not before it, wherever the reader was when it was
recorded.  Tokens know their lines and columns, so every error has a place in the source.

## Main definitions

* `Span.Located` — a span lies in a source and knows its line and column.

## Main results

* `Parser.Input.Marks.exists_tokens` — a place of the tokens goes from one of them up to another.
* `errors_located` — **every error has a place in the source**.
-/

namespace FrameBasic

open String (utf8Len)

/-- The span lies in the source, and its line and column are those of its start. -/
structure Span.Located (source : String) (span : Span) : Prop where
  /-- It does not end before it begins. -/
  ordered : span.start ≤ span.stop
  /-- It ends in the source. -/
  inside : span.stop ≤ source.utf8ByteSize
  /-- The line and the column of its start. -/
  place : (span.line, span.column) = locate source.toList span.start
  /-- Lines and columns are counted from one. -/
  counted : 1 ≤ span.line ∧ 1 ≤ span.column

variable {commands table : CommandTable} {source : String}

namespace Span

theorem located_of_place {span : Span} (hordered : span.start ≤ span.stop)
    (hinside : span.stop ≤ source.utf8ByteSize)
    (hplace : locate source.toList span.start = (span.line, span.column)) : span.Located source := by
  refine ⟨hordered, hinside, hplace.symm, ?_⟩
  have hcounted := LineIndex.one_le_position source.toList span.start
  rw [show (LineIndex.ofText source.toList).position source.toList span.start = _ from hplace]
    at hcounted
  exact hcounted

/-- What goes from one span up to a later one. -/
theorem Located.cover {a b : Span} (ha : a.Located source) (hb : b.Located source)
    (h : a = b ∨ a.stop ≤ b.start) : ({ a with stop := b.stop } : Span).Located source := by
  refine ⟨?_, hb.inside, ha.place, ha.counted⟩
  rcases h with rfl | h
  · exact ha.ordered
  · exact Nat.le_trans ha.ordered (Nat.le_trans h hb.ordered)

end Span

theorem located_of_mem_tiles {t : Tile} (h : t ∈ tiles source) : t.span.Located source :=
  Span.located_of_place (Nat.le_of_lt (span_start_lt_stop h)) (span_stop_le h)
    (locate_of_mem_tiles h)

theorem located_of_mem_tokens {token : Token} (h : token ∈ tokens commands source) :
    token.span.Located source := by
  have hplace := locate_of_mem_tokens h
  rw [tokens_eq] at h
  rcases List.mem_append.mp h with h | h
  · obtain ⟨-, hlt, hle⟩ := token_of_tiles h
    exact Span.located_of_place (Nat.le_of_lt hlt) hle hplace
  · obtain rfl := List.mem_singleton.mp h
    exact Span.located_of_place (Nat.le_refl _) (Nat.le_of_eq (offset_end source)) hplace

/-! ### The errors -/

/-- An error about the characters stands at a token, or it names the character at its start. -/
theorem located_of_mem_lexicalErrors {e : LexicalError} (h : e ∈ lexicalErrors commands source) :
    e.span.Located source ∧ ((∃ token ∈ tokens commands source, e.span = token.span) ∨
      ∃ before c after, source.toList = before ++ c :: after ∧ e.span.start = utf8Len before ∧
        e.fault = .strayCharacter c) := by
  rw [lexicalErrors_eq] at h
  obtain ⟨t, ht, herror⟩ := List.mem_filterMap.mp h
  rw [Tile.span_of_error? herror]
  refine ⟨located_of_mem_tiles ht, ?_⟩
  obtain ⟨-, before, after, hsource, hstart, -⟩ := mem_tiles ht
  unfold Tile.error? at herror
  split at herror
  · next c hstretch =>
    cases herror
    refine .inr ⟨before, c, after, ?_, hstart, rfl⟩
    rw [hsource, hstretch, Stretch.text, List.append_assoc]
    rfl
  · next shape text hstretch =>
    split at herror
    · next hopen =>
      -- a string that is not closed is a token all the same
      obtain ⟨found, hfound⟩ : ∃ found, classify commands shape text = some found := by
        rw [hopen.1]
        exact ⟨_, rfl⟩
      have htoken : t.token? commands = some ⟨found.1, found.2, t.span⟩ := by
        simp [Tile.token?, hstretch, hfound]
      refine .inl ⟨⟨found.1, found.2, t.span⟩, ?_, rfl⟩
      rw [tokens_eq]
      exact List.mem_append_left _ (List.mem_filterMap.mpr ⟨t, ht, htoken⟩)
    · cases herror

namespace Parser.Input

variable {input : Input} {span : Span}

theorem exists_spanAt (h : input.tokens ≠ #[]) (i : Nat) :
    ∃ token ∈ input.tokens, input.spanAt i = token.span := by
  unfold spanAt
  split
  · next token htoken =>
    refine ⟨token, ?_, rfl⟩
    exact (Option.or_eq_some_iff.mp htoken).elim Array.mem_of_getElem? fun h => Array.mem_of_back? h.2
  · next hnone => exact absurd (Array.back?_eq_none_iff.mp (Option.or_eq_none_iff.mp hnone).2) h

/-- A place of the tokens goes from one of them up to another. -/
theorem Marks.exists_tokens (h : input.Marks span) (hinput : input.Ordered)
    (hne : input.tokens ≠ #[]) :
    ∃ first ∈ input.tokens, ∃ last ∈ input.tokens, span = { first.span with stop := last.span.stop } ∧
      (first.span = last.span ∨ first.span.stop ≤ last.span.start) := by
  obtain ⟨i, j, rfl⟩ := h
  unfold spanFrom
  split
  · obtain ⟨token, htoken, hspan⟩ := exists_spanAt hne j
    exact ⟨token, htoken, token, htoken, hspan, .inl rfl⟩
  · next first hfirst =>
    have hmem := Array.mem_of_getElem? hfirst
    cases hlast : input.tokens[j - 1]? with
    | none => exact ⟨first, hmem, first, hmem, by simp, .inl rfl⟩
    | some last =>
      rcases Nat.lt_trichotomy i (j - 1) with hij | hij | hij
      · refine ⟨first, hmem, last, Array.mem_of_getElem? hlast, ?_, .inr (hinput.apart hij hfirst hlast)⟩
        rw [if_pos (by omega)]
        rfl
      · obtain rfl := Option.some.inj (hfirst.symm.trans (hij ▸ hlast))
        exact ⟨first, hmem, first, hmem, by simp, .inl rfl⟩
      · refine ⟨first, hmem, first, hmem, ?_, .inl rfl⟩
        rw [if_neg (by omega)]

end Parser.Input

/-- An error about the program goes from one token up to another. -/
theorem Program.located_of_mem_errors {e : ParseError}
    (h : e ∈ (Program.parse table (tokens commands source)).errors) :
    e.span.Located source ∧ ∃ first ∈ tokens commands source, ∃ last ∈ tokens commands source,
      e.span.start = first.span.start ∧ e.span.stop = last.span.stop := by
  let input := Parser.Input.ofTokens table (tokens commands source)
  obtain ⟨new, hreached, -, -⟩ := Parser.readAll_reached input
  have herrors : (Program.parse table (tokens commands source)).errors = new := hreached.errors
  have hne : input.tokens ≠ #[] := by
    simp [input, Parser.Input.ofTokens, tokens_eq]
  obtain ⟨first, hfirst, last, hlast, hspan, hafter⟩ :=
    (hreached.marks e (herrors ▸ h)).exists_tokens Parser.Input.ordered_ofTokens hne
  have hmem : ∀ token ∈ input.tokens, token ∈ tokens commands source := fun token htoken =>
    (List.mem_filter.mp (List.mem_toArray.mp htoken)).1
  rw [hspan]
  exact ⟨(located_of_mem_tokens (hmem first hfirst)).cover (located_of_mem_tokens (hmem last hlast))
    hafter, first, hmem first hfirst, last, hmem last hlast, rfl, rfl⟩

/-- Every error of a text lies in it, at the line and the column of its first byte, which are
counted from one.  It begins where a token begins, or it is about the character there.  Among all
diagnostics of a compilation, those about the table and no others have no place. -/
theorem errors_located (commands table : CommandTable) (source : String) :
    let found := tokens commands source
    (∀ e ∈ lexicalErrors commands source, e.span.Located source ∧
      ((∃ token ∈ found, e.span = token.span) ∨
        ∃ before c after, source.toList = before ++ c :: after ∧ e.span.start = utf8Len before ∧
          e.fault = .strayCharacter c)) ∧
    (∀ e ∈ (Program.parse table found).errors, e.span.Located source ∧
      ∃ first ∈ found, ∃ last ∈ found,
        e.span.start = first.span.start ∧ e.span.stop = last.span.stop) ∧
    ∀ library : Library, ∀ d ∈ (compile commands library source).diagnostics,
      (d.line = 0 ∨ d.column = 0) ↔ d ∈ commands.faults.map .ofTable := by
  intro found
  refine ⟨fun e he => located_of_mem_lexicalErrors he, fun e he => Program.located_of_mem_errors he,
    fun library d hd => ⟨fun hzero => ?_, fun htable => ?_⟩⟩
  · have hsound : (library.expand source).Sound (fun _ => True) 0 :=
      Library.expandAt_sound (fun _ _ _ _ _ => trivial) _ [] 0 source fun _ _ => trivial
    simp only [compile, List.mem_append] at hd
    rcases hd with ((htable | hinclude) | hlexical) | hparse
    · exact htable
    · obtain ⟨e, he, rfl⟩ := List.mem_map.mp hinclude
      obtain ⟨k, hk, -⟩ := hsound.blank e he
      have hzero : e.line = 0 ∨ 1 = 0 := hzero
      omega
    · obtain ⟨e, he, rfl⟩ := List.mem_map.mp hlexical
      have hcounted := (located_of_mem_lexicalErrors he).1.counted
      have hzero : e.span.line = 0 ∨ e.span.column = 0 := hzero
      omega
    · obtain ⟨e, he, rfl⟩ := List.mem_map.mp hparse
      have hcounted := (Program.located_of_mem_errors he).1.counted
      have hzero : e.span.line = 0 ∨ e.span.column = 0 := hzero
      omega
  · obtain ⟨fault, -, rfl⟩ := List.mem_map.mp htable
    exact .inl rfl

end FrameBasic
