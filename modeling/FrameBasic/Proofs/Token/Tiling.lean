import FrameBasic.Proofs.Source.Position
import FrameBasic.Proofs.Token.Lexeme
import FrameBasic.Token.Scan
import Mathlib.Data.String.Basic

/-!
# Tokens tile the source

The stretches of a source, laid out one after the other, are tiles that cover it.  A tile is a
token, or a character that begins no lexeme, or blank; the tokens and the errors are read off the
tiles in their order.  What is known of the tiles is thus known of the tokens and the errors
together: none of them overlap, and no character is lost or read twice.

## Main definitions

* `Tile`, `tiles` — the stretches of a source with the places where they begin and end.
* `Span.meets` — the span shares a byte with a stretch of bytes.
* `Span.lexeme` — the characters of a source in a span.
* `endsQuoted` — a text between quotes.
* `Kind.shape` — the shape of the lexemes of a kind.

## Main results

* `tokens_eq`, `lexicalErrors_eq` — tokens and errors are read off the tiles.
* `pairwise_tilesFrom` — tiles do not overlap.
* `filter_meets_tilesFrom` — a character lies in one tile.
* `lexeme_of_mem_tokens` — a token is made of a lexeme that has the shape of its kind.
* `tokens_tile_source` — **tokens, stray characters and blanks tile the source**.
-/

namespace FrameBasic

open String (utf8Len)

/-! ### Tiles -/

/-- A stretch of the source with the places where it begins and ends. -/
structure Tile where
  /-- The stretch. -/
  stretch : Stretch
  /-- Where it begins. -/
  first : Position
  /-- Where it ends. -/
  last : Position

namespace Tile

/-- The span of a tile. -/
def span (t : Tile) : Span :=
  .between t.first t.last

/-- The token of a tile. -/
def token? (commands : CommandTable) (t : Tile) : Option Token :=
  match t.stretch with
  | .stray _ => none
  | .lexeme shape text =>
    (classify commands shape text).map fun found => ⟨found.1, found.2, t.span⟩

/-- The error of a tile. -/
def error? (t : Tile) : Option LexicalError :=
  match t.stretch with
  | .stray c => some ⟨.strayCharacter c, t.span⟩
  | .lexeme shape text =>
    if shape = .string ∧ isClosed text = false then some ⟨.unterminatedString, t.span⟩ else none

theorem span_of_token? {commands : CommandTable} {t : Tile} {token : Token}
    (h : t.token? commands = some token) : token.span = t.span := by
  unfold token? at h
  split at h
  · cases h
  · obtain ⟨found, _, rfl⟩ := Option.map_eq_some_iff.mp h
    rfl

theorem span_of_error? {t : Tile} {error : LexicalError} (h : t.error? = some error) :
    error.span = t.span := by
  unfold error? at h
  split at h
  · cases h
    rfl
  · split at h
    · cases h
      rfl
    · cases h

end Tile

/-- The stretches laid out from a place on. -/
def tilesFrom (place : Position) : List Stretch → List Tile
  | [] => []
  | stretch :: rest =>
    ⟨stretch, place, place.after stretch.text⟩ :: tilesFrom (place.after stretch.text) rest

/-- The tiles of a source. -/
def tiles (source : String) : List Tile :=
  tilesFrom .start (stretches source.toList)

theorem tilesFrom_append (place : Position) (as bs : List Stretch) :
    tilesFrom place (as ++ bs) =
      tilesFrom place as ++ tilesFrom (place.after (as.flatMap Stretch.text)) bs := by
  induction as generalizing place with
  | nil => rfl
  | cons stretch rest ih =>
    simp only [List.cons_append, tilesFrom, List.flatMap_cons, Position.after_append, ih]

/-! ### Tokens and errors are read off the tiles -/

/-- What the stretches give from a place on, where lines and columns are counted on the way. -/
def walkEvents (commands : CommandTable) (place : Position) : List Stretch → List Event
  | [] => [.token ⟨.eof, "", .between place place⟩]
  | stretch :: rest =>
    stretch.events commands place (place.after stretch.text) ++
      walkEvents commands (place.after stretch.text) rest

/-- The places that are looked up are those of a walk. -/
theorem eventsFrom_eq (commands : CommandTable) {text before : List Char} {stretches : List Stretch}
    (h : text = before ++ stretches.flatMap Stretch.text) :
    eventsFrom commands ((LineIndex.ofText text).place text) (utf8Len before) stretches =
      walkEvents commands (.after .start before) stretches := by
  induction stretches generalizing before with
  | nil => rw [eventsFrom, walkEvents, h, LineIndex.place_append]
  | cons stretch rest ih =>
    have hnext : text = before ++ stretch.text ++ rest.flatMap Stretch.text := by
      rw [h, List.flatMap_cons, List.append_assoc]
    have hplace : (LineIndex.ofText text).place text (utf8Len before) = .after .start before := by
      rw [h, LineIndex.place_append]
    have hlast : (LineIndex.ofText text).place text (utf8Len (before ++ stretch.text)) =
        .after .start (before ++ stretch.text) := by
      rw [hnext, LineIndex.place_append]
    rw [eventsFrom, walkEvents, Text.byteLength_eq, ← String.utf8Len_append, ih hnext, hplace, hlast,
      Position.after_append]

theorem events_eq (commands : CommandTable) (source : String) :
    events commands source = walkEvents commands .start (stretches source.toList) := by
  have hsource : source.toList = [] ++ (stretches source.toList).flatMap Stretch.text := by
    rw [flatMap_text_stretches, List.nil_append]
  exact eventsFrom_eq commands hsource

theorem filterMap_token?_events (commands : CommandTable) (stretch : Stretch)
    (first last : Position) :
    (stretch.events commands first last).filterMap Event.token? =
      (Tile.token? commands ⟨stretch, first, last⟩).toList := by
  cases stretch with
  | stray c => rfl
  | lexeme shape text =>
    simp only [Stretch.events, Tile.token?]
    rcases classify commands shape text with _ | ⟨kind, word⟩ <;> dsimp only <;> split <;> rfl

theorem filterMap_error?_events (commands : CommandTable) (stretch : Stretch)
    (first last : Position) :
    (stretch.events commands first last).filterMap Event.error? =
      (Tile.error? ⟨stretch, first, last⟩).toList := by
  cases stretch with
  | stray c => rfl
  | lexeme shape text =>
    simp only [Stretch.events, Tile.error?]
    rcases classify commands shape text with _ | ⟨kind, word⟩ <;> dsimp only <;> split <;> rfl

theorem filterMap_token?_walkEvents (commands : CommandTable) (place : Position)
    (stretches : List Stretch) :
    (walkEvents commands place stretches).filterMap Event.token? =
      (tilesFrom place stretches).filterMap (Tile.token? commands) ++
        [⟨.eof, "", .between (place.after (stretches.flatMap Stretch.text))
          (place.after (stretches.flatMap Stretch.text))⟩] := by
  induction stretches generalizing place with
  | nil => rfl
  | cons stretch rest ih =>
    simp only [walkEvents, tilesFrom, List.filterMap_append, filterMap_token?_events, ih,
      List.filterMap_cons, List.flatMap_cons, Position.after_append]
    cases Tile.token? commands ⟨stretch, place, place.after stretch.text⟩ <;> rfl

theorem filterMap_error?_walkEvents (commands : CommandTable) (place : Position)
    (stretches : List Stretch) :
    (walkEvents commands place stretches).filterMap Event.error? =
      (tilesFrom place stretches).filterMap Tile.error? := by
  induction stretches generalizing place with
  | nil => rfl
  | cons stretch rest ih =>
    simp only [walkEvents, tilesFrom, List.filterMap_append, filterMap_error?_events, ih,
      List.filterMap_cons]
    cases Tile.error? ⟨stretch, place, place.after stretch.text⟩ <;> rfl

/-- The tokens are those of the tiles, and the end of the input. -/
theorem tokens_eq (commands : CommandTable) (source : String) :
    tokens commands source = (tiles source).filterMap (Tile.token? commands) ++
      [⟨.eof, "", .between (.after .start source.toList) (.after .start source.toList)⟩] := by
  rw [tokens, events_eq, filterMap_token?_walkEvents, flatMap_text_stretches, tiles]

theorem lexicalErrors_eq (commands : CommandTable) (source : String) :
    lexicalErrors commands source = (tiles source).filterMap Tile.error? := by
  rw [lexicalErrors, events_eq, filterMap_error?_walkEvents, tiles]

/-! ### The layout of tiles -/

theorem Position.offset_after (p : Position) (cs : List Char) :
    (p.after cs).offset = p.offset + utf8Len cs := by
  induction cs generalizing p with
  | nil => rfl
  | cons c rest ih =>
    have hstep : (p.advance c).offset = p.offset + c.utf8Size := by
      unfold advance
      split <;> rfl
    rw [after_cons, ih, hstep, String.utf8Len_cons]
    omega

/-- Where a tile lies among the stretches. -/
theorem mem_tilesFrom {place : Position} {stretches : List Stretch} {t : Tile}
    (h : t ∈ tilesFrom place stretches) :
    ∃ before after, stretches = before ++ t.stretch :: after ∧
      t.first = place.after (before.flatMap Stretch.text) ∧
      t.last = t.first.after t.stretch.text := by
  induction stretches generalizing place with
  | nil => exact absurd h List.not_mem_nil
  | cons stretch rest ih =>
    rcases List.mem_cons.mp h with rfl | h
    · exact ⟨[], rest, rfl, rfl, rfl⟩
    · obtain ⟨before, after, rfl, hfirst, hlast⟩ := ih h
      refine ⟨stretch :: before, after, rfl, ?_, hlast⟩
      rw [hfirst, List.flatMap_cons, Position.after_append]

theorem le_of_mem_tilesFrom {place : Position} {stretches : List Stretch} {t : Tile}
    (h : t ∈ tilesFrom place stretches) : place.offset ≤ t.span.start := by
  obtain ⟨before, after, _, hfirst, _⟩ := mem_tilesFrom h
  have hstart : t.span.start = (place.after (before.flatMap Stretch.text)).offset :=
    congrArg Position.offset hfirst
  rw [hstart, Position.offset_after]
  exact Nat.le_add_right _ _

/-- Tiles do not overlap, and they follow each other in the source. -/
theorem pairwise_tilesFrom (place : Position) (stretches : List Stretch) :
    (tilesFrom place stretches).Pairwise fun a b => a.span.stop ≤ b.span.start := by
  induction stretches generalizing place with
  | nil => exact .nil
  | cons stretch rest ih => exact .cons (fun _ h => le_of_mem_tilesFrom h) (ih _)

/-- A tile holds the characters of the source between its two places. -/
theorem mem_tiles {source : String} {t : Tile} (h : t ∈ tiles source) :
    t.stretch ∈ stretches source.toList ∧
      ∃ before after, source.toList = before ++ t.stretch.text ++ after ∧
        t.span.start = utf8Len before ∧ t.span.stop = utf8Len before + utf8Len t.stretch.text := by
  obtain ⟨before, after, hstretches, hfirst, hlast⟩ := mem_tilesFrom h
  have hstart : t.span.start = utf8Len (before.flatMap Stretch.text) := by
    show t.first.offset = _
    rw [hfirst, Position.offset_after]
    exact Nat.zero_add _
  refine ⟨by simp [hstretches], before.flatMap Stretch.text, after.flatMap Stretch.text, ?_,
    hstart, ?_⟩
  · rw [← flatMap_text_stretches source.toList, hstretches]
    simp
  · rw [← hstart]
    show t.last.offset = t.first.offset + _
    rw [hlast, Position.offset_after]

/-! ### The form of tiles -/

theorem text_ne_nil_of_mem {cs : List Char} {stretch : Stretch} (h : stretch ∈ stretches cs) :
    stretch.text ≠ [] := by
  rcases eq_stray_or_lexeme h with ⟨c, rfl⟩ | ⟨shape, _, rest, hpos, rfl⟩
  · exact List.cons_ne_nil c []
  · have hle := shape.matchLength_le rest
    simp only [Stretch.text, ne_eq, List.take_eq_nil_iff, not_or]
    refine ⟨Nat.ne_of_gt hpos, ?_⟩
    rintro rfl
    exact absurd (Nat.lt_of_lt_of_le hpos hle) (Nat.not_lt_zero 0)

theorem span_start_lt_stop {source : String} {t : Tile} (h : t ∈ tiles source) :
    t.span.start < t.span.stop := by
  obtain ⟨hmem, before, after, _, hstart, hstop⟩ := mem_tiles h
  have hpos : 0 < utf8Len t.stretch.text := by
    rw [Nat.pos_iff_ne_zero, ne_eq, String.utf8Len_eq_zero]
    exact text_ne_nil_of_mem hmem
  omega

theorem take_runLength (p : Char → Bool) (cs : List Char) :
    cs.take (runLength p cs) = cs.takeWhile p :=
  (List.prefix_iff_eq_take.mp (List.takeWhile_prefix p)).symm

/-- What is read as a run of characters, such as blanks or decimal digits, holds no others. -/
theorem all_of_mem_stretches {cs text : List Char} {shape : Shape} {p : Char → Bool}
    (h : .lexeme shape text ∈ stretches cs) (hrun : shape.matchLength = runLength p) :
    ∀ c ∈ text, p c = true := by
  rcases eq_stray_or_lexeme h with ⟨c, hc⟩ | ⟨shape, _, rest, _, heq⟩
  · cases hc
  · cases heq
    rw [hrun, take_runLength]
    exact List.all_eq_true.mp List.all_takeWhile

/-- A pattern is a dollar sign and hexadecimal digits. -/
theorem eq_dollar_of_mem_stretches {cs text : List Char} (h : .lexeme .hex text ∈ stretches cs) :
    ∃ digits, text = '$' :: digits ∧ digits ≠ [] ∧ ∀ c ∈ digits, Text.isHexDigit c = true := by
  rcases eq_stray_or_lexeme h with ⟨c, hc⟩ | ⟨shape, _, rest, hpos, heq⟩
  · cases hc
  · cases heq
    unfold Shape.matchLength at hpos ⊢
    dsimp only at hpos ⊢
    split at hpos
    · next rest =>
      split at hpos
      · exact absurd hpos (Nat.lt_irrefl 0)
      · next hrun =>
        refine ⟨rest.takeWhile Text.isHexDigit, ?_, ?_, List.all_eq_true.mp List.all_takeWhile⟩
        · rw [if_neg hrun, Nat.add_comm, List.take_succ_cons, take_runLength]
        · exact fun hnil => hrun (List.length_eq_zero_iff.mpr hnil)
    · exact absurd hpos (Nat.lt_irrefl 0)

/-- A string begins with a quote. -/
theorem eq_quote_of_mem_stretches {cs text : List Char}
    (h : .lexeme .string text ∈ stretches cs) : ∃ inside, text = '"' :: inside := by
  rcases eq_stray_or_lexeme h with ⟨c, hc⟩ | ⟨shape, _, rest, hpos, heq⟩
  · cases hc
  · cases heq
    obtain ⟨k, hk⟩ := Nat.exists_eq_add_of_lt hpos
    have hquote : ∃ tail, rest = '"' :: tail := by
      simp only [Shape.matchLength, stringLength] at hpos
      split at hpos
      · exact ⟨_, rfl⟩
      · exact absurd hpos (Nat.lt_irrefl 0)
    obtain ⟨tail, rfl⟩ := hquote
    rw [hk, Nat.zero_add, List.take_succ_cons]
    exact ⟨_, rfl⟩

/-- The kind of a mark is one of the kinds that are written as marks. -/
theorem mem_marks_of_mem_stretches {cs text : List Char} {kind : Kind}
    (h : .lexeme (.mark kind) text ∈ stretches cs) : kind ∈ marks := by
  rcases eq_stray_or_lexeme h with ⟨c, hc⟩ | ⟨shape, hshape, rest, _, heq⟩
  · cases hc
  · cases heq
    simpa [Shape.all] using hshape

/-- Only blanks have no token. -/
theorem eq_blank_of_classify {commands : CommandTable} {shape : Shape} {text : List Char}
    (h : classify commands shape text = none) : shape = .blank := by
  cases shape with
  | blank => rfl
  | _ => cases h

/-- A word is a keyword, a command that loses its spelling, or an identifier that keeps it. -/
theorem classifyWord_eq {commands : CommandTable} {word text : String} {kind : Kind}
    (h : classifyWord commands word = (kind, text)) :
    (∃ keyword, kind = .keyword keyword) ∨
      (kind = .command ∧ commands.contains (Name.fold word) = true ∧ text = Name.fold word) ∨
      (kind = .identifier ∧ commands.contains (Name.fold word) = false ∧ text = word) := by
  unfold classifyWord at h
  extract_lets parts found folded at h
  cases hfound : found with
  | some keyword =>
    rw [hfound] at h
    exact .inl ⟨keyword, (Prod.mk.inj h).1.symm⟩
  | none =>
    rw [hfound] at h
    dsimp only at h
    split at h
    · next hcommand =>
      exact .inr (.inl ⟨(Prod.mk.inj h).1.symm, hcommand, (Prod.mk.inj h).2.symm⟩)
    · next hname =>
      obtain ⟨hkind, htext⟩ := Prod.mk.inj h
      exact .inr (.inr ⟨hkind.symm, eq_false_of_ne_true hname, htext.symm⟩)

/-- The shape of the lexemes that are read as tokens of a kind. -/
def Kind.shape : Kind → Shape
  | .comment => .comment
  | .integer => .integer
  | .float => .float
  | .hex => .hex
  | .string => .string
  | .identifier | .keyword _ | .command => .word
  | .label => .label
  | kind => .mark kind

/-- No lexeme stands for the end of the input, and the kind of a token tells the shape. -/
theorem kind_of_classify {commands : CommandTable} {cs text : List Char} {shape : Shape}
    {kind : Kind} {word : String} (hmem : .lexeme shape text ∈ stretches cs)
    (h : classify commands shape text = some (kind, word)) :
    kind ≠ .eof ∧ shape = kind.shape := by
  cases shape with
  | blank => cases h
  | word =>
    rcases classifyWord_eq (Option.some.inj h) with ⟨keyword, rfl⟩ | ⟨rfl, -⟩ | ⟨rfl, -⟩ <;>
      exact ⟨nofun, rfl⟩
  | mark mark =>
    cases h
    have hmarks : ∀ mark ∈ marks, mark ≠ .eof ∧ Shape.mark mark = mark.shape := by decide
    exact hmarks _ (mem_marks_of_mem_stretches hmem)
  | _ =>
    cases h
    exact ⟨nofun, rfl⟩

/-! ### Characters -/

/-- The span shares a byte with the bytes from `first` up to `last`. -/
def Span.meets (span : Span) (first last : Nat) : Bool :=
  span.start < last && first < span.stop

theorem Span.meets_iff {span : Span} {first last : Nat} :
    span.meets first last = true ↔ span.start < last ∧ first < span.stop := by
  simp [meets]

/-- A character of two texts stands in the second one or in the first one. -/
theorem append_eq_append_cons {as bs before after : List Char} {c : Char}
    (h : as ++ bs = before ++ c :: after) :
    (∃ more, before = as ++ more ∧ bs = more ++ c :: after) ∨
      ∃ more, as = before ++ c :: more := by
  rcases List.append_eq_append_iff.mp h with ⟨more, hbefore, hbs⟩ | ⟨more, has, hmore⟩
  · exact .inl ⟨more, hbefore, hbs⟩
  · cases more with
    | nil => exact .inl ⟨[], by simpa using has.symm, hmore.symm⟩
    | cons d more =>
      obtain ⟨rfl, -⟩ := List.cons.inj hmore
      exact .inr ⟨more, has⟩

/-- A character lies in one tile, and no other tile has a byte of it. -/
theorem filter_meets_tilesFrom {stretches : List Stretch} {before after : List Char} {c : Char}
    (place : Position) (h : stretches.flatMap Stretch.text = before ++ c :: after) :
    let first := place.offset + utf8Len before
    let last := first + c.utf8Size
    ∃ t ∈ tilesFrom place stretches,
      (tilesFrom place stretches).filter (fun t => t.span.meets first last) = [t] ∧
      t.span.start ≤ first ∧ last ≤ t.span.stop ∧ c ∈ t.stretch.text := by
  intro first last
  induction stretches generalizing place before with
  | nil => simp at h
  | cons stretch rest ih =>
    let head : Tile := ⟨stretch, place, place.after stretch.text⟩
    have hstop : head.span.stop = place.offset + utf8Len stretch.text := place.offset_after _
    have hpos := c.utf8Size_pos
    rcases append_eq_append_cons h with ⟨more, rfl, hrest⟩ | ⟨more, htext⟩
    · -- the first tile ends before the character
      obtain ⟨t, ht, hfilter, hfirst, hlast, hmem⟩ := ih (place.after stretch.text) hrest
      have hoffset : (place.after stretch.text).offset + utf8Len more = first := by
        simp only [first, Position.offset_after, String.utf8Len_append]
        omega
      rw [hoffset] at hfilter hfirst hlast
      have hmiss : ¬ head.span.meets first last = true := by
        rw [Span.meets_iff, hstop]
        simp only [first, String.utf8Len_append]
        omega
      refine ⟨t, List.mem_cons_of_mem _ ht, ?_, hfirst, hlast, hmem⟩
      rw [tilesFrom, List.filter_cons_of_neg (p := fun t : Tile => t.span.meets first last) hmiss]
      exact hfilter
    · -- the character is covered by the first tile, and the others begin behind it
      have hlast : last ≤ head.span.stop := by
        rw [hstop, htext]
        simp only [last, first, String.utf8Len_append, String.utf8Len_cons]
        omega
      have hstart : head.span.start ≤ first := Nat.le_add_right _ _
      have hmeets : head.span.meets first last = true := by
        rw [Span.meets_iff]
        omega
      have hothers : (tilesFrom (place.after stretch.text) rest).filter
          (fun t => t.span.meets first last) = [] := by
        rw [List.filter_eq_nil_iff]
        intro t ht
        have hle : head.span.stop ≤ t.span.start := le_of_mem_tilesFrom ht
        rw [Span.meets_iff]
        omega
      refine ⟨head, List.mem_cons_self, ?_, hstart, hlast, by simp [head, htext]⟩
      rw [tilesFrom, List.filter_cons_of_pos (p := fun t : Tile => t.span.meets first last) hmeets,
        hothers]

/-- Of what is read off tiles, only what is read off some of them lies in their spans. -/
theorem filter_filterMap_span {α : Type} {f : Tile → Option α} {span : α → Span}
    (hf : ∀ {t a}, f t = some a → span a = t.span) (p : Span → Bool) (ts : List Tile) :
    (ts.filterMap f).filter (fun a => p (span a)) =
      (ts.filter fun t => p t.span).filterMap f := by
  rw [List.filter_filterMap, List.filterMap_filter]
  refine List.filterMap_congr fun t _ => ?_
  cases ht : f t with
  | none => simp
  | some a => simp [Option.filter, hf ht]

/-! ### Strings -/

/-- The characters of a source in a span. -/
def Span.lexeme (source : String) (span : Span) : List Char :=
  (String.Pos.Raw.extract source ⟨span.start⟩ ⟨span.stop⟩).toList

/-- A text that begins and ends with a quote of its own. -/
def endsQuoted : List Char → Bool
  | '"' :: rest => rest.getLast? = some '"'
  | _ => false

theorem lexeme_span {source : String} {t : Tile} (h : t ∈ tiles source) :
    t.span.lexeme source = t.stretch.text := by
  obtain ⟨_, before, after, hsource, hstart, hstop⟩ := mem_tiles h
  unfold Span.lexeme
  rw [hstart, hstop, ← String.ofList_toList (s := source), hsource, String.extract_of_valid,
    String.toList_ofList]

theorem isClosed_quote (inside : List Char) :
    isClosed ('"' :: inside) = endsQuoted ('"' :: inside) := by
  cases inside with
  | nil => rfl
  | cons c rest => simp [isClosed, endsQuoted, beq_eq_decide]

/-! ### The source -/

variable {commands : CommandTable} {source : String}

theorem span_stop_le {t : Tile} (h : t ∈ tiles source) : t.span.stop ≤ source.utf8ByteSize := by
  obtain ⟨_, before, after, hsource, _, hstop⟩ := mem_tiles h
  rw [hstop, ← String.utf8Len_toList, hsource, String.utf8Len_append, String.utf8Len_append]
  exact Nat.le_add_right _ _

/-- A token is made of a lexeme of the source, unless it is the end of the input. -/
theorem lexeme_of_mem_tokens {token : Token} (h : token ∈ tokens commands source)
    (hkind : token.kind ≠ .eof) :
    .lexeme token.kind.shape (token.span.lexeme source) ∈ stretches source.toList ∧
      classify commands token.kind.shape (token.span.lexeme source) =
        some (token.kind, token.text) := by
  rw [tokens_eq] at h
  rcases List.mem_append.mp h with h | h
  · obtain ⟨t, ht, htoken⟩ := List.mem_filterMap.mp h
    have hmem := (mem_tiles ht).1
    have hlexeme := lexeme_span ht
    rw [Tile.span_of_token? htoken, hlexeme]
    unfold Tile.token? at htoken
    split at htoken
    · cases htoken
    · next shape text hstretch =>
      rw [hstretch] at hmem ⊢
      obtain ⟨found, hfound, rfl⟩ := Option.map_eq_some_iff.mp htoken
      rw [← (kind_of_classify hmem hfound).2]
      exact ⟨hmem, hfound⟩
  · rw [List.mem_singleton.mp h] at hkind
    exact absurd rfl hkind

/-- A name or a command is a word of the source. -/
theorem word_of_mem_tokens {token : Token} (h : token ∈ tokens commands source)
    (hkind : token.kind = .identifier ∨ token.kind = .command) :
    .lexeme .word (token.span.lexeme source) ∈ stretches source.toList ∧
      classifyWord commands (String.ofList (token.span.lexeme source)) =
        (token.kind, token.text) := by
  have hword : token.kind ≠ .eof ∧ token.kind.shape = .word := by
    rcases hkind with hkind | hkind <;> simp [hkind, Kind.shape]
  obtain ⟨hmem, hfound⟩ := lexeme_of_mem_tokens h hword.1
  rw [hword.2] at hmem hfound
  exact ⟨hmem, Option.some.inj hfound⟩

/-- A token that was read from a tile has a lexeme, which ends before the source does. -/
theorem token_of_tiles {token : Token}
    (h : token ∈ (tiles source).filterMap (Tile.token? commands)) :
    token.kind ≠ .eof ∧ token.span.start < token.span.stop ∧
      token.span.stop ≤ source.utf8ByteSize := by
  obtain ⟨t, ht, htoken⟩ := List.mem_filterMap.mp h
  have hmem := (mem_tiles ht).1
  rw [Tile.span_of_token? htoken]
  refine ⟨?_, span_start_lt_stop ht, span_stop_le ht⟩
  unfold Tile.token? at htoken
  split at htoken
  · cases htoken
  · next shape text hstretch =>
    obtain ⟨found, hfound, rfl⟩ := Option.map_eq_some_iff.mp htoken
    exact (kind_of_classify (hstretch ▸ hmem) hfound).1

/-- The end of the input stands behind the last byte. -/
theorem offset_end (source : String) :
    (Position.start.after source.toList).offset = source.utf8ByteSize := by
  rw [Position.offset_after, String.utf8Len_toList]
  exact Nat.zero_add _

theorem pairwise_tokens (commands : CommandTable) (source : String) :
    (tokens commands source).Pairwise fun a b =>
      a.span.start < b.span.start ∧ a.span.stop ≤ b.span.start := by
  rw [tokens_eq, List.pairwise_append]
  refine ⟨?_, List.pairwise_singleton _ _, fun a ha b hb => ?_⟩
  · rw [List.pairwise_filterMap]
    refine (pairwise_tilesFrom _ _).imp_of_mem fun {a b} ha _ hab token htoken token' htoken' => ?_
    rw [Tile.span_of_token? htoken, Tile.span_of_token? htoken']
    exact ⟨Nat.lt_of_lt_of_le (span_start_lt_stop ha) hab, hab⟩
  · obtain ⟨_, hlt, hle⟩ := token_of_tiles ha
    have hstart : b.span.start = source.utf8ByteSize := by
      rw [List.mem_singleton.mp hb]
      exact offset_end source
    omega

/-- The errors about strings stand where the strings without a closing quote do. -/
theorem spans_of_open_strings (commands : CommandTable) (source : String) :
    ((lexicalErrors commands source).filter fun e => e.fault = .unterminatedString).map
        LexicalError.span =
      ((tokens commands source).filter fun t =>
        t.kind = .string ∧ endsQuoted (t.span.lexeme source) = false).map Token.span := by
  rw [tokens_eq, lexicalErrors_eq, List.filter_append, List.map_append]
  have hend : ∀ span : Span, ([⟨.eof, "", span⟩] : List Token).filter
      (fun t => t.kind = .string ∧ endsQuoted (t.span.lexeme source) = false) = [] := by
    intro span
    simp
  rw [hend, List.map_nil, List.append_nil, List.filter_filterMap, List.filter_filterMap,
    List.map_filterMap, List.map_filterMap]
  refine List.filterMap_congr fun t ht => ?_
  obtain ⟨hmem, _⟩ := mem_tiles ht
  have hlexeme := lexeme_span ht
  -- a tile without a token has no such error, and a string has one if it is open
  cases hstretch : t.stretch with
  | stray c => simp [Tile.error?, Tile.token?, hstretch, Option.filter]
  | lexeme shape text =>
    rw [hstretch] at hmem hlexeme
    by_cases hshape : shape = .string
    · subst hshape
      obtain ⟨inside, rfl⟩ := eq_quote_of_mem_stretches hmem
      cases hclosed : isClosed ('"' :: inside) <;>
        simp [Tile.error?, Tile.token?, hstretch, classify, Option.filter, hlexeme, Stretch.text,
          ← isClosed_quote, hclosed]
    · have herror : t.error? = none := by simp [Tile.error?, hstretch, hshape]
      cases hclass : classify commands shape text with
      | none => simp [herror, Tile.token?, hstretch, hclass]
      | some found =>
        have hkind : found.1 ≠ .string := fun h =>
          hshape ((kind_of_classify hmem hclass).2.trans (congrArg Kind.shape h))
        simp [herror, Tile.token?, hstretch, hclass, Option.filter, hkind]

/-- Only the tile of a character gives a token or an error for it. -/
theorem tile_of_character (commands : CommandTable) {before after : List Char} {c : Char}
    (h : source.toList = before ++ c :: after) :
    let first := utf8Len before
    let last := first + c.utf8Size
    ∃ t ∈ tiles source, t.span.start ≤ first ∧ last ≤ t.span.stop ∧ c ∈ t.stretch.text ∧
      ((tokens commands source).filter fun t => t.span.meets first last) =
        (t.token? commands).toList ∧
      (((lexicalErrors commands source).filter fun e =>
        e.fault ≠ .unterminatedString).filter fun e => e.span.meets first last) =
        (t.error?.filter fun e => e.fault ≠ .unterminatedString).toList := by
  intro first last
  have htext := flatMap_text_stretches source.toList
  rw [h] at htext
  obtain ⟨t, ht, hfilter, hfirst, hlast, hc⟩ := filter_meets_tilesFrom .start htext
  rw [← h] at ht hfilter
  have hoffset : Position.start.offset + utf8Len before = first := Nat.zero_add _
  rw [hoffset] at hfilter hfirst hlast
  have hsize : last ≤ source.utf8ByteSize := by
    rw [← String.utf8Len_toList, h, String.utf8Len_append, String.utf8Len_cons]
    omega
  refine ⟨t, ht, hfirst, hlast, hc, ?_, ?_⟩
  · simp only [tokens_eq, List.filter_append]
    rw [filter_filterMap_span Tile.span_of_token? fun span => span.meets first last]
    unfold tiles
    rw [hfilter]
    -- the end of the input lies behind every character
    have hend : (Span.between (Position.start.after source.toList)
        (Position.start.after source.toList)).meets first last = false := by
      rw [← Bool.not_eq_true, Span.meets_iff]
      have hstart := offset_end source
      simp only [Span.between]
      omega
    cases htoken : t.token? commands <;> simp [htoken, hend]
  · rw [List.filter_comm, lexicalErrors_eq,
      filter_filterMap_span Tile.span_of_error? fun span => span.meets first last]
    unfold tiles
    rw [hfilter]
    cases herror : t.error? with
    | none => simp [herror]
    | some e => by_cases he : e.fault = .unterminatedString <;> simp [herror, he, Option.filter]

/-- A character is in one token, or it is stray, or it is blank and in no token. -/
theorem character_of_source (commands : CommandTable) {before after : List Char} {c : Char}
    (h : source.toList = before ++ c :: after) :
    let first := utf8Len before
    let last := first + c.utf8Size
    let inTokens := (tokens commands source).filter fun t => t.span.meets first last
    let inStrays := ((lexicalErrors commands source).filter fun e =>
      e.fault ≠ .unterminatedString).filter fun e => e.span.meets first last
    (∃ t, inTokens = [t] ∧ t.span.start ≤ first ∧ last ≤ t.span.stop ∧ inStrays = []) ∨
    (∃ e, inStrays = [e] ∧ e.fault = .strayCharacter c ∧ e.span.start = first ∧
      e.span.stop = last ∧ inTokens = []) ∨
    ((c = ' ' ∨ c = '\t' ∨ c = '\r') ∧ inTokens = [] ∧ inStrays = []) := by
  intro first last inTokens inStrays
  obtain ⟨t, ht, hfirst, hlast, hc, htokens, hstrays⟩ := tile_of_character commands h
  obtain ⟨hmem, _⟩ := mem_tiles ht
  simp only [inTokens, inStrays]
  rw [htokens, hstrays]
  cases hstretch : t.stretch with
  | stray d =>
    rw [hstretch] at hc
    obtain rfl : c = d := List.mem_singleton.mp hc
    refine .inr (.inl ⟨⟨.strayCharacter c, t.span⟩, ?_, rfl, ?_⟩)
    · simp [Tile.error?, hstretch, Option.filter]
    · obtain ⟨_, _, _, _, hstart, hstop⟩ := mem_tiles ht
      have hsizes : t.span.stop = t.span.start + c.utf8Size := by
        rw [hstart, hstop, hstretch]
        simp [Stretch.text]
      have hexact : t.span.start = first ∧ t.span.stop = last := by omega
      refine ⟨hexact.1, hexact.2, ?_⟩
      simp [Tile.token?, hstretch]
  | lexeme shape text =>
    have hnone : (t.error?.filter fun e => e.fault ≠ .unterminatedString).toList = [] := by
      by_cases hopen : shape = .string ∧ isClosed text = false <;>
        simp [Tile.error?, hstretch, hopen, Option.filter]
    rw [hnone]
    cases hclass : classify commands shape text with
    | some found =>
      refine .inl ⟨⟨found.1, found.2, t.span⟩, ?_, hfirst, hlast, rfl⟩
      simp [Tile.token?, hstretch, hclass]
    | none =>
      refine .inr (.inr ⟨?_, by simp [Tile.token?, hstretch, hclass], rfl⟩)
      obtain rfl := eq_blank_of_classify hclass
      rw [hstretch] at hmem hc
      have hblank : Shape.isBlank c = true := all_of_mem_stretches hmem rfl c hc
      simpa [Shape.isBlank, or_assoc] using hblank

/-- The tokens of a source tile it.  The last one alone is the end of the input; all others are not
empty, and they follow each other without overlapping.  Every character lies in one token, or it is
one of the stray characters that were recorded, or it is blank and in no token.  The errors about
strings are those of the strings without a closing quote, one for each. -/
theorem tokens_tile_source (commands : CommandTable) (source : String) :
    let found := tokens commands source
    let errors := lexicalErrors commands source
    let strays := errors.filter fun e => e.fault ≠ .unterminatedString
    let size := source.utf8ByteSize
    (∃ body line column, found = body ++ [⟨.eof, "", ⟨size, size, line, column⟩⟩] ∧
      ∀ t ∈ body, t.kind ≠ .eof ∧ t.span.start < t.span.stop) ∧
    (found.Pairwise fun a b => a.span.start < b.span.start ∧ a.span.stop ≤ b.span.start) ∧
    (∀ before c after, source.toList = before ++ c :: after →
      let first := utf8Len before
      let last := first + c.utf8Size
      let inTokens := found.filter fun t => t.span.meets first last
      let inStrays := strays.filter fun e => e.span.meets first last
      (∃ t, inTokens = [t] ∧ t.span.start ≤ first ∧ last ≤ t.span.stop ∧ inStrays = []) ∨
      (∃ e, inStrays = [e] ∧ e.fault = .strayCharacter c ∧ e.span.start = first ∧
        e.span.stop = last ∧ inTokens = []) ∨
      ((c = ' ' ∨ c = '\t' ∨ c = '\r') ∧ inTokens = [] ∧ inStrays = [])) ∧
    (errors.filter fun e => e.fault = .unterminatedString).map LexicalError.span =
      (found.filter fun t =>
        t.kind = .string ∧ endsQuoted (t.span.lexeme source) = false).map Token.span := by
  intro found errors strays size
  refine ⟨?_, pairwise_tokens commands source, fun before c after h => ?_,
    spans_of_open_strings commands source⟩
  · let stop := Position.start.after source.toList
    refine ⟨(tiles source).filterMap (Tile.token? commands), stop.line, stop.column, ?_, ?_⟩
    · have hspan : Span.between stop stop = ⟨size, size, stop.line, stop.column⟩ := by
        simp only [Span.between, stop, offset_end, size]
      rw [← hspan]
      exact tokens_eq commands source
    · intro t ht
      obtain ⟨hkind, hlt, _⟩ := token_of_tiles ht
      exact ⟨hkind, hlt⟩
  · exact character_of_source commands h

/-- The last character of a string that nothing closes, which takes two bytes and stands behind a
stray one. -/
theorem tokens_tile_open_string :
    let source := "~\"é"
    let inTokens := (tokens (.ofList []) source).filter fun t => t.span.meets 2 4
    let inStrays := ((lexicalErrors (.ofList []) source).filter fun e =>
      e.fault ≠ .unterminatedString).filter fun e => e.span.meets 2 4
    source.toList = ['~', '"'] ++ 'é' :: [] ∧
    ((∃ t, inTokens = [t] ∧ t.span.start ≤ 2 ∧ 4 ≤ t.span.stop ∧ inStrays = []) ∨
      ∃ e, inStrays = [e] ∧ e.fault = .strayCharacter 'é' ∧ e.span.start = 2 ∧
        e.span.stop = 4 ∧ inTokens = []) := by
  intro source inTokens inStrays
  have hsource : source.toList = ['~', '"'] ++ 'é' :: [] := by decide
  obtain hin | hstray | ⟨hblank, -⟩ :=
    (tokens_tile_source (.ofList []) source).2.2.1 _ _ _ hsource
  · exact ⟨hsource, .inl hin⟩
  · exact ⟨hsource, .inr hstray⟩
  · exact absurd hblank (by decide)

end FrameBasic
