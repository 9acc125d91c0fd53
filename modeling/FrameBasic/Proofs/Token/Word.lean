import FrameBasic.Proofs.Token.Tiling

/-!
# Texts that are written word by word

A text of words with blanks between them, and line feeds between the lines, is cut at just these
places.  So its tokens are the words and the line feeds.

## Main definitions

* `Shape.Whole` — a text is one lexeme of a shape.
* `Word` — a text that is one lexeme, with the kind and the text of its token.
* `Item` — a word or a line feed.
* `spell` — the text of some items, with blanks between words.

## Main results

* `longest?_of_whole` — a whole numeral or word is the longest lexeme.
* `stretches_spell` — a text is cut between its items.
* `items_tokens_spell`, `lexicalErrors_spell` — **the tokens of a text are its items**, and nothing is
  wrong in it.
-/

namespace FrameBasic

variable {cs tail rest : List Char} {c d : Char} {n : Nat} {shape : Shape}

/-! ### One shape -/

/-- A shape that all others match less of is the longest lexeme. -/
theorem longest?_eq_of_lt (hshape : shape ∈ Shape.all) (hmatch : shape.matchLength cs = n)
    (hpos : 0 < n) (hothers : ∀ other ∈ Shape.all, other ≠ shape → other.matchLength cs < n) :
    longest? cs = some (shape, n) := by
  -- the search holds something shorter before the shape, and the shape from there on
  have hfold : ∀ (shapes : List Shape) (best : Option (Shape × Nat)),
      (∀ other ∈ shapes, other ≠ shape → other.matchLength cs < n) →
      ((∀ found, best = some found → found.2 < n) ∧ shape ∈ shapes ∨ best = some (shape, n)) →
      shapes.foldl (fun best shape =>
        let n := shape.matchLength cs
        betterMatch best (if n = 0 then none else some (shape, n))) best = some (shape, n) := by
    intro shapes
    induction shapes with
    | nil =>
      intro best _ h
      rcases h with ⟨_, h⟩ | h
      · cases h
      · exact h
    | cons first more ih =>
      intro best hless h
      refine ih _ (fun other hother => hless other (List.mem_cons_of_mem _ hother)) ?_
      dsimp only
      by_cases hfirst : first = shape
      · subst hfirst
        rw [hmatch, if_neg (by omega)]
        right
        rcases h with ⟨hbest, _⟩ | rfl
        · cases best with
          | none => rfl
          | some found =>
            unfold betterMatch
            dsimp only
            rw [if_pos (hbest found rfl)]
        · unfold betterMatch
          dsimp only
          rw [if_neg (Nat.lt_irrefl _)]
      · have hfirst' := hless first List.mem_cons_self hfirst
        rcases h with ⟨hbest, hmem⟩ | rfl
        · left
          refine ⟨fun found hfound => ?_, (List.mem_cons.mp hmem).resolve_left (Ne.symm hfirst)⟩
          rcases betterMatch_eq_some hfound with h | h
          · exact hbest found h
          · split at h
            · cases h
            · cases h
              exact hfirst'
        · right
          split
          · rfl
          · unfold betterMatch
            dsimp only
            rw [if_neg (by omega)]
  exact hfold Shape.all none hothers (.inl ⟨(fun _ h => nomatch h), hshape⟩)

/-! ### First characters -/

/-- Whether a lexeme of the shape can begin with a character. -/
def Shape.begins (c : Char) : Shape → Bool
  | .blank => isBlank c
  | .comment => c == ';'
  | .integer => c.isDigit
  | .float => c.isDigit || c == '.'
  | .hex => c == '$'
  | .string => c == '"'
  | .word => Text.isWordStart c
  | .label => c == '.'
  | .mark kind => (markText kind).head? == some c

theorem runLength_cons_eq_zero {p : Char → Bool} (h : p c = false) : runLength p (c :: tail) = 0 := by
  simp [runLength, h]

theorem Shape.matchLength_eq_zero (hmem : shape ∈ all) (h : shape.begins c = false) :
    shape.matchLength (c :: tail) = 0 := by
  cases shape with
  | blank | integer => exact runLength_cons_eq_zero h
  | comment | hex | string | word | label =>
    simp_all [begins, matchLength, stringLength, wordLength, labelLength]
  | float =>
    obtain ⟨hdigit, hpoint⟩ := Bool.or_eq_false_iff.mp h
    have hpoint : c ≠ '.' := by simpa using hpoint
    simp [matchLength, floatLength, runLength_cons_eq_zero hdigit, hpoint]
  | mark kind =>
    have hbegins : (markText kind).isPrefixOf (c :: tail) = false := by
      have hne : ∀ kind ∈ marks, markText kind ≠ [] := by decide
      cases htext : markText kind with
      | nil => exact absurd htext (hne kind (by simpa [all] using hmem))
      | cons m more =>
        have hm : m ≠ c := by simpa [begins, htext] using h
        simp [List.isPrefixOf, hm]
    simp [matchLength, hbegins]

/-- A shape that matches more than all others that can begin so is the longest lexeme. -/
theorem longest?_eq_of_begins (hshape : shape ∈ Shape.all)
    (hmatch : shape.matchLength (c :: tail) = n) (hpos : 0 < n)
    (hothers : ∀ other ∈ Shape.all, other.begins c = true → other ≠ shape →
      other.matchLength (c :: tail) < n) : longest? (c :: tail) = some (shape, n) := by
  refine longest?_eq_of_lt hshape hmatch hpos fun other hother hne => ?_
  cases hbegins : other.begins c with
  | true => exact hothers other hother hbegins hne
  | false =>
    rw [Shape.matchLength_eq_zero hother hbegins]
    exact hpos

/-- The only shape that can begin so is the longest lexeme. -/
theorem longest?_eq_of_only (hshape : shape ∈ Shape.all)
    (hmatch : shape.matchLength (c :: tail) = n) (hpos : 0 < n)
    (honly : ∀ other ∈ Shape.all, other.begins c = true → other = shape) :
    longest? (c :: tail) = some (shape, n) :=
  longest?_eq_of_begins hshape hmatch hpos fun other hother hbegins hne =>
    absurd (honly other hother hbegins) hne

theorem isWordPart_of_isWordStart (h : Text.isWordStart c = true) : Text.isWordPart c = true := by
  unfold Text.isWordPart Char.isAlphanum
  rcases Bool.or_eq_true_iff.mp h with h | h <;> simp [h]

theorem isWordPart_of_isDigit (h : c.isDigit = true) : Text.isWordPart c = true := by
  unfold Text.isWordPart Char.isAlphanum
  simp [h]

theorem isDigit_eq_false_of_isWordStart (h : Text.isWordStart c = true) : c.isDigit = false := by
  cases hdigit : c.isDigit with
  | false => rfl
  | true =>
    unfold Char.isDigit at hdigit
    unfold Text.isWordStart Char.isAlpha Char.isUpper Char.isLower at h
    simp only [Bool.or_eq_true, Bool.and_eq_true, decide_eq_true_eq, beq_iff_eq,
      UInt32.le_iff_toNat_le, ge_iff_le] at h hdigit
    have hlast : '9'.val.toNat = 57 := rfl
    have hupper : 'A'.val.toNat = 65 := rfl
    have hlower : 'a'.val.toNat = 97 := rfl
    have hunder : '_'.val.toNat = 95 := rfl
    rcases h with (h | h) | rfl <;> omega

/-- Only words and numbers begin with a letter, a digit or an underscore. -/
theorem Shape.begins_of_isWordPart (h : Text.isWordPart c = true) (hmem : shape ∈ all)
    (hbegins : shape.begins c = true) : shape ∈ [.integer, .float, .word] := by
  have hchar : ∀ m : Char, Text.isWordPart m = false → c ≠ m := by
    rintro m hm rfl
    rw [h] at hm
    cases hm
  cases shape with
  | integer | float | word => decide
  | blank => simp [begins, isBlank, hchar ' ' rfl, hchar '\t' rfl, hchar '\r' rfl] at hbegins
  | comment => simp [begins, hchar ';' rfl] at hbegins
  | hex => simp [begins, hchar '$' rfl] at hbegins
  | string => simp [begins, hchar '"' rfl] at hbegins
  | label => simp [begins, hchar '.' rfl] at hbegins
  | mark kind =>
    have hmarks : ∀ kind ∈ marks, ((markText kind).head?.any Text.isWordPart) = false := by decide
    have hfalse := hmarks kind (by simpa [all] using hmem)
    rw [beq_iff_eq.mp hbegins, Option.any_some, h] at hfalse
    cases hfalse

/-! ### Whole texts -/

/-- The text is one lexeme of the shape. -/
def Shape.Whole (shape : Shape) (cs : List Char) : Prop :=
  cs ≠ [] ∧ shape.matchLength cs = cs.length

instance (shape : Shape) (cs : List Char) : Decidable (shape.Whole cs) :=
  inferInstanceAs (Decidable (_ ∧ _))

theorem Shape.Whole.begins (hmem : shape ∈ all) (h : shape.Whole (c :: tail)) :
    shape.begins c = true := by
  cases hbegins : shape.begins c with
  | true => rfl
  | false =>
    have hzero := h.2
    rw [matchLength_eq_zero hmem hbegins] at hzero
    cases hzero

/-- A whole word is the longest lexeme. -/
theorem longest?_of_word (h : Shape.word.Whole cs) : longest? cs = some (.word, cs.length) := by
  cases cs with
  | nil => exact absurd rfl h.1
  | cons c tail =>
    have hstart : Text.isWordStart c = true := h.begins (by decide)
    have hdigit := isDigit_eq_false_of_isWordStart hstart
    have hpoint : c ≠ '.' := by
      rintro rfl
      cases hstart
    refine longest?_eq_of_only (by decide) h.2 (Nat.succ_pos _) fun other hother hbegins => ?_
    have hfew := Shape.begins_of_isWordPart (isWordPart_of_isWordStart hstart) hother hbegins
    simp only [List.mem_cons, List.not_mem_nil, or_false] at hfew
    rcases hfew with rfl | rfl | rfl
    · rw [Shape.begins, hdigit] at hbegins
      cases hbegins
    · simp [Shape.begins, hdigit, hpoint] at hbegins
    · rfl

/-- Digits alone are no number with a point or an exponent. -/
theorem floatLength_of_integer (h : runLength Char.isDigit cs = cs.length) : floatLength cs = 0 := by
  simp [floatLength, h, exponentLength]

/-- What can begin where a number begins. -/
theorem Shape.begins_of_isDigit (hdigit : c.isDigit = true) (hmem : shape ∈ all)
    (hbegins : shape.begins c = true) : shape = .integer ∨ shape = .float := by
  have hfew := begins_of_isWordPart (isWordPart_of_isDigit hdigit) hmem hbegins
  simp only [List.mem_cons, List.not_mem_nil, or_false] at hfew
  rcases hfew with h | h | rfl
  · exact .inl h
  · exact .inr h
  · have hnone := isDigit_eq_false_of_isWordStart hbegins
    rw [hdigit] at hnone
    cases hnone

theorem longest?_of_integer (h : Shape.integer.Whole cs) :
    longest? cs = some (.integer, cs.length) := by
  cases cs with
  | nil => exact absurd rfl h.1
  | cons c tail =>
    have hdigit : c.isDigit = true := h.begins (by decide)
    refine longest?_eq_of_begins (by decide) h.2 (Nat.succ_pos _) fun other hother hbegins hne => ?_
    rcases Shape.begins_of_isDigit hdigit hother hbegins with rfl | rfl
    · exact absurd rfl hne
    · have hzero : Shape.float.matchLength (c :: tail) = 0 := floatLength_of_integer h.2
      rw [hzero]
      exact Nat.succ_pos _

theorem longest?_of_hex (h : Shape.hex.Whole cs) : longest? cs = some (.hex, cs.length) := by
  cases cs with
  | nil => exact absurd rfl h.1
  | cons c tail =>
    obtain rfl : c = '$' := beq_iff_eq.mp (h.begins (by decide))
    exact longest?_eq_of_only (by decide) h.2 (Nat.succ_pos _) (by decide)

theorem longest?_of_float (h : Shape.float.Whole cs) : longest? cs = some (.float, cs.length) := by
  have hfloat : floatLength cs = cs.length := h.2
  have hinteger : runLength Char.isDigit cs < cs.length := by
    refine Nat.lt_of_le_of_ne (runLength_le _ _) fun heq => h.1 ?_
    rw [floatLength_of_integer heq] at hfloat
    exact List.length_eq_zero_iff.mp hfloat.symm
  cases cs with
  | nil => exact absurd rfl h.1
  | cons c tail =>
    refine longest?_eq_of_begins (by decide) h.2 (Nat.succ_pos _) fun other hother hbegins hne => ?_
    cases hdigit : c.isDigit with
    | true =>
      rcases Shape.begins_of_isDigit hdigit hother hbegins with rfl | rfl
      · exact hinteger
      · exact absurd rfl hne
    | false =>
      -- a point, with a digit behind it
      have hc : c = '.' := by
        have hbegins : (c.isDigit || c == '.') = true := h.begins (by decide)
        simpa [hdigit] using hbegins
      subst hc
      have hplaces : runLength Char.isDigit tail ≠ 0 := by
        intro hnone
        have hwhole : runLength Char.isDigit ('.' :: tail) = 0 := runLength_cons_eq_zero hdigit
        simp [floatLength, hwhole, hnone] at hfloat
      obtain ⟨d, more, rfl, hd⟩ : ∃ d more, tail = d :: more ∧ d.isDigit = true := by
        cases tail with
        | nil => exact absurd rfl hplaces
        | cons d more =>
          refine ⟨d, more, rfl, ?_⟩
          cases hd : d.isDigit with
          | true => rfl
          | false => exact absurd (runLength_cons_eq_zero hd) hplaces
      have hothers : ∀ other ∈ Shape.all, other.begins '.' = true →
          other = .float ∨ other = .label ∨ other = .mark .range := by decide
      rcases hothers other hother hbegins with rfl | rfl | rfl
      · exact absurd rfl hne
      · have hstart : Text.isWordStart d = false := by
          cases hstart : Text.isWordStart d with
          | false => rfl
          | true =>
            rw [isDigit_eq_false_of_isWordStart hstart] at hd
            cases hd
        simp [Shape.matchLength, labelLength, hstart]
      · have hpoint : '.' ≠ d := by
          rintro rfl
          cases hd
        simp [Shape.matchLength, markText, List.isPrefixOf, hpoint]

/-! ### Texts in quotes -/

/-- The text is a string with its closing quote. -/
def IsQuoted (cs : List Char) : Prop :=
  ∃ inside, cs = '"' :: (inside ++ ['"']) ∧ ∀ c ∈ inside, c ≠ '"' ∧ c ≠ '\n'

/-- A string ends at its closing quote. -/
theorem stringLength_quoted {inside : List Char} (h : ∀ c ∈ inside, c ≠ '"' ∧ c ≠ '\n')
    (rest : List Char) : stringLength ('"' :: (inside ++ '"' :: rest)) = inside.length + 2 := by
  have hinside : runLength (fun c => c != '"' && c != '\n') (inside ++ '"' :: rest) =
      inside.length := by
    unfold runLength
    rw [List.takeWhile_append_of_pos]
    · simp
    · intro c hc
      simp [h c hc]
  simp only [stringLength, hinside, List.drop_left]

theorem longest?_of_string (h : IsQuoted cs) : longest? cs = some (.string, cs.length) := by
  obtain ⟨inside, rfl, hinside⟩ := h
  have hlength : ('"' :: (inside ++ ['"'])).length = inside.length + 2 := by simp
  rw [hlength]
  exact longest?_eq_of_only (by decide) (stringLength_quoted hinside []) (Nat.succ_pos _) (by decide)

/-! ### Words -/

/-- A text that is one lexeme, with the kind and the text of its token. -/
structure Word (commands : CommandTable) where
  /-- The text. -/
  chars : List Char
  /-- The shape of the lexeme. -/
  shape : Shape
  /-- The kind of the token. -/
  kind : Kind
  /-- The text of the token. -/
  text : String
  /-- The text is one lexeme. -/
  lexeme : longest? chars = some (shape, chars.length)
  /-- It does not go on behind a blank. -/
  closed : shape ≠ .blank ∧ shape ≠ .comment ∧ (shape = .string → IsQuoted chars)
  /-- It has this token. -/
  classified : classify commands shape chars = some (kind, text)

namespace Word

variable {commands : CommandTable} (w : Word commands)

theorem whole : w.shape.Whole w.chars := by
  obtain ⟨_, hmatch, hpos⟩ := longest?_eq_some w.lexeme
  exact ⟨List.ne_nil_of_length_pos hpos, hmatch⟩

/-- A word begins with a character that begins no blank and no comment. -/
theorem begins {c : Char} {tail : List Char} (h : w.chars = c :: tail) :
    Shape.isBlank c = false ∧ c ≠ ';' ∧ (c = '"' → w.shape = .string) := by
  have hmem := (longest?_eq_some w.lexeme).1
  have hbegins : w.shape.begins c = true := Shape.Whole.begins hmem (h ▸ w.whole)
  have hblank : ∀ c ∈ [' ', '\t', '\r'], ∀ shape ∈ Shape.all, shape.begins c = true →
      shape = .blank := by
    rw [List.forall_mem_cons, List.forall_mem_cons, List.forall_mem_singleton]
    decide
  have hcomment : ∀ shape ∈ Shape.all, shape.begins ';' = true → shape = .comment := by decide
  have hstring : ∀ shape ∈ Shape.all, shape.begins '"' = true → shape = .string := by decide
  refine ⟨?_, ?_, ?_⟩
  · cases hc : Shape.isBlank c with
    | false => rfl
    | true =>
      have hc : c ∈ [' ', '\t', '\r'] := by simpa [Shape.isBlank, or_assoc] using hc
      exact absurd (hblank c hc w.shape hmem hbegins) w.closed.1
  · rintro rfl
    exact w.closed.2.1 (hcomment w.shape hmem hbegins)
  · rintro rfl
    exact hstring w.shape hmem hbegins

/-- A word is cut off before a blank or a line feed. -/
theorem longest?_append {d : Char} (hd : d = ' ' ∨ d = '\n') (rest : List Char) :
    longest? (w.chars ++ d :: rest) = some (w.shape, w.chars.length) := by
  obtain ⟨c, tail, hchars⟩ := List.exists_cons_of_ne_nil w.whole.1
  obtain ⟨hblank, hcomment, hstring⟩ := w.begins hchars
  have hmatch : ∀ shape : Shape,
      shape.matchLength (w.chars ++ d :: rest) = shape.matchLength w.chars := by
    intro shape
    cases shape with
    | integer => exact runLength_isDigit_append hd _
    | float => exact floatLength_append hd
    | hex => exact Shape.matchLength_hex_append hd w.whole.1
    | word => exact wordLength_append hd w.whole.1
    | label => exact labelLength_append hd
    | mark kind => simp only [Shape.matchLength, markText_isPrefixOf_append kind hd w.whole.1]
    | blank =>
      rw [hchars, List.cons_append]
      exact (runLength_cons_eq_zero hblank).trans (runLength_cons_eq_zero hblank).symm
    | comment =>
      rw [hchars]
      simp [Shape.matchLength, hcomment]
    | string =>
      by_cases hquote : c = '"'
      · obtain ⟨inside, hquoted, hinside⟩ := w.closed.2.2 (hstring hquote)
        have hjoined : w.chars ++ d :: rest = '"' :: (inside ++ '"' :: d :: rest) := by
          simp [hquoted]
        rw [hjoined, hquoted]
        exact (stringLength_quoted hinside _).trans (stringLength_quoted hinside []).symm
      · rw [hchars]
        simp [Shape.matchLength, stringLength, hquote]
  rw [← w.lexeme]
  unfold longest?
  simp only [hmatch]

/-- A blank before a word is a lexeme of its own. -/
theorem longest?_blank (rest : List Char) :
    longest? (' ' :: (w.chars ++ rest)) = some (.blank, 1) := by
  obtain ⟨c, tail, hchars⟩ := List.exists_cons_of_ne_nil w.whole.1
  obtain ⟨hblank, -⟩ := w.begins hchars
  have hone : Shape.blank.matchLength (' ' :: (w.chars ++ rest)) = 1 := by
    show ((' ' :: (w.chars ++ rest)).takeWhile Shape.isBlank).length = 1
    rw [hchars, List.cons_append, List.takeWhile_cons_of_pos rfl,
      List.takeWhile_cons_of_neg (by rw [hblank]; decide)]
    rfl
  exact longest?_eq_of_only (by decide) hone Nat.one_pos (by decide)

/-- A word is no comment. -/
theorem kind_ne_comment : w.kind ≠ .comment := by
  have hmem := (longest?_eq_some w.lexeme).1
  have hclass := w.classified
  intro hkind
  rw [hkind] at hclass
  cases hshape : w.shape with
  | word =>
    rw [hshape] at hclass
    have hword := congrArg Prod.fst (Option.some.inj hclass)
    unfold classifyWord at hword
    dsimp only at hword
    split at hword
    · cases hword
    · split at hword <;> cases hword
  | comment => exact w.closed.2.1 hshape
  | mark kind =>
    rw [hshape] at hclass hmem
    obtain rfl : kind = .comment := congrArg Prod.fst (Option.some.inj hclass)
    exact absurd hmem (by decide)
  | _ =>
    rw [hshape] at hclass
    cases hclass

end Word

/-! ### Items -/

/-- A word or a line feed. -/
inductive Item (commands : CommandTable) where
  | word (w : Word commands)
  | newline

variable {commands : CommandTable}

namespace Item

/-- The kind of the token. -/
def kind : Item commands → Kind
  | .word w => w.kind
  | .newline => .newline

/-- The text of the token. -/
def text : Item commands → String
  | .word w => w.text
  | .newline => "\n"

theorem kind_ne_comment (m : Item commands) : m.kind ≠ .comment := by
  cases m with
  | word w => exact w.kind_ne_comment
  | newline => exact fun h => nomatch h

end Item

/-- The blank between a word and what follows it, where that is a word. -/
def gap : List (Item commands) → List Char
  | .word _ :: _ => [' ']
  | _ => []

/-- The text of some items, with blanks between words. -/
def spell : List (Item commands) → List Char
  | [] => []
  | .newline :: rest => '\n' :: spell rest
  | .word w :: rest => w.chars ++ (gap rest ++ spell rest)

/-- The lexemes of some items. -/
def cut : List (Item commands) → List Stretch
  | [] => []
  | .newline :: rest => .lexeme (.mark .newline) ['\n'] :: cut rest
  | .word w :: rest =>
    .lexeme w.shape w.chars :: ((gap rest).map fun c => .lexeme .blank [c]) ++ cut rest

theorem stretches_cons {c : Char} {shape : Shape} {text rest : List Char}
    (h : longest? (c :: text ++ rest) = some (shape, text.length + 1)) :
    stretches (c :: text ++ rest) = .lexeme shape (c :: text) :: stretches rest := by
  rw [List.cons_append] at h ⊢
  rw [stretches_of_some h, Nat.add_sub_cancel, List.take_left, List.drop_left]

theorem stretches_word (w : Word commands) {rest : List Char}
    (h : longest? (w.chars ++ rest) = some (w.shape, w.chars.length)) :
    stretches (w.chars ++ rest) = .lexeme w.shape w.chars :: stretches rest := by
  obtain ⟨c, tail, hchars⟩ := List.exists_cons_of_ne_nil w.whole.1
  rw [hchars] at h ⊢
  exact stretches_cons h

/-- A text is cut between its items. -/
theorem stretches_spell (ms : List (Item commands)) : stretches (spell ms) = cut ms := by
  induction ms with
  | nil =>
    rw [spell, stretches.eq_def]
    rfl
  | cons m rest ih =>
    cases m with
    | newline =>
      rw [spell, cut, ← ih]
      exact stretches_of_some (longest?_newline _)
    | word w =>
      rw [spell, cut, ← ih]
      cases rest with
      | nil =>
        have hend : longest? (w.chars ++ []) = some (w.shape, w.chars.length) := by
          rw [List.append_nil]
          exact w.lexeme
        exact stretches_word w hend
      | cons next more =>
        cases next with
        | newline => exact stretches_word w (w.longest?_append (.inr rfl) _)
        | word w' =>
          refine (stretches_word w (w.longest?_append (.inl rfl) _)).trans ?_
          exact congrArg _ (stretches_of_some (w'.longest?_blank _))

/-! ### Tokens -/

/-- The kind and the text of the token that a stretch gives. -/
def Stretch.item? (commands : CommandTable) : Stretch → Option (Kind × String)
  | .lexeme shape text => classify commands shape text
  | .stray _ => none

/-- Kind and text of the tokens do not depend on the places. -/
theorem items_tokens (commands : CommandTable) (source : String) :
    (tokens commands source).map (fun t => (t.kind, t.text)) =
      (stretches source.toList).filterMap (Stretch.item? commands) ++ [(.eof, "")] := by
  have htiles : ∀ (place : Position) (ss : List Stretch),
      ((tilesFrom place ss).filterMap (Tile.token? commands)).map (fun t => (t.kind, t.text)) =
        ss.filterMap (Stretch.item? commands) := by
    intro place ss
    induction ss generalizing place with
    | nil => rfl
    | cons stretch rest ih =>
      rw [tilesFrom, List.filterMap_cons, List.filterMap_cons]
      cases stretch with
      | stray c => exact ih _
      | lexeme shape text =>
        simp only [Tile.token?, Stretch.item?]
        cases classify commands shape text with
        | none => exact ih _
        | some found => exact congrArg _ (ih _)
  rw [tokens_eq, List.map_append, tiles, htiles]
  rfl

/-- The tokens of a text are its items. -/
theorem items_tokens_spell (ms : List (Item commands)) :
    (tokens commands (String.ofList (spell ms))).map (fun t => (t.kind, t.text)) =
      ms.map (fun m => (m.kind, m.text)) ++ [(.eof, "")] := by
  have hcut : (cut ms).filterMap (Stretch.item? commands) = ms.map fun m => (m.kind, m.text) := by
    induction ms with
    | nil => rfl
    | cons m rest ih =>
      cases m with
      | newline => exact congrArg _ ih
      | word w =>
        have hgap : ((gap rest).map fun c => Stretch.lexeme .blank [c]).filterMap
            (Stretch.item? commands) = [] := by
          unfold gap
          split <;> rfl
        rw [cut, List.filterMap_append, List.filterMap_cons, hgap]
        simp only [Stretch.item?, w.classified, List.nil_append, List.map_cons, Item.kind,
          Item.text, List.cons_append, ih]
  rw [items_tokens, String.toList_ofList, stretches_spell, hcut]

theorem isClosed_of_isQuoted {cs : List Char} (h : IsQuoted cs) : isClosed cs = true := by
  obtain ⟨inside, rfl, -⟩ := h
  simp [isClosed, List.getLast?_cons]

/-- Nothing is wrong in a text of items. -/
theorem lexicalErrors_spell (ms : List (Item commands)) :
    lexicalErrors commands (String.ofList (spell ms)) = [] := by
  have hclosed : ∀ stretch ∈ cut ms, ∃ shape text, stretch = .lexeme shape text ∧
      (shape = .string → isClosed text = true) := by
    induction ms with
    | nil => exact List.forall_mem_nil _
    | cons m rest ih =>
      cases m with
      | newline => exact List.forall_mem_cons.mpr ⟨⟨_, _, rfl, fun h => nomatch h⟩, ih⟩
      | word w =>
        have hgap : ∀ stretch ∈ (gap rest).map fun c => Stretch.lexeme .blank [c],
            ∃ shape text, stretch = .lexeme shape text ∧
              (shape = .string → isClosed text = true) := by
          refine List.forall_mem_map.mpr fun c _ => ⟨_, _, rfl, fun h => nomatch h⟩
        refine List.forall_mem_append.mpr ⟨List.forall_mem_cons.mpr ⟨?_, hgap⟩, ih⟩
        exact ⟨w.shape, w.chars, rfl, fun h => isClosed_of_isQuoted (w.closed.2.2 h)⟩
  rw [lexicalErrors_eq, List.filterMap_eq_nil_iff]
  intro t ht
  have hmem := (mem_tiles ht).1
  rw [String.toList_ofList, stretches_spell] at hmem
  obtain ⟨shape, text, hstretch, htext⟩ := hclosed t.stretch hmem
  unfold Tile.error?
  rw [hstretch]
  refine if_neg fun h => ?_
  rw [htext h.1] at h
  cases h.2

end FrameBasic
