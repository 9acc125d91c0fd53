import FrameBasic.Token.Lexeme

/-!
# Lexemes and the ends of lines

What is cut off a text is the longest match of one of the shapes, so a stretch of the source is a
stray character, or it has the form of its shape.  No shape looks across a line feed: before one, a
text is cut as if it ended there.

## Main results

* `longest?_eq_some` — the longest lexeme is a match of one of the shapes.
* `eq_stray_or_lexeme` — what a stretch of the source can be.
* `Shape.matchLength_append_newline` — a match ends before a line feed.
* `stretches_append_newline` — **a text is cut line by line**.
* `stretches_eq_upTo` — a text is cut in at most as many steps as it has characters.
-/

namespace FrameBasic

/-! ### Lengths of matches -/

theorem runLength_le (p : Char → Bool) (cs : List Char) : runLength p cs ≤ cs.length :=
  (List.takeWhile_sublist p).length_le

theorem exponentLength_le (cs : List Char) : exponentLength cs ≤ cs.length := by
  unfold exponentLength
  split
  · next c rest =>
    have hrest := runLength_le Char.isDigit rest
    split
    · split
      · next sign digits =>
        have hdigits := runLength_le Char.isDigit digits
        simp only [List.length_cons] at hrest ⊢
        split <;> split <;> omega
      · exact Nat.zero_le _
    · exact Nat.zero_le _
  · exact Nat.zero_le _

theorem floatLength_le (cs : List Char) : floatLength cs ≤ cs.length := by
  unfold floatLength
  extract_lets whole
  have hrest : (cs.drop whole).length = cs.length - whole := List.length_drop
  split
  · next after hdrop =>
    extract_lets places
    have hplaces : places ≤ after.length := runLength_le Char.isDigit after
    have hexponent := exponentLength_le (after.drop places)
    rw [hdrop, List.length_cons] at hrest
    rw [List.length_drop] at hexponent
    split <;> omega
  · have hexponent := exponentLength_le (cs.drop whole)
    split <;> omega

theorem stringLength_le (cs : List Char) : stringLength cs ≤ cs.length := by
  unfold stringLength
  split
  · next rest =>
    extract_lets inside
    have hinside : inside ≤ rest.length := runLength_le _ rest
    have hdrop : (rest.drop inside).length = rest.length - inside := List.length_drop
    rw [List.length_cons]
    split
    · next heq =>
      rw [heq, List.length_cons] at hdrop
      omega
    · omega
  · exact Nat.zero_le _

theorem wordLength_le (cs : List Char) : wordLength cs ≤ cs.length := by
  unfold wordLength
  split
  · next c rest =>
    split
    · extract_lets inside
      have hinside : inside ≤ rest.length := runLength_le _ rest
      have hdrop : (rest.drop inside).length = rest.length - inside := List.length_drop
      rw [List.length_cons]
      split
      · next heq =>
        rw [heq, List.length_cons] at hdrop
        split <;> omega
      · omega
    · exact Nat.zero_le _
  · exact Nat.zero_le _

theorem labelLength_le (cs : List Char) : labelLength cs ≤ cs.length := by
  unfold labelLength
  split
  · next c rest =>
    have hrest := runLength_le Text.isWordPart rest
    simp only [List.length_cons]
    split <;> omega
  · exact Nat.zero_le _

theorem Shape.matchLength_le (shape : Shape) (cs : List Char) :
    shape.matchLength cs ≤ cs.length := by
  unfold matchLength
  split
  · exact runLength_le _ _
  · split
    · next rest =>
      have hrest := runLength_le (· != '\n') rest
      rw [List.length_cons]
      omega
    · exact Nat.zero_le _
  · exact runLength_le _ _
  · exact floatLength_le _
  · split
    · next rest =>
      have hrest := runLength_le Text.isHexDigit rest
      rw [List.length_cons]
      split <;> omega
    · exact Nat.zero_le _
  · exact stringLength_le _
  · exact wordLength_le _
  · exact labelLength_le _
  · split
    · next hbegins => exact (List.isPrefixOf_iff_prefix.mp hbegins).length_le
    · exact Nat.zero_le _

/-! ### The longest match -/

theorem betterMatch_eq_some {a b : Option (Shape × Nat)} {found : Shape × Nat}
    (h : betterMatch a b = some found) : a = some found ∨ b = some found := by
  unfold betterMatch at h
  split at h
  · exact .inr h
  · exact .inl h
  · split at h
    · exact .inr h
    · exact .inl h

/-- The longest lexeme is a match of one of the shapes, and not empty. -/
theorem longest?_eq_some {cs : List Char} {shape : Shape} {n : Nat}
    (h : longest? cs = some (shape, n)) :
    shape ∈ Shape.all ∧ shape.matchLength cs = n ∧ 0 < n := by
  -- what the search holds was a match of a shape that it has seen
  have hfold : ∀ (shapes : List Shape) (best : Option (Shape × Nat)),
      shapes.foldl (fun best shape =>
        let n := shape.matchLength cs
        betterMatch best (if n = 0 then none else some (shape, n))) best = some (shape, n) →
      best = some (shape, n) ∨ (shape ∈ shapes ∧ shape.matchLength cs = n ∧ 0 < n) := by
    intro shapes
    induction shapes with
    | nil => exact fun best hbest => .inl hbest
    | cons first rest ih =>
      intro best hbest
      rcases ih _ hbest with hfound | ⟨hmem, hmatch⟩
      · rcases betterMatch_eq_some hfound with hfound | hfound
        · exact .inl hfound
        · split at hfound
          · cases hfound
          · next hpos =>
            cases hfound
            exact .inr ⟨List.mem_cons_self, rfl, Nat.pos_of_ne_zero hpos⟩
      · exact .inr ⟨List.mem_cons_of_mem _ hmem, hmatch⟩
  rcases hfold Shape.all none h with hnone | hfound
  · cases hnone
  · exact hfound

/-- A stretch of the source is a stray character, or the match of a shape at its place. -/
theorem eq_stray_or_lexeme {cs : List Char} {stretch : Stretch} (h : stretch ∈ stretches cs) :
    (∃ c, stretch = .stray c) ∨
      ∃ shape ∈ Shape.all, ∃ rest, 0 < shape.matchLength rest ∧
        stretch = .lexeme shape (rest.take (shape.matchLength rest)) := by
  fun_induction stretches cs with
  | case1 => exact absurd h List.not_mem_nil
  | case2 c rest _ ih =>
    rcases List.mem_cons.mp h with rfl | h
    · exact .inl ⟨c, rfl⟩
    · exact ih h
  | case3 c rest shape n hlongest ih =>
    obtain ⟨hshape, hmatch, hpos⟩ := longest?_eq_some hlongest
    rcases List.mem_cons.mp h with rfl | h
    · refine .inr ⟨shape, hshape, c :: rest, hmatch ▸ hpos, ?_⟩
      obtain ⟨k, rfl⟩ := Nat.exists_eq_add_of_lt hpos
      rw [hmatch, Nat.zero_add, List.take_succ_cons, Nat.add_sub_cancel]
    · exact ih h

/-! ### Blanks and line feeds

Only blanks, comments and strings go across a blank, and nothing goes across a line feed. -/

variable {cs rest : List Char} {d : Char}

theorem runLength_append {p : Char → Bool} (hp : p d = false) :
    runLength p (cs ++ d :: rest) = runLength p cs := by
  unfold runLength
  rw [List.takeWhile_append]
  split
  · next hall => simp [hp, hall]
  · rfl

theorem drop_runLength_append (p : Char → Bool) (more : List Char) :
    (cs ++ more).drop (runLength p cs) = cs.drop (runLength p cs) ++ more :=
  List.drop_append_of_le_length (runLength_le p cs)

theorem runLength_isDigit_append (hd : d = ' ' ∨ d = '\n') (digits : List Char) :
    runLength Char.isDigit (digits ++ d :: rest) = runLength Char.isDigit digits := by
  refine runLength_append ?_
  rcases hd with rfl | rfl <;> rfl

theorem runLength_isWordPart_append (hd : d = ' ' ∨ d = '\n') (part : List Char) :
    runLength Text.isWordPart (part ++ d :: rest) = runLength Text.isWordPart part := by
  refine runLength_append ?_
  rcases hd with rfl | rfl <;> rfl

theorem exponentLength_append (hd : d = ' ' ∨ d = '\n') :
    exponentLength (cs ++ d :: rest) = exponentLength cs := by
  have hdigits : ∀ digits, runLength Char.isDigit (digits ++ d :: rest) =
      runLength Char.isDigit digits := runLength_isDigit_append hd
  cases cs with
  | nil => rcases hd with rfl | rfl <;> rfl
  | cons c tail =>
    cases tail with
    | nil =>
      have hnone : runLength Char.isDigit (d :: rest) = 0 := hdigits []
      have hsign : ¬(d = '+' ∨ d = '-') := by rcases hd with rfl | rfl <;> decide
      simp [exponentLength, hnone, hsign]
    | cons sign digits =>
      have hsign := hdigits (sign :: digits)
      simp only [List.cons_append] at hsign
      simp only [exponentLength, List.cons_append, hdigits, hsign]

theorem floatLength_append (hd : d = ' ' ∨ d = '\n') :
    floatLength (cs ++ d :: rest) = floatLength cs := by
  have hdigits : ∀ digits, runLength Char.isDigit (digits ++ d :: rest) =
      runLength Char.isDigit digits := runLength_isDigit_append hd
  unfold floatLength
  simp only [hdigits, drop_runLength_append]
  cases hdrop : cs.drop (runLength Char.isDigit cs) with
  | nil =>
    have hnone : exponentLength ([] ++ d :: rest) = exponentLength [] := exponentLength_append hd
    have hpoint : d ≠ '.' := by rcases hd with rfl | rfl <;> decide
    rw [List.nil_append] at hnone ⊢
    simp [hnone, hpoint]
  | cons c tail =>
    by_cases hc : c = '.'
    · subst hc
      simp only [List.cons_append, hdigits, drop_runLength_append, exponentLength_append hd]
    · have hexponent : exponentLength (c :: tail ++ d :: rest) = exponentLength (c :: tail) :=
        exponentLength_append hd
      rw [List.cons_append] at hexponent ⊢
      simp [hc, hexponent]

theorem wordLength_append (hd : d = ' ' ∨ d = '\n') (h : cs ≠ []) :
    wordLength (cs ++ d :: rest) = wordLength cs := by
  cases cs with
  | nil => exact absurd rfl h
  | cons c tail =>
    have hmarker : ¬(d = '%' ∨ d = '#' ∨ d = '$') := by rcases hd with rfl | rfl <;> decide
    simp only [wordLength, List.cons_append, runLength_isWordPart_append hd, drop_runLength_append]
    cases tail.drop (runLength Text.isWordPart tail) with
    | nil => simp [hmarker]
    | cons marker more => rfl

theorem labelLength_append (hd : d = ' ' ∨ d = '\n') :
    labelLength (cs ++ d :: rest) = labelLength cs := by
  match cs with
  | [] => rcases hd with rfl | rfl <;> rfl
  | [c] =>
    by_cases hc : c = '.'
    · subst hc
      rcases hd with rfl | rfl <;> rfl
    · simp [labelLength, hc]
  | c :: d' :: more =>
    by_cases hc : c = '.'
    · subst hc
      simp only [labelLength, List.cons_append, runLength_isWordPart_append hd]
    · simp [labelLength, hc]

/-- A mark that a text begins with does not reach beyond a blank or a line feed. -/
theorem markText_isPrefixOf_append (kind : Kind) (hd : d = ' ' ∨ d = '\n') (h : cs ≠ []) :
    (markText kind).isPrefixOf (cs ++ d :: rest) = (markText kind).isPrefixOf cs := by
  match cs with
  | [] => exact absurd rfl h
  | [c] => rcases hd with rfl | rfl <;> cases kind <;> simp [markText, List.isPrefixOf]
  | c :: d' :: more => cases kind <;> simp [markText, List.isPrefixOf]

/-- A dollar sign and digits do not reach beyond a blank or a line feed. -/
theorem Shape.matchLength_hex_append (hd : d = ' ' ∨ d = '\n') (h : cs ≠ []) :
    Shape.hex.matchLength (cs ++ d :: rest) = Shape.hex.matchLength cs := by
  cases cs with
  | nil => exact absurd rfl h
  | cons c tail =>
    have htail : runLength Text.isHexDigit (tail ++ d :: rest) = runLength Text.isHexDigit tail := by
      refine runLength_append ?_
      rcases hd with rfl | rfl <;> rfl
    by_cases hc : c = '$'
    · subst hc
      simp only [matchLength, List.cons_append, htail]
    · simp [matchLength, hc]

theorem stringLength_append_newline (h : cs ≠ []) :
    stringLength (cs ++ '\n' :: rest) = stringLength cs := by
  cases cs with
  | nil => exact absurd rfl h
  | cons c tail =>
    have hinside : runLength (fun c => c != '"' && c != '\n') (tail ++ '\n' :: rest) =
        runLength (fun c => c != '"' && c != '\n') tail := runLength_append rfl
    by_cases hc : c = '"'
    · subst hc
      simp only [stringLength, List.cons_append, hinside, drop_runLength_append]
      cases tail.drop (runLength (fun c => c != '"' && c != '\n') tail) with
      | nil => rfl
      | cons d more =>
        by_cases hd : d = '"'
        · subst hd
          rfl
        · simp [hd]
    · simp [stringLength, hc]

/-- A match ends before a line feed. -/
theorem Shape.matchLength_append_newline (shape : Shape) (h : cs ≠ []) :
    shape.matchLength (cs ++ '\n' :: rest) = shape.matchLength cs := by
  cases shape with
  | blank => exact runLength_append rfl
  | comment =>
    cases cs with
    | nil => exact absurd rfl h
    | cons c tail =>
      have htail : runLength (· != '\n') (tail ++ '\n' :: rest) = runLength (· != '\n') tail :=
        runLength_append rfl
      by_cases hc : c = ';'
      · subst hc
        simp only [matchLength, List.cons_append, htail]
      · simp [matchLength, hc]
  | integer => exact runLength_append rfl
  | float => exact floatLength_append (.inr rfl)
  | hex => exact matchLength_hex_append (.inr rfl) h
  | string => exact stringLength_append_newline h
  | word => exact wordLength_append (.inr rfl) h
  | label => exact labelLength_append (.inr rfl)
  | mark kind =>
    simp only [matchLength, markText_isPrefixOf_append kind (.inr rfl) h]

theorem longest?_append_newline (h : cs ≠ []) (rest : List Char) :
    longest? (cs ++ '\n' :: rest) = longest? cs := by
  unfold longest?
  simp only [Shape.matchLength_append_newline _ h]

/-- At a line feed, what follows does not matter. -/
theorem Shape.matchLength_newline (shape : Shape) (rest : List Char) :
    shape.matchLength ('\n' :: rest) = shape.matchLength ['\n'] := by
  cases shape with
  | mark kind => cases kind <;> rfl
  | _ => rfl

theorem longest?_newline (rest : List Char) :
    longest? ('\n' :: rest) = some (.mark .newline, 1) := by
  have halone : longest? ['\n'] = some (.mark .newline, 1) := by decide +kernel
  unfold longest? at halone ⊢
  simpa only [Shape.matchLength_newline _ rest] using halone

theorem stretches_of_none {c : Char} (h : longest? (c :: cs) = none) :
    stretches (c :: cs) = .stray c :: stretches cs := by
  rw [stretches.eq_def]
  simp only [h]

theorem stretches_of_some {c : Char} {shape : Shape} {n : Nat}
    (h : longest? (c :: cs) = some (shape, n)) :
    stretches (c :: cs) =
      .lexeme shape (c :: cs.take (n - 1)) :: stretches (cs.drop (n - 1)) := by
  rw [stretches.eq_def]
  simp only [h]

/-- A text is cut line by line: the lexemes before a line feed are those of the text that ends
there, and those behind it are those of the text that begins there. -/
theorem stretches_append_newline (cs rest : List Char) :
    stretches (cs ++ '\n' :: rest) =
      stretches cs ++ .lexeme (.mark .newline) ['\n'] :: stretches rest := by
  fun_induction stretches cs with
  | case1 => exact stretches_of_some (longest?_newline rest)
  | case2 c tail hlongest ih =>
    have hjoined := longest?_append_newline (List.cons_ne_nil c tail) rest
    rw [hlongest] at hjoined
    rw [List.cons_append] at hjoined ⊢
    rw [stretches_of_none hjoined, ih, List.cons_append]
  | case3 c tail shape n hlongest ih =>
    have hjoined := longest?_append_newline (List.cons_ne_nil c tail) rest
    have hle : n - 1 ≤ tail.length := by
      have hmatch := shape.matchLength_le (c :: tail)
      rw [(longest?_eq_some hlongest).2.1, List.length_cons] at hmatch
      omega
    rw [hlongest] at hjoined
    rw [List.cons_append] at hjoined ⊢
    rw [stretches_of_some hjoined, List.take_append_of_le_length hle,
      List.drop_append_of_le_length hle, ih, List.cons_append]

/-! ### A bounded cut -/

/-- The first stretch of a text, and what is left behind it. -/
def nextStretch? : List Char → Option (Stretch × List Char)
  | [] => none
  | c :: rest =>
    match longest? (c :: rest) with
    | none => some (.stray c, rest)
    | some (shape, n) => some (.lexeme shape (c :: rest.take (n - 1)), rest.drop (n - 1))

/-- The stretches of a text, as many as the bound allows.  Unlike `stretches` it computes in the
kernel. -/
def stretchesUpTo : Nat → List Char → List Stretch
  | 0, _ => []
  | bound + 1, cs =>
    match nextStretch? cs with
    | none => []
    | some (stretch, rest) => stretch :: stretchesUpTo bound rest

theorem stretches_eq_next (cs : List Char) : stretches cs =
    match nextStretch? cs with
    | none => []
    | some (stretch, rest) => stretch :: stretches rest := by
  rw [stretches.eq_def]
  unfold nextStretch?
  cases cs with
  | nil => rfl
  | cons c rest =>
    dsimp only
    cases longest? (c :: rest) <;> rfl

theorem length_of_nextStretch? {rest : List Char} {stretch : Stretch}
    (h : nextStretch? cs = some (stretch, rest)) : rest.length < cs.length := by
  unfold nextStretch? at h
  cases cs with
  | nil => cases h
  | cons c tail =>
    dsimp only at h
    cases hlongest : longest? (c :: tail) with
    | none =>
      rw [hlongest] at h
      cases h
      exact Nat.lt_succ_self _
    | some found =>
      rw [hlongest] at h
      cases h
      rw [List.length_drop, List.length_cons]
      omega

/-- Every stretch takes a character, so a bound that is as large as the text is no bound. -/
theorem stretches_eq_upTo {bound : Nat} (h : cs.length ≤ bound) :
    stretches cs = stretchesUpTo bound cs := by
  induction bound generalizing cs with
  | zero =>
    rw [List.length_eq_zero_iff.mp (Nat.le_zero.mp h), stretches.eq_def]
    rfl
  | succ bound ih =>
    rw [stretches_eq_next, stretchesUpTo]
    cases hnext : nextStretch? cs with
    | none => rfl
    | some found =>
      have hshorter := length_of_nextStretch? hnext
      dsimp only
      rw [ih (by omega)]

end FrameBasic
