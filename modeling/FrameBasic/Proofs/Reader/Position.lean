import FrameBasic.Tree.Parser.State

/-!
# Where a reader can stand

A reader stands before a token up to the first one that ends the input, or behind the last token if
no token does.  Every way of moving on goes forward and stays in this range.

## Main definitions

* `Parser.Input.stop` — the last place where a reader can stand.
* `Parser.looking` — a reader that changes nothing.

## Main results

* `Parser.Input.kind_eq_eof_iff` — among the places of a reader, the input ends only at the last
  one.
* `Parser.Input.skipWhile_stops` — skipping ends because its condition fails, and not for want of
  tokens.
* `Parser.Input.recover_le_stop`, `Parser.Input.le_recover` — recovery goes forward in the range.
-/

namespace FrameBasic.Parser.Input

variable (input : Input)

/-- The index of the first token that ends the input, or the number of tokens if there is none. -/
def stop : Nat :=
  input.tokens.toList.findIdx fun token => token.kind = .eof

variable {input} {i : Nat}

theorem stop_le_size : input.stop ≤ input.tokens.size :=
  List.findIdx_le_length

theorem kind_stop : input.kind input.stop = .eof := by
  unfold kind
  rcases Nat.lt_or_ge input.stop input.tokens.size with h | h
  · have hfound : decide (input.tokens[input.stop].kind = .eof) = true :=
      List.findIdx_getElem (w := h)
    rw [Array.getElem?_eq_getElem h]
    exact of_decide_eq_true hfound
  · rw [Array.getElem?_eq_none h]

theorem kind_ne_eof (h : i < input.stop) : input.kind i ≠ .eof := by
  have hsize : i < input.tokens.size := Nat.lt_of_lt_of_le h stop_le_size
  have hbefore := List.not_of_lt_findIdx h
  unfold kind
  rw [Array.getElem?_eq_getElem hsize]
  simpa using hbefore

theorem kind_eq_eof_iff (h : i ≤ input.stop) : input.kind i = .eof ↔ i = input.stop := by
  constructor
  · intro hk
    rcases Nat.lt_or_eq_of_le h with hlt | heq
    · exact absurd hk (kind_ne_eof hlt)
    · exact heq
  · rintro rfl
    exact kind_stop

theorem lt_stop (h : i ≤ input.stop) (hk : input.kind i ≠ .eof) : i < input.stop :=
  Nat.lt_of_le_of_ne h fun heq => hk ((kind_eq_eof_iff h).mpr heq)

theorem kind_of_token {t : Token} (h : input.tokens[i]? = some t) : input.kind i = t.kind := by
  unfold kind
  rw [h]

theorem lt_stop_of_token {token : Token} (h : i ≤ input.stop) (ht : input.tokens[i]? = some token)
    (hk : token.kind ≠ .eof) : i < input.stop := by
  refine lt_stop h ?_
  unfold kind
  rw [ht]
  exact hk

/-- Where the input has not ended, there is a token. -/
theorem token_of_kind (h : input.kind i ≠ .eof) :
    ∃ t, input.tokens[i]? = some t ∧ t.kind = input.kind i := by
  unfold kind at h ⊢
  cases ht : input.tokens[i]? with
  | none => rw [ht] at h; exact absurd rfl h
  | some t => exact ⟨t, rfl, rfl⟩

theorem lt_size_of_token {t : Token} (h : input.tokens[i]? = some t) : i < input.tokens.size := by
  obtain ⟨hi, _⟩ := Array.getElem?_eq_some_iff.mp h
  exact hi

theorem lt_size_of_kind (h : input.kind i ≠ .eof) : i < input.tokens.size := by
  obtain ⟨t, ht, _⟩ := token_of_kind h
  exact lt_size_of_token ht

/-- The tokens left, and one more, are enough rounds for a loop that passes a token in each. -/
theorem stop_lt_add_left (i : Nat) : input.stop < i + (input.left i + 1) := by
  have hsize : input.stop ≤ input.tokens.size := stop_le_size
  unfold left
  omega

/-! ### The next token -/

theorem le_after : i ≤ input.after i := by
  unfold after
  split <;> omega

theorem after_of_lt (h : i < input.stop) : input.after i = i + 1 := by
  unfold after
  rw [if_neg (kind_ne_eof h)]

theorem after_le_stop (h : i ≤ input.stop) : input.after i ≤ input.stop := by
  rcases Nat.lt_or_eq_of_le h with hlt | rfl
  · rw [after_of_lt hlt]
    exact hlt
  · have hstay : input.after input.stop = input.stop := if_pos kind_stop
    exact Nat.le_of_eq hstay

/-! ### Skipping -/

theorem le_skipWhile (p : Kind → Bool) : i ≤ input.skipWhile p i := by
  suffices h : ∀ count i, i ≤ input.skipWhileUpTo p count i from h _ i
  intro count
  induction count with
  | zero => intro i; exact Nat.le_refl i
  | succ count ih =>
    intro i
    unfold skipWhileUpTo
    split
    · exact Nat.le_trans (Nat.le_succ i) (ih (i + 1))
    · exact Nat.le_refl i

/-- Nothing is skipped where the condition fails. -/
theorem skipWhile_self {p : Kind → Bool} (h : p (input.kind i) = false) :
    input.skipWhile p i = i := by
  unfold skipWhile
  cases input.left i with
  | zero => rfl
  | succ n => rw [skipWhileUpTo, if_neg (by rw [h]; exact Bool.false_ne_true)]

/-- Skipping ends in the range, at a token where the condition fails. -/
theorem skipWhile_stops {p : Kind → Bool} (hp : p .eof = false) (h : i ≤ input.stop) :
    input.skipWhile p i ≤ input.stop ∧ p (input.kind (input.skipWhile p i)) = false := by
  -- the count is large enough, so the loop never ends because it is used up
  suffices key : ∀ count i, i ≤ input.stop → input.stop ≤ i + count →
      input.skipWhileUpTo p count i ≤ input.stop ∧
        p (input.kind (input.skipWhileUpTo p count i)) = false by
    refine key _ i h ?_
    have hleft : input.stop < i + (input.left i + 1) := stop_lt_add_left i
    omega
  intro count
  induction count with
  | zero =>
    intro i hi hcount
    have hend : i = input.stop := Nat.le_antisymm hi hcount
    unfold skipWhileUpTo
    exact ⟨hi, by rw [hend, kind_stop, hp]⟩
  | succ count ih =>
    intro i hi hcount
    unfold skipWhileUpTo
    split
    · next hpi =>
      have hne : input.kind i ≠ .eof := by
        intro hk
        rw [hk, hp] at hpi
        exact Bool.noConfusion hpi
      exact ih (i + 1) (lt_stop hi hne) (by omega)
    · next hpi => exact ⟨hi, by simpa using hpi⟩

/-! ### Recovery -/

theorem le_recover : i ≤ input.recover i := by
  have hskip : i + 1 ≤ input.skipWhile (fun kind => !isRecoveryPoint kind) (i + 1) :=
    le_skipWhile _
  unfold recover
  dsimp only
  split <;> split <;> omega

theorem recover_le_stop (h : i ≤ input.stop) : input.recover i ≤ input.stop := by
  -- a separator is not the end of the input, so the token after it is in the range
  have hnext : ∀ j, j ≤ input.stop →
      (if (input.kind j).isSeparator then j + 1 else j) ≤ input.stop := by
    intro j hj
    split
    · next hsep =>
      refine lt_stop hj fun hk => ?_
      rw [hk] at hsep
      exact Bool.noConfusion hsep
    · exact hj
  refine hnext _ ?_
  split
  · exact h
  · next hk =>
    have hlt : i < input.stop := lt_stop h fun heof => hk (Or.inl heof)
    exact (skipWhile_stops rfl hlt).1

/-! ### Closers -/

/-- A closer begins with a token that does not end the input. -/
theorem lt_stop_of_closesWith {closer : Closer} (h : i ≤ input.stop)
    (hc : input.closesWith i closer = true) : i < input.stop := by
  refine lt_stop h fun hk => ?_
  cases closer <;> simp [closesWith, hk] at hc

end FrameBasic.Parser.Input

/-! ### Single steps -/

namespace FrameBasic.Parser

variable {α β : Type} {input : Input} {s : State}

/-- A reader that only looks at the tokens and at the state. -/
abbrev looking (g : Input → State → α) : Parser α :=
  fun input s => (g input s, s)

theorem run_bind (p : Parser α) (f : α → Parser β) (s : State) :
    (p >>= f) input s = f (p input s).1 input (p input s).2 :=
  rfl

/-- A reader that leaves the state as it is, and another one after it. -/
theorem run_look {a : α} {q : Parser α} {f : α → Parser β} (h : q input s = (a, s)) :
    (q >>= f) input s = f a input s := by
  rw [run_bind, h]

/-- A word that begins a statement is passed. -/
theorem run_word {f : Nat → Parser α} (hk : input.kind s.cursor ≠ .eof) :
    (do let start ← cursor; advance; f start : Parser α) input s =
      f s.cursor input { s with cursor := s.cursor + 1 } := by
  show f s.cursor input { s with cursor := input.after s.cursor } = _
  rw [Input.after, if_neg hk]

theorem accept_run_pos {wanted : Kind} (h : input.kind s.cursor = wanted) :
    accept wanted input s = (true, { s with cursor := input.after s.cursor }) := by
  show (if decide (input.kind s.cursor = wanted) = true then advance >>= fun _ => pure true
    else pure false : Parser Bool) input s = _
  rw [if_pos (decide_eq_true h)]
  rfl

theorem accept_run_neg {wanted : Kind} (h : input.kind s.cursor ≠ wanted) :
    accept wanted input s = (false, s) := by
  show (if decide (input.kind s.cursor = wanted) = true then advance >>= fun _ => pure true
    else pure false : Parser Bool) input s = _
  rw [if_neg (by simpa using h)]
  rfl

/-- One error is recorded where something is missing. -/
theorem reportExpected_run (input : Input) (expected : Expected) (s : State) : ∃ e,
    reportExpected expected input s = ((), { s with errors := s.errors ++ [e] }) := by
  unfold reportExpected
  rw [run_look (show currentSpan input s = (input.spanAt s.cursor, s) from rfl)]
  rw [run_look (show peek? input s = (input.tokens[s.cursor]?, s) from rfl)]
  cases input.tokens[s.cursor]? with
  | none => exact ⟨_, rfl⟩
  | some token =>
    dsimp only
    split
    · exact ⟨_, rfl⟩
    · exact ⟨_, rfl⟩

/-- Where what is wanted stands. -/
theorem expect_run_pos {wanted : Kind} {expected : Expected} {t : Token}
    (ht : input.tokens[s.cursor]? = some t) (hkt : t.kind = wanted) :
    expect wanted expected input s = (some t, { s with cursor := input.after s.cursor }) := by
  unfold expect
  rw [run_look (show peek? input s = (some t, s) from congrArg (·, s) ht)]
  dsimp only
  rw [if_pos hkt]
  rfl

/-- Where something else stands than what is wanted. -/
theorem expect_run_neg {wanted : Kind} {expected : Expected} (hk : input.kind s.cursor ≠ wanted) :
    expect wanted expected input s = (none, (reportExpected expected input s).2) := by
  unfold expect
  cases ht : input.tokens[s.cursor]? with
  | none =>
    rw [run_look (show peek? input s = (none, s) from congrArg (·, s) ht)]
    rfl
  | some t =>
    rw [run_look (show peek? input s = (some t, s) from congrArg (·, s) ht)]
    dsimp only
    rw [if_neg fun hkt => hk ((Input.kind_of_token ht).trans hkt)]
    rfl

end FrameBasic.Parser
