import FrameBasic.Proofs.Reader.Twins
import FrameBasic.Tree.Parser.Simple

/-!
# Reading on trial

A statement that begins with a name and parentheses may be an assignment or a call, so the reader
tries one way and goes back if it was the wrong one.  Going back restores only the cursor and the
errors.  This is enough because nothing else changes while expressions are read, in whatever state
the reader is: also behind a token that ends the input, where no statement is ever read.

## Main definitions

* `Parser.Trial` — what reading an expression may do to the state.
* `Parser.Tries` — a reader does this.

## Main results

* `Parser.Tries.of_copies` — what reading up to a place may do, for all places.
* `Parser.Trial.rewind_eq` — what was tried can be taken back entirely.
* `Parser.expressions_keep_state` — **reading expressions changes only the cursor and the errors, so
  going back restores the state**.
-/

namespace FrameBasic

namespace Parser

/-- Reading an expression led from `s` to `s'` and recorded the errors `new`. -/
structure Trial (input : Input) (s : State) (new : List ParseError) (s' : State) : Prop where
  /-- It went forward. -/
  cursor_le : s.cursor ≤ s'.cursor
  /-- It passed no token that ends the input. -/
  le_end : ∀ i, s.cursor ≤ i → input.kind i = .eof → s'.cursor ≤ i
  /-- It took back no error. -/
  errors : s'.errors = s.errors ++ new
  /-- It opened no block that could be left open. -/
  closed : ∀ e ∈ new, e.fault.isUnclosed = false
  /-- It declared no name. -/
  scopes : s'.scopes = s.scopes
  /-- It left as many blocks open as it found. -/
  depth : s'.depth = s.depth
  /-- It used up no bound. -/
  exhausted : s'.exhausted = s.exhausted

/-- The reader does what reading an expression may do. -/
def Tries {α : Type} (input : Input) (p : Parser α) : Prop :=
  ∀ s : State, ∃ new, Trial input s new (p input s).2

variable {α β : Type} {input : Input} {s s₁ s₂ : State} {p q : Parser α} {wanted : Kind}

namespace Trial

theorem refl (input : Input) (s : State) : Trial input s [] s :=
  ⟨Nat.le_refl _, fun _ h _ => h, (List.append_nil _).symm, List.forall_mem_nil _, rfl, rfl, rfl⟩

theorem trans {new new' : List ParseError} (h : Trial input s new s₁)
    (h' : Trial input s₁ new' s₂) : Trial input s (new ++ new') s₂ where
  cursor_le := Nat.le_trans h.cursor_le h'.cursor_le
  le_end i hi hk := h'.le_end i (h.le_end i hi hk) hk
  errors := by rw [h'.errors, h.errors, List.append_assoc]
  closed := List.forall_mem_append.mpr ⟨h.closed, h'.closed⟩
  scopes := h'.scopes.trans h.scopes
  depth := h'.depth.trans h.depth
  exhausted := h'.exhausted.trans h.exhausted

/-- Passing the current token. -/
theorem advance (input : Input) (s : State) :
    Trial input s [] { s with cursor := input.after s.cursor } := by
  refine ⟨Input.le_after, fun i hi hk => ?_, (List.append_nil _).symm, List.forall_mem_nil _, rfl,
    rfl, rfl⟩
  show input.after s.cursor ≤ i
  unfold Input.after
  split
  · exact hi
  · next hne =>
    have hdiff : s.cursor ≠ i := fun h => hne (h ▸ hk)
    omega

/-- What was tried can be taken back entirely. -/
theorem rewind_eq {new : List ParseError} (h : Trial input s new s₁) :
    (rewind ⟨s.cursor, s.errors.length⟩ input s₁).2 = s := by
  show { s₁ with cursor := s.cursor, errors := s₁.errors.take s.errors.length } = s
  rw [h.errors, List.take_left, h.scopes, h.depth, h.exhausted]

end Trial

/-! ### Readers -/

/-- What reading up to a place may do, whatever the place is. -/
theorem Tries.of_copies (hp : ∀ {e : Nat} (h : Twins input input e) i, Copies h false true i p) :
    Tries input p := by
  intro s
  have hend : ∀ {i : Nat}, input.kind i = .eof → halts (input.kind i) = true :=
    fun hk => hk ▸ rfl
  -- behind all tokens the input has ended
  have hstop : input.kind (max s.cursor input.tokens.size) = .eof := by
    unfold Input.kind
    rw [Array.getElem?_eq_none (Nat.le_max_right _ _)]
  obtain ⟨hle, -, ⟨new, hnew, hclosed⟩, hkept, -⟩ :=
    hp (.self (hend hstop)) s.cursor s rfl (Nat.le_max_left _ _)
  obtain ⟨hscopes, hdepth, hexhausted⟩ := hkept rfl
  refine ⟨new, hle, fun i hi hk => ?_, hnew, hclosed, hscopes, hdepth, hexhausted⟩
  exact (hp (.self (hend hk)) s.cursor s rfl hi).le_end

/-- A reader that only looks. -/
theorem advance_tries : Tries input advance :=
  fun s => ⟨[], .advance input s⟩

theorem report_tries {fault : Fault} (hf : fault.isUnclosed = false) (span : Span) :
    Tries input (report fault span) :=
  fun _ => ⟨_, Nat.le_refl _, fun _ h _ => h, rfl, by simpa using hf, rfl, rfl, rfl⟩

theorem reportExpected_tries (expected : Expected) : Tries input (reportExpected expected) := by
  exact .of_copies fun _ _ => (Fails.reportExpected .pure).copies

theorem accept_tries : Tries input (accept wanted) := by
  intro s
  by_cases hk : input.kind s.cursor = wanted
  · rw [accept_run_pos hk]
    exact ⟨[], .advance input s⟩
  · rw [accept_run_neg hk]
    exact ⟨[], .refl input s⟩

theorem expect_tries (hw : wanted ≠ .eof) (expected : Expected) :
    Tries input (expect wanted expected) := by
  intro s
  by_cases hk : input.kind s.cursor = wanted
  · obtain ⟨t, ht, hkt⟩ := Input.token_of_kind (hk ▸ hw)
    rw [expect_run_pos ht (hkt.trans hk)]
    exact ⟨[], .advance input s⟩
  · rw [expect_run_neg hk]
    exact reportExpected_tries expected s

theorem typeTag_tries : Tries input typeTag :=
  .of_copies fun _ _ => typeTag_copies

theorem typeName_tries : Tries input typeName :=
  .of_copies fun _ _ => typeName_copies

theorem expression_trial (input : Input) : Tries input expression :=
  .of_copies fun _ _ => expression_copies

theorem parenArgs_trial (input : Input) : Tries input (parenArgs expression) :=
  .of_copies fun _ _ => parenArgs_copies fun _ _ => expression_copies

theorem bareArgs_trial (input : Input) : Tries input (bareArgs expression) :=
  .of_copies fun _ _ => bareArgs_copies fun _ _ => expression_copies

/-! ### Going back -/

/-- Looking for an equals sign behind parentheses leaves everything as it was. -/
theorem assignsAfterParens_eq (input : Input) (s : State) :
    assignsAfterParens input s =
      (decide (input.kind (parenArgs expression input
        { s with cursor := input.after s.cursor }).2.cursor = .equals), s) := by
  let here : State := { s with cursor := input.after s.cursor }
  obtain ⟨new, h⟩ := parenArgs_trial input here
  have hback := ((Trial.advance input s).trans h).rewind_eq
  have hrun : assignsAfterParens input s =
      (decide (input.kind (parenArgs expression input here).2.cursor = .equals),
        (rewind ⟨s.cursor, s.errors.length⟩ input (parenArgs expression input here).2).2) := rfl
  rw [hrun, hback]

theorem assignsAfterParens_stays (s : State) : (assignsAfterParens input s).2 = s := by
  rw [assignsAfterParens_eq]

/-- One reader is tried, and the other one starts where it started unless a look at the next tokens
tells to keep what was read. -/
theorem Trial.run_keepOrRewind {p q : Parser α} {keep : Parser Bool} {new : List ParseError}
    (hp : Trial input s new (p input s).2) (hkeep : ∀ s, (keep input s).2 = s) :
    (do
      let start ← mark
      let a ← p
      if ← keep then return a else do
        rewind start
        q) input s = if (keep input (p input s).2).1 then p input s else q input s := by
  have hrun : (do let start ← mark; let a ← p; if ← keep then return a else do rewind start; q)
      input s = if (keep input (p input s).2).1 then ((p input s).1, (keep input (p input s).2).2)
        else q input (rewind ⟨s.cursor, s.errors.length⟩ input (keep input (p input s).2).2).2 := by
    show (if _ then _ else _ : Parser α) input _ = _
    split
    · rfl
    · rfl
  rw [hrun, hkeep, hp.rewind_eq]
  rfl

/-- Whether the list in parentheses at the current token is all of the arguments: the statement ends
behind it. -/
def parensAreAll (input : Input) (s : State) : Bool :=
  let behind := input.kind (parenArgs expression input s).2.cursor
  decide (input.kind s.cursor = .leftParen) &&
    (behind.isTerminator || decide (behind = .keyword .else_))

/-- The arguments of a statement are read in one of the two ways, and no trace of the other one is
left. -/
theorem statementArgs_eq (input : Input) (s : State) :
    statementArgs input s =
      if parensAreAll input s then parenArgs expression input s
      else bareArgs expression input s := by
  have hrun : statementArgs input s = (if decide (input.kind s.cursor = .leftParen) then do
      let m ← mark
      let args ← parenArgs expression
      if ← (do return (← atStatementEnd) || (← checkWord .else_)) then
        return args
      else do
        rewind m
        bareArgs expression
    else bareArgs expression : Parser (List Expr)) input s := rfl
  rw [hrun]
  unfold parensAreAll
  cases decide (input.kind s.cursor = .leftParen) with
  | false => rfl
  | true =>
    obtain ⟨new, h⟩ := parenArgs_trial input s
    exact h.run_keepOrRewind fun _ => rfl

/-- Reading an expression, or arguments with or without parentheses, changes nothing but the cursor
and the errors, in any state: errors are only added, and the cursor goes forward to no further than
the end of the input.  So going back restores the state, and both readers that try something leave
no trace of what they tried. -/
theorem expressions_keep_state (input : Input) (s : State) :
    (∀ s' ∈ [(expression input s).2, (parenArgs expression input s).2,
        (bareArgs expression input s).2],
      s'.scopes = s.scopes ∧ s'.depth = s.depth ∧ s'.exhausted = s.exhausted ∧
      s.errors <+: s'.errors ∧ s.cursor ≤ s'.cursor ∧
      (∀ i, s.cursor ≤ i → input.kind i = .eof → s'.cursor ≤ i) ∧
      (rewind ⟨s.cursor, s.errors.length⟩ input s').2 = s) ∧
    (assignsAfterParens input s).2 = s ∧
    statementArgs input s =
      if parensAreAll input s then parenArgs expression input s
      else bareArgs expression input s := by
  have hkeep : ∀ {new : List ParseError} {s' : State}, Trial input s new s' →
      s'.scopes = s.scopes ∧ s'.depth = s.depth ∧ s'.exhausted = s.exhausted ∧
      s.errors <+: s'.errors ∧ s.cursor ≤ s'.cursor ∧
      (∀ i, s.cursor ≤ i → input.kind i = .eof → s'.cursor ≤ i) ∧
      (rewind ⟨s.cursor, s.errors.length⟩ input s').2 = s :=
    fun h => ⟨h.scopes, h.depth, h.exhausted, ⟨_, h.errors.symm⟩, h.cursor_le, h.le_end,
      h.rewind_eq⟩
  obtain ⟨_, hexpression⟩ := expression_trial input s
  obtain ⟨_, hparen⟩ := parenArgs_trial input s
  obtain ⟨_, hbare⟩ := bareArgs_trial input s
  refine ⟨?_, assignsAfterParens_stays s, statementArgs_eq input s⟩
  simp only [List.forall_mem_cons]
  exact ⟨hkeep hexpression, hkeep hparen, hkeep hbare, List.forall_mem_nil _⟩

end Parser

end FrameBasic
