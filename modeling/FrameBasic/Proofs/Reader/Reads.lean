import FrameBasic.Proofs.Reader.Position

/-!
# What readers do

Every reader goes forward, stays in the input, adds to the recorded errors, each at a place of the
tokens, leaves as many blocks and scopes open as it found, and never uses up the bound of a loop.
This is stated once, as a judgement about readers that also says which results come with which
errors, and the judgement follows the way in which readers are built.

An inner reader is bounded by the number of tokens behind the one it starts at, so the judgement is
relative to a token from which the reader is good: passing a token is what allows to call a reader
that is good from the next one on.

## Main definitions

* `Parser.Input.Marks` — a place of the tokens.
* `Parser.Effect` — what reading may do to the declared names.
* `Parser.Reached` — what reading may do to the state.
* `Parser.Reads` — the judgement; `Parser.Starts` is the same where a token is left.

## Main results

* `Parser.Reads.bind` — one reader after the other.
* `Parser.Reads.bounded` — a loop is given enough rounds.
* `Parser.separated_reads`, `Parser.collect_reads` — lists.
-/

namespace FrameBasic.Parser

/-- The place goes from a token up to another one. -/
def Input.Marks (input : Input) (span : Span) : Prop :=
  ∃ i j, span = input.spanFrom i j

theorem Input.marks_spanAt (input : Input) (i : Nat) : input.Marks (input.spanAt i) := by
  refine ⟨i, i, ?_⟩
  unfold spanFrom
  split
  · rfl
  · next first hfirst => simp [spanAt, hfirst]

theorem Input.marks_token {input : Input} {token : Token} (h : token ∈ input.tokens) :
    input.Marks token.span := by
  obtain ⟨i, hi⟩ := Array.getElem?_of_mem h
  have hspan : input.spanAt i = token.span := by simp [spanAt, hi]
  exact hspan ▸ input.marks_spanAt i

/-- What reading may do to the declared names. -/
inductive Effect where
  /-- Nothing. -/
  | none
  /-- Declare names in the open scopes. -/
  | names

/-- Whether the effect leads from some scopes to others. -/
def Effect.Allows : Effect → Scopes → Scopes → Prop
  | .none, before, after => after = before
  | .names, before, after => after.depth = before.depth

theorem Effect.Allows.refl (k : Effect) (scopes : Scopes) : k.Allows scopes scopes := by
  cases k <;> rfl

theorem Effect.Allows.trans {k : Effect} {a b c : Scopes} (hab : k.Allows a b)
    (hbc : k.Allows b c) : k.Allows a c := by
  cases k
  · exact Eq.trans hbc hab
  · exact Eq.trans hbc hab

/-- Reading led from `s` to `s'` and recorded the errors `new`. -/
structure Reached (k : Effect) (input : Input) (s : State) (new : List ParseError) (s' : State) :
    Prop where
  /-- It went forward. -/
  cursor_le : s.cursor ≤ s'.cursor
  /-- It stayed in the input. -/
  cursor_le_stop : s'.cursor ≤ input.stop
  /-- It took back no error. -/
  errors : s'.errors = s.errors ++ new
  /-- It recorded errors at places of the tokens. -/
  marks : ∀ e ∈ new, input.Marks e.span
  /-- It left as many scopes open as it found. -/
  scopes : k.Allows s.scopes s'.scopes
  /-- It left as many blocks open as it found. -/
  depth : s'.depth = s.depth
  /-- It used up no bound. -/
  exhausted : s'.exhausted = s.exhausted

/-- From the token `m` on, the reader does what reading may do, and `Q` holds of its result and the
errors that it records. -/
def Reads {α : Type} (k : Effect) (input : Input) (m : Nat) (p : Parser α)
    (Q : α → List ParseError → Prop) : Prop :=
  ∀ s : State, m ≤ s.cursor → s.cursor ≤ input.stop →
    ∃ new, Reached k input s new (p input s).2 ∧ Q (p input s).1 new

/-- As `Reads`, at a token that does not end the input. -/
def Starts {α : Type} (k : Effect) (input : Input) (m : Nat) (p : Parser α)
    (Q : α → List ParseError → Prop) : Prop :=
  ∀ s : State, m ≤ s.cursor → s.cursor < input.stop →
    ∃ new, Reached k input s new (p input s).2 ∧ Q (p input s).1 new

/-- As `Starts`, at the token `i`. -/
def StartsAt {α : Type} (k : Effect) (input : Input) (m i : Nat) (p : Parser α)
    (Q : α → List ParseError → Prop) : Prop :=
  ∀ s : State, s.cursor = i → m ≤ i → i < input.stop →
    ∃ new, Reached k input s new (p input s).2 ∧ Q (p input s).1 new

variable {α β : Type} {k : Effect} {input : Input} {m i : Nat} {s s₁ s₂ : State}
variable {p q : Parser α} {f : α → Parser β} {g : Input → State → α}
variable {Q : α → List ParseError → Prop} {R : β → List ParseError → Prop}

namespace Reached

theorem refl (h : s.cursor ≤ input.stop) : Reached k input s [] s :=
  ⟨Nat.le_refl _, h, (List.append_nil _).symm, List.forall_mem_nil _, .refl k _, rfl, rfl⟩

theorem trans {new new' : List ParseError} (h : Reached k input s new s₁)
    (h' : Reached k input s₁ new' s₂) : Reached k input s (new ++ new') s₂ where
  cursor_le := Nat.le_trans h.cursor_le h'.cursor_le
  cursor_le_stop := h'.cursor_le_stop
  errors := by rw [h'.errors, h.errors, List.append_assoc]
  marks := List.forall_mem_append.mpr ⟨h.marks, h'.marks⟩
  scopes := h.scopes.trans h'.scopes
  depth := h'.depth.trans h.depth
  exhausted := h'.exhausted.trans h.exhausted

/-- Going on to another token. -/
theorem move {i : Nat} (h : s.cursor ≤ i) (hi : i ≤ input.stop) :
    Reached k input s [] { s with cursor := i } :=
  ⟨h, hi, (List.append_nil _).symm, List.forall_mem_nil _, .refl k _, rfl, rfl⟩

end Reached

/-! ### Building readers -/

theorem Reads.imp {Q' : α → List ParseError → Prop} (h : Reads k input m p Q)
    (hQ : ∀ a new, Q a new → Q' a new) : Reads k input m p Q' := by
  intro s hs hstop
  obtain ⟨new, hr, hq⟩ := h s hs hstop
  exact ⟨new, hr, hQ _ _ hq⟩

theorem Reads.later {m' : Nat} (h : Reads k input m p Q) (hm : m ≤ m') : Reads k input m' p Q :=
  fun s hs hstop => h s (Nat.le_trans hm hs) hstop

theorem Reads.pure {a : α} (h : Q a []) : Reads k input m (pure a) Q :=
  fun _ _ hstop => ⟨[], .refl hstop, h⟩

/-- Nothing is read any more, after errors that were recorded before. -/
theorem Reads.done {a : α} {before : List ParseError} (h : Q a before) :
    Reads k input m (Pure.pure a) fun b new => Q b (before ++ new) := by
  refine .pure ?_
  rw [List.append_nil]
  exact h

/-- What one reader reached, another one goes on from. -/
theorem Reads.go_on {new : List ParseError}
    (hp : Reads k input m p fun a new' => Q a (new ++ new')) (hr : Reached k input s new s₁)
    (hs : m ≤ s.cursor) :
    ∃ all, Reached k input s all (p input s₁).2 ∧ Q (p input s₁).1 all := by
  obtain ⟨new', hr', hq⟩ := hp s₁ (Nat.le_trans hs hr.cursor_le) hr.cursor_le_stop
  exact ⟨new ++ new', hr.trans hr', hq⟩

theorem Reads.bind (hp : Reads k input m p Q)
    (hf : ∀ a new, Q a new → Reads k input m (f a) fun b new' => R b (new ++ new')) :
    Reads k input m (p >>= f) R := by
  intro s hs hstop
  obtain ⟨new, hr, hq⟩ := hp s hs hstop
  have hrest := (hf _ new hq).go_on hr hs
  exact hrest

/-- A reader that records nothing, and another one after it. -/
theorem Reads.silent (hp : Reads k input m p fun _ new => new = [])
    (hf : ∀ a, Reads k input m (f a) R) : Reads k input m (p >>= f) R := by
  refine hp.bind fun a new hnew => ?_
  subst hnew
  exact hf a

theorem Reads.map {g : α → β} (h : Reads k input m p fun a new => R (g a) new) :
    Reads k input m (g <$> p) R :=
  fun s hs hstop => h s hs hstop

theorem run_bind_of_look (hq : ∀ s, (q input s).2 = s) (s : State) :
    (q >>= f) input s = f (q input s).1 input s := by
  show f (q input s).1 input (q input s).2 = f (q input s).1 input s
  rw [hq s]

theorem Reads.starts (h : Reads k input m p Q) : Starts k input m p Q :=
  fun s hs hstop => h s hs (Nat.le_of_lt hstop)

theorem Starts.at (h : Starts k input m p Q) : StartsAt k input m i p Q := by
  rintro s rfl
  exact h s

theorem Starts.bind (hp : Starts k input m p Q)
    (hf : ∀ a new, Q a new → Reads k input m (f a) fun b new' => R b (new ++ new')) :
    Starts k input m (p >>= f) R := by
  intro s hs hstop
  obtain ⟨new, hr, hq⟩ := hp s hs hstop
  have hrest := (hf _ new hq).go_on hr hs
  exact hrest

/-- A reader that only looks, and another one after it. -/
theorem Reads.look (hf : ∀ a, Reads k input m (f a) R) : Reads k input m (looking g >>= f) R :=
  fun s hs hstop => hf _ s hs hstop

theorem Starts.look (hf : ∀ a, Starts k input m (f a) R) : Starts k input m (looking g >>= f) R :=
  fun s hs hstop => hf _ s hs hstop

theorem StartsAt.look (hf : ∀ a, StartsAt k input m i (f a) R) :
    StartsAt k input m i (looking g >>= f) R :=
  fun s hs hm hstop => hf _ s hs hm hstop

/-- The place from a token up to the last one that was read. -/
theorem Reads.span {f : Span → Parser β}
    (hf : ∀ span, input.Marks span → Reads k input m (f span) R) :
    Reads k input m (spanFrom i >>= f) R :=
  fun s hs hstop => hf _ ⟨_, _, rfl⟩ s hs hstop

theorem Reads.read {f : Input → Parser β} (hf : Reads k input m (f input) R) :
    Reads k input m (read >>= f) R :=
  fun s hs hstop => hf s hs hstop

/-! ### Moving on -/

theorem advance_reads : Reads k input m advance fun _ new => new = [] :=
  fun _ _ hs => ⟨[], .move Input.le_after (Input.after_le_stop hs), rfl⟩

theorem takeText_reads : Reads k input m takeText fun _ new => new = [] :=
  fun _ _ hs => ⟨[], .move Input.le_after (Input.after_le_stop hs), rfl⟩

theorem recover_reads : Reads k input m recover fun _ new => new = [] :=
  fun _ _ hs => ⟨[], .move Input.le_recover (Input.recover_le_stop hs), rfl⟩

theorem skipWhile_reads {p : Kind → Bool} (hp : p .eof = false) :
    Reads k input m (skipWhile p) fun _ new => new = [] :=
  fun _ _ hs => ⟨[], .move (Input.le_skipWhile p) (Input.skipWhile_stops hp hs).1, rfl⟩

/-- Passing a token allows to go on with a reader that is good from the next one on. -/
theorem Reads.after_token (hp : Reads k input (m + 1) p Q) (hs : m ≤ s.cursor)
    (hstop : s.cursor < input.stop) :
    ∃ new, Reached k input s new (p input { s with cursor := input.after s.cursor }).2 ∧
      Q (p input { s with cursor := input.after s.cursor }).1 new := by
  rw [Input.after_of_lt hstop]
  obtain ⟨new, hr, hq⟩ := hp { s with cursor := s.cursor + 1 } (Nat.succ_le_succ hs) hstop
  have hmove : Reached k input s [] { s with cursor := s.cursor + 1 } :=
    .move (Nat.le_succ _) hstop
  exact ⟨new, hmove.trans hr, hq⟩

theorem Starts.advance {f : Unit → Parser β} (hf : Reads k input (m + 1) (f ()) R) :
    Starts k input m (advance >>= f) R :=
  fun _ hs hstop => hf.after_token hs hstop

/-- The text of the token at the place. -/
theorem StartsAt.takeText {f : String → Parser β} {token : Token}
    (htoken : input.tokens[i]? = some token) (hf : Reads k input (m + 1) (f token.text) R) :
    StartsAt k input m i (takeText >>= f) R := by
  rintro s rfl hs hstop
  have hrun : (Parser.takeText >>= f) input s =
      f ((input.tokens[s.cursor]?.map Token.text).getD "") input
        { s with cursor := input.after s.cursor } := rfl
  rw [hrun, htoken]
  exact hf.after_token hs hstop

/-! ### Passing at least one token -/

/-- The reader may rely on the place where it starts. -/
theorem Reads.cursor {f : Nat → Parser β} (hf : ∀ i, m ≤ i → Reads k input i (f i) R) :
    Reads k input m (cursor >>= f) R :=
  fun s hs hstop => hf s.cursor hs s (Nat.le_refl _) hstop

theorem Starts.of_lt (h : m < input.stop → Reads k input m p Q) : Starts k input m p Q :=
  fun s hs hstop => h (Nat.lt_of_le_of_lt hs hstop) s hs (Nat.le_of_lt hstop)

/-- If nothing was read since a token, that token is passed. -/
theorem passFrom_reached {i : Nat} (hi : i < input.stop) (hs : i ≤ s.cursor)
    (hstop : s.cursor ≤ input.stop) :
    Reached k input s [] (passFrom i input s).2 ∧ i < (passFrom i input s).2.cursor := by
  have hrun : (passFrom i input s).2 =
      if s.cursor = i then { s with cursor := input.after s.cursor } else s := by
    show ((if s.cursor = i then advance else Pure.pure ()) input s).2 = _
    split
    · rfl
    · rfl
  rw [hrun]
  -- the cursor is moved off the token, or it stands behind it already
  split
  · next h =>
    have hlt : s.cursor < input.stop := h ▸ hi
    rw [Input.after_of_lt hlt]
    exact ⟨.move (Nat.le_succ _) hlt, Nat.lt_succ_of_le hs⟩
  · exact ⟨.refl hstop, by omega⟩

theorem Reads.passFrom {f : Unit → Parser β} (hm : m < input.stop)
    (hf : Reads k input (m + 1) (f ()) R) : Reads k input m (passFrom m >>= f) R := by
  intro s hs hstop
  obtain ⟨hr, hlt⟩ := passFrom_reached hm hs hstop
  obtain ⟨new, hr', hq⟩ := hf _ hlt hr.cursor_le_stop
  exact ⟨new, hr.trans hr', hq⟩

/-! ### Looking at the current token -/

/-- Where a token stands, and whether it ends the input. -/
theorem Reads.place {f : Nat → Parser β}
    (heof : ∀ i, input.kind i = .eof → Reads k input m (f i) R)
    (htoken : ∀ i, input.kind i ≠ .eof → Starts k input m (f i) R) :
    Reads k input m (Parser.cursor >>= f) R := by
  intro s hs hstop
  by_cases hk : input.kind s.cursor = .eof
  · exact heof s.cursor hk s hs hstop
  · exact htoken s.cursor hk s hs (Input.lt_stop hstop hk)

theorem Reads.atEnd {f : Bool → Parser β} (htrue : Reads k input m (f true) R)
    (hfalse : Starts k input m (f false) R) : Reads k input m (atEnd >>= f) R := by
  intro s hs hstop
  have hrun : (Parser.atEnd >>= f) input s =
      f (decide (input.kind s.cursor = .eof)) input s := rfl
  rw [hrun]
  by_cases hk : input.kind s.cursor = .eof
  · rw [decide_eq_true hk]
    exact htrue s hs hstop
  · rw [decide_eq_false hk]
    exact hfalse s hs (Input.lt_stop hstop hk)

/-- A token that does not end the input can be passed. -/
theorem Reads.peek {f : Option Token → Parser β} (hnone : Reads k input m (f none) R)
    (heof : ∀ token ∈ input.tokens, token.kind = .eof → Reads k input m (f (some token)) R)
    (hsome : ∀ i (token : Token), input.tokens[i]? = some token → token.kind ≠ .eof →
      StartsAt k input m i (f (some token)) R) : Reads k input m (peek? >>= f) R := by
  intro s hs hstop
  have hrun : (peek? >>= f) input s = f input.tokens[s.cursor]? input s := rfl
  rw [hrun]
  cases ht : input.tokens[s.cursor]? with
  | none => exact hnone s hs hstop
  | some token =>
    by_cases hk : token.kind = .eof
    · exact heof token (Array.mem_of_getElem? ht) hk s hs hstop
    · exact hsome _ token ht hk s rfl hs (Input.lt_stop_of_token hstop ht hk)

/-- The current token is one of the tokens. -/
theorem Reads.token {f : Option Token → Parser β} (hnone : Reads k input m (f none) R)
    (hsome : ∀ token ∈ input.tokens, Reads k input m (f (some token)) R) :
    Reads k input m (peek? >>= f) R :=
  .peek hnone (fun token htoken _ => hsome token htoken) fun _ token htoken _ =>
    (hsome token (Array.mem_of_getElem? htoken)).starts.at

theorem Reads.kind {f : Kind → Parser β} (heof : Reads k input m (f .eof) R)
    (hkind : ∀ kind : Kind, kind ≠ .eof → Starts k input m (f kind) R) :
    Reads k input m (kind >>= f) R := by
  intro s hs hstop
  have hrun : (Parser.kind >>= f) input s = f (input.kind s.cursor) input s := rfl
  rw [hrun]
  by_cases hk : input.kind s.cursor = .eof
  · rw [hk]
    exact heof s hs hstop
  · exact hkind _ hk s hs (Input.lt_stop hstop hk)

theorem Reads.check {f : Bool → Parser β} {wanted : Kind} (hw : wanted ≠ .eof)
    (htrue : Starts k input m (f true) R) (hfalse : Reads k input m (f false) R) :
    Reads k input m (check wanted >>= f) R := by
  intro s hs hstop
  have hrun : (Parser.check wanted >>= f) input s =
      f (decide (input.kind s.cursor = wanted)) input s := rfl
  rw [hrun]
  by_cases hk : input.kind s.cursor = wanted
  · rw [decide_eq_true hk]
    exact htrue s hs (Input.lt_stop hstop (hk ▸ hw))
  · rw [decide_eq_false hk]
    exact hfalse s hs hstop

theorem Reads.atCloser {f : Bool → Parser β} {closer : Closer}
    (htrue : Starts k input m (f true) R) (hfalse : Reads k input m (f false) R) :
    Reads k input m (atCloser closer >>= f) R := by
  intro s hs hstop
  have hrun : (Parser.atCloser closer >>= f) input s =
      f (input.closesWith s.cursor closer) input s := rfl
  rw [hrun]
  cases hc : input.closesWith s.cursor closer with
  | true => exact htrue s hs (Input.lt_stop_of_closesWith hstop hc)
  | false => exact hfalse s hs hstop

/-- A token of the kind is passed if it stands here. -/
theorem Reads.accept {f : Bool → Parser β} {wanted : Kind} (hw : wanted ≠ .eof)
    (htrue : Reads k input (m + 1) (f true) R) (hfalse : Reads k input m (f false) R) :
    Reads k input m (accept wanted >>= f) R := by
  unfold Parser.accept
  rw [bind_assoc]
  refine .check hw ?_ hfalse
  show Starts k input m (do advance; f true) R
  exact Starts.advance htrue

/-- A closer is passed if it stands here. -/
theorem Reads.acceptCloser {f : Bool → Parser β} {closer : Closer}
    (htrue : Reads k input (m + 1) (f true) R) (hfalse : Reads k input m (f false) R) :
    Reads k input m (acceptCloser closer >>= f) R := by
  unfold Parser.acceptCloser
  rw [bind_assoc]
  refine .atCloser ?_ hfalse
  cases closer with
  | word word =>
    show Starts k input m (do advance; f true) R
    exact Starts.advance htrue
  | endOf word =>
    show Starts k input m (do advance; advance; f true) R
    exact Starts.advance (.silent advance_reads fun _ => htrue)

/-- One reader where a token of the kind stands, which is passed, and another one elsewhere. -/
theorem Reads.ifAccept {wanted : Kind} (hw : wanted ≠ .eof) (hp : Reads k input (m + 1) p Q)
    (hq : Reads k input m q Q) :
    Reads k input m (do if ← Parser.accept wanted then p else q) Q :=
  .accept hw hp hq

/-- One reader where a closer stands, which is passed, and another one elsewhere. -/
theorem Reads.ifAcceptCloser {closer : Closer} (hp : Reads k input (m + 1) p Q)
    (hq : Reads k input m q Q) :
    Reads k input m (do if ← Parser.acceptCloser closer then p else q) Q :=
  .acceptCloser hp hq

theorem accept_reads {wanted : Kind} (hw : wanted ≠ .eof) :
    Reads k input m (accept wanted) fun _ new => new = [] := by
  exact .accept hw (.pure rfl) (.pure rfl)

theorem acceptCloser_reads (closer : Closer) :
    Reads k input m (acceptCloser closer) fun _ new => new = [] := by
  exact .acceptCloser (.pure rfl) (.pure rfl)

/-! ### Recording errors -/

/-- The error is about the form of the program. -/
def IsSyntax (e : ParseError) : Prop :=
  e.fault.isSemantic = false

theorem report_reads (fault : Fault) {span : Span} (hspan : input.Marks span) :
    Reads k input m (report fault span) fun _ new => new = [⟨fault, span⟩] :=
  fun _ _ hs => ⟨_, ⟨Nat.le_refl _, hs, rfl, List.forall_mem_singleton.mpr hspan, .refl k _, rfl,
    rfl⟩, rfl⟩

/-- The place of the current token. -/
theorem Reads.here {f : Span → Parser β}
    (hf : ∀ span, input.Marks span → Reads k input m (f span) R) :
    Reads k input m (currentSpan >>= f) R :=
  fun s hs hstop => hf _ (input.marks_spanAt _) s hs hstop

theorem reportExpected_reads (expected : Expected) :
    Reads k input m (reportExpected expected) fun _ new => ∃ e, IsSyntax e ∧ new = [e] := by
  refine .here fun span hspan => .look fun token => ?_
  have hreport : ∀ fault : Fault, fault.isSemantic = false →
      Reads k input m (report fault span) fun _ new => ∃ e, IsSyntax e ∧ new = [e] :=
    fun fault hf => (report_reads fault hspan).imp fun _ _ h => ⟨⟨fault, span⟩, hf, h⟩
  cases token with
  | none => exact hreport _ rfl
  | some token =>
    dsimp only
    split
    · exact hreport _ rfl
    · exact hreport _ rfl

/-- An error and what comes after it. -/
theorem Reads.report {f : Unit → Parser β} {fault : Fault} {span : Span}
    (hspan : input.Marks span)
    (hf : Reads k input m (f ()) fun b new => R b ([⟨fault, span⟩] ++ new)) :
    Reads k input m (report fault span >>= f) R := by
  refine (report_reads fault hspan).bind fun _ new h => ?_
  subst h
  exact hf

/-- Something is recorded as missing, which is an error about the form. -/
theorem Reads.reportExpected {f : Unit → Parser β} {expected : Expected}
    (hf : ∀ e, IsSyntax e → Reads k input m (f ()) fun b new => R b ([e] ++ new)) :
    Reads k input m (reportExpected expected >>= f) R := by
  refine (reportExpected_reads expected).bind fun _ new h => ?_
  obtain ⟨e, he, rfl⟩ := h
  exact hf e he

/-- A token of the kind is passed, or an error is recorded. -/
theorem Reads.expect {f : Option Token → Parser β} {wanted : Kind} {expected : Expected}
    (hw : wanted ≠ .eof)
    (hsome : ∀ token : Token, token ∈ input.tokens ∧ token.kind = wanted →
      Reads k input (m + 1) (f (some token)) R)
    (hnone : ∀ e, IsSyntax e → Reads k input m (f none) fun b new => R b ([e] ++ new)) :
    Reads k input m (expect wanted expected >>= f) R := by
  have hmissing : Reads k input m (do Parser.reportExpected expected; f none) R := by
    refine .reportExpected fun e he => ?_
    exact hnone e he
  unfold Parser.expect
  rw [bind_assoc]
  refine .peek hmissing (fun token _ hk => ?_) fun i token htoken _ => ?_
  · -- the end of the input is never of the wanted kind
    dsimp only
    rw [if_neg (hk ▸ hw.symm)]
    exact hmissing
  · dsimp only
    split
    · next h =>
      show StartsAt k input m i (do advance; f (some token)) R
      exact (Starts.advance (hsome token ⟨Array.mem_of_getElem? htoken, h⟩)).at
    · exact hmissing.starts.at

theorem finishStatement_reads :
    Reads k input m finishStatement fun _ new => new = [] ∨ ∃ e, IsSyntax e ∧ new = [e] := by
  refine .look fun atEnd => .look fun atCloser => ?_
  split
  · exact .pure (.inl rfl)
  · refine (reportExpected_reads _).bind fun _ new h => ?_
    refine recover_reads.imp fun _ new' h' => ?_
    rw [h', List.append_nil]
    exact .inr h

/-! ### Declaring names, and blocks -/

theorem define_reads (symbol : Symbol) :
    Reads .names input m (define symbol) fun _ new => new = [] :=
  fun s _ hs => ⟨[], ⟨Nat.le_refl _, hs, (List.append_nil _).symm, List.forall_mem_nil _,
    s.scopes.depth_define symbol, rfl, rfl⟩, rfl⟩

theorem defineGlobal_reads (symbol : Symbol) :
    Reads .names input m (defineGlobal symbol) fun _ new => new = [] :=
  fun s _ hs => ⟨[], ⟨Nat.le_refl _, hs, (List.append_nil _).symm, List.forall_mem_nil _,
    s.scopes.depth_defineGlobal symbol, rfl, rfl⟩, rfl⟩

/-- A block that was opened is closed again. -/
theorem Reads.inBlock (hp : Reads k input m p Q) : Reads k input m (inBlock p) Q := by
  intro s hs hstop
  obtain ⟨new, hr, hq⟩ := hp { s with depth := s.depth + 1 } hs hstop
  refine ⟨new, { hr with depth := ?_ }, hq⟩
  show (p input { s with depth := s.depth + 1 }).2.depth - 1 = s.depth
  rw [hr.depth]
  rfl

/-- A scope that was opened is closed again. -/
theorem Reads.inScope (hp : Reads .names input m p Q) :
    Reads .names input m (do
      modifyScopes Scopes.enter
      let a ← p
      modifyScopes Scopes.exit
      return a) Q := by
  intro s hs hstop
  obtain ⟨new, hr, hq⟩ := hp { s with scopes := s.scopes.enter } hs hstop
  refine ⟨new, { hr with scopes := ?_ }, hq⟩
  show (p input { s with scopes := s.scopes.enter }).2.scopes.exit.depth = s.scopes.depth
  exact Scopes.depth_exit hr.scopes

/-! ### Loops -/

/-- There is nothing to read behind the end of the input. -/
theorem Reads.past_stop (h : input.stop < m) : Reads k input m p Q :=
  fun _ hs hstop => absurd (Nat.le_trans hs hstop) (Nat.not_le_of_lt h)

/-- A loop gets as many rounds as it can need. -/
theorem Reads.bounded {loop : Nat → Parser α}
    (h : ∀ rounds i, m ≤ i → input.stop < i + rounds → Reads k input i (loop rounds) Q) :
    Reads k input m (bounded loop) Q :=
  fun s hs hstop => h _ s.cursor hs (Input.stop_lt_add_left s.cursor) s (Nat.le_refl _) hstop

theorem separated_reads {R : List α → List ParseError → Prop} (hp : Reads k input m p Q)
    (hone : ∀ a new, Q a new → R [a] new)
    (hcons : ∀ a as new new', Q a new → R as new' → R (a :: as) (new ++ new')) :
    Reads k input m (Parser.bounded (separated p)) R := by
  refine .bounded fun rounds => ?_
  induction rounds with
  | zero => exact fun i _ hi => .past_stop hi
  | succ rounds ih =>
    intro i hm hi
    -- the comma that is passed pays for the next round
    refine (hp.later hm).bind fun a new hq => .ifAccept (by decide) ?_ ?_
    · refine (ih (i + 1) (by omega) (by omega)).bind fun as new' hr => .pure ?_
      rw [List.append_nil]
      exact hcons a as new new' hq hr
    · exact .done (hone a new hq)

theorem collect_reads {p : Parser (Option α)} {Q : Option α → List ParseError → Prop}
    {R : List α × Bool → List ParseError → Prop} (hp : Reads k input m p Q)
    (hnone : ∀ new, Q none new → R ([], false) new)
    (hone : ∀ a new, Q (some a) new → R ([a], true) new)
    (hcons : ∀ a as new new', Q (some a) new → R as new' → R (a :: as.1, as.2) (new ++ new')) :
    Reads k input m (Parser.bounded (collect p)) R := by
  refine .bounded fun rounds => ?_
  induction rounds with
  | zero => exact fun i _ hi => .past_stop hi
  | succ rounds ih =>
    intro i hm hi
    refine (hp.later hm).bind fun a new hq => ?_
    cases a with
    | none => exact .done (hnone new hq)
    | some a =>
      refine .ifAccept (by decide) ?_ ?_
      · refine (ih (i + 1) (by omega) (by omega)).bind fun as new' hr => .pure ?_
        rw [List.append_nil]
        exact hcons a as new new' hq hr
      · exact .done (hone a new hq)

end FrameBasic.Parser
