import FrameBasic.Proofs.Reader.Position
import FrameBasic.Tree.Parser.Expression

/-!
# Reading up to a place

Two inputs with one table of commands have the same tokens up to a place where in both of them no
statement goes on.  What a reader does in the first input is then told in one judgement.  It goes
forward and does not pass the place, whatever errors it records.  As long as it does not come to the
place it does exactly the same in the second input, with the same errors.  At the place an error may
name another token, but without errors it still does the same.

With one input instead of two the judgement says how far a reader can go, and that going back
undoes what it did.

## Main definitions

* `Fault.isUnclosed` — a block is not closed.
* `Parser.halts` — no statement goes on at a token.
* `Parser.Twins` — two inputs are the same up to a place where no statement goes on.
* `Parser.Copies` — the judgement about a reader; `Parser.Fails` is the judgement about one that
  records an error.

## Main results

* `Parser.Copies.bind` — one reader after the other.
* `Parser.expression_copies` — **an expression is read alike in both inputs, and the place is not
  passed**.
-/

namespace FrameBasic

/-- Whether the fault is that a block is not closed. -/
def Fault.isUnclosed : Fault → Bool
  | .unclosed _ => true
  | _ => false

namespace Parser

/-! ### Inputs -/

/-- Whether no statement goes on at a token of the kind: it ends statements, or the statements of a
branch of `If` on one line. -/
def halts (kind : Kind) : Bool :=
  kind.isTerminator || decide (kind ∈ [.keyword .else_, .keyword .endIf])

theorem halts_cases {kind : Kind} (h : halts kind = true) : kind = .newline ∨ kind = .colon ∨
    kind = .eof ∨ kind = .keyword .else_ ∨ kind = .keyword .endIf := by
  cases kind <;> simp_all [halts, Kind.isTerminator]

/-- No expression goes on there. -/
theorem binaryOp?_of_halts {kind : Kind} (h : halts kind = true) : kind.binaryOp? = none := by
  rcases halts_cases h with rfl | rfl | rfl | rfl | rfl <;> rfl

/-- No expression begins there. -/
theorem startsExpression_of_halts {kind : Kind} (h : halts kind = true) :
    kind.startsExpression = false := by
  rcases halts_cases h with rfl | rfl | rfl | rfl | rfl <;> rfl

theorem ne_of_halts {kind wanted : Kind} (h : halts kind = true) (hw : halts wanted = false) :
    kind ≠ wanted :=
  fun heq => Bool.false_ne_true (hw.symm.trans (heq ▸ h))

/-- Whether the token at an index stays for the construct around it when it cannot begin an
expression. -/
def Input.staysAt (input : Input) (i : Nat) : Bool :=
  (input.kind i).isTerminator || input.closesAny i ||
    decide (input.kind i ∈ [.rightParen, .comma, .keyword .then_, .keyword .to, .keyword .step])

theorem Input.staysAt_of_halts {input : Input} {i : Nat} (h : halts (input.kind i) = true) :
    input.staysAt i = true := by
  rcases halts_cases h with hk | hk | hk | hk | hk <;>
    simp [hk, Input.staysAt, Kind.isTerminator, Input.closesAny, Closer.all, Input.closesWith]

/-- The name of a type at an index, as a point right behind the name before it gives it. -/
def Input.tagAt? (input : Input) : Nat → Option String
  | 0 => none
  | i + 1 => input.tokens[i + 1]?.bind fun token =>
    if token.kind = .label ∧
        (input.tokens[i]?.any fun before => token.span.start = before.span.stop) = true then
      some token.text
    else none

theorem Input.kind_of_tagAt? {input : Input} {i : Nat} {name : String}
    (h : input.tagAt? i = some name) : input.kind i = .label := by
  cases i with
  | zero => cases h
  | succ i =>
    obtain ⟨token, ht, h⟩ := Option.bind_eq_some_iff.mp h
    split at h
    · next hlabel => exact (Input.kind_of_token ht).trans hlabel.1
    · cases h

theorem Input.left_lt {input : Input} {i j : Nat} (hk : input.kind i ≠ .eof) (hij : i < j) :
    input.left j < input.left i := by
  have hsize := Input.lt_size_of_kind hk
  unfold Input.left
  omega

/-- Before the place the inputs have the same tokens, and at the place no statement goes on in either
of them. -/
structure Twins (a b : Input) (e : Nat) : Prop where
  /-- The tokens before the place are the same. -/
  token : ∀ i < e, a.tokens[i]? = b.tokens[i]?
  /-- There are as many tokens. -/
  size : a.tokens.size = b.tokens.size
  /-- The commands are the same. -/
  commands : b.commands = a.commands
  /-- No statement goes on in the first input. -/
  left_halts : halts (a.kind e) = true
  /-- No statement goes on in the second input. -/
  right_halts : halts (b.kind e) = true

variable {a b : Input} {e : Nat}

namespace Twins

variable {i start : Nat} {wanted : Kind}

/-- An input is its own twin. -/
theorem self (h : halts (a.kind e) = true) : Twins a a e :=
  ⟨fun _ _ => rfl, rfl, rfl, h, h⟩

theorem symm (h : Twins a b e) : Twins b a e where
  token i hi := (h.token i hi).symm
  size := h.size.symm
  commands := h.commands.symm
  left_halts := h.right_halts
  right_halts := h.left_halts

theorem kind (h : Twins a b e) (hi : i < e) : b.kind i = a.kind i := by
  unfold Input.kind
  rw [h.token i hi]

/-- At the place no statement goes on, and before it the tokens are the same. -/
theorem kind_cases (h : Twins a b e) (hi : i ≤ e) :
    b.kind i = a.kind i ∨ halts (a.kind i) = true ∧ halts (b.kind i) = true := by
  rcases Nat.lt_or_eq_of_le hi with hlt | rfl
  · exact .inl (h.kind hlt)
  · exact .inr ⟨h.left_halts, h.right_halts⟩

/-- A token at which statements go on is the same in both inputs. -/
theorem kind_eq_iff (h : Twins a b e) (hi : i ≤ e) (hw : halts wanted = false) :
    b.kind i = wanted ↔ a.kind i = wanted := by
  rcases h.kind_cases hi with hk | ⟨ha, hb⟩
  · rw [hk]
  · exact iff_of_false (ne_of_halts hb hw) (ne_of_halts ha hw)

/-- A token at which statements go on stands before the place. -/
theorem lt (h : Twins a b e) (hi : i ≤ e) (hk : halts (a.kind i) = false) : i < e := by
  refine Nat.lt_of_le_of_ne hi fun heq => ?_
  rw [heq, h.left_halts] at hk
  cases hk

theorem left_eq (h : Twins a b e) (i : Nat) : b.left i = a.left i := by
  unfold Input.left
  rw [h.size]

/-- If the inputs end before the place, all their tokens are the same. -/
theorem tokens_eq (h : Twins a b e) (hi : i < e) (hnone : a.tokens[i]? = none) :
    b.tokens = a.tokens := by
  have hsize : a.tokens.size ≤ i := Array.getElem?_eq_none_iff.mp hnone
  refine Array.ext_getElem? fun j => ?_
  by_cases hj : j < e
  · exact (h.token j hj).symm
  · have hsame := h.size
    rw [Array.getElem?_eq_none (by omega), Array.getElem?_eq_none (by omega)]

theorem spanAt (h : Twins a b e) (hi : i < e) : b.spanAt i = a.spanAt i := by
  unfold Input.spanAt
  rw [← h.token i hi]
  cases htoken : a.tokens[i]? with
  | some token => rfl
  | none => rw [h.tokens_eq hi htoken]

/-- A place that begins before the end is the same. -/
theorem spanFrom (h : Twins a b e) (hstart : start < e) (hi : i ≤ e) :
    b.spanFrom start i = a.spanFrom start i := by
  unfold Input.spanFrom
  rw [← h.token start hstart]
  cases hfirst : a.tokens[start]? with
  | some first =>
    dsimp only
    split
    · rw [h.token (i - 1) (by omega)]
    · rfl
  | none =>
    unfold Input.spanAt
    rw [h.tokens_eq hstart hfirst]

theorem tagAt? (h : Twins a b e) (hi : i ≤ e) : b.tagAt? i = a.tagAt? i := by
  rcases Nat.lt_or_eq_of_le hi with hlt | rfl
  · cases i with
    | zero => rfl
    | succ i =>
      rw [Input.tagAt?, Input.tagAt?, h.token _ hlt, h.token i (by omega)]
  · have hnone : ∀ {input : Input}, halts (input.kind i) = true → input.tagAt? i = none :=
      fun hk => Option.eq_none_iff_forall_not_mem.mpr fun _ htag =>
        ne_of_halts hk rfl (Input.kind_of_tagAt? htag)
    rw [hnone h.left_halts, hnone h.right_halts]

theorem staysAt (h : Twins a b e) (hi : i < e) : b.staysAt i = a.staysAt i := by
  have hnext : ∀ word ∈ [Keyword.if_, .function, .select, .type],
      (b.kind (i + 1) = .keyword word ↔ a.kind (i + 1) = .keyword word) := by
    intro word hword
    refine h.kind_eq_iff hi ?_
    revert word
    decide
  simp only [List.forall_mem_cons] at hnext
  obtain ⟨hif, hfunction, hselect, htype, -⟩ := hnext
  simp only [Input.staysAt, Input.closesAny, Closer.all, List.any_cons, List.any_nil,
    Input.closesWith, h.kind hi, hif, hfunction, hselect, htype]

end Twins

/-! ### The judgement -/

variable {α β γ : Type}

/-- From `s` a reader came to `r` in the first input and to `r'` in the second.  The first flag says
that the two are the same at the place as well if there is no error, the second one that no name was
declared. -/
structure Copied (h : Twins a b e) (live still : Bool) (s : State) (r r' : α × State) : Prop where
  /-- It went forward. -/
  cursor_le : s.cursor ≤ r.2.cursor
  /-- It did not pass the place. -/
  le_end : r.2.cursor ≤ e
  /-- It took back no error, and opened no block that could be left open. -/
  errors : ∃ new, r.2.errors = s.errors ++ new ∧ ∀ x ∈ new, x.fault.isUnclosed = false
  /-- It changed only the cursor and the errors. -/
  kept : still = true →
    r.2.scopes = s.scopes ∧ r.2.depth = s.depth ∧ r.2.exhausted = s.exhausted
  /-- The second input makes no difference. -/
  same : r.2.cursor < e ∨ live = true ∧ r.2.errors = s.errors → r' = r

/-- What the reader does from the token `i` on. -/
def Copies (h : Twins a b e) (live still : Bool) (i : Nat) (p : Parser α) : Prop :=
  ∀ s : State, s.cursor = i → i ≤ e → Copied h live still s (p a s) (p b s)

/-- The reader records an error. -/
def Fails (h : Twins a b e) (still : Bool) (i : Nat) (p : Parser α) : Prop :=
  Copies h false still i p ∧ ∀ s : State, s.cursor = i → i ≤ e → (p a s).2.errors ≠ s.errors

variable {h : Twins a b e} {live still : Bool} {i : Nat} {p q : Parser α} {f : α → Parser β}

/-- After an error nothing more is asked at the place. -/
theorem Fails.copies (hp : Fails h still i p) : Copies h live still i p := by
  intro s hs hi
  have hrun := hp.1 s hs hi
  refine { hrun with same := fun hcond => hrun.same (.inl ?_) }
  exact hcond.resolve_right fun hsilent => hp.2 s hs hi hsilent.2

namespace Copied

variable {s : State}

theorem bind (hp : Copied h live still s (p a s) (p b s))
    (hf : Copied h live still (p a s).2 (f (p a s).1 a (p a s).2) (f (p a s).1 b (p a s).2)) :
    Copied h live still s ((p >>= f) a s) ((p >>= f) b s) := by
  obtain ⟨hle, hend, ⟨new, hnew, hclosed⟩, hkept, hsame⟩ := hp
  obtain ⟨hle', hend', ⟨new', hnew', hclosed'⟩, hkept', hsame'⟩ := hf
  have herrors := hnew'
  rw [hnew, List.append_assoc] at herrors
  refine ⟨Nat.le_trans hle hle', hend', ⟨new ++ new', herrors, ?_⟩, fun hstill => ?_, fun h => ?_⟩
  · exact List.forall_mem_append.mpr ⟨hclosed, hclosed'⟩
  · obtain ⟨hscopes, hdepth, hexhausted⟩ := hkept hstill
    obtain ⟨hscopes', hdepth', hexhausted'⟩ := hkept' hstill
    exact ⟨hscopes'.trans hscopes, hdepth'.trans hdepth, hexhausted'.trans hexhausted⟩
  · -- what holds of the whole run holds of both parts of it
    have hparts : ((p a s).2.cursor < e ∨ live = true ∧ (p a s).2.errors = s.errors) ∧
        ((f (p a s).1 a (p a s).2).2.cursor < e ∨ live = true ∧
          (f (p a s).1 a (p a s).2).2.errors = (p a s).2.errors) := by
      rcases h with hlt | ⟨hlive, hsilent⟩
      · exact ⟨.inl (Nat.lt_of_le_of_lt hle' hlt), .inl hlt⟩
      · have hnil : new ++ new' = [] := List.append_right_eq_self.mp (herrors.symm.trans hsilent)
        obtain ⟨rfl, rfl⟩ := List.append_eq_nil_iff.mp hnil
        rw [List.append_nil] at hnew hnew'
        exact ⟨.inr ⟨hlive, hnew⟩, .inr ⟨hlive, hnew'⟩⟩
    show f (p b s).1 b (p b s).2 = _
    rw [hsame hparts.1]
    exact hsame' hparts.2

theorem advance {f : Unit → Parser β} (hk : halts (a.kind s.cursor) = false) (hs : s.cursor ≤ e)
    (hf : Copied h live still { s with cursor := s.cursor + 1 }
      (f () a { s with cursor := s.cursor + 1 }) (f () b { s with cursor := s.cursor + 1 })) :
    Copied h live still s ((advance >>= f) a s) ((advance >>= f) b s) := by
  have heof : a.kind s.cursor ≠ .eof := fun heof => by rw [heof] at hk; cases hk
  have hrun : ∀ input : Input, input.kind s.cursor ≠ .eof →
      (Parser.advance >>= f) input s = f () input { s with cursor := s.cursor + 1 } := by
    intro input hne
    show f () input { s with cursor := input.after s.cursor } = _
    rw [Input.after, if_neg hne]
  rw [hrun a heof, hrun b (h.kind (h.lt hs hk) ▸ heof)]
  exact { hf with cursor_le := Nat.le_trans (Nat.le_succ _) hf.cursor_le }

theorem takeText {f : String → Parser β} {t : Token} (ht : a.tokens[s.cursor]? = some t)
    (hk : halts (a.kind s.cursor) = false) (hs : s.cursor ≤ e)
    (hf : Copied h live still { s with cursor := s.cursor + 1 }
      (f t.text a { s with cursor := s.cursor + 1 })
      (f t.text b { s with cursor := s.cursor + 1 })) :
    Copied h live still s ((takeText >>= f) a s) ((takeText >>= f) b s) := by
  have hrun : ∀ input : Input, input.tokens[s.cursor]? = some t →
      (Parser.takeText >>= f) input s = (Parser.advance >>= fun _ => f t.text) input s := by
    intro input ht
    have hpeek : peek? input s = (some t, s) := congrArg (·, s) ht
    rw [Parser.takeText, bind_assoc, run_look hpeek]
    rfl
  rw [hrun a ht, hrun b (h.token _ (h.lt hs hk) ▸ ht)]
  exact .advance hk hs hf

end Copied

namespace Copies

/-- The reader may rely on its place. -/
theorem within (hp : i ≤ e → Copies h live still i p) : Copies h live still i p :=
  fun s hs hi => hp hi s hs hi

theorem pure {x : α} : Copies h live still i (pure x) := by
  intro s hs hi
  exact ⟨Nat.le_refl _, hs ▸ hi, ⟨[], (List.append_nil _).symm, List.forall_mem_nil _⟩,
    fun _ => ⟨rfl, rfl, rfl⟩, fun _ => rfl⟩

theorem bind (hp : Copies h live still i p)
    (hf : ∀ x j, i ≤ j → Copies h live still j (f x)) : Copies h live still i (p >>= f) := by
  intro s hs hi
  have hrun := hp s hs hi
  exact hrun.bind (hf _ _ (hs ▸ hrun.cursor_le) _ rfl hrun.le_end)

theorem map {m : α → β} (hp : Copies h live still i p) : Copies h live still i (m <$> p) :=
  hp.bind fun _ _ _ => .pure

theorem option {p : Parser (Option α)} {f : Option α → Parser β} (hp : Copies h live still i p)
    (hnone : ∀ j, i ≤ j → Copies h live still j (f none))
    (hsome : ∀ x j, i ≤ j → Copies h live still j (f (some x))) :
    Copies h live still i (p >>= f) := by
  refine hp.bind fun o j hij => ?_
  cases o with
  | none => exact hnone j hij
  | some x => exact hsome x j hij

/-- A look at the tokens.  At the place the answer may differ once there is an error. -/
theorem look {q : Parser γ} {f : γ → Parser β} (v : Input → Nat → γ)
    (hq : ∀ input s, q input s = (v input s.cursor, s))
    (hsame : i ≤ e → i < e ∨ live = true → f (v b i) = f (v a i))
    (hf : Copies h live still i (f (v a i))) : Copies h live still i (q >>= f) := by
  intro s hs hi
  have hrun : ∀ input, (q >>= f) input s = f (v input i) input s := by
    intro input
    rw [run_look (hq input s), hs]
  rw [hrun, hrun]
  have hnext := hf s hs hi
  refine { hnext with same := fun hcond => ?_ }
  have hanswer : i < e ∨ live = true := by
    rcases hcond with hlt | hsilent
    · exact .inl (Nat.lt_of_le_of_lt (hs ▸ hnext.cursor_le) hlt)
    · exact .inr hsilent.1
  rw [hsame hi hanswer]
  exact hnext.same hcond

theorem cursor {f : Nat → Parser β} (hf : Copies h live still i (f i)) :
    Copies h live still i (cursor >>= f) :=
  look (fun _ i => i) (fun _ _ => rfl) (fun _ _ => rfl) hf

/-- The kind of the current token, where all kinds at which no statement goes on lead the same
way. -/
theorem kind {f : Kind → Parser β}
    (hhalts : ∀ k k', halts k = true → halts k' = true → f k = f k')
    (hf : Copies h live still i (f (a.kind i))) : Copies h live still i (kind >>= f) := by
  refine look Input.kind (fun _ _ => rfl) (fun hi _ => ?_) hf
  rcases h.kind_cases hi with hk | ⟨ha, hb⟩
  · rw [hk]
  · exact hhalts _ _ hb ha

theorem check {f : Bool → Parser β} {wanted : Kind} (hw : halts wanted = false)
    (hf : Copies h live still i (f (decide (a.kind i = wanted)))) :
    Copies h live still i (check wanted >>= f) := by
  refine look (fun input i => decide (input.kind i = wanted)) (fun _ _ => rfl) (fun hi _ => ?_) hf
  exact congrArg f (decide_eq_decide.mpr (h.kind_eq_iff hi hw))

/-- The current token, where an error follows if no statement goes on there. -/
theorem peek {f : Option Token → Parser β} (hf : Copies h live still i (f a.tokens[i]?))
    (hend : halts (a.kind i) = true → Fails h still i (f a.tokens[i]?)) :
    Copies h live still i (peek? >>= f) := by
  have hlook : ∀ {live : Bool}, (i < e ∨ live = true → i < e) →
      Copies h live still i (f a.tokens[i]?) → Copies h live still i (peek? >>= f) :=
    fun hlt hf => look (fun input i => input.tokens[i]?) (fun _ _ => rfl)
      (fun _ hcond => by rw [h.token i (hlt hcond)]) hf
  refine within fun hi => ?_
  rcases Nat.lt_or_eq_of_le hi with hlt | rfl
  · exact hlook (fun _ => hlt) hf
  · obtain ⟨hcopies, hraises⟩ := hend h.left_halts
    have hfails : Fails h still i (peek? >>= f) :=
      ⟨hlook (fun hcond => hcond.resolve_right nofun) hcopies, by rintro s rfl; exact hraises s rfl⟩
    exact hfails.copies

/-- What the reader holds. -/
theorem get {f : State → Parser β} (hf : ∀ s, Copies h live still i (f s)) :
    Copies h live still i (get >>= f) :=
  fun s hs hi => hf s s hs hi

theorem ite {c : Prop} [Decidable c] (hp : c → Copies h live still i p)
    (hq : ¬ c → Copies h live still i q) : Copies h live still i (if c then p else q) := by
  split
  · next hc => exact hp hc
  · next hc => exact hq hc

theorem bounded {loop : Nat → Parser α}
    (hloop : ∀ rounds, a.left i < rounds → Copies h live still i (loop rounds)) :
    Copies h live still i (bounded loop) := by
  intro s hs hi
  have hrun : ∀ input, Parser.bounded loop input s = loop (input.left s.cursor + 1) input s :=
    fun _ => rfl
  rw [hrun, hrun, h.left_eq, hs]
  exact hloop _ (Nat.lt_succ_self _) s hs hi

/-- A token at which statements go on is passed. -/
theorem advance {f : Unit → Parser β} (hk : halts (a.kind i) = false)
    (hf : i < e → Copies h live still (i + 1) (f ())) :
    Copies h live still i (advance >>= f) := by
  rintro s rfl hi
  have hlt := h.lt hi hk
  exact .advance hk hi (hf hlt _ rfl hlt)

theorem takeText {f : String → Parser β} {t : Token} (ht : a.tokens[i]? = some t)
    (hk : halts (a.kind i) = false) (hf : i < e → Copies h live still (i + 1) (f t.text)) :
    Copies h live still i (takeText >>= f) := by
  rintro s rfl hi
  have hlt := h.lt hi hk
  exact .takeText ht hk hi (hf hlt _ rfl hlt)

theorem accept {f : Bool → Parser β} {wanted : Kind} (hw : halts wanted = false)
    (htrue : a.kind i = wanted → i < e → Copies h live still (i + 1) (f true))
    (hfalse : Copies h live still i (f false)) : Copies h live still i (accept wanted >>= f) := by
  unfold Parser.accept
  rw [bind_assoc]
  refine check hw ?_
  by_cases hk : a.kind i = wanted
  · rw [decide_eq_true hk]
    show Copies h live still i (Parser.advance >>= fun _ => f true)
    exact advance (hk ▸ hw) (htrue hk)
  · rw [decide_eq_false hk]
    exact hfalse

/-- A change of the state that concerns neither the place nor the errors. -/
theorem modify {m : State → State} {f : Unit → Parser β} (hcursor : ∀ s, (m s).cursor = s.cursor)
    (herrors : ∀ s, (m s).errors = s.errors) (hf : Copies h live false i (f ())) :
    Copies h live false i (modify m >>= f) := by
  intro s hs hi
  obtain ⟨hle, hend, hnew, -, hsame⟩ := hf (m s) ((hcursor s).trans hs) hi
  rw [hcursor] at hle
  rw [herrors] at hnew hsame
  exact ⟨hle, hend, hnew, nofun, hsame⟩

/-- A place that begins before the end. -/
theorem spanFrom {start : Nat} {f : Span → Parser β} (hstart : start < e)
    (hf : ∀ span, Copies h live still i (f span)) :
    Copies h live still i (spanFrom start >>= f) :=
  look (·.spanFrom start) (fun _ _ => rfl) (fun hi _ => by rw [h.spanFrom hstart hi]) (hf _)

/-- A node that begins before the place. -/
theorem node {start : Nat} {make : Info → Expr} (hstart : start < e) :
    Copies h live still i (node start make) := by
  refine spanFrom hstart fun span s hs hi => ?_
  have htyped := congrArg ((make { span }).typed s.scopes) h.commands
  exact ⟨Nat.le_refl _, hs ▸ hi, ⟨[], (List.append_nil _).symm, List.forall_mem_nil _⟩,
    fun _ => ⟨rfl, rfl, rfl⟩, fun _ => congrArg (·, s) htyped⟩

end Copies

/-! ### Errors -/

namespace Fails

theorem report {f : Unit → Parser β} {fault : Fault} {span : Span}
    (hfault : fault.isUnclosed = false) (hf : Copies h false still i (f ())) :
    Fails h still i (report fault span >>= f) := by
  let recorded (s : State) : State := { s with errors := s.errors ++ [⟨fault, span⟩] }
  refine ⟨fun s hs hi => ?_, fun s hs hi => ?_⟩
  · obtain ⟨hle, hend, ⟨new, hnew, hclosed⟩, hkept, hsame⟩ := hf (recorded s) hs hi
    refine ⟨hle, hend, ⟨⟨fault, span⟩ :: new, ?_, ?_⟩, hkept, fun hcond => hsame ?_⟩
    · rw [List.append_cons]
      exact hnew
    · exact List.forall_mem_cons.mpr ⟨hfault, hclosed⟩
    · exact .inl (hcond.resolve_right nofun)
  · obtain ⟨new, hnew, -⟩ := (hf (recorded s) hs hi).errors
    show (f () a (recorded s)).2.errors ≠ s.errors
    rw [hnew, List.append_assoc]
    exact fun hnil => List.cons_ne_nil _ _ (List.append_right_eq_self.mp hnil)

theorem look {q : Parser γ} {f : γ → Parser β} (v : Input → Nat → γ)
    (hq : ∀ input s, q input s = (v input s.cursor, s))
    (hsame : i < e → f (v b i) = f (v a i)) (hf : Fails h still i (f (v a i))) :
    Fails h still i (q >>= f) := by
  refine ⟨.look v hq (fun _ hcond => hsame (hcond.resolve_right nofun)) hf.1, fun s hs hi => ?_⟩
  rw [run_look (hq a s), hs]
  exact hf.2 s hs hi

/-- The current token and its place, which an error tells. -/
theorem here {f : Span → Option Token → Parser β}
    (hf : ∀ span token, Fails h still i (f span token)) :
    Fails h still i (do
      let span ← currentSpan
      let token ← peek?
      f span token) := by
  refine look Input.spanAt (fun _ _ => rfl) (fun hi => by rw [h.spanAt hi]) ?_
  exact look (fun input i => input.tokens[i]?) (fun _ _ => rfl)
    (fun hi => by rw [h.token i hi]) (hf _ _)

theorem reportExpected {f : Unit → Parser β} {expected : Expected}
    (hf : Copies h false still i (f ())) : Fails h still i (reportExpected expected >>= f) := by
  unfold Parser.reportExpected
  simp only [bind_assoc]
  refine here fun span token => ?_
  cases token with
  | none => exact report rfl hf
  | some token =>
    dsimp only
    split
    · exact report rfl hf
    · exact report rfl hf

end Fails

/-- A token of a kind is passed, or an error is recorded. -/
theorem Copies.expect {f : Option Token → Parser β} {wanted : Kind} {expected : Expected}
    (hw : halts wanted = false)
    (hsome : ∀ t, a.tokens[i]? = some t → t.kind = wanted → i < e →
      Copies h live still (i + 1) (f (some t)))
    (hnone : Copies h false still i (f none)) :
    Copies h live still i (expect wanted expected >>= f) := by
  have hmissing : Fails h still i (Parser.reportExpected expected >>= fun _ => f none) :=
    .reportExpected hnone
  unfold Parser.expect
  rw [bind_assoc]
  refine .peek ?_ fun hhalts => ?_
  · cases ht : a.tokens[i]? with
    | none => exact hmissing.copies
    | some t =>
      dsimp only
      split
      · next hk =>
        show Copies h live still i (Parser.advance >>= fun _ => f (some t))
        exact .advance (by rw [Input.kind_of_token ht, hk]; exact hw) (hsome t ht hk)
      · exact hmissing.copies
  · cases ht : a.tokens[i]? with
    | none => exact hmissing
    | some t =>
      dsimp only
      rw [if_neg fun hk => ne_of_halts hhalts hw ((Input.kind_of_token ht).trans hk)]
      exact hmissing

/-! ### Parts of expressions -/

section Parts

variable {start : Nat} {x : Expr}

theorem errorHere_copies : Copies h false still i errorHere :=
  .look Input.spanAt (fun _ _ => rfl) (fun _ hi => by rw [h.spanAt (hi.resolve_right nofun)]) .pure

theorem errorFrom_copies (hstart : start ≤ i) : Copies h false still i (errorFrom start) := by
  refine .look (·.spanFrom start) (fun _ _ => rfl) (fun hi hcond => ?_) .pure
  rw [h.spanFrom (Nat.lt_of_le_of_lt hstart (hcond.resolve_right nofun)) hi]

/-- The tag is looked up and passed. -/
theorem typeTag_eq : typeTag = (do
    let tag ← (fun input s => (input.tagAt? s.cursor, s) : Parser (Option String))
    tag.elim (return none) fun name => do
      advance
      return some name) := by
  funext input s
  have hcursor : cursor input s = (s.cursor, s) := rfl
  have hread : (read : Parser Input) input s = (input, s) := rfl
  unfold typeTag
  rw [run_look hread, run_look hcursor, run_look hcursor, run_bind]
  obtain ⟨i, errors, scopes, depth, exhausted⟩ := s
  cases i with
  | zero => cases input.tokens[0]? <;> rfl
  | succ i =>
    rw [Input.tagAt?]
    cases input.tokens[i + 1]? with
    | none => rfl
    | some token =>
      dsimp only [Option.bind_some]
      split <;> rfl

theorem typeTag_copies : Copies h live still i typeTag := by
  rw [typeTag_eq]
  refine .look Input.tagAt? (fun _ _ => rfl) (fun hi _ => by rw [h.tagAt? hi]) ?_
  cases htag : a.tagAt? i with
  | none => exact .pure
  | some name => exact .advance (by rw [Input.kind_of_tagAt? htag]; rfl) fun _ => .pure

theorem typeName_copies : Copies h live still i typeName := by
  refine .expect rfl (fun t _ _ _ => .get fun s => ?_) .pure
  refine .ite (fun _ => .pure) fun _ => Fails.copies ?_
  exact .report rfl .pure

/-- The fields.  Each round passes a token, so the bound is not used up. -/
theorem fieldChain_copies (rounds : Nat) : ∀ {i : Nat} {x : Expr}, start ≤ i →
    a.left i < rounds → Copies h live still i (fieldChain start rounds x) := by
  induction rounds with
  | zero => exact fun _ hleft => absurd hleft (Nat.not_lt_zero _)
  | succ rounds ih =>
    intro i x hstart hleft
    refine .accept rfl (fun hpoint hlt => .check rfl (.check rfl ?_)) .pure
    have heof : a.kind i ≠ .eof := by rw [hpoint]; nofun
    refine .ite (fun hname => ?_) fun _ =>
      (Fails.reportExpected (errorFrom_copies (by omega))).copies
    have hk : halts (a.kind (i + 1)) = false ∧ a.kind (i + 1) ≠ .eof := by
      rcases Bool.or_eq_true_iff.mp hname with hk | hk <;> rw [of_decide_eq_true hk] <;> decide
    obtain ⟨t, ht, -⟩ := Input.token_of_kind hk.2
    refine .takeText ht hk.1 fun _ => .bind (.node (by omega)) fun x j hj => ?_
    exact ih (by omega) (by have := Input.left_lt heof (show i < j by omega); omega)

theorem withFields_copies (hstart : start ≤ i) : Copies h live still i (withFields start x) :=
  .bounded fun rounds hleft => fieldChain_copies rounds hstart hleft

/-- A node with the fields that follow it. -/
theorem nodeFields_copies {make : Info → Expr} (hstart : start ≤ i) (hlt : start < e) :
    Copies h live still i (node start make >>= withFields start) :=
  (Copies.node hlt).bind fun _ _ hj => withFields_copies (by omega)

theorem badExpression_fails (hstart : start ≤ i) : Fails h still i (badExpression start) := by
  have hrest : Copies h false still i (do
      unless ← staysAfterBadExpression do advance
      errorFrom start) := by
    refine .look Input.staysAt (fun _ _ => rfl)
      (fun _ hi => by rw [h.staysAt (hi.resolve_right nofun)]) ?_
    refine .ite (fun _ => errorFrom_copies hstart) fun hstays => ?_
    refine .advance (Bool.eq_false_iff.mpr fun hk => hstays ?_) fun _ => ?_
    · exact Input.staysAt_of_halts hk
    · exact errorFrom_copies (by omega)
  refine .here fun span token => ?_
  cases token with
  | none => exact .report rfl hrest
  | some token =>
    dsimp only
    split
    · exact .report rfl hrest
    · exact .report rfl hrest

theorem number_copies {ε : Type} {value : Except ε α} {make : α → Info → Expr}
    {fault : ε → Fault} (hlt : start < e)
    (hfault : ∀ err, (fault err).isUnclosed = false) :
    Copies h live still i (number start value make fault) := by
  cases value with
  | ok x => exact .node hlt
  | error err =>
    refine .spanFrom hlt fun span => Fails.copies (.report (hfault err) ?_)
    exact .node hlt

/-! ### Arguments -/

section Arguments

variable {expr : Parser Expr}

/-- A list of items.  Each round passes a comma, so the bound is not used up. -/
theorem separated_copies {item : Parser α} (rounds : Nat) : ∀ {i : Nat}, a.left i < rounds →
    (∀ j, i ≤ j → Copies h live still j item) →
    Copies h live still i (separated item rounds) := by
  induction rounds with
  | zero => exact fun hleft => absurd hleft (Nat.not_lt_zero _)
  | succ rounds ih =>
    intro i hleft hitem
    refine (hitem i (Nat.le_refl i)).bind fun x j hij => .accept rfl (fun hcomma _ => ?_) .pure
    have heof : a.kind j ≠ .eof := by rw [hcomma]; nofun
    have hnext := Input.left_lt heof (Nat.lt_succ_self j)
    refine (ih ?_ fun j' hj' => hitem j' (by omega)).bind fun _ _ _ => .pure
    unfold Input.left at *
    omega

/-- The arguments stand behind the parenthesis. -/
theorem parenArgs_copies (hexpr : ∀ j, a.left j < a.left i → Copies h live still j expr) :
    Copies h live still i (parenArgs expr) := by
  refine .expect rfl (fun t ht hk _ => .accept rfl (fun _ _ => .pure) ?_) .pure
  have heof : a.kind i ≠ .eof := by rw [Input.kind_of_token ht, hk]; nofun
  refine (Copies.bounded fun rounds hleft => separated_copies rounds hleft fun j hj => ?_).bind ?_
  · exact hexpr j (Input.left_lt heof hj)
  · exact fun _ _ _ => .expect rfl (fun _ _ _ _ => .pure) .pure

theorem bareArgs_copies (hexpr : ∀ j, i ≤ j → Copies h live still j expr) :
    Copies h live still i (bareArgs expr) := by
  refine .kind (fun k k' hk hk' => ?_) ?_
  · rw [startsExpression_of_halts hk, startsExpression_of_halts hk']
  · refine .ite (fun _ => ?_) fun _ => .pure
    exact .bounded fun rounds hleft => separated_copies rounds hleft hexpr

theorem nameExpr_copies (hexpr : ∀ j, a.left j < a.left i → Copies h live still j expr) :
    Copies h live still i (nameExpr expr) := by
  refine .cursor (.expect rfl (fun t ht hk hlt => ?_) errorHere_copies)
  have heof : a.kind i ≠ .eof := by rw [Input.kind_of_token ht, hk]; nofun
  refine typeTag_copies.bind fun tag j hij => ?_
  cases tag with
  | some typeName => exact nodeFields_copies (by omega) hlt
  | none =>
    refine .check rfl (.ite (fun _ => ?_) fun _ => nodeFields_copies (by omega) hlt)
    have hleft := Input.left_lt heof hij
    refine (parenArgs_copies fun j' hj' => hexpr j' (by omega)).bind fun args j' hj' => ?_
    refine .get fun s => .ite (fun _ => ?_) fun _ => ?_
    · exact nodeFields_copies (by omega) hlt
    · exact nodeFields_copies (by omega) hlt

/-- Only errors are recorded. -/
theorem checkArguments_run (input : Input) (name : String) (args : List Expr) (s : State) :
    checkArguments name args input s = ((), { s with errors := s.errors ++
      (((input.commands.get? name).elim [] fun d => mismatches d args).map fun m =>
        ⟨.argument name m.position m.expected m.found, m.span⟩) }) := by
  have hforM : ∀ (found : List Mismatch) (s : State),
      (found.forM fun m => report (.argument name m.position m.expected m.found) m.span) input s =
        ((), { s with errors := s.errors ++ found.map fun m =>
          ⟨.argument name m.position m.expected m.found, m.span⟩ }) := by
    intro found
    induction found with
    | nil =>
      intro s
      rw [List.map_nil, List.append_nil]
      rfl
    | cons m rest ih =>
      intro s
      have hrun := ih { s with errors := s.errors ++
        [⟨.argument name m.position m.expected m.found, m.span⟩] }
      rw [List.append_assoc, List.singleton_append] at hrun
      exact hrun
  exact hforM _ s

theorem commandNode_copies {name : String} {args : List Expr} (hlt : start < e) :
    Copies h live still i (commandNode start name args) := by
  have hcheck : Copies h live still i (checkArguments name args) := by
    intro s hs hi
    rw [checkArguments_run, checkArguments_run, h.commands]
    refine ⟨Nat.le_refl _, hs ▸ hi, ⟨_, rfl, ?_⟩, fun _ => ⟨rfl, rfl, rfl⟩, fun _ => rfl⟩
    exact List.forall_mem_map.mpr fun _ _ => rfl
  exact hcheck.bind fun _ _ _ => .node hlt

theorem commandExpr_copies (hk : a.kind i = .command)
    (hexpr : ∀ j, a.left j < a.left i → Copies h live still j expr) :
    Copies h live still i (commandExpr expr) := by
  have heof : a.kind i ≠ .eof := by rw [hk]; nofun
  obtain ⟨t, ht, -⟩ := Input.token_of_kind heof
  refine .cursor (.takeText ht (by rw [hk]; rfl) fun hlt => .check rfl ?_)
  have hfinish : ∀ args j, i ≤ j →
      Copies h live still j (commandNode i t.text args >>= withFields i) :=
    fun args j hij => (commandNode_copies hlt).bind fun _ _ hj => withFields_copies (by omega)
  refine .ite (fun _ => ?_) fun _ => hfinish [] _ (Nat.le_succ i)
  have hleft : a.left (i + 1) < a.left i := Input.left_lt heof (Nat.lt_succ_self i)
  refine (parenArgs_copies fun j' hj' => hexpr j' (by omega)).bind fun args j hj => ?_
  exact hfinish args j (by omega)

end Arguments

/-! ### Operands and operators -/

section Operands

variable {inner : Precedence → Parser Expr}

theorem wordExpr_copies {word : Keyword} (hk : a.kind i = .keyword word)
    (hinner : ∀ level j, a.left j < a.left i → Copies h live still j (inner level)) :
    Copies h live still i (wordExpr inner i word) := by
  have hleft : a.left (i + 1) < a.left i := Input.left_lt (by rw [hk]; nofun) (Nat.lt_succ_self i)
  have hpass : halts (.keyword word) = false → halts (a.kind i) = false := fun hw => hk ▸ hw
  unfold wordExpr
  split
  case h_10 => exact .pure
  all_goals refine .advance (hpass rfl) fun hlt => ?_
  case h_4 | h_8 | h_9 =>
    exact (hinner _ _ hleft).bind fun _ _ _ => .map (.node hlt)
  case h_5 | h_6 | h_7 =>
    refine .option typeName_copies (fun _ _ => .pure) fun _ _ _ => ?_
    exact .map (.node hlt)
  all_goals exact .map (.node hlt)

/-- An operand.  The inner expressions stand behind its first token. -/
theorem primary_copies
    (hinner : ∀ level j, a.left j < a.left i → Copies h live still j (inner level)) :
    Copies h live still i (primary inner) := by
  have hbad : Fails h still i (badExpression i) := badExpression_fails (Nat.le_refl i)
  have hmissing : Fails h still i (do reportExpected .expression; errorHere) :=
    .reportExpected errorHere_copies
  refine .cursor (.peek ?_ fun hhalts => ?_)
  · cases ht : a.tokens[i]? with
    | none => exact hmissing.copies
    | some t =>
      have hkt := Input.kind_of_token ht
      have hpass : ∀ {kind : Kind}, t.kind = kind → halts kind = false → halts (a.kind i) = false :=
        fun hk hw => hkt ▸ hk ▸ hw
      have hleft : ∀ {kind : Kind}, t.kind = kind → kind ≠ .eof → a.left (i + 1) < a.left i :=
        fun hk hne => Input.left_lt (by rw [hkt, hk]; exact hne) (Nat.lt_succ_self i)
      have hfields : ∀ {p : Parser Expr}, Copies h live still (i + 1) p →
          Copies h live still (i + 1) (do withFields i (← p)) :=
        fun hp => hp.bind fun _ _ _ => withFields_copies (by omega)
      dsimp only
      cases hk : t.kind with
      | integer | float | hex =>
        exact .advance (hpass hk rfl) fun hlt => hfields (number_copies hlt fun _ => rfl)
      | string => exact .advance (hpass hk rfl) fun hlt => hfields (.node hlt)
      | identifier => exact nameExpr_copies fun j => hinner .or j
      | command => exact commandExpr_copies (hkt.trans hk) fun j => hinner .or j
      | leftParen =>
        refine .advance (hpass hk rfl) fun hlt => ?_
        refine (hinner .or _ (hleft hk nofun)).bind fun x j hj => ?_
        -- the closing parenthesis may be missing
        have hgroup : ∀ {live : Bool} {j : Nat}, i ≤ j →
            Copies h live still j (node i (.grouped · x) >>= withFields i) :=
          fun hij => nodeFields_copies hij hlt
        exact .expect rfl (fun _ _ _ _ => hgroup (by omega)) (hgroup (by omega))
      | minus | plus =>
        refine .advance (hpass hk rfl) fun hlt => ?_
        exact (hinner .power _ (hleft hk nofun)).bind fun _ _ _ =>
          nodeFields_copies (by omega) hlt
      | keyword word =>
        refine .option (wordExpr_copies (hkt.trans hk) hinner) (fun j hij => ?_) ?_
        · exact (badExpression_fails hij).copies
        · exact fun _ _ hij => withFields_copies hij
      | _ => exact hbad.copies
  · cases ht : a.tokens[i]? with
    | none => exact hmissing
    | some t =>
      rw [Input.kind_of_token ht] at hhalts
      dsimp only
      rcases halts_cases hhalts with hk | hk | hk | hk | hk <;> rw [hk] <;> exact hbad

theorem climb_copies {level : Precedence}
    (hinner : ∀ level j, a.left j < a.left start → Copies h live still j (inner level))
    (rounds : Nat) : ∀ {i : Nat} {x : Expr}, start ≤ i → a.left i < rounds →
      Copies h live still i (climb inner level start rounds x) := by
  induction rounds with
  | zero => exact fun _ hleft => absurd hleft (Nat.not_lt_zero _)
  | succ rounds ih =>
    intro i x hstart hleft
    refine .kind (fun k k' hk hk' => ?_) ?_
    · rw [binaryOp?_of_halts hk, binaryOp?_of_halts hk']
    · cases hop : (a.kind i).binaryOp? with
      | none => exact .pure
      | some op =>
        have hpass : halts (a.kind i) = false := by
          refine Bool.eq_false_iff.mpr fun hhalts => ?_
          rw [binaryOp?_of_halts hhalts] at hop
          cases hop
        have heof : a.kind i ≠ .eof := fun hk => by rw [hk] at hop; cases hop
        have hnext : ∀ {j : Nat}, i < j → a.left j < a.left i := Input.left_lt heof
        have hbehind : a.left i ≤ a.left start := Nat.sub_le_sub_left hstart _
        refine .ite (fun _ => .pure) fun _ => .advance hpass fun _ => ?_
        have hright : a.left (i + 1) < a.left i := hnext (Nat.lt_succ_self i)
        refine (hinner _ _ (by omega)).bind fun right j hj => ?_
        refine .bind (.node (by omega)) fun x j' hj' => ?_
        have hrest := hnext (show i < j' by omega)
        exact ih (by omega) (by omega)

end Operands

/-- An expression, for which the nesting is bounded by the tokens left. -/
theorem expressionAt_copies (nesting : Nat) : ∀ {i : Nat} (level : Precedence),
    a.left i < nesting → Copies h live still i (expressionAt nesting level) := by
  induction nesting with
  | zero => exact fun _ hleft => absurd hleft (Nat.not_lt_zero _)
  | succ nesting ih =>
    intro i level hleft
    have hinner : ∀ level j, a.left j < a.left i →
        Copies h live still j (expressionAt nesting level) := fun level j hj => ih level (by omega)
    refine .cursor ((primary_copies hinner).bind fun x j hij => ?_)
    exact .bounded fun rounds hrounds => climb_copies hinner rounds hij hrounds

theorem expression_copies : Copies h live still i expression :=
  .bounded fun nesting hleft => expressionAt_copies nesting .or hleft

end Parts

end Parser

end FrameBasic
