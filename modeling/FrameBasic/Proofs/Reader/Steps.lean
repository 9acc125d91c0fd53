import FrameBasic.Proofs.Reader.Simple
import FrameBasic.Proofs.Reader.Span

/-!
# What a reader does, step by step

A reader is made from few steps: it goes on, records a fault, declares a name, opens or closes a
scope or a block.  A run is a row of such steps, and what every step preserves is preserved by every
reader.  Steps say what is known when they are taken: a name is declared because of a token that was
passed, and a type is called unknown at a token that names it, when the scopes do not know it.

What is taken back leaves no trace, because only expressions are taken back and they declare
nothing.

Inside of a statement the readers pass no line feed and no colon.  So a name in a list and the word
that begins the list stand on one line.

A run keeps the recorded errors; so when none is recorded, none was recorded on the way.  Then what
was read lies between the tokens where the reader started and stopped.

## Main definitions

* `Parser.Input.OneLine` — no line feed and no colon stands between two tokens.
* `Parser.Input.Declares`, `Parser.Input.NameAt` — a name is declared at a token.
* `Parser.Input.NamedBefore` — a name was declared before a token.
* `Parser.Step`, `Parser.Run` — one step, and a row of steps.
* `Parser.Runs`, `Parser.Passes` — the judgements about readers.
* `Parser.FieldsRead` — what is given for something assignable with the fields behind it.

## Main results

* `Parser.Runs.bind` — one reader after the other.
* `Parser.expression_passes` — reading an expression is a run on one line, and the expression lies
  where it was read.
-/

namespace FrameBasic.Parser

/-! ### Names on a line -/

namespace Input

/-- No line feed and no colon stands from one token up to another. -/
def OneLine (input : Input) (i j : Nat) : Prop :=
  ∀ k, i ≤ k → k < j → (input.kind k).isSeparator = false

/-- The places that reading on one line may lead to. -/
structure Line (input : Input) where
  /-- A reader may stop there. -/
  Has : Nat → Prop
  /-- A token that is neither a line feed nor a colon can be passed. -/
  steady : ∀ i, (input.kind i).isSeparator = false → Has i → Has (i + 1)

/-- The token is a name with the key. -/
def NameAt (input : Input) (j : Nat) (key : String) : Prop :=
  ∃ t, input.tokens[j]? = some t ∧ t.kind ∈ [.identifier, .command] ∧ Name.fold t.text = key

/-- The token at an index stands where a word declares a name that is no type: behind the word, or
further on in its list, or among the parameters of a function. -/
def Declares (input : Input) (j : Nat) : Prop :=
  ∃ w < j, input.OneLine w j ∧
    ((j = w + 1 ∧ input.kind w ∈ [.keyword .local_, .keyword .global, .keyword .dim,
        .keyword .const, .keyword .function]) ∨
      (input.kind (j - 1) = .comma ∧ input.kind w ∈ [.keyword .local_, .keyword .global,
        .keyword .dim, .keyword .function]) ∨
      (input.kind (j - 1) = .leftParen ∧ input.kind w = .keyword .function))

/-- A name with the key was declared before a token. -/
def NamedBefore (input : Input) (i : Nat) (key : String) : Prop :=
  ∃ j < i, input.Declares j ∧ input.NameAt j key

variable {input : Input}

theorem NamedBefore.mono {i j : Nat} {key : String} (h : input.NamedBefore i key) (hij : i ≤ j) :
    input.NamedBefore j key := by
  obtain ⟨k, hk, hdeclares, hname⟩ := h
  exact ⟨k, Nat.lt_of_lt_of_le hk hij, hdeclares, hname⟩

/-- The places on the line of a token, from there on. -/
def lineOf (input : Input) (i : Nat) : input.Line where
  Has := input.OneLine i
  steady := by
    intro j hj hline k hk hlt
    rcases Nat.lt_or_eq_of_le (Nat.le_of_lt_succ hlt) with hlt | rfl
    · exact hline k hk hlt
    · exact hj

/-- Reading may end anywhere. -/
def anywhere (input : Input) : input.Line :=
  ⟨fun _ => True, fun _ _ _ => trivial⟩

theorem oneLine_self (i : Nat) : input.OneLine i i :=
  fun _ hk hlt => absurd hlt (Nat.not_lt.mpr hk)

theorem nameAt_of_token {i : Nat} {t : Token} (ht : input.tokens[i]? = some t)
    (hkind : t.kind = .identifier) : input.NameAt i (Name.fold t.text) :=
  ⟨t, ht, by simp [hkind], rfl⟩

/-- The name behind a word. -/
theorem declares_first {w : Nat} (hw : input.kind w ∈ [.keyword .local_, .keyword .global,
    .keyword .dim, .keyword .const, .keyword .function]) : input.Declares (w + 1) := by
  have hplain : (input.kind w).isSeparator = false := by
    cases hk : input.kind w <;> simp_all [Kind.isSeparator]
  exact ⟨w, Nat.lt_succ_self w, (input.lineOf w).steady w hplain (oneLine_self w), .inl ⟨rfl, hw⟩⟩

/-- A further name of a list. -/
theorem declares_next {w j : Nat} (hw : input.kind w ∈ [.keyword .local_, .keyword .global,
    .keyword .dim, .keyword .function]) (hlt : w < j) (hline : input.OneLine w j)
    (hj : input.kind j = .comma) : input.Declares (j + 1) :=
  ⟨w, Nat.lt_succ_of_lt hlt, (input.lineOf w).steady j (hj ▸ rfl) hline, .inr (.inl ⟨hj, hw⟩)⟩

/-- The first parameter of a function. -/
theorem declares_param {w j : Nat} (hw : input.kind w = .keyword .function) (hlt : w < j)
    (hline : input.OneLine w j) (hj : input.kind j = .leftParen) : input.Declares (j + 1) :=
  ⟨w, Nat.lt_succ_of_lt hlt, (input.lineOf w).steady j (hj ▸ rfl) hline, .inr (.inr ⟨hj, hw⟩)⟩

end Input

/-! ### Steps -/

/-- One step of a reader. -/
inductive Step (input : Input) : State → State → Prop
  /-- It goes on. -/
  | move {s : State} {i : Nat} (h : s.cursor ≤ i) : Step input s { s with cursor := i }
  /-- A fault is recorded. -/
  | report {s : State} {e : ParseError} (h : ∀ name, e.fault ≠ .unknownType name) :
    Step input s { s with errors := s.errors ++ [e] }
  /-- The name of a type that is not known is passed and recorded. -/
  | unknownType {s : State} {t : Token} (ht : input.tokens[s.cursor]? = some t)
      (hkind : t.kind = .identifier) (hunknown : s.scopes.isType t.text = false) :
    Step input s { s with
      cursor := s.cursor + 1
      errors := s.errors ++ [⟨.unknownType t.text, t.span⟩] }
  /-- A name that was passed is declared in the innermost scope. -/
  | define {s : State} {symbol : Symbol} {j : Nat} (hj : j < s.cursor) (h : input.Declares j)
      (hname : input.NameAt j symbol.name) :
    Step input s { s with scopes := s.scopes.define symbol }
  /-- A name that was passed is declared in the global scope. -/
  | defineGlobal {s : State} {symbol : Symbol} {j : Nat} (hj : j < s.cursor) (h : input.Declares j)
      (hname : input.NameAt j symbol.name) :
    Step input s { s with scopes := s.scopes.defineGlobal symbol }
  /-- A name with a type behind it is declared where the innermost scope does not know it. -/
  | defineTagged {s : State} {symbol : Symbol} {name : String} {j : Nat} (hj : j < s.cursor)
      (hlabel : input.kind (j + 1) = .label) (hname : input.NameAt j symbol.name)
      (hsymbol : symbol.name = Name.fold name) (hnew : s.scopes.lookupInner? name = none) :
    Step input s { s with scopes := s.scopes.define symbol }
  /-- A name that is not known is declared. -/
  | defineNew {s : State} {symbol : Symbol} {name : String} (hsymbol : symbol.name = Name.fold name)
      (hnew : s.scopes.lookup? name = none) :
    Step input s { s with scopes := s.scopes.define symbol }
  /-- A type is declared. -/
  | defineType {s : State} {name : String} {fields : List String} :
    Step input s { s with scopes := s.scopes.defineGlobal (.userType name fields) }
  /-- The scope of a function is opened. -/
  | enter {s : State} {w : Nat} (hw : w < s.cursor) (hword : input.kind w = .keyword .function) :
    Step input s { s with scopes := s.scopes.enter }
  /-- The innermost scope is closed. -/
  | exit {s : State} : Step input s { s with scopes := s.scopes.exit }
  /-- A block is opened or closed. -/
  | nest {s : State} {depth : Nat} : Step input s { s with depth }
  /-- A bound was used up. -/
  | exhaust {s : State} : Step input s { s with exhausted := true }

/-- A row of steps. -/
abbrev Run (input : Input) : State → State → Prop :=
  Relation.ReflTransGen (Step input)

variable {input : Input}

theorem Step.cursor_le {s s' : State} (h : Step input s s') : s.cursor ≤ s'.cursor := by
  cases h with
  | move h => exact h
  | unknownType => exact Nat.le_succ _
  | _ => exact Nat.le_refl _

theorem Run.cursor_le {s s' : State} (h : Run input s s') : s.cursor ≤ s'.cursor := by
  induction h with
  | refl => exact Nat.le_refl _
  | tail _ hstep ih => exact Nat.le_trans ih hstep.cursor_le

/-- What every run keeps: the recorded errors, and that a bound was used up. -/
theorem Run.keeps {s s' : State} (h : Run input s s') :
    s.errors <+: s'.errors ∧ (s.exhausted = true → s'.exhausted = true) := by
  induction h with
  | refl => exact ⟨List.prefix_refl _, id⟩
  | tail _ hstep ih =>
    cases hstep with
    | report | unknownType => exact ⟨ih.1.trans (List.prefix_append _ _), ih.2⟩
    | exhaust => exact ⟨ih.1, fun _ => rfl⟩
    | _ => exact ih

/-- No error was recorded, and no bound was used up. -/
def Clean (s s' : State) : Prop :=
  s'.errors = s.errors ∧ s'.exhausted = false

/-- What is clean was clean on the way. -/
theorem Run.clean {s s₁ s₂ : State} (h : Run input s s₁) (h' : Run input s₁ s₂)
    (hclean : Clean s s₂) : Clean s s₁ ∧ Clean s₁ s₂ := by
  obtain ⟨herrors, hexhausted⟩ := hclean
  have hback : s₁.errors <+: s.errors := herrors ▸ h'.keeps.1
  have heq : s₁.errors = s.errors :=
    hback.eq_of_length (Nat.le_antisymm hback.length_le h.keeps.1.length_le)
  have hmiddle : s₁.exhausted = false := by
    cases hs : s₁.exhausted with
    | false => rfl
    | true => exact absurd (h'.keeps.2 hs) (by rw [hexhausted]; exact Bool.false_ne_true)
  exact ⟨⟨heq, hmiddle⟩, herrors.trans heq.symm, hexhausted⟩

/-! ### Readers -/

/-- From the token `i` on, which is on the line, the reader makes a run that ends on the line; and
`A` holds of its result and of the place where it ends.  If the run is clean, `Q` holds of them
too. -/
def Runs {α : Type} (line : input.Line) (i : Nat) (p : Parser α) (A Q : α → Nat → Prop) : Prop :=
  ∀ s : State, s.cursor = i → i ≤ input.stop → line.Has i →
    (Run input s (p input s).2 ∧ (p input s).2.cursor ≤ input.stop ∧
      line.Has (p input s).2.cursor) ∧ A (p input s).1 (p input s).2.cursor ∧
      (Clean s (p input s).2 → Q (p input s).1 (p input s).2.cursor)

variable {line : input.Line} {α β γ : Type} {i : Nat} {p : Parser α} {f : α → Parser β}
  {A Q : α → Nat → Prop} {B R : β → Nat → Prop}

/-- A run of which something is said only if it is clean. -/
abbrev Passes (line : input.Line) (i : Nat) (p : Parser α) (Q : α → Nat → Prop) : Prop :=
  Runs line i p (fun _ _ => True) Q

/-- The reader makes a run from every place, and nothing is said about its result. -/
abbrev Walks (line : input.Line) (p : Parser α) : Prop :=
  ∀ i, Passes line i p fun _ _ => True

namespace Runs

theorem weaken {A' Q' : α → Nat → Prop} (h : Runs line i p A Q)
    (hA : ∀ a j, i ≤ j → A a j → A' a j)
    (hQ : ∀ a j, i ≤ j → j ≤ input.stop → Q a j → Q' a j) : Runs line i p A' Q' := by
  intro s hs hi hline
  obtain ⟨hends, ha, hq⟩ := h s hs hi hline
  have hle : i ≤ (p input s).2.cursor := hs ▸ hends.1.cursor_le
  exact ⟨hends, hA _ _ hle ha, fun hclean => hQ _ _ hle hends.2.1 (hq hclean)⟩

theorem imp {Q' : α → Nat → Prop} (h : Runs line i p A Q)
    (hQ : ∀ a j, i ≤ j → j ≤ input.stop → Q a j → Q' a j) : Passes line i p Q' :=
  h.weaken (fun _ _ _ _ => trivial) hQ

/-- Nothing more is asked. -/
theorem walks (h : Runs line i p A Q) : Passes line i p fun _ _ => True :=
  h.imp fun _ _ _ _ _ => trivial

theorem gives {a : α} (ha : A a i) (hq : i ≤ input.stop → Q a i) : Runs line i (pure a) A Q := by
  intro s hs hi hline
  subst hs
  exact ⟨⟨.refl, hi, hline⟩, ha, fun _ => hq hi⟩

theorem pure {a : α} (hq : i ≤ input.stop → Q a i) : Passes line i (pure a) Q :=
  gives trivial hq

/-- The end of what is not clean. -/
theorem ends {a : α} (ha : A a i) : Runs line i (Pure.pure a) A fun _ _ => True :=
  gives ha fun _ => trivial

theorem andThen (hp : Runs line i p A Q) (hf : ∀ a j, i ≤ j → line.Has j → A a j →
    Runs line j (f a) B fun b k => Q a j → R b k) : Runs line i (p >>= f) B R := by
  intro s hs hi hline
  obtain ⟨⟨hrun, hstop, hend⟩, ha, hq⟩ := hp s hs hi hline
  obtain ⟨⟨hrun', hends⟩, hb, hr⟩ :=
    hf _ _ (hs ▸ hrun.cursor_le) hend ha (p input s).2 rfl hstop hend
  refine ⟨⟨hrun.trans hrun', hends⟩, hb, fun hclean => ?_⟩
  -- an error of the first reader would still be there
  obtain ⟨hfirst, hsecond⟩ := hrun.clean hrun' hclean
  exact hr hsecond (hq hfirst)

/-- One reader after the other. -/
theorem bind (hp : Runs line i p A Q)
    (hf : ∀ a j, i ≤ j → Runs line j (f a) B fun b k => Q a j → R b k) :
    Runs line i (p >>= f) B R :=
  hp.andThen fun a j hij _ _ => hf a j hij

/-- A reader of which only `A` is asked, and another one after it. -/
theorem known (hp : Runs line i p A Q)
    (hf : ∀ a j, i ≤ j → line.Has j → A a j → Runs line j (f a) B R) :
    Runs line i (p >>= f) B R :=
  hp.andThen fun a j hij hj ha =>
    (hf a j hij hj ha).weaken (fun _ _ _ h => h) fun _ _ _ _ h _ => h

/-- A reader of which nothing is asked, and another one after it. -/
theorem step (hp : Runs line i p A Q) (hf : ∀ a j, i ≤ j → Runs line j (f a) B R) :
    Runs line i (p >>= f) B R :=
  hp.known fun a j hij _ _ => hf a j hij

theorem map {g : α → β} (h : Runs line i p (fun a j => B (g a) j) fun a j => R (g a) j) :
    Runs line i (g <$> p) B R :=
  h

/-- A reader that only looks, and another one after it. -/
theorem look {g : Input → State → γ} {f : γ → Parser β} (hf : ∀ c, Runs line i (f c) B R) :
    Runs line i (looking g >>= f) B R :=
  fun s hs hi hline => hf _ s hs hi hline

/-- A look that depends on the place alone. -/
theorem place {q : Parser γ} {f : γ → Parser β} (g : Nat → γ)
    (hq : ∀ s, q input s = (g s.cursor, s)) (hf : Runs line i (f (g i)) B R) :
    Runs line i (q >>= f) B R := by
  intro s hs hi hline
  rw [run_look (hq s), hs]
  exact hf s hs hi hline

theorem cursor {f : Nat → Parser β} (hf : Runs line i (f i) B R) :
    Runs line i (cursor >>= f) B R :=
  place id (fun _ => rfl) hf

theorem kind {f : Kind → Parser β} (hf : Runs line i (f (input.kind i)) B R) :
    Runs line i (kind >>= f) B R :=
  place input.kind (fun _ => rfl) hf

theorem spanFrom {start : Nat} {f : Span → Parser β}
    (hf : Runs line i (f (input.spanFrom start i)) B R) :
    Runs line i (spanFrom start >>= f) B R :=
  place (input.spanFrom start) (fun _ => rfl) hf

theorem peek {f : Option Token → Parser β} (hnone : Runs line i (f none) B R)
    (hsome : ∀ t, input.tokens[i]? = some t → Runs line i (f (some t)) B R) :
    Runs line i (peek? >>= f) B R := by
  refine place (fun i => input.tokens[i]?) (fun _ => rfl) ?_
  cases ht : input.tokens[i]? with
  | none => exact hnone
  | some t => exact hsome t ht

theorem check {f : Bool → Parser β} {wanted : Kind}
    (hf : Runs line i (f (decide (input.kind i = wanted))) B R) :
    Runs line i (check wanted >>= f) B R :=
  place (fun i => decide (input.kind i = wanted)) (fun _ => rfl) hf

/-- The reader may rely on its place. -/
theorem within (h : i ≤ input.stop → Runs line i p A Q) : Runs line i p A Q :=
  fun s hs hi hline => h hi s hs hi hline

theorem ite {c : Prop} [Decidable c] {q : Parser α} (hp : c → Runs line i p A Q)
    (hq : ¬ c → Runs line i q A Q) : Runs line i (if c then p else q) A Q := by
  by_cases h : c
  · rw [if_pos h]
    exact hp h
  · rw [if_neg h]
    exact hq h

theorem bounded {loop : Nat → Parser α} (h : ∀ rounds, Runs line i (loop rounds) A Q) :
    Runs line i (bounded loop) A Q :=
  fun s hs hi hline => h _ s hs hi hline

/-- One step, and what comes after it at the same place. -/
theorem of_step {q : Parser γ} {f : γ → Parser β}
    (hq : ∀ s, s.cursor = i → Step input s (q input s).2 ∧ (q input s).2.cursor = i)
    (hf : ∀ c, Runs line i (f c) B R) : Runs line i (q >>= f) B R := by
  intro s hs hi hline
  obtain ⟨hstep, hplace⟩ := hq s hs
  obtain ⟨⟨hrun, hends⟩, hb, hr⟩ := hf (q input s).1 (q input s).2 hplace hi hline
  exact ⟨⟨.head hstep hrun, hends⟩, hb, fun hclean =>
    hr (Run.clean (.single hstep) hrun hclean).2⟩

/-- After a step that is not clean nothing is asked for any more. -/
theorem of_fault {q : Parser γ} {f : γ → Parser β} {R' : β → Nat → Prop}
    (hq : ∀ s, s.cursor = i → Step input s (q input s).2 ∧ (q input s).2.cursor = i)
    (hfault : ∀ s, ¬ Clean s (q input s).2) (hf : ∀ c, Runs line i (f c) B R') :
    Runs line i (q >>= f) B R := by
  intro s hs hi hline
  obtain ⟨hstep, hplace⟩ := hq s hs
  obtain ⟨⟨hrun, hends⟩, hb, -⟩ := hf (q input s).1 (q input s).2 hplace hi hline
  exact ⟨⟨.head hstep hrun, hends⟩, hb, fun hclean =>
    absurd (Run.clean (.single hstep) hrun hclean).1 (hfault s)⟩

theorem report {fault : Fault} {span : Span} {f : Unit → Parser β} {R' : β → Nat → Prop}
    (hfault : ∀ name, fault ≠ .unknownType name) (hf : Runs line i (f ()) B R') :
    Runs line i (report fault span >>= f) B R := by
  refine of_fault (fun _ hs => ⟨.report hfault, hs⟩) (fun s hclean => ?_) fun _ => hf
  have hgrown : s.errors ++ [(⟨fault, span⟩ : ParseError)] = s.errors := hclean.1
  exact absurd hgrown (by simp)

theorem exhaust {f : Unit → Parser β} {R' : β → Nat → Prop} (hf : Runs line i (f ()) B R') :
    Runs line i (exhaust >>= f) B R :=
  of_fault (fun _ hs => ⟨.exhaust, hs⟩) (fun _ hclean => Bool.false_ne_true hclean.2.symm)
    fun _ => hf

theorem reportExpected {expected : Expected} {f : Unit → Parser β} {R' : β → Nat → Prop}
    (hf : Runs line i (f ()) B R') : Runs line i (reportExpected expected >>= f) B R := by
  unfold Parser.reportExpected
  rw [bind_assoc]
  refine look fun span => ?_
  rw [bind_assoc]
  refine look fun token => ?_
  cases token with
  | none => exact report (by simp) hf
  | some token =>
    dsimp only
    split
    · exact report (by simp) hf
    · exact report (by simp) hf

/-- Passing a token before the end. -/
theorem pass {f : Unit → Parser β} (hi : i < input.stop) (hline : line.Has i → line.Has (i + 1))
    (hf : Runs line (i + 1) (f ()) B R) : Runs line i (advance >>= f) B R := by
  intro s hs _ hhere
  have hrun : (Parser.advance >>= f) input s =
      f () input { s with cursor := input.after s.cursor } := rfl
  rw [hrun, hs, Input.after_of_lt hi]
  obtain ⟨⟨hnext, hends⟩, hb, hr⟩ := hf { s with cursor := i + 1 } rfl hi (hline hhere)
  have hmove : Step input s { s with cursor := i + 1 } := .move (hs ▸ Nat.le_succ i)
  exact ⟨⟨.head hmove hnext, hends⟩, hb, hr⟩

/-- The end of the line is not passed. -/
theorem advance {f : Unit → Parser β} (hkind : (input.kind i).isTerminator = false)
    (hf : Runs line (i + 1) (f ()) B R) : Runs line i (advance >>= f) B R := by
  have hkinds : (input.kind i).isSeparator = false ∧ input.kind i ≠ .eof := by
    cases hk : input.kind i <;> rw [hk] at hkind <;> simp_all [Kind.isTerminator, Kind.isSeparator]
  exact within fun hi => pass (Input.lt_stop hi hkinds.2) (line.steady i hkinds.1) hf

theorem takeText {f : String → Parser β} (hkind : (input.kind i).isTerminator = false)
    (hf : ∀ text, Runs line (i + 1) (f text) B R) : Runs line i (takeText >>= f) B R := by
  unfold Parser.takeText
  rw [bind_assoc]
  refine look fun token => ?_
  rw [bind_assoc]
  exact advance hkind (hf _)

theorem accept {wanted : Kind} {f : Bool → Parser β} (hw : wanted.isTerminator = false)
    (htrue : input.kind i = wanted → Runs line (i + 1) (f true) B R)
    (hfalse : Runs line i (f false) B R) : Runs line i (accept wanted >>= f) B R := by
  unfold Parser.accept
  rw [bind_assoc]
  refine check ?_
  by_cases h : input.kind i = wanted
  · rw [decide_eq_true h]
    show Runs line i (do Parser.advance; f true) B R
    exact advance (h ▸ hw) (htrue h)
  · rw [decide_eq_false h]
    exact hfalse

/-- A token of the kind is passed, or something is recorded as missing. -/
theorem expect {wanted : Kind} {expected : Expected} {f : Option Token → Parser β}
    {R' : β → Nat → Prop} (hw : wanted.isTerminator = false)
    (hsome : ∀ t, input.tokens[i]? = some t → t.kind = wanted →
      Runs line (i + 1) (f (some t)) B R)
    (hnone : Runs line i (f none) B R') : Runs line i (expect wanted expected >>= f) B R := by
  have hmissing : Runs line i (do Parser.reportExpected expected; f none) B R :=
    reportExpected hnone
  unfold Parser.expect
  rw [bind_assoc]
  refine peek hmissing fun t ht => ?_
  dsimp only
  split
  · next h =>
    have hkind : input.kind i = wanted := (Input.kind_of_token ht).trans h
    show Runs line i (do Parser.advance; f (some t)) B R
    exact advance (hkind ▸ hw) (hsome t ht h)
  · exact hmissing

/-- A node and what comes after it. -/
theorem node {start : Nat} {make : Info → Expr} {f : Expr → Parser β}
    (hmake : ∀ i j, (make i).withInfo j = make j)
    (hf : ∀ info, (make info).span = input.spanFrom start i → Runs line i (f (make info)) B R) :
    Runs line i (node start make >>= f) B R := by
  intro s hs hi hline
  have hrun : (Parser.node start make >>= f) input s =
      f ((make { span := input.spanFrom start s.cursor }).typed s.scopes input.commands) input s :=
    rfl
  rw [hrun, Expr.typed, Expr.withType, hmake]
  refine hf _ ?_ s hs hi hline
  rw [span_make hmake, ← hs]
  exact span_make hmake { span := input.spanFrom start s.cursor }

/-- A reader that only looks. -/
theorem of_look {g : Input → State → α} : Passes line i (looking g) fun _ _ => True := by
  rintro s rfl hi hline
  exact ⟨⟨.refl, hi, hline⟩, trivial, fun _ => trivial⟩

end Runs

/-! ### Lists -/

/-- What the reader gives lies where it was read. -/
def Places (line : input.Line) (node : α → TreeNode) (p : Parser α) : Prop :=
  ∀ i, Passes line i p fun a j => Lies input i j (node a)

/-- What the reader gives was read in a row. -/
abbrev PassesRow (line : input.Line) (node : α → TreeNode) (i : Nat) (p : Parser (List α)) : Prop :=
  Passes line i p fun as j => InRow input i j (as.map node)

theorem separated_passes {node : α → TreeNode} (hp : Places line node p) :
    PassesRow line node i (bounded (separated p)) := by
  refine .bounded fun rounds => ?_
  induction rounds generalizing i with
  | zero => exact .exhaust (.ends trivial)
  | succ rounds ih =>
    refine (hp i).bind fun a j hj => .accept rfl (fun _ => ?_) ?_
    · refine ih.bind fun as k hk => .pure fun _ hrest ha => ?_
      exact .cons (Nat.le_refl _) ha (hrest.mono (Nat.le_succ j) (Nat.le_refl _))
    · exact .pure fun _ ha => .single ha

/-! ### Expressions -/

section Expressions

variable {expr : Parser Expr} {inner : Precedence → Parser Expr} {start : Nat} {e : Expr}

/-- Only a label is the name of a type behind a name. -/
theorem typeTag_runs :
    Runs line i typeTag (fun tag _ => tag.isSome = true → input.kind i = .label)
      fun _ _ => True := by
  refine .place (fun _ => input) (fun _ => rfl) (.cursor (.cursor ?_))
  cases htoken : input.tokens[i]? with
  | none => exact .ends nofun
  | some token =>
    cases i with
    | zero => exact .ends nofun
    | succ k =>
      refine .ite (fun h => ?_) fun _ => .ends nofun
      have hkind : input.kind (k + 1) = .label := (Input.kind_of_token htoken).trans h.1
      exact .advance (hkind ▸ rfl) (.ends fun _ => hkind)

/-- What happens where a name stands in the place of a type. -/
theorem typeName_run {s : State} {t : Token} (ht : input.tokens[s.cursor]? = some t)
    (hkind : t.kind = .identifier) (hlt : s.cursor < input.stop) :
    typeName input s = (some t.text, { s with
      cursor := s.cursor + 1
      errors := if s.scopes.isType t.text then s.errors
        else s.errors ++ [⟨.unknownType t.text, t.span⟩] }) := by
  have hexpect : expectName .typeName input s = (some t, { s with cursor := s.cursor + 1 }) := by
    rw [expectName, expect_run_pos ht hkind, Input.after_of_lt hlt]
  rw [typeName, run_bind, hexpect]
  show (if s.scopes.isType t.text then pure (some t.text) else do
    report (.unknownType t.text) t.span
    return some t.text : Parser (Option String)) input { s with cursor := s.cursor + 1 } = _
  cases s.scopes.isType t.text with
  | true => rfl
  | false => rfl

/-- The name of a type that is not known is recorded where it stands. -/
theorem typeName_walks : Walks line typeName := by
  intro i
  have hmissing : Passes line i (do reportExpected .typeName; return none)
      fun (_ : Option String) _ => True :=
    .reportExpected (.ends trivial)
  have hexpect : ∀ t, input.tokens[i]? = some t → t.kind = .identifier →
      Passes line i typeName fun _ _ => True := by
    intro t ht hkind s hs hi hhere
    subst hs
    have hplace : input.kind s.cursor = .identifier := (Input.kind_of_token ht).trans hkind
    have hlt : s.cursor < input.stop := Input.lt_stop hi (hplace ▸ by decide)
    rw [typeName_run ht hkind hlt]
    refine ⟨⟨?_, hlt, line.steady _ (hplace ▸ rfl) hhere⟩, trivial, fun _ => trivial⟩
    cases hknown : s.scopes.isType t.text with
    | true => exact .single (.move (Nat.le_succ _))
    | false => exact .single (.unknownType ht hkind hknown)
  -- the step depends on the scopes, so the rules for readers do not apply where a name stands
  by_cases h : ∃ t, input.tokens[i]? = some t ∧ t.kind = .identifier
  · obtain ⟨t, ht, hkind⟩ := h
    exact hexpect t ht hkind
  · unfold typeName expectName expect
    rw [bind_assoc]
    refine .peek hmissing fun t ht => ?_
    dsimp only
    rw [if_neg fun hkind => h ⟨t, ht, hkind⟩]
    exact hmissing

/-- From `i` up to `j` there are fields, each with its backslash. -/
inductive Input.Fields (input : Input) : Nat → Nat → Prop
  | nil {i : Nat} : input.Fields i i
  | cons {i j : Nat} (point : input.kind i = .backslash)
      (name : input.kind (i + 1) ∈ [.identifier, .command]) (rest : input.Fields (i + 2) j) :
    input.Fields i j

/-- What is given for something assignable with fields from `i` on: it ends behind the last field,
or the name of another field is missing. -/
def FieldsRead (input : Input) (start i : Nat) (e : Expr) : Prop :=
  ∃ j, input.Fields i j ∧ (e.isAssignable = true ∧ e.span = input.spanFrom start j ∨
    input.kind j = .backslash ∧ input.kind (j + 1) ∉ [.identifier, .command] ∧
      e = .error { span := input.spanFrom start (j + 1) })

/-- What becomes of an expression with fields from `i` on.  With a field behind it, it is no variable
any more. -/
def WithFields (input : Input) (start i : Nat) (e e' : Expr) : Prop :=
  (∀ info name tag, e' = .var info name tag → e' = e) ∧
    (e.isAssignable = true → e.span = input.spanFrom start i → FieldsRead input start i e')

theorem fieldChain_runs (rounds : Nat) : ∀ {i : Nat} {e : Expr},
    Runs line i (fieldChain start rounds e)
      (fun e' _ => WithFields input start i e e')
      fun e' j => Lies input start i (.expr e) → Lies input start j (.expr e') := by
  have hnone : ∀ {i : Nat} {e : Expr}, WithFields input start i e e :=
    ⟨fun _ _ _ _ => rfl, fun hassignable hspan => ⟨_, .nil, .inl ⟨hassignable, hspan⟩⟩⟩
  induction rounds with
  | zero => exact .exhaust (.ends hnone)
  | succ rounds ih =>
    intro i e
    refine .accept rfl (fun hpoint => ?_) (.gives hnone fun _ h => h)
    refine .check (.check (.ite (fun hname => ?_) fun hname => ?_))
    · have hfield : input.kind (i + 1) ∈ [.identifier, .command] := by simpa using hname
      have hkind : (input.kind (i + 1)).isTerminator = false := by
        simp only [Bool.or_eq_true, decide_eq_true_eq] at hname
        rcases hname with h | h <;> rw [h] <;> rfl
      refine .takeText hkind fun name => .node (fun _ _ => rfl) fun info hspan => ?_
      refine ih.weaken (fun e' j _ h => ⟨fun info' name' tag he' => ?_, fun _ _ => ?_⟩)
        fun e' j hj hstop hnext he => hnext ?_
      · have hvar := h.1 info' name' tag he'
        rw [hvar] at he'
        exact absurd he' nofun
      · obtain ⟨k, hfields, hend⟩ := h.2 rfl hspan
        exact ⟨k, .cons hpoint hfield hfields, hend⟩
      · have hlt := he.lt
        have hobject : InRow input start (i + 1 + 1) [.expr e] :=
          (InRow.single he).mono (Nat.le_refl _) (by omega)
        exact .of_expr (by omega) (by omega) hspan hobject
    · refine .reportExpected (.spanFrom (.ends ⟨nofun, fun _ _ => ?_⟩))
      exact ⟨i, .nil, .inr ⟨hpoint, by simpa using hname, rfl⟩⟩

theorem withFields_runs :
    Runs line i (withFields start e)
      (fun e' _ => WithFields input start i e e')
      fun e' j => Lies input start i (.expr e) → Lies input start j (.expr e') :=
  .bounded fun rounds => fieldChain_runs rounds

theorem withFields_passes : Passes line i (withFields start e) fun e' j =>
    Lies input start i (.expr e) → Lies input start j (.expr e') :=
  withFields_runs.imp fun _ _ _ _ h => h

/-- What cannot be read is recorded. -/
theorem badExpression_passes {Q : Expr → Nat → Prop} : Passes line i (badExpression start) Q := by
  have hskip : Passes line i (do
      unless ← staysAfterBadExpression do
        advance
      errorFrom start) fun _ _ => True := by
    refine .place (fun i => (input.kind i).isTerminator || input.closesAny i ||
      input.kind i ∈ [.rightParen, .comma, .keyword .then_, .keyword .to, .keyword .step])
      (fun _ => rfl) (.ite (fun _ => .of_look) fun hstays => ?_)
    -- the end of a line stays for the construct around
    have hkind : (input.kind i).isTerminator = false := by
      cases hk : (input.kind i).isTerminator with
      | false => rfl
      | true =>
        rw [hk] at hstays
        exact absurd rfl hstays
    exact .advance hkind .of_look
  refine .look fun span => .look fun token => ?_
  cases token with
  | none => exact .report (by simp) hskip
  | some token =>
    dsimp only
    split
    · exact .report (by simp) hskip
    · exact .report (by simp) hskip

/-- A node that is given as it is. -/
theorem lastNode_passes {make : Info → Expr} {parts : List Expr} (hstart : start < i)
    (hmake : ∀ i j, (make i).withInfo j = make j) (hparts : ∀ info, (make info).parts = parts) :
    Passes line i (node start make) fun e j =>
      InRow input start i (parts.map .expr) → Lies input start j (.expr e) := by
  refine .node hmake fun info hspan => .pure fun hstop hrow => .of_expr hstart hstop hspan ?_
  rw [hparts]
  exact hrow

theorem number_passes {ε : Type} {value : Except ε α} {make : α → Info → Expr} {fault : ε → Fault}
    (hfault : ∀ e name, fault e ≠ .unknownType name) (hstart : start < i)
    (hmake : ∀ a i j, (make a i).withInfo j = make a j)
    (hleaf : ∀ a info, (make a info).parts = []) :
    Passes line i (number start value make fault) fun e j => Lies input start j (.expr e) := by
  cases value with
  | ok a =>
    refine (lastNode_passes hstart (hmake a) (hleaf a)).imp fun e j _ _ h => h ?_
    exact .nil (Nat.le_of_lt hstart)
  | error e => exact .look fun span => .report (hfault e) .of_look

theorem parenArgs_passes (hexpr : Places line .expr expr) :
    PassesRow line .expr i (parenArgs expr) := by
  refine .expect rfl (fun _ _ _ => ?_) (.ends trivial)
  refine .accept rfl (fun _ => .pure fun _ => .nil (by omega)) ?_
  refine (separated_passes hexpr).bind fun args j hj => ?_
  refine .expect rfl (fun _ _ _ => .pure fun _ hargs => ?_) (.ends trivial)
  exact hargs.mono (Nat.le_succ i) (Nat.le_succ j)

theorem bareArgs_passes (hexpr : Places line .expr expr) : PassesRow line .expr i (bareArgs expr) :=
  .look fun _ =>
    .ite (fun _ => separated_passes hexpr) fun _ => .pure fun _ => .nil (Nat.le_refl _)

/-- A node behind `start` with its fields. -/
theorem operand_passes {make : Info → Expr} {parts : List Expr} (hstart : start < i)
    (hmake : ∀ i j, (make i).withInfo j = make j) (hparts : ∀ info, (make info).parts = parts) :
    Passes line i (do withFields start (← node start make)) fun e j =>
      InRow input start i (parts.map .expr) → Lies input start j (.expr e) := by
  refine (lastNode_passes hstart hmake hparts).bind fun e j _ => ?_
  exact withFields_passes.imp fun e' k _ _ hfields he hrow => hfields (he hrow)

/-- The same without nodes below it. -/
theorem leaf_passes {make : Info → Expr} (hstart : start < i)
    (hmake : ∀ i j, (make i).withInfo j = make j) (hparts : ∀ info, (make info).parts = []) :
    Passes line i (do withFields start (← node start make)) fun e j =>
      Lies input start j (.expr e) :=
  (operand_passes hstart hmake hparts).imp fun _ _ _ _ h => h (.nil (Nat.le_of_lt hstart))

theorem nameExpr_passes (hexpr : Places line .expr expr) : Places line .expr (nameExpr expr) := by
  intro i
  refine .cursor (.expect rfl (fun token _ _ => ?_) .of_look)
  -- the name alone, with its type, or with a list in parentheses
  refine typeTag_runs.step fun tag j hj => ?_
  cases tag with
  | some typeName => exact leaf_passes (by omega) (fun _ _ => rfl) fun _ => rfl
  | none =>
    refine .look fun paren => .ite (fun _ => ?_) fun _ => ?_
    · refine (parenArgs_passes hexpr).bind fun args k hk => .look fun state => ?_
      have hlist : ∀ {make : Info → Expr}, (∀ i j, (make i).withInfo j = make j) →
          (∀ info, (make info).parts = args) → Passes line k (do withFields i (← node i make))
            fun e l => InRow input j k (args.map .expr) → Lies input i l (.expr e) := by
        intro make hmake hparts
        refine (operand_passes (by omega) hmake hparts).imp fun e l _ _ h hargs => h ?_
        exact hargs.mono (by omega) (Nat.le_refl _)
      split
      · exact hlist (fun _ _ => rfl) fun _ => rfl
      · exact hlist (fun _ _ => rfl) fun _ => rfl
    · exact leaf_passes (by omega) (fun _ _ => rfl) fun _ => rfl

/-- A command with its arguments. -/
theorem commandNode_passes {name : String} {args : List Expr} (hstart : start < i) :
    Passes line i (commandNode start name args) fun e j =>
      InRow input start i (args.map .expr) → Lies input start j (.expr e) := by
  have hall : ∀ found : List Mismatch, Passes line i
      (found.forM fun m => report (.argument name m.position m.expected m.found) m.span)
      fun _ _ => True := by
    intro found
    induction found with
    | nil => exact .ends trivial
    | cons first rest ih => exact .report (by simp) ih
  have hcheck : Passes line i (checkArguments name args) fun _ _ => True :=
    .look fun _ => hall _
  refine hcheck.step fun _ j hj => ?_
  refine Runs.imp (lastNode_passes (by omega) (fun _ _ => rfl) fun _ => rfl) ?_
  exact fun e k _ _ h hargs => h (hargs.mono (Nat.le_refl _) hj)

theorem commandExpr_passes (hexpr : Places line .expr expr) (hkind : input.kind i = .command) :
    Passes line i (commandExpr expr) fun e j => Lies input i j (.expr e) := by
  refine .cursor (.takeText (hkind ▸ rfl) fun name => .look fun paren => ?_)
  have hcommand : ∀ {args : List Expr} {j}, i < j → Passes line j (do
      withFields i (← commandNode i name args)) fun e k =>
        InRow input i j (args.map .expr) → Lies input i k (.expr e) := by
    intro args j hj
    refine (commandNode_passes hj).bind fun e k hk => ?_
    exact withFields_passes.imp fun e' l _ _ h he hargs => h (he hargs)
  refine .ite (fun _ => (parenArgs_passes hexpr).bind fun args j hj => ?_) fun _ => ?_
  · refine (hcommand (by omega)).imp fun e k _ _ h hargs => h ?_
    exact hargs.mono (Nat.le_succ i) (Nat.le_refl _)
  · exact (hcommand (Nat.lt_succ_self i)).imp fun e k _ _ h => h (.nil (Nat.le_succ i))

section Operands

variable (hinner : ∀ level, Places line .expr (inner level))
include hinner

theorem wordExpr_passes {word : Keyword} (hkind : input.kind i = .keyword word) :
    Passes line i (wordExpr inner i word) fun o j => ∀ e ∈ o, Lies input i j (.expr e) := by
  have hpass : ∀ {f : Unit → Parser (Option Expr)} {Q : Option Expr → Nat → Prop},
      Passes line (i + 1) (f ()) Q → Passes line i (advance >>= f) Q :=
    fun hf => .advance (hkind ▸ rfl) hf
  have hsome : ∀ {j} {make : Info → Expr} {parts : List Expr}, i < j →
      (∀ i j, (make i).withInfo j = make j) → (∀ info, (make info).parts = parts) →
      Passes line j (some <$> node i make) fun o k =>
        InRow input i j (parts.map .expr) → ∀ e ∈ o, Lies input i k (.expr e) := by
    intro j make parts hj hmake hparts
    refine .map ((lastNode_passes hj hmake hparts).imp fun e k _ _ h hrow e' he => ?_)
    cases he
    exact h hrow
  have hleaf : ∀ {j} {make : Info → Expr}, i < j → (∀ i j, (make i).withInfo j = make j) →
      (∀ info, (make info).parts = []) → Passes line j (some <$> node i make) fun o k =>
        ∀ e ∈ o, Lies input i k (.expr e) :=
    fun hj hmake hparts => (hsome hj hmake hparts).imp fun _ _ _ _ h => h (.nil (Nat.le_of_lt hj))
  have hpart : ∀ {level : Precedence} {make : Expr → Info → Expr},
      (∀ e i j, (make e i).withInfo j = make e j) → (∀ e info, (make e info).parts = [e]) →
      Passes line (i + 1) (do some <$> node i (make (← inner level))) fun o k =>
        ∀ e ∈ o, Lies input i k (.expr e) := by
    intro level make hmake hparts
    refine (hinner level (i + 1)).bind fun e j hj => ?_
    refine (hsome (by omega) (hmake e) (hparts e)).imp fun o k _ _ h he => h ?_
    exact (InRow.single he).mono (Nat.le_succ i) (Nat.le_refl _)
  have htype : ∀ {f : Option String → Parser (Option Expr)} {make : String → Info → Expr},
      f none = pure none → (∀ name, f (some name) = some <$> node i (make name)) →
      (∀ n i j, (make n i).withInfo j = make n j) → (∀ n info, (make n info).parts = []) →
      Passes line (i + 1) (typeName >>= f) fun o k => ∀ e ∈ o, Lies input i k (.expr e) := by
    intro f make hnone hsome hmake hparts
    refine (typeName_walks _).step fun name j hj => ?_
    cases name with
    | none =>
      rw [hnone]
      exact .pure fun _ => nofun
    | some name =>
      rw [hsome]
      exact hleaf (by omega) (hmake name) (hparts name)
  cases word with
  | true_ | false_ | null =>
    exact hpass (hleaf (Nat.lt_succ_self i) (fun _ _ => rfl) fun _ => rfl)
  | not | after | before => exact hpass (hpart (fun _ _ _ => rfl) fun _ _ => rfl)
  | new | first | last =>
    exact hpass (htype rfl (fun _ => rfl) (fun _ _ _ => rfl) fun _ _ => rfl)
  | _ => exact .pure fun _ => nofun

theorem primary_passes : Places line .expr (primary inner) := by
  intro i
  refine .cursor (.peek (.reportExpected .of_look) fun token htoken => ?_)
  have hplace := Input.kind_of_token htoken
  have hpass : ∀ {k : Kind} {f : Unit → Parser Expr} {Q : Expr → Nat → Prop}, token.kind = k →
      k.isTerminator = false → Passes line (i + 1) (f ()) Q → Passes line i (advance >>= f) Q := by
    intro k f Q hkind hplain hf
    have hhere : (input.kind i).isTerminator = false := by rw [hplace, hkind, hplain]
    exact .advance hhere hf
  have hnumber : ∀ {ε γ : Type} {value : Except ε γ} {make : γ → Info → Expr} {fault : ε → Fault},
      (∀ e name, fault e ≠ .unknownType name) → (∀ a i j, (make a i).withInfo j = make a j) →
      (∀ a info, (make a info).parts = []) → Passes line (i + 1) (do
        withFields i (← number i value make fault)) fun e j => Lies input i j (.expr e) :=
    fun hfault hmake hparts =>
      (number_passes hfault (Nat.lt_succ_self i) hmake hparts).bind fun _ _ _ => withFields_passes
  have hsigned : ∀ {level : Precedence} {make : Expr → Info → Expr},
      (∀ e i j, (make e i).withInfo j = make e j) → (∀ e info, (make e info).parts = [e]) →
      Passes line (i + 1) (do
        let operand ← inner level
        withFields i (← node i (make operand))) fun e j => Lies input i j (.expr e) := by
    intro level make hmake hparts
    refine (hinner level (i + 1)).bind fun operand j hj => ?_
    refine (operand_passes (by omega) (hmake operand) (hparts operand)).imp ?_
    exact fun e k _ _ h hoperand => h ((InRow.single hoperand).mono (Nat.le_succ i) (Nat.le_refl _))
  dsimp only
  cases hkind : token.kind with
  | integer | float | hex =>
    exact hpass hkind rfl (hnumber (by simp) (fun _ _ _ => rfl) fun _ _ => rfl)
  | string =>
    exact hpass hkind rfl (leaf_passes (Nat.lt_succ_self i) (fun _ _ => rfl) fun _ => rfl)
  | identifier => exact nameExpr_passes (hinner .or) i
  | command => exact commandExpr_passes (hinner .or) (hplace.trans hkind)
  | leftParen =>
    refine hpass hkind rfl ((hinner .or (i + 1)).bind fun e j hj => .expect rfl (fun _ _ _ => ?_)
      (.node (fun _ _ => rfl) fun info _ => withFields_runs.walks))
    refine Runs.imp (operand_passes (by omega) (fun _ _ => rfl) fun _ => rfl) ?_
    exact fun e' k _ _ h he => h ((InRow.single he).mono (Nat.le_succ i) (Nat.le_succ j))
  | minus | plus => exact hpass hkind rfl (hsigned (fun _ _ _ => rfl) fun _ _ => rfl)
  | keyword word =>
    refine (wordExpr_passes hinner (hplace.trans hkind)).bind fun o j hj => ?_
    cases o with
    | none => exact badExpression_passes
    | some e => exact withFields_passes.imp fun e' k _ _ h he => h (he e rfl)
  | _ => exact badExpression_passes

theorem climb_passes {level : Precedence} (rounds : Nat) : ∀ {i : Nat} {left : Expr},
    Passes line i (climb inner level start rounds left) fun e j =>
      Lies input start i (.expr left) → Lies input start j (.expr e) := by
  induction rounds with
  | zero => exact .exhaust (.ends trivial)
  | succ rounds ih =>
    intro i left
    refine .kind ?_
    cases hop : (input.kind i).binaryOp? with
    | none => exact .pure fun _ h => h
    | some op =>
      have hkind : (input.kind i).isTerminator = false := by
        cases hk : input.kind i <;> rw [hk] at hop <;> first | rfl | cases hop
      refine .ite (fun _ => .pure fun _ h => h) fun _ => .advance hkind ?_
      refine (hinner _ (i + 1)).bind fun right j hj => .node (fun _ _ => rfl) fun info hspan => ?_
      refine ih.imp fun e k hk hstop hnext hright hleft => hnext ?_
      have hlt := hleft.lt
      have hrow : InRow input start j [.expr left, .expr right] :=
        .cons (Nat.le_refl _) hleft ((InRow.single hright).mono (Nat.le_succ i) (Nat.le_refl _))
      exact .of_expr (by omega) (by omega) hspan hrow

end Operands

theorem expressionAt_passes (nesting : Nat) : ∀ level : Precedence,
    Places line .expr (expressionAt nesting level) := by
  induction nesting with
  | zero => exact fun _ _ => .exhaust .of_look
  | succ nesting ih =>
    intro level i
    refine .cursor ((primary_passes ih i).bind fun left j hj => ?_)
    exact .bounded fun rounds => climb_passes ih rounds

/-- Reading an expression is a run on one line, and the expression lies where it was read. -/
theorem expression_passes : Places line .expr expression :=
  fun i => .bounded fun nesting => expressionAt_passes nesting .or i

end Expressions

end FrameBasic.Parser
