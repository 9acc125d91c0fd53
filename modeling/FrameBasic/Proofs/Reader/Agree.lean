import FrameBasic.Proofs.Tree.Lower
import FrameBasic.Tree.Parser.Expression

/-!
# Reading in any case

Two lists of tokens that differ only in the case of names and labels are read alike: the reader is at
the same place in both, records the same faults up to case, and gives the same trees up to case.  So
a reader is followed on both lists at once.  The tables of commands may differ as well, if they say
the same of the commands among the tokens.

How much of the case is forgotten is left open: names are compared by a function that keeps their
letters.  If it keeps the case as well, everything is read exactly alike.

## Main definitions

* `Parser.Input.SameTokens` — the tokens are equal up to what becomes of names.
* `Parser.Input.Alike`, `Parser.State.Alike` — equal up to case.
* `Parser.Agrees` — two readers give related results from states that are equal up to case.
* `Parser.Steady` — a reader agrees with itself.

## Main results

* `Parser.Agrees.bind`, `Parser.Agrees.option` — one step after the other.
* `Parser.expression_agrees` — **an expression is read alike in any case**.
-/

namespace FrameBasic.Parser

/-! ### Tokens -/

/-- The tokens are equal up to what becomes of names and labels. -/
structure Input.SameTokens (r : Relabel) (input input' : Input) : Prop where
  /-- The tokens at a place are equal. -/
  token : ∀ i : Nat, input.tokens[i]?.map (Token.relabel r) = input'.tokens[i]?.map (Token.relabel r)

/-- The tokens are equal up to the case of names and labels, and the tables say the same of the
commands among the tokens. -/
structure Input.Alike (r : Relabel) [r.Respells] (input input' : Input) : Prop
    extends SameTokens r input input' where
  /-- The tables say the same of a command. -/
  command : ∀ ⦃i : Nat⦄ ⦃t : Token⦄, input.tokens[i]? = some t → t.kind = .command →
    input'.commands.get? t.text = input.commands.get? t.text

namespace Input.SameTokens

variable {r : Relabel} {input input' : Input}

theorem symm (h : SameTokens r input input') : SameTokens r input' input :=
  ⟨fun i => (h.token i).symm⟩

/-- Tokens at the same place. -/
theorem token_cases (h : SameTokens r input input') (i : Nat) :
    (input.tokens[i]? = none ∧ input'.tokens[i]? = none) ∨
      ∃ t t', input.tokens[i]? = some t ∧ input'.tokens[i]? = some t' ∧
        t.relabel r = t'.relabel r := by
  have htoken := h.token i
  cases ht : input.tokens[i]? with
  | none =>
    rw [ht] at htoken
    exact .inl ⟨rfl, Option.map_eq_none_iff.mp htoken.symm⟩
  | some t =>
    rw [ht] at htoken
    obtain ⟨t', ht', hsame⟩ := Option.map_eq_some_iff.mp htoken.symm
    exact .inr ⟨t, t', rfl, ht', hsame.symm⟩

theorem size (h : SameTokens r input input') : input.tokens.size = input'.tokens.size := by
  have hnone : ∀ i : Nat, input.tokens.size ≤ i ↔ input'.tokens.size ≤ i := by
    intro i
    rw [← Array.getElem?_eq_none_iff, ← Array.getElem?_eq_none_iff]
    rcases h.token_cases i with ⟨ht, ht'⟩ | ⟨t, t', ht, ht', -⟩
    · exact iff_of_true ht ht'
    · exact iff_of_false (ht ▸ nofun) (ht' ▸ nofun)
  exact Nat.le_antisymm ((hnone _).mpr (Nat.le_refl _)) ((hnone _).mp (Nat.le_refl _))

theorem kind (h : SameTokens r input input') (i : Nat) : input.kind i = input'.kind i := by
  unfold Input.kind
  rcases h.token_cases i with ⟨ht, ht'⟩ | ⟨t, t', ht, ht', hsame⟩
  · rw [ht, ht']
  · rw [ht, ht']
    exact Token.kind_congr hsame

theorem span (h : SameTokens r input input') (i : Nat) :
    input.tokens[i]?.map Token.span = input'.tokens[i]?.map Token.span := by
  rcases h.token_cases i with ⟨ht, ht'⟩ | ⟨t, t', ht, ht', hsame⟩
  · rw [ht, ht']
  · rw [ht, ht', Option.map_some, Option.map_some, Token.span_congr hsame]

theorem after (h : SameTokens r input input') (i : Nat) : input.after i = input'.after i := by
  unfold Input.after
  rw [h.kind]

theorem left (h : SameTokens r input input') (i : Nat) : input.left i = input'.left i := by
  unfold Input.left
  rw [h.size]

theorem skipWhile (h : SameTokens r input input') (p : Kind → Bool) (i : Nat) :
    input.skipWhile p i = input'.skipWhile p i := by
  have hupTo : ∀ count i, input.skipWhileUpTo p count i = input'.skipWhileUpTo p count i := by
    intro count
    induction count with
    | zero => exact fun _ => rfl
    | succ count ih =>
      intro i
      rw [Input.skipWhileUpTo, Input.skipWhileUpTo, h.kind, ih]
  unfold Input.skipWhile
  rw [h.left, hupTo]

theorem recover (h : SameTokens r input input') (i : Nat) : input.recover i = input'.recover i := by
  unfold Input.recover
  simp only [h.kind, h.skipWhile]

theorem spanAt (h : SameTokens r input input') (i : Nat) : input.spanAt i = input'.spanAt i := by
  have hback : input.tokens.back?.map Token.span = input'.tokens.back?.map Token.span := by
    unfold Array.back?
    rw [h.size]
    exact h.span _
  have hspan : ∀ input : Input, input.spanAt i =
      ((input.tokens[i]?.map Token.span).or (input.tokens.back?.map Token.span)).getD .unknown := by
    intro input
    unfold Input.spanAt
    cases input.tokens[i]? <;> cases input.tokens.back? <;> rfl
  rw [hspan, hspan, h.span, hback]

theorem spanFrom (h : SameTokens r input input') (start stop : Nat) :
    input.spanFrom start stop = input'.spanFrom start stop := by
  have hspan : ∀ input : Input, input.spanFrom start stop =
      match input.tokens[start]?.map Token.span with
      | none => input.spanAt stop
      | some first =>
        { first with stop :=
            if start < stop then ((input.tokens[stop - 1]?.map Token.span).getD first).stop
            else first.stop } := by
    intro input
    unfold Input.spanFrom
    cases input.tokens[start]? with
    | none => rfl
    | some first =>
      dsimp only [Option.map_some]
      cases input.tokens[stop - 1]? <;> split <;> rfl
  rw [hspan, hspan, h.span, h.span, h.spanAt]

theorem closesWith (h : SameTokens r input input') (i : Nat) (closer : Closer) :
    input.closesWith i closer = input'.closesWith i closer := by
  cases closer <;> simp only [Input.closesWith, h.kind]

theorem closesAny (h : SameTokens r input input') (i : Nat) :
    input.closesAny i = input'.closesAny i := by
  unfold Input.closesAny
  rw [funext (h.closesWith i)]

end Input.SameTokens

/-- The states are equal up to case. -/
structure State.Alike (r : Relabel) (s s' : State) : Prop where
  /-- The same tokens were read. -/
  cursor : s.cursor = s'.cursor
  /-- The errors are equal up to case. -/
  errors : s.errors.map (ParseError.relabel r) = s'.errors.map (ParseError.relabel r)
  /-- The names stand for the same things. -/
  scopes : s.scopes.relabel r = s'.scopes.relabel r
  /-- As many blocks are open. -/
  depth : s.depth = s'.depth
  /-- The bounds are used up alike. -/
  exhausted : s.exhausted = s'.exhausted

/-! ### The judgement -/

/-- The function does not tell the two apart. -/
abbrev Same {α β : Type} (f : α → β) (a a' : α) : Prop :=
  f a = f a'

variable {r : Relabel} [r.Respells] {input input' : Input}

/-- From states that are equal up to case, the readers give related results and go on in states that
are equal up to case. -/
def Agrees {α β : Type} (_ : input.Alike r input') (R : α → β → Prop) (p : Parser α)
    (p' : Parser β) : Prop :=
  ∀ s s' : State, s.Alike r s' →
    R (p input s).1 (p' input' s').1 ∧ (p input s).2.Alike r (p' input' s').2

/-- The reader agrees with itself. -/
abbrev Steady {α : Type} (h : input.Alike r input') (R : α → α → Prop) (p : Parser α) : Prop :=
  Agrees h R p p

variable {h : input.Alike r input'} {α α' β β' γ : Type} {R : α → α' → Prop} {S : β → β' → Prop}
variable {p : Parser α} {p' : Parser α'} {f : α → Parser β} {f' : α' → Parser β'}

namespace Agrees

theorem pure {a : α} {a' : α'} (hR : R a a') : Agrees h R (pure a) (pure a') :=
  fun _ _ hs => ⟨hR, hs⟩

theorem bind (hp : Agrees h R p p') (hf : ∀ a a', R a a' → Agrees h S (f a) (f' a')) :
    Agrees h S (p >>= f) (p' >>= f') := by
  intro s s' hs
  obtain ⟨hR, hs⟩ := hp s s' hs
  exact hf _ _ hR _ _ hs

/-- Both readers give the same. -/
theorem same {p p' : Parser α} {f : α → Parser β} {f' : α → Parser β'} (hp : Agrees h Eq p p')
    (hf : ∀ a, Agrees h S (f a) (f' a)) : Agrees h S (p >>= f) (p' >>= f') := by
  refine hp.bind ?_
  rintro a _ rfl
  exact hf a

/-- Both readers give something or none of them does. -/
theorem option {g : α → γ} {p p' : Parser (Option α)} {f : Option α → Parser β}
    {f' : Option α → Parser β'} (hp : Agrees h (Same (Option.map g)) p p')
    (hnone : Agrees h S (f none) (f' none))
    (hsome : ∀ a a', g a = g a' → Agrees h S (f (some a)) (f' (some a'))) :
    Agrees h S (p >>= f) (p' >>= f') := by
  refine hp.bind fun o o' ho => ?_
  cases o with
  | none =>
    cases o' with
    | none => exact hnone
    | some _ => cases ho
  | some a =>
    cases o' with
    | none => cases ho
    | some a' => exact hsome a a' (Option.some.inj ho)

theorem map {g : α → β} {g' : α' → β'} (hp : Agrees h R p p')
    (hg : ∀ a a', R a a' → S (g a) (g' a')) : Agrees h S (g <$> p) (g' <$> p') := by
  intro s s' hs
  obtain ⟨hR, hs⟩ := hp s s' hs
  exact ⟨hg _ _ hR, hs⟩

/-- What is read is there. -/
theorem some {g : α → γ} {p p' : Parser α} (hp : Agrees h (Same g) p p') :
    Agrees h (Same (Option.map g)) (some <$> p) (some <$> p') :=
  hp.map fun _ _ ha => congrArg Option.some ha

/-- The same question is asked. -/
theorem ite {c : Prop} [Decidable c] {q : Parser α} {q' : Parser α'} (hp : Agrees h R p p')
    (hq : Agrees h R q q') : Agrees h R (if c then p else q) (if c then p' else q') := by
  split
  · exact hp
  · exact hq

/-- The same question is asked, and then both go on with what was read. -/
theorem iteBind {c : Prop} [Decidable c] {q : Parser α} {q' : Parser α'} (hp : Agrees h R p p')
    (hq : Agrees h R q q') (hf : ∀ a a', R a a' → Agrees h S (f a) (f' a')) :
    Agrees h S (if c then p >>= f else q >>= f) (if c then p' >>= f' else q' >>= f') :=
  .ite (hp.bind hf) (hq.bind hf)

/-- Something more is done or not, and then both go on. -/
theorem also {c : Prop} [Decidable c] {q : Parser α} {q' : Parser α'} (hq : Agrees h R q q')
    (hp : Agrees h R q q' → Agrees h R p p') :
    Agrees h R (if c then p else q) (if c then p' else q') :=
  .ite (hp hq) hq

theorem read {f : Input → Parser β} {f' : Input → Parser β'}
    (hf : Agrees h S (f input) (f' input')) : Agrees h S (read >>= f) (read >>= f') :=
  hf

theorem get {f : State → Parser β} {f' : State → Parser β'}
    (hf : ∀ s s', s.Alike r s' → Agrees h S (f s) (f' s')) :
    Agrees h S (get >>= f) (get >>= f') :=
  fun s s' hs => hf s s' hs s s' hs

end Agrees

/-! ### Single steps -/

theorem cursor_agrees : Steady h Eq cursor :=
  fun _ _ hs => ⟨hs.cursor, hs⟩

theorem moveTo_agrees (i : Nat) : Steady h Eq (moveTo i) :=
  fun _ _ hs => ⟨rfl, { hs with cursor := rfl }⟩

theorem peek?_agrees : Steady h (Same (Option.map (Token.relabel r))) peek? := by
  intro s s' hs
  refine ⟨?_, hs⟩
  show input.tokens[s.cursor]?.map (Token.relabel r) = input'.tokens[s'.cursor]?.map (Token.relabel r)
  rw [hs.cursor]
  exact h.token _

theorem kind_agrees : Steady h Eq kind := by
  intro s s' hs
  refine ⟨?_, hs⟩
  show input.kind s.cursor = input'.kind s'.cursor
  rw [hs.cursor, h.kind]

theorem kindAhead_agrees (n : Nat) : Steady h Eq (kindAhead n) := by
  intro s s' hs
  refine ⟨?_, hs⟩
  show input.kind (s.cursor + n) = input'.kind (s'.cursor + n)
  rw [hs.cursor, h.kind]

theorem check_agrees (wanted : Kind) : Steady h Eq (check wanted) :=
  .same kind_agrees fun _ => .pure rfl

theorem advance_agrees : Steady h Eq advance := by
  refine .read (.same cursor_agrees fun i => ?_)
  rw [h.after]
  exact moveTo_agrees _

theorem passFrom_agrees (start : Nat) : Steady h Eq (passFrom start) :=
  .same cursor_agrees fun _ => .ite advance_agrees (.pure rfl)

theorem skipWhile_agrees (q : Kind → Bool) : Steady h Eq (skipWhile q) := by
  refine .read (.same cursor_agrees fun i => ?_)
  rw [h.skipWhile]
  exact moveTo_agrees _

theorem recover_agrees : Steady h Eq recover := by
  refine .read (.same cursor_agrees fun i => ?_)
  rw [h.recover]
  exact moveTo_agrees _

/-- The text of a token, up to case. -/
theorem takeText_agrees : Steady h (Same r.name) takeText := by
  refine .option peek?_agrees ?_ fun t t' ht => ?_
  · exact .same advance_agrees fun _ => .pure rfl
  · exact .same advance_agrees fun _ => .pure (Token.text_congr ht)

theorem accept_agrees (wanted : Kind) : Steady h Eq (accept wanted) :=
  .same (check_agrees wanted) fun _ => .ite (.same advance_agrees fun _ => .pure rfl) (.pure rfl)

theorem currentSpan_agrees : Steady h Eq currentSpan := by
  refine .read (.same cursor_agrees fun i => ?_)
  rw [h.spanAt]
  exact .pure rfl

theorem spanFrom_agrees (start : Nat) : Steady h Eq (spanFrom start) := by
  refine .read (.same cursor_agrees fun i => ?_)
  rw [h.spanFrom]
  exact .pure rfl

theorem report_agrees {fault fault' : Fault} (hfault : fault.relabel r = fault'.relabel r)
    (span : Span) : Agrees h Eq (report fault span) (report fault' span) := by
  intro s s' hs
  refine ⟨rfl, { hs with errors := ?_ }⟩
  show (s.errors ++ [ParseError.mk fault span]).map (ParseError.relabel r) =
    (s'.errors ++ [ParseError.mk fault' span]).map (ParseError.relabel r)
  rw [List.map_append, List.map_append, hs.errors]
  simp only [List.map_cons, List.map_nil, ParseError.relabel, hfault]

theorem reportExpected_agrees {expected expected' : Expected}
    (hexpected : expected.relabel r = expected'.relabel r) :
    Agrees h Eq (reportExpected expected) (reportExpected expected') := by
  refine .same currentSpan_agrees fun span => .option peek?_agrees ?_ fun t t' ht => ?_
  · exact report_agrees (by simp only [Fault.relabel, hexpected]) span
  · have hkind := Token.kind_congr ht
    dsimp only
    rw [hkind]
    refine .ite (report_agrees ?_ span) (report_agrees ?_ span)
    · simp only [Fault.relabel, hexpected]
    · simp only [Fault.relabel, hexpected, ht]

theorem expect_agrees (wanted : Kind) (expected : Expected) :
    Steady h (Same (Option.map (Token.relabel r))) (expect wanted expected) := by
  refine .option peek?_agrees ?_ fun t t' ht => ?_
  · exact .same (reportExpected_agrees rfl) fun _ => .pure rfl
  · have hkind := Token.kind_congr ht
    dsimp only
    rw [hkind]
    refine .ite (.same advance_agrees fun _ => .pure (congrArg some ht)) ?_
    exact .same (reportExpected_agrees rfl) fun _ => .pure rfl

theorem atStatementEnd_agrees : Steady h Eq atStatementEnd :=
  .same kind_agrees fun _ => .pure rfl

theorem atCloser_agrees (closer : Closer) : Steady h Eq (atCloser closer) := by
  refine .read (.same cursor_agrees fun i => ?_)
  rw [h.closesWith]
  exact .pure rfl

theorem atAnyCloser_agrees : Steady h Eq atAnyCloser := by
  refine .read (.same cursor_agrees fun i => ?_)
  rw [h.closesAny]
  exact .pure rfl

theorem acceptCloser_agrees (closer : Closer) :
    Steady h Eq (acceptCloser closer) := by
  refine .same (atCloser_agrees closer) fun _ => .ite ?_ (.pure rfl)
  cases closer with
  | word _ => exact .same advance_agrees fun _ => .pure rfl
  | endOf _ => exact .same advance_agrees fun _ => .same advance_agrees fun _ => .pure rfl

theorem finishStatement_agrees : Steady h Eq finishStatement := by
  refine .same atStatementEnd_agrees fun _ => .same atAnyCloser_agrees fun _ => .ite (.pure rfl) ?_
  exact .same (reportExpected_agrees rfl) fun _ => recover_agrees

theorem mark_agrees : Steady h Eq mark := by
  intro s s' hs
  refine ⟨?_, hs⟩
  have hlength := congrArg List.length hs.errors
  rw [List.length_map, List.length_map] at hlength
  show Mark.mk s.cursor s.errors.length = Mark.mk s'.cursor s'.errors.length
  rw [hs.cursor, hlength]

theorem rewind_agrees (m : Mark) : Steady h Eq (rewind m) := by
  intro s s' hs
  refine ⟨rfl, { hs with cursor := rfl, errors := ?_ }⟩
  show (s.errors.take m.errors).map (ParseError.relabel r) =
    (s'.errors.take m.errors).map (ParseError.relabel r)
  rw [List.map_take, List.map_take, hs.errors]

theorem modifyScopes_agrees {g g' : Scopes → Scopes}
    (hg : ∀ s s' : Scopes, s.relabel r = s'.relabel r → (g s).relabel r = (g' s').relabel r) :
    Agrees h Eq (modifyScopes g) (modifyScopes g') :=
  fun _ _ hs => ⟨rfl, { hs with scopes := hg _ _ hs.scopes }⟩

theorem define_agrees {symbol symbol' : Symbol} (hsymbol : symbol.relabel r = symbol'.relabel r) :
    Agrees h Eq (define symbol) (define symbol') := by
  refine modifyScopes_agrees fun s s' hs => ?_
  rw [Scopes.relabel_define, Scopes.relabel_define, hs, hsymbol]

theorem defineGlobal_agrees {symbol symbol' : Symbol}
    (hsymbol : symbol.relabel r = symbol'.relabel r) :
    Agrees h Eq (defineGlobal symbol) (defineGlobal symbol') := by
  refine modifyScopes_agrees fun s s' hs => ?_
  rw [Scopes.relabel_defineGlobal, Scopes.relabel_defineGlobal, hs, hsymbol]

theorem inBlock_agrees (hp : Agrees h R p p') : Agrees h R (inBlock p) (inBlock p') := by
  intro s s' hs
  obtain ⟨hR, hs⟩ := hp { s with depth := s.depth + 1 } { s' with depth := s'.depth + 1 }
    { hs with depth := congrArg (· + 1) hs.depth }
  exact ⟨hR, { hs with depth := congrArg (· - 1) hs.depth }⟩

theorem exhaust_agrees : Steady h Eq exhaust :=
  fun _ _ hs => ⟨rfl, { hs with exhausted := rfl }⟩

/-! ### Loops -/

theorem bounded_agrees {loop : Nat → Parser α} {loop' : Nat → Parser α'}
    (hloop : ∀ rounds, Agrees h R (loop rounds) (loop' rounds)) :
    Agrees h R (bounded loop) (bounded loop') := by
  refine .read (.same cursor_agrees fun i => ?_)
  rw [h.left]
  exact hloop _

theorem separated_agrees {g : α → γ} {p p' : Parser α} (hp : Agrees h (Same g) p p') (rounds : Nat) :
    Agrees h (Same (List.map g)) (separated p rounds) (separated p' rounds) := by
  induction rounds with
  | zero => exact .same exhaust_agrees fun _ => .pure rfl
  | succ rounds ih =>
    refine hp.bind fun a a' ha => .same (accept_agrees _) fun _ => .ite ?_ (.pure ?_)
    · refine ih.bind fun rest rest' hrest => .pure ?_
      show g a :: rest.map g = g a' :: rest'.map g
      rw [show g a = g a' from ha, show rest.map g = rest'.map g from hrest]
    · exact congrArg (fun c => [c]) ha

theorem collect_agrees {g : α → γ} {p p' : Parser (Option α)}
    (hp : Agrees h (Same (Option.map g)) p p') (rounds : Nat) :
    Agrees h (Same fun r : List α × Bool => (r.1.map g, r.2)) (collect p rounds)
      (collect p' rounds) := by
  induction rounds with
  | zero => exact .same exhaust_agrees fun _ => .pure rfl
  | succ rounds ih =>
    refine .option hp (.pure rfl) fun a a' ha => .same (accept_agrees _) fun _ => .ite ?_ (.pure ?_)
    · refine ih.bind fun r r' hr => .pure ?_
      obtain ⟨hlist, hcomplete⟩ := Prod.mk.inj hr
      show (g a :: r.1.map g, r.2) = (g a' :: r'.1.map g, r'.2)
      rw [ha, hlist, hcomplete]
    · exact congrArg (fun c => ([c], true)) ha

/-! ### At a place -/

/-- The readers agree when they start at a place. -/
def AgreesAt (_ : input.Alike r input') (i : Nat) (R : α → α' → Prop) (p : Parser α)
    (p' : Parser α') : Prop :=
  ∀ s s' : State, s.Alike r s' → s.cursor = i →
    R (p input s).1 (p' input' s').1 ∧ (p input s).2.Alike r (p' input' s').2

theorem Agrees.at (hp : ∀ i, AgreesAt h i R p p') : Agrees h R p p' :=
  fun s s' hs => hp s.cursor s s' hs rfl

namespace AgreesAt

variable {i : Nat}

theorem of_agrees (hp : Agrees h R p p') : AgreesAt h i R p p' :=
  fun s s' hs _ => hp s s' hs

theorem bind (hp : AgreesAt h i R p p') (hf : ∀ a a', R a a' → Agrees h S (f a) (f' a')) :
    AgreesAt h i S (p >>= f) (p' >>= f') := by
  intro s s' hs hi
  obtain ⟨hR, hs⟩ := hp s s' hs hi
  exact hf _ _ hR _ _ hs

theorem cursor {f : Nat → Parser β} {f' : Nat → Parser β'} (hf : AgreesAt h i S (f i) (f' i)) :
    AgreesAt h i S (cursor >>= f) (cursor >>= f') := by
  intro s s' hs hi
  have hrun := hf s s' hs hi
  have hi' : s'.cursor = i := hs.cursor.symm.trans hi
  show S (f s.cursor input s).1 (f' s'.cursor input' s').1 ∧
    (f s.cursor input s).2.Alike r (f' s'.cursor input' s').2
  rw [hi, hi']
  exact hrun

theorem peek {f : Option Token → Parser β} {f' : Option Token → Parser β'}
    (hf : AgreesAt h i S (f input.tokens[i]?) (f' input'.tokens[i]?)) :
    AgreesAt h i S (peek? >>= f) (peek? >>= f') := by
  intro s s' hs hi
  have hrun := hf s s' hs hi
  have hi' : s'.cursor = i := hs.cursor.symm.trans hi
  show S (f input.tokens[s.cursor]? input s).1 (f' input'.tokens[s'.cursor]? input' s').1 ∧
    (f input.tokens[s.cursor]? input s).2.Alike r (f' input'.tokens[s'.cursor]? input' s').2
  rw [hi, hi']
  exact hrun

end AgreesAt

/-- A command keeps its name, and the tables say the same of it. -/
theorem takeCommand_agreesAt {i : Nat} (hk : input.kind i = .command) :
    AgreesAt h i (fun name name' => name = name' ∧
      input'.commands.get? name = input.commands.get? name) takeText takeText := by
  refine .peek ?_
  rcases h.token_cases i with ⟨ht, -⟩ | ⟨t, t', ht, ht', hsame⟩
  · unfold Input.kind at hk
    rw [ht] at hk
    cases hk
  · have hkind : t.kind = .command := by
      rw [← hk]
      unfold Input.kind
      rw [ht]
    have htext := Token.text_eq hsame (hkind ▸ nofun) (hkind ▸ nofun)
    rw [ht, ht']
    exact .of_agrees (.same advance_agrees fun _ => .pure ⟨htext, h.command ht hkind⟩)

/-! ### Nodes -/

section Expressions

variable {e e' : Expr} {start : Nat} {expr expr' : Parser Expr}

/-- The readers give expressions that are equal up to case. -/
abbrev ExprsAgree (h : input.Alike r input') (p p' : Parser Expr) : Prop :=
  Agrees h (Same (Expr.relabel r)) p p'

theorem errorHere_agrees : ExprsAgree h errorHere errorHere :=
  .same currentSpan_agrees fun _ => .pure rfl

theorem errorFrom_agrees : ExprsAgree h (errorFrom start) (errorFrom start) :=
  .same (spanFrom_agrees start) fun _ => .pure rfl

/-- The name of a type after a point, up to case. -/
theorem typeTag_agrees : Steady h (Same (Option.map r.name)) typeTag := by
  refine .read (.same cursor_agrees fun i => .same cursor_agrees fun j => ?_)
  rcases h.token_cases i with ⟨ht, ht'⟩ | ⟨t, t', ht, ht', hsame⟩
  · rw [ht, ht']
    exact .pure rfl
  · rw [ht, ht']
    cases j with
    | zero => exact .pure rfl
    | succ j =>
      have hkind := Token.kind_congr hsame
      have hspan := Token.span_congr hsame
      -- the point follows the name in both lists, because the places are the same
      have hfollows : (input.tokens[j]?.any fun before => t.span.start = before.span.stop) =
          input'.tokens[j]?.any fun before => t'.span.start = before.span.stop := by
        have hj := h.span j
        rw [hspan]
        cases hb : input.tokens[j]? with
        | none =>
          rw [hb] at hj
          rw [Option.map_eq_none_iff.mp hj.symm]
        | some before =>
          rw [hb] at hj
          obtain ⟨before', hb', hplace⟩ := Option.map_eq_some_iff.mp hj.symm
          rw [hb', Option.any_some, Option.any_some, hplace]
      dsimp only
      rw [hkind, hfollows]
      refine .ite (.same advance_agrees fun _ => .pure ?_) (.pure rfl)
      exact congrArg some (Token.text_congr hsame)

theorem staysAfterBadExpression_agrees :
    Steady h Eq staysAfterBadExpression :=
  .same kind_agrees fun _ => .same atAnyCloser_agrees fun _ => .pure rfl

/-- Expressions with commas between them. -/
theorem args_agrees (hexpr : ExprsAgree h expr expr') :
    Agrees h (Same (relabelAll r)) (bounded (separated expr))
      (bounded (separated expr')) := by
  refine bounded_agrees fun rounds s s' hs => ?_
  obtain ⟨hargs, hs⟩ := separated_agrees hexpr rounds s s' hs
  refine ⟨?_, hs⟩
  unfold Same at hargs ⊢
  rw [relabelAll_eq_map, relabelAll_eq_map]
  exact hargs

theorem badExpression_agrees : ExprsAgree h (badExpression start) (badExpression start) := by
  have hrest : ExprsAgree h
      (do unless ← staysAfterBadExpression do advance
          errorFrom start)
      (do unless ← staysAfterBadExpression do advance
          errorFrom start) :=
    .same staysAfterBadExpression_agrees fun _ =>
      .ite errorFrom_agrees (.same advance_agrees fun _ => errorFrom_agrees)
  refine .same currentSpan_agrees fun span => .option peek?_agrees ?_ fun t t' ht => ?_
  · exact .same (report_agrees rfl span) fun _ => hrest
  · have hkind := Token.kind_congr ht
    dsimp only
    rw [hkind]
    refine .ite (.same (report_agrees rfl span) fun _ => hrest) ?_
    exact .same (report_agrees (by simp only [Fault.relabel, ht]) span) fun _ => hrest

theorem parenArgs_agrees (hexpr : ExprsAgree h expr expr') :
    Agrees h (Same (relabelAll r)) (parenArgs expr) (parenArgs expr') := by
  refine .option (expect_agrees _ _) (.pure rfl) fun _ _ _ => ?_
  refine .same (accept_agrees _) fun _ => .ite (.pure rfl) ?_
  refine (args_agrees hexpr).bind fun args args' hargs => ?_
  exact (expect_agrees _ _).bind fun _ _ _ => .pure hargs

theorem bareArgs_agrees (hexpr : ExprsAgree h expr expr') :
    Agrees h (Same (relabelAll r)) (bareArgs expr) (bareArgs expr') :=
  .same kind_agrees fun _ => .ite (args_agrees hexpr) (.pure rfl)

theorem typed_agrees (he : e.relabel r = e'.relabel r)
    (htype : ∀ scopes, e'.inferredType scopes input'.commands =
      e'.inferredType scopes input.commands) : ExprsAgree h (typed e) (typed e') := by
  intro s s' hs
  refine ⟨?_, hs⟩
  have htyped : e'.typed s'.scopes input'.commands = e'.typed s'.scopes input.commands :=
    congrArg e'.withType (htype s'.scopes)
  show (e.typed s.scopes input.commands).relabel r =
    (e'.typed s'.scopes input'.commands).relabel r
  rw [htyped, Expr.relabel_typed, Expr.relabel_typed, he, hs.scopes]

/-- A node whose type does not depend on the table. -/
theorem node_agrees {make make' : Info → Expr}
    (hmake : ∀ info, (make info).relabel r = (make' info).relabel r)
    (htype : ∀ info scopes, (make' info).inferredType scopes input'.commands =
      (make' info).inferredType scopes input.commands) :
    ExprsAgree h (node start make) (node start make') :=
  .same (spanFrom_agrees start) fun _ => typed_agrees (hmake _) (htype _)

/-- The name of a user type, up to case. -/
theorem typeName_agrees : Steady h (Same (Option.map r.name)) typeName := by
  refine .option (expect_agrees _ _) (.pure rfl) fun t t' ht => .get fun s s' hs => ?_
  have htext := Token.text_congr ht
  have hspan := Token.span_congr ht
  rw [Scopes.isType_congr hs.scopes htext, hspan]
  refine .ite (.pure (congrArg some htext)) (.same (report_agrees ?_ _) fun _ => .pure ?_)
  · simp only [Fault.relabel, htext]
  · exact congrArg some htext

/-! ### Fields and faults -/

theorem fieldChain_agrees (rounds : Nat) : ∀ {e e' : Expr},
    e.relabel r = e'.relabel r →
    ExprsAgree h (fieldChain start rounds e) (fieldChain start rounds e') := by
  induction rounds with
  | zero => exact fun he => .same exhaust_agrees fun _ => .pure he
  | succ rounds ih =>
    intro e e' he
    refine .same (accept_agrees _) fun _ => .ite ?_ (.pure he)
    refine .same (check_agrees _) fun _ => .same (check_agrees _) fun _ => .ite ?_ ?_
    · refine takeText_agrees.bind fun name name' hname => ?_
      refine .bind (node_agrees (fun info => ?_) fun _ _ => rfl) fun e₁ e₁' he₁ => ih he₁
      simp only [Expr.relabel, he, show r.name name = r.name name' from hname]
    · exact .same (reportExpected_agrees rfl) fun _ => errorFrom_agrees

theorem withFields_agrees (he : e.relabel r = e'.relabel r) :
    ExprsAgree h (withFields start e) (withFields start e') :=
  bounded_agrees fun rounds => fieldChain_agrees rounds he

/-- A node with the fields that follow it. -/
theorem nodeFields_agrees {make make' : Info → Expr}
    (hmake : ∀ info, (make info).relabel r = (make' info).relabel r)
    (htype : ∀ info scopes, (make' info).inferredType scopes input'.commands =
      (make' info).inferredType scopes input.commands) :
    ExprsAgree h (node start make >>= withFields start) (node start make' >>= withFields start) :=
  (node_agrees hmake htype).bind fun _ _ he => withFields_agrees he

theorem number_agrees {ε : Type} (value : Except ε α) {make : α → Info → Expr} (fault : ε → Fault)
    (htype : ∀ x info scopes, (make x info).inferredType scopes input'.commands =
      (make x info).inferredType scopes input.commands) :
    ExprsAgree h (number start value make fault) (number start value make fault) := by
  cases value with
  | ok value => exact node_agrees (fun _ => rfl) (htype value)
  | error e =>
    exact .same (spanFrom_agrees start) fun span => .same (report_agrees rfl span) fun _ =>
      node_agrees (fun _ => rfl) fun _ _ => rfl

/-! ### Arguments and operands -/

variable {args args' : List Expr} {name name' : String}

theorem nameExpr_agrees (hexpr : ExprsAgree h expr expr') :
    ExprsAgree h (nameExpr expr) (nameExpr expr') := by
  refine .same cursor_agrees fun start => ?_
  refine .option (expect_agrees _ _) errorHere_agrees fun t t' ht => ?_
  have htext := Token.text_congr ht
  refine .option typeTag_agrees ?_ fun type type' htype => ?_
  · refine .same (check_agrees _) fun _ => .ite ?_ ?_
    · refine (parenArgs_agrees hexpr).bind fun args args' hargs => .get fun s s' hs => ?_
      rw [Scopes.isArray_congr hs.scopes htext]
      apply Agrees.ite <;>
      · refine nodeFields_agrees (fun info => ?_) fun _ _ => rfl
        simp only [Expr.relabel, htext, hargs]
    · refine nodeFields_agrees (fun info => ?_) fun _ _ => rfl
      simp only [Expr.relabel, htext]
  · refine nodeFields_agrees (fun info => ?_) fun _ _ => rfl
    simp only [Expr.relabel, Option.map_some, htext, htype]

theorem checkArguments_agrees (hname : input'.commands.get? name = input.commands.get? name)
    (hargs : relabelAll r args = relabelAll r args') :
    Agrees h Eq (checkArguments name args) (checkArguments name args') := by
  have hmismatches : ∀ d : Descriptor, mismatches d args = mismatches d args' := by
    intro d
    unfold mismatches
    rw [← mismatchesFrom_relabel (r := r), hargs, mismatchesFrom_relabel]
  have hreport : ∀ found : List Mismatch,
      Steady h Eq (found.forM fun m => report (.argument name m.position m.expected m.found) m.span) := by
    intro found
    induction found with
    | nil => exact .pure rfl
    | cons m rest ih => exact .same (report_agrees rfl _) fun _ => ih
  refine .read ?_
  rw [hname, funext hmismatches]
  exact hreport _

theorem commandNode_agrees (hname : input'.commands.get? name = input.commands.get? name)
    (hargs : relabelAll r args = relabelAll r args') :
    ExprsAgree h (commandNode start name args) (commandNode start name args') := by
  refine .same (checkArguments_agrees hname hargs) fun _ => node_agrees (fun info => ?_) fun _ _ => ?_
  · simp only [Expr.relabel, hargs]
  · exact congrArg (fun d : Option Descriptor => (d.map Descriptor.returns).getD .unknown) hname

theorem commandExpr_agreesAt {i : Nat} (hk : input.kind i = .command)
    (hexpr : ExprsAgree h expr expr') :
    AgreesAt h i (Same (Expr.relabel r)) (commandExpr expr) (commandExpr expr') := by
  refine .cursor ((takeCommand_agreesAt hk).bind ?_)
  rintro name _ ⟨rfl, hname⟩
  have hnode : ∀ args args', Same (relabelAll r) args args' →
      ExprsAgree h
        (do withFields i (← commandNode i name args)) (do withFields i (← commandNode i name args')) :=
    fun args args' hargs => (commandNode_agrees hname hargs).bind fun e e' he => withFields_agrees he
  refine .same (check_agrees _) fun parens => .ite ?_ (hnode [] [] rfl)
  exact (parenArgs_agrees hexpr).bind hnode

variable {inner inner' : Precedence → Parser Expr}

/-- A node is the result of a word. -/
theorem someNode_agrees {make make' : Info → Expr}
    (hmake : ∀ info, (make info).relabel r = (make' info).relabel r)
    (htype : ∀ info scopes, (make' info).inferredType scopes input'.commands =
      (make' info).inferredType scopes input.commands) :
    Agrees h (Same (Option.map (Expr.relabel r))) (some <$> node start make)
      (some <$> node start make') :=
  (node_agrees hmake htype).some

/-- A word with the name of a type behind it. -/
theorem typeNode_agrees {make : Info → String → Expr}
    (hmake : ∀ info type, (make info type).relabel r = make (r.info info) (r.name type))
    (htype : ∀ type info scopes, (make info type).inferredType scopes input'.commands =
      (make info type).inferredType scopes input.commands) :
    Steady h (Same (Option.map (Expr.relabel r)))
      (do let some type ← typeName | return none
          some <$> node start (make · type)) := by
  refine .option typeName_agrees (.pure rfl) fun type type' hsame => ?_
  refine someNode_agrees (fun info => ?_) (htype type')
  rw [hmake, hmake, hsame]

theorem wordExpr_agrees
    (hinner : ∀ level, ExprsAgree h (inner level) (inner' level)) (word : Keyword) :
    Agrees h (Same (Option.map (Expr.relabel r))) (wordExpr inner start word)
      (wordExpr inner' start word) := by
  cases word with
  | true_ | false_ | null =>
    exact .same advance_agrees fun _ => someNode_agrees (fun _ => rfl) fun _ _ => rfl
  | not | after | before =>
    refine .same advance_agrees fun _ => (hinner _).bind fun e e' he => ?_
    refine someNode_agrees (fun _ => ?_) fun _ _ => rfl
    simp only [Expr.relabel, show e.relabel r = e'.relabel r from he]
  | new | first | last =>
    exact .same advance_agrees fun _ => typeNode_agrees (fun _ _ => rfl) fun _ _ _ => rfl
  | _ => exact .pure rfl

/-- A literal, a name or an expression in parentheses is read alike. -/
theorem primary_agrees
    (hinner : ∀ level, ExprsAgree h (inner level) (inner' level)) :
    ExprsAgree h (primary inner) (primary inner') := by
  refine .at fun i => .cursor (.peek ?_)
  rcases h.token_cases i with ⟨ht, ht'⟩ | ⟨t, t', ht, ht', hsame⟩
  · rw [ht, ht']
    exact .of_agrees (.same (reportExpected_agrees rfl) fun _ => errorHere_agrees)
  rw [ht, ht']
  have hkind := Token.kind_congr hsame
  have hhere : input.kind i = t.kind := by unfold Input.kind; rw [ht]
  have htext := Token.text_eq hsame
  dsimp only
  rw [← hkind]
  cases hk : t.kind with
  | integer | float | hex =>
    rw [hk] at htext
    rw [htext (by decide) (by decide)]
    exact .of_agrees (.same advance_agrees fun _ =>
      .bind (number_agrees _ _ fun _ _ _ => rfl) fun _ _ he => withFields_agrees he)
  | string =>
    rw [hk] at htext
    rw [htext (by decide) (by decide)]
    exact .of_agrees (.same advance_agrees fun _ =>
      nodeFields_agrees (fun _ => rfl) fun _ _ => rfl)
  | identifier => exact .of_agrees (nameExpr_agrees (hinner _))
  | command => exact commandExpr_agreesAt (hhere.trans hk) (hinner _)
  | leftParen =>
    refine .of_agrees (.same advance_agrees fun _ => (hinner _).bind fun e e' he => ?_)
    refine (expect_agrees _ _).bind fun _ _ _ => ?_
    refine nodeFields_agrees (fun _ => ?_) fun _ _ => rfl
    exact congrArg (Expr.grouped _) he
  | minus | plus =>
    refine .of_agrees (.same advance_agrees fun _ => (hinner _).bind fun e e' he => ?_)
    refine nodeFields_agrees (fun _ => ?_) fun _ _ => rfl
    exact congrArg (Expr.unary _ _) he
  | keyword word =>
    refine .of_agrees (.option (wordExpr_agrees hinner word) badExpression_agrees ?_)
    exact fun e e' he => withFields_agrees he
  | _ => exact .of_agrees badExpression_agrees

theorem climb_agrees {level : Precedence}
    (hinner : ∀ level, ExprsAgree h (inner level) (inner' level))
    (rounds : Nat) : ∀ {left left' : Expr},
    left.relabel r = left'.relabel r →
    ExprsAgree h (climb inner level start rounds left) (climb inner' level start rounds left') := by
  induction rounds with
  | zero => exact fun hleft => .same exhaust_agrees fun _ => .pure hleft
  | succ rounds ih =>
    intro left left' hleft
    refine .same kind_agrees fun k => ?_
    cases k.binaryOp? with
    | none => exact .pure hleft
    | some op =>
      refine .ite (.pure hleft) (.same advance_agrees fun _ => ?_)
      refine (hinner _).bind fun right right' hright => ?_
      refine .bind (node_agrees (fun info => ?_) fun _ _ => rfl) fun e e' he => ih he
      simp only [Expr.relabel, hleft, show right.relabel r = right'.relabel r
        from hright]

theorem expressionAt_agrees (nesting : Nat) : ∀ level : Precedence,
    ExprsAgree h (expressionAt nesting level) (expressionAt nesting level) := by
  induction nesting with
  | zero => exact fun _ => .same exhaust_agrees fun _ => errorHere_agrees
  | succ nesting ih =>
    intro level
    refine .same cursor_agrees fun start => (primary_agrees ih).bind fun left left' hleft => ?_
    exact bounded_agrees fun rounds => climb_agrees ih rounds hleft

/-- An expression is read alike in any case. -/
theorem expression_agrees : ExprsAgree h expression expression :=
  bounded_agrees fun nesting => expressionAt_agrees nesting .or

end Expressions

end FrameBasic.Parser
