import FrameBasic.Proofs.Reader.Line

/-!
# Statements without blocks

Only a construct with blocks can be left open.  All other readers, and also those of the heads of
constructs, are quiet: they go forward in the input and record no block that is not closed.

## Main definitions

* `Parser.unclosed` — the errors about blocks that are not closed.
* `Parser.Quiet` — the judgement about readers.

## Main results

* `Parser.Quiet.of_tries` — reading an expression is quiet.
* `Parser.statementWith_quiet` — a statement without blocks.
-/

namespace FrameBasic

namespace Parser

/-- The errors about blocks that are not closed. -/
def unclosed (errors : List ParseError) : List ParseError :=
  errors.filter fun e => e.fault.isUnclosed

theorem unclosed_append (as bs : List ParseError) :
    unclosed (as ++ bs) = unclosed as ++ unclosed bs :=
  List.filter_append ..

/-- Other errors make no difference. -/
theorem unclosed_eq {errors more new : List ParseError} (hmore : more = errors ++ new)
    (hnew : ∀ e ∈ new, e.fault.isUnclosed = false) : unclosed more = unclosed errors := by
  have hnone : unclosed new = [] := by
    refine List.filter_eq_nil_iff.mpr fun e he => ?_
    rw [hnew e he]
    exact Bool.false_ne_true
  rw [hmore, unclosed_append, hnone, List.append_nil]

/-- Reading led from `s` to `s'` and recorded no block that is not closed. -/
structure Unharmed (input : Input) (s s' : State) : Prop where
  /-- It went forward. -/
  cursor_le : s.cursor ≤ s'.cursor
  /-- It stayed in the input. -/
  cursor_le_stop : s'.cursor ≤ input.stop
  /-- It neither recorded nor took back an error about a block. -/
  errors : unclosed s'.errors = unclosed s.errors

/-- The reader records no block that is not closed, and `A` holds of its result. -/
def Quiet {α : Type} (input : Input) (p : Parser α) (A : α → Prop) : Prop :=
  ∀ s : State, s.cursor ≤ input.stop → Unharmed input s (p input s).2 ∧ A (p input s).1

/-- As `Quiet`, and nothing is said about the result. -/
abbrev Calm {α : Type} (input : Input) (p : Parser α) : Prop :=
  Quiet input p fun _ => True

variable {α β : Type} {input : Input} {s s₁ s₂ : State} {p q : Parser α} {f : α → Parser β}
  {A : α → Prop} {B : β → Prop}

namespace Unharmed

theorem refl (h : s.cursor ≤ input.stop) : Unharmed input s s :=
  ⟨Nat.le_refl _, h, rfl⟩

theorem trans (h : Unharmed input s s₁) (h' : Unharmed input s₁ s₂) : Unharmed input s s₂ :=
  ⟨Nat.le_trans h.cursor_le h'.cursor_le, h'.cursor_le_stop, h'.errors.trans h.errors⟩

/-- What reading an expression may do. -/
theorem of_trial {new : List ParseError} (h : Trial input s new s₁)
    (hs : s.cursor ≤ input.stop) : Unharmed input s s₁ :=
  ⟨h.cursor_le, h.le_end _ hs Input.kind_stop, unclosed_eq h.errors h.closed⟩

end Unharmed

/-! ### Building readers -/

namespace Quiet

theorem imp {A' : α → Prop} (h : Quiet input p A) (hA : ∀ a, A a → A' a) : Quiet input p A' := by
  intro s hs
  obtain ⟨hs', ha⟩ := h s hs
  exact ⟨hs', hA _ ha⟩

theorem pure {a : α} (h : A a) : Quiet input (pure a) A :=
  fun _ hs => ⟨.refl hs, h⟩

theorem bind (hp : Quiet input p A) (hf : ∀ a, A a → Quiet input (f a) B) :
    Quiet input (p >>= f) B := by
  intro s hs
  obtain ⟨h, ha⟩ := hp s hs
  obtain ⟨h', hb⟩ := hf _ ha _ h.cursor_le_stop
  exact ⟨h.trans h', hb⟩

/-- A reader of whose result nothing is asked, and another one after it. -/
theorem step (hp : Quiet input p A) (hf : ∀ a, Quiet input (f a) B) : Quiet input (p >>= f) B :=
  hp.bind fun a _ => hf a

/-- A reader that only looks. -/
theorem of_look {g : Input → State → α} : Calm input (looking g) :=
  fun _ hs => ⟨.refl hs, trivial⟩

theorem look {g : Input → State → α} (hf : ∀ a, Quiet input (f a) B) :
    Quiet input (looking g >>= f) B :=
  of_look.step hf

theorem map {g : α → β} (h : Quiet input p fun a => B (g a)) : Quiet input (g <$> p) B :=
  h

theorem ite {c : Prop} [Decidable c] (hp : Quiet input p A) (hq : Quiet input q A) :
    Quiet input (if c then p else q) A := by
  split
  · exact hp
  · exact hq

/-- A part that may be missing, and what comes after it. -/
theorem option {p : Parser (Option α)} {f : Option α → Parser β} {A : Option α → Prop}
    (hp : Quiet input p A) (hnone : Quiet input (f none) B)
    (hsome : ∀ a, Quiet input (f (some a)) B) : Quiet input (p >>= f) B := by
  refine hp.step fun o => ?_
  cases o with
  | none => exact hnone
  | some a => exact hsome a

theorem bounded {loop : Nat → Parser α} (h : ∀ rounds, Quiet input (loop rounds) A) :
    Quiet input (bounded loop) A :=
  fun s hs => h _ s hs

/-- What is read as an expression is quiet. -/
theorem of_tries (h : Tries input p) : Calm input p := by
  intro s hs
  obtain ⟨new, h⟩ := h s
  exact ⟨.of_trial h hs, trivial⟩

/-- What records nothing is quiet. -/
theorem of_silent {k : Effect} (h : Reads k input 0 p fun _ new => new = []) : Calm input p := by
  intro s hs
  obtain ⟨_, hr, rfl⟩ := h s (Nat.zero_le _) hs
  exact ⟨⟨hr.cursor_le, hr.cursor_le_stop, unclosed_eq hr.errors (List.forall_mem_nil _)⟩, trivial⟩

end Quiet

/-! ### Single steps -/

theorem advance_calm : Calm input advance :=
  .of_tries advance_tries

theorem recover_calm : Calm input recover :=
  .of_silent (k := .none) recover_reads

theorem skipWhile_calm {p : Kind → Bool} (hp : p .eof = false) : Calm input (skipWhile p) :=
  .of_silent (k := .none) (skipWhile_reads hp)

theorem passFrom_calm (start : Nat) : Calm input (passFrom start) :=
  .look fun _ => .ite advance_calm (.pure trivial)

theorem report_calm {fault : Fault} (hf : fault.isUnclosed = false) (span : Span) :
    Calm input (report fault span) :=
  .of_tries (report_tries hf span)

theorem reportExpected_calm (expected : Expected) : Calm input (reportExpected expected) :=
  .of_tries (reportExpected_tries expected)

theorem expect_calm {wanted : Kind} (hw : wanted ≠ .eof) (expected : Expected) :
    Calm input (expect wanted expected) :=
  .of_tries (expect_tries hw expected)

theorem accept_calm {wanted : Kind} : Calm input (accept wanted) :=
  .of_tries accept_tries

theorem acceptCloser_calm (closer : Closer) : Calm input (acceptCloser closer) :=
  .of_silent (k := .none) (acceptCloser_reads closer)

theorem finishStatement_calm : Calm input finishStatement := by
  refine .look fun _ => .look fun _ => .ite (.pure trivial) ?_
  exact (reportExpected_calm _).step fun _ => recover_calm

theorem modifyScopes_calm (g : Scopes → Scopes) : Calm input (modifyScopes g) :=
  fun _ hs => ⟨⟨Nat.le_refl _, hs, rfl⟩, trivial⟩

theorem define_calm (symbol : Symbol) : Calm input (define symbol) :=
  modifyScopes_calm _

theorem defineGlobal_calm (symbol : Symbol) : Calm input (defineGlobal symbol) :=
  modifyScopes_calm _

theorem exhaust_calm : Calm input exhaust :=
  fun _ hs => ⟨⟨Nat.le_refl _, hs, rfl⟩, trivial⟩

theorem collect_calm {item : Parser (Option α)} (hitem : Calm input item) :
    Calm input (bounded (collect item)) := by
  refine .bounded fun rounds => ?_
  induction rounds with
  | zero => exact exhaust_calm.step fun _ => .pure trivial
  | succ rounds ih =>
    refine .option hitem (.pure trivial) fun first => ?_
    refine accept_calm.step fun _ => .ite ?_ (.pure trivial)
    exact ih.step fun _ => .pure trivial

/-! ### Expressions -/

theorem expression_calm : Calm input expression :=
  .of_tries (expression_trial input)

theorem expressions_calm : Calm input (bounded (separated expression)) :=
  .of_tries (.of_copies fun _ _ => .bounded fun rounds hleft =>
    separated_copies rounds hleft fun _ _ => expression_copies)

theorem typeTag_calm : Calm input typeTag :=
  .of_tries typeTag_tries

theorem typeName_calm : Calm input typeName :=
  .of_tries typeName_tries

theorem initialValue_calm : Calm input initialValue :=
  accept_calm.step fun _ => .ite (.map expression_calm) (.pure trivial)

/-! ### Statements -/

/-- A statement without blocks, if any. -/
def Simple (o : Option Stmt) : Prop :=
  ∀ s ∈ o, s.hasBlocks = false

theorem simple_none : Simple none :=
  fun _ h => nomatch h

/-- Where a statement begins and ends. -/
theorem stmtFrom_quiet {start : Nat} {make : Span → Stmt} :
    Quiet input (stmtFrom start make) fun o => ∃ j, o = some (make (input.spanFrom start j)) :=
  fun _ hs => ⟨.refl hs, _, rfl⟩

/-- A statement without blocks is read on its line, so no block is left open. -/
theorem statementWith_quiet {stmt : Parser (Option Stmt)}
    (hopens : opensNone (input.kind s.cursor) = true) (hs : s.cursor ≤ input.stop) :
    Unharmed input s (statementWith stmt input s).2 ∧ Simple (statementWith stmt input s).1 := by
  constructor
  · have hstop : halts (input.kind input.stop) = true := by rw [Input.kind_stop]; rfl
    have hcopies : Copies (.self hstop) true false s.cursor (statementWith stmt) :=
      statementWith_copies hopens (.of_kind rfl)
    obtain ⟨hle, hend, ⟨new, hnew, hclosed⟩, -, -⟩ := hcopies s rfl hs
    exact ⟨hle, hend, unclosed_eq hnew hclosed⟩
  · obtain ⟨_, -, hsimple⟩ := statementWith_simple stmt hopens hs
    exact hsimple

/-! ### Heads and ends of statements with blocks -/

theorem finishOrRecover_calm (complete : Bool) : Calm input (finishOrRecover complete) := by
  cases complete with
  | true => exact finishStatement_calm
  | false => exact recover_calm

theorem finishInline_calm (complete : Bool) : Calm input (finishInline complete) := by
  refine .look fun rest => ?_
  have hskip : Calm input (skipWhile isInlineRest) := skipWhile_calm rfl
  exact .ite ((reportExpected_calm _).step fun _ => hskip) hskip

theorem acceptElseIf_calm : Calm input acceptElseIf := by
  refine accept_calm.step fun _ => .ite (.pure trivial) ?_
  refine .look fun _ => .look fun _ => .ite ?_ (.pure trivial)
  exact advance_calm.step fun _ => advance_calm.step fun _ => .pure trivial

theorem declareLoopVariable_calm (name : String) (symbol : Symbol) :
    Calm input (declareLoopVariable name symbol) :=
  .of_silent (declareLoopVariable_reads name symbol)

theorem skipLine_calm : Calm input skipLine :=
  skipWhile_calm rfl

theorem param_calm : Calm input param := by
  refine .look fun start => ?_
  refine .option (expect_calm (by decide) _) (.pure trivial) fun token => ?_
  exact typeTag_calm.step fun _ => initialValue_calm.step fun _ => .of_look

theorem params_calm : Calm input params := by
  refine .option (expect_calm (by decide) _) (skipLine_calm.step fun _ => .pure trivial) fun _ => ?_
  refine accept_calm.step fun _ => .ite (.pure trivial) ?_
  refine (collect_calm param_calm).step fun found => ?_
  have hrest : ∀ closed : Option Token, Calm input (do
      if closed.isNone then skipLine
      return found.1) :=
    fun closed => .ite (skipLine_calm.step fun _ => .pure trivial) (.pure trivial)
  exact .ite ((expect_calm (by decide) _).step hrest) (hrest none)

theorem functionName_calm : Calm input functionName := by
  have hwanted : Calm input (do reportExpected .functionName; return none :
      Parser (Option String)) := (reportExpected_calm _).step fun _ => .pure trivial
  refine .option .of_look hwanted fun token => .ite ?_ (.ite ?_ hwanted)
  · exact advance_calm.step fun _ => .pure trivial
  · exact advance_calm.step fun _ => (report_calm rfl _).step fun _ => .pure trivial

theorem defineAll_calm (found : List Param) :
    Calm input (found.forM fun p =>
      define (.declared p.name p.typeName (p.default.map Expr.type))) := by
  induction found with
  | nil => exact .pure trivial
  | cons p rest ih => exact (define_calm _).step fun _ => ih

theorem fieldDecl_calm : Calm input fieldDecl := by
  refine .look fun start => ?_
  refine .option (expect_calm (by decide) _) (.pure trivial) fun token => ?_
  exact typeTag_calm.step fun _ => .of_look

end Parser

end FrameBasic
