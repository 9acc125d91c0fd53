import FrameBasic.Proofs.Reader.Program

/-!
# Statements on one line

The statements without blocks are read alike in two inputs that are the same up to a place where no
statement goes on, if `Parser.EndsAlike` holds: where a reader asks whether the statement has ended,
the answer has to be the same.  With one input instead of two it always is, so such a statement
never leaves its line.

## Main definitions

* `Parser.endsArguments` — a list of arguments in parentheses ends the statement before a token.
* `Parser.EndsAlike` — the statement at a token ends in both inputs at the place.
* `Parser.Input.EndsLine` — a line ends at a token.

## Main results

* `Parser.statementAt_copies` — a statement without blocks is read alike.
* `Parser.round_within_line` — **a statement without blocks never leads past its line**, whatever is
  wrong with it.
-/

namespace FrameBasic.Parser

/-- Whether a list of arguments in parentheses ends the statement before a token of the kind. -/
def endsArguments (kind : Kind) : Bool :=
  kind.isTerminator || decide (kind = .keyword .else_)

variable {a b : Input} {e : Nat} {α β γ : Type}
variable {h : Twins a b e} {live : Bool} {i start : Nat}

/-! ### More rules -/

namespace Copies

theorem define {symbol : Symbol} {f : Unit → Parser β} (hf : Copies h live false i (f ())) :
    Copies h live false i (define symbol >>= f) :=
  modify (fun _ => rfl) (fun _ => rfl) hf

theorem defineGlobal {symbol : Symbol} {f : Unit → Parser β} (hf : Copies h live false i (f ())) :
    Copies h live false i (defineGlobal symbol >>= f) :=
  modify (fun _ => rfl) (fun _ => rfl) hf

/-- A question that leaves the state as it is. -/
theorem ask {q : Parser γ} {f : γ → Parser β} (hstays : ∀ input s, (q input s).2 = s)
    (hsame : ∀ s : State, s.cursor = i → i ≤ e → (q b s).1 = (q a s).1)
    (hf : ∀ c, Copies h live false i (f c)) : Copies h live false i (q >>= f) := by
  intro s hs hi
  have hrun : ∀ input, (q >>= f) input s = f (q input s).1 input s := by
    intro input
    rw [run_bind, hstays]
  rw [hrun, hrun, hsame s hs hi]
  exact hf _ s hs hi

/-- Whether the statement ends here, when the answer is the same in both inputs. -/
theorem atStatementEnd {f : Bool → Parser β}
    (hend : i = e → (b.kind e).isTerminator = (a.kind e).isTerminator)
    (hf : ∀ c, Copies h live false i (f c)) : Copies h live false i (atStatementEnd >>= f) := by
  refine look (fun input i => (input.kind i).isTerminator) (fun _ _ => rfl) (fun hi _ => ?_) (hf _)
  rcases Nat.lt_or_eq_of_le hi with hlt | rfl
  · rw [h.kind hlt]
  · rw [hend rfl]

/-- The word that begins a statement. -/
theorem word {f : Nat → Parser β} (hk : halts (a.kind i) = false)
    (hf : i < e → Copies h live false (i + 1) (f i)) :
    Copies h live false i (do
      let start ← Parser.cursor
      Parser.advance
      f start) :=
  .cursor (.advance hk hf)

end Copies

/-- A report, and nothing read. -/
theorem none_copies {expected : Expected} :
    Copies h live false i (do reportExpected expected; return (none : Option α)) :=
  Fails.copies (.reportExpected .pure)

theorem accept_copies {wanted : Kind} (hw : halts wanted = false) :
    Copies h live false i (accept wanted) := by
  exact .accept hw (fun _ _ => .pure) .pure

theorem stmtFrom_copies {make : Span → Stmt} (hstart : start < e) :
    Copies h live false i (stmtFrom start make) :=
  .spanFrom hstart fun _ => .pure

/-- A list of items up to one that cannot be read. -/
theorem collect_copies {item : Parser (Option α)} (hitem : ∀ j, Copies h live false j item)
    (rounds : Nat) : ∀ i, Copies h live false i (collect item rounds) := by
  induction rounds with
  | zero => exact fun i => .modify (fun _ => rfl) (fun _ => rfl) .pure
  | succ rounds ih =>
    intro i
    refine .option (hitem i) (fun _ _ => .pure) fun first j _ => .accept rfl (fun _ _ => ?_) .pure
    exact (ih _).bind fun _ _ _ => .pure

/-- A statement with a list of items. -/
theorem listStmt_copies {item : Parser (Option α)} {f : List α × Bool → Parser (Option Stmt)}
    {make : Span → List α → Stmt} (hstart : start < e) (hitem : ∀ j, Copies h live false j item)
    (hf : ∀ found, f found = if found.2 then stmtFrom start (make · found.1) else return none) :
    Copies h live false i (bounded (collect item) >>= f) := by
  refine (Copies.bounded fun rounds _ => collect_copies hitem rounds i).bind fun found j _ => ?_
  rw [hf]
  exact .ite (fun _ => stmtFrom_copies hstart) fun _ => .pure

/-! ### What statements are made of -/

theorem argList_copies : Copies h live false i (parenArgs expression) :=
  parenArgs_copies fun _ _ => expression_copies

theorem target_copies : Copies h live false i target := by
  refine .cursor (.expect rfl (fun t _ _ hlt => ?_) .pure)
  refine typeTag_copies.bind fun tag j hij => ?_
  have hnode : ∀ {live : Bool} {make : Info → Expr} {j : Nat}, i ≤ j →
      Copies h live false j (do some <$> withFields i (← node i make)) :=
    fun hij => (Copies.node hlt).bind fun _ _ hj => (withFields_copies (Nat.le_trans hij hj)).map
  cases tag with
  | some typeName => exact hnode (by omega)
  | none =>
    refine .check rfl (.ite (fun _ => ?_) fun _ => hnode (by omega))
    refine argList_copies.bind fun indices j' hj' => .get fun s => ?_
    have hij' : i ≤ j' := by omega
    refine .ite (fun _ => hnode hij') fun _ => .spanFrom hlt fun span => ?_
    exact Fails.copies (.report rfl (hnode hij'))

theorem declareTarget_copies {x : Expr} {value : ValueType} :
    Copies h live false i (declareTarget x value) := by
  unfold declareTarget
  split
  · next info name typeName =>
    have htyped : Copies h live false i (typed (.var info name typeName)) := by
      intro s hs hi
      exact ⟨Nat.le_refl _, hs ▸ hi, ⟨[], (List.append_nil _).symm, List.forall_mem_nil _⟩,
        fun hstill => absurd hstill Bool.false_ne_true, fun _ => by cases typeName <;> rfl⟩
    refine .get fun s => ?_
    exact .ite (fun _ => .define htyped) fun _ => htyped
  · exact .pure

theorem assignment_copies : Copies h live false i assignment := by
  refine .cursor (.option target_copies (fun _ _ => .pure) fun x j hij => ?_)
  refine .expect rfl (fun t _ _ hlt => expression_copies.bind fun value _ _ => ?_) .pure
  exact declareTarget_copies.bind fun x' _ _ => stmtFrom_copies (by omega)

theorem initialValue_copies : Copies h live false i initialValue :=
  .accept rfl (fun _ _ => expression_copies.map) .pure

theorem varDecl_copies {scope : DeclScope} : Copies h live false i (varDecl scope) := by
  refine .cursor (.expect rfl (fun t _ _ hlt => ?_) .pure)
  refine typeTag_copies.bind fun tag _ _ => initialValue_copies.bind fun value j _ => ?_
  extract_lets symbol finish
  have hfinish : Copies h live false j (finish ()) := .spanFrom hlt fun span => .pure
  cases scope with
  | inner => exact .define hfinish
  | global => exact .defineGlobal hfinish

theorem arrayDecl_copies : Copies h live false i arrayDecl := by
  refine .cursor (.expect rfl (fun t _ _ hlt => ?_) .pure)
  refine typeTag_copies.bind fun tag j _ => .check rfl (.ite (fun _ => ?_) fun _ => none_copies)
  refine argList_copies.bind fun dimensions j' _ => ?_
  extract_lets plain finish
  have hfinish : ∀ {live : Bool} {j : Nat}, Copies h live false j (finish ()) :=
    .defineGlobal (.spanFrom hlt fun span => .pure)
  refine .ite (fun _ => .spanFrom hlt fun span => ?_) fun _ => hfinish
  exact Fails.copies (.report rfl hfinish)

theorem readTarget_copies : Copies h live false i readTarget :=
  .option target_copies (fun _ _ => .pure) fun _ _ _ => declareTarget_copies.map

theorem dataLiteral?_of_halts {negative : Bool} {t : Token} (hk : halts t.kind = true) :
    dataLiteral? negative t = none := by
  unfold dataLiteral?
  rcases halts_cases hk with hk | hk | hk | hk | hk <;> rw [hk]

/-- A number that cannot be read is no block. -/
theorem dataLiteral?_fault {negative : Bool} {token : Token} {fault : Fault}
    (h : dataLiteral? negative token = some (.error fault)) : fault.isUnclosed = false := by
  unfold dataLiteral? at h
  extract_lets whole at h
  have hwhole : ∀ value, whole value = some (.error fault) → fault.isUnclosed = false := by
    intro value hvalue
    cases value with
    | none => cases hvalue; rfl
    | some v => cases hvalue
  split at h
  · exact hwhole _ h
  · exact hwhole _ h
  · split at h
    · cases h
    · cases h; rfl
  · split at h <;> cases h
  · split at h <;> cases h
  · split at h <;> cases h
  · split at h <;> cases h
  · split at h <;> cases h
  · cases h

theorem dataValue_copies : Copies h live false i dataValue := by
  have hwanted : ∀ {j : Nat} {expected : Expected},
      Fails h false j (do reportExpected expected; return (none : Option DataValue)) :=
    .reportExpected .pure
  refine .cursor ((accept_copies rfl).bind fun negative j hij => .peek ?_ fun hhalts => ?_)
  · cases ht : a.tokens[j]? with
    | none => exact hwanted.copies
    | some t =>
      dsimp only
      cases hliteral : dataLiteral? negative t with
      | none => exact hwanted.copies
      | some literal =>
        have hk : halts (a.kind j) = false := by
          rw [Input.kind_of_token ht]
          refine Bool.eq_false_iff.mpr fun hk => ?_
          rw [dataLiteral?_of_halts hk] at hliteral
          cases hliteral
        cases literal with
        | ok value => exact .advance hk fun _ => .pure
        | error fault =>
          refine .advance hk fun _ => .spanFrom (by omega) fun span => ?_
          exact Fails.copies (.report (dataLiteral?_fault hliteral) .pure)
  · cases ht : a.tokens[j]? with
    | none => exact hwanted
    | some t =>
      dsimp only
      rw [dataLiteral?_of_halts (Input.kind_of_token ht ▸ hhalts)]
      exact hwanted

theorem labelName_copies : Copies h live false i labelName := by
  refine .check rfl (.check rfl (.ite (fun hname => ?_) fun _ => none_copies))
  have hk : halts (a.kind i) = false ∧ a.kind i ≠ .eof := by
    rcases Bool.or_eq_true_iff.mp hname with hk | hk <;> rw [of_decide_eq_true hk] <;> decide
  obtain ⟨t, ht, -⟩ := Input.token_of_kind hk.2
  rw [map_eq_pure_bind]
  exact .takeText ht hk.1 fun _ => .pure

theorem side_copies : Copies h live false i side :=
  .accept rfl (fun _ _ => .pure) (.accept rfl (fun _ _ => .pure) none_copies)

/-! ### Arguments of statements -/

theorem parensAreAll_eq (input : Input) (s : State) : parensAreAll input s =
    (decide (input.kind s.cursor = .leftParen) &&
      endsArguments (input.kind (parenArgs expression input s).2.cursor)) :=
  rfl

/-- A list in parentheses ends at the same token in both inputs: if it ends before the place in one
of them, it is the same list. -/
theorem parenArgs_ends_alike (h : Twins a b e) {s : State} (hs : s.cursor ≤ e) :
    (parenArgs expression b s).2.cursor = (parenArgs expression a s).2.cursor ∧
      (parenArgs expression a s).2.cursor ≤ e := by
  have hcopied : ∀ {a b : Input} (h : Twins a b e),
      Copied h false false s (parenArgs expression a s) (parenArgs expression b s) :=
    fun h => argList_copies s rfl hs
  refine ⟨?_, (hcopied h).le_end⟩
  rcases Nat.lt_or_eq_of_le (hcopied h).le_end with hlt | hend
  · rw [(hcopied h).same (.inl hlt)]
  · rcases Nat.lt_or_eq_of_le (hcopied h.symm).le_end with hlt | hend'
    · rw [(hcopied h.symm).same (.inl hlt)]
    · rw [hend, hend']

/-- Only the token at the place can tell whether a list in parentheses is all of the arguments. -/
theorem parensAreAll_ne (h : Twins a b e) {s : State} (hs : s.cursor ≤ e)
    (hall : parensAreAll b s ≠ parensAreAll a s) : a.kind s.cursor = .leftParen ∧
      (parenArgs expression a s).2.cursor = e ∧
      endsArguments (a.kind e) ≠ endsArguments (b.kind e) := by
  obtain ⟨hsame, hend⟩ := parenArgs_ends_alike h hs
  have hopen : decide (b.kind s.cursor = .leftParen) = decide (a.kind s.cursor = .leftParen) :=
    decide_eq_decide.mpr (h.kind_eq_iff hs rfl)
  rw [parensAreAll_eq, parensAreAll_eq, hopen, hsame] at hall
  refine ⟨?_, ?_⟩
  · refine Decidable.byContradiction fun hother => hall ?_
    rw [decide_eq_false hother]
    rfl
  · rcases Nat.lt_or_eq_of_le hend with hlt | heq
    · exact absurd (by rw [h.kind hlt]) hall
    · refine ⟨heq, fun hends => hall ?_⟩
      rw [heq, hends]

/-- A list in parentheses is all of the arguments in both inputs or in none of them. -/
theorem statementArgs_copied {s : State} {f : List Expr → Parser β} (hs : s.cursor ≤ e)
    (hall : parensAreAll b s = parensAreAll a s)
    (hf : ∀ args j, Copies h live false j (f args)) :
    Copied h live false s ((statementArgs >>= f) a s) ((statementArgs >>= f) b s) := by
  have hargs : Copied h live false s (statementArgs a s) (statementArgs b s) := by
    rw [statementArgs_eq a, statementArgs_eq b, hall]
    split
    · exact argList_copies s rfl hs
    · exact bareArgs_copies (fun _ _ => expression_copies) s rfl hs
  exact hargs.bind (hf _ _ _ rfl hargs.le_end)

theorem callStmt_copied {name : String} {s : State} (hk : halts (a.kind s.cursor) = false)
    (hs : s.cursor ≤ e)
    (hall : parensAreAll b { s with cursor := s.cursor + 1 } =
      parensAreAll a { s with cursor := s.cursor + 1 }) :
    Copied h live false s (callStmt s.cursor name a s) (callStmt s.cursor name b s) := by
  have hlt := h.lt hs hk
  refine .advance hk hs (statementArgs_copied hlt hall fun args j => ?_)
  exact .bind (.node hlt) fun call _ _ => stmtFrom_copies hlt

theorem commandStmt_copied {s : State} (hk : a.kind s.cursor = .command) (hs : s.cursor ≤ e)
    (hall : parensAreAll b { s with cursor := s.cursor + 1 } =
      parensAreAll a { s with cursor := s.cursor + 1 }) :
    Copied h live false s (commandStmt a s) (commandStmt b s) := by
  have hpass : halts (a.kind s.cursor) = false := hk ▸ rfl
  have hlt := h.lt hs hpass
  obtain ⟨t, ht, -⟩ := Input.token_of_kind (show a.kind s.cursor ≠ .eof by rw [hk]; nofun)
  have hrun : ∀ input, commandStmt input s = _ := fun input => run_look (rfl : cursor input s = _)
  rw [hrun, hrun]
  refine .takeText ht hpass hs (statementArgs_copied hlt hall fun args j => ?_)
  exact (commandNode_copies hlt).bind fun call _ _ => stmtFrom_copies hlt

/-- The list in parentheses ends at the same token in both inputs. -/
theorem assignsAfterParens_same (h : Twins a b e) (hk : halts (a.kind i) = false) {s : State}
    (hs : s.cursor = i) (hi : i ≤ e) :
    (assignsAfterParens b s).1 = (assignsAfterParens a s).1 := by
  rw [assignsAfterParens_eq, assignsAfterParens_eq]
  have hlt := h.lt hi hk
  have hafter : b.after i = a.after i := by
    unfold Input.after
    rw [h.kind hlt]
  have hle : a.after i ≤ e := by
    unfold Input.after
    split <;> omega
  obtain ⟨hsame, hend⟩ := parenArgs_ends_alike h (s := { s with cursor := a.after i }) hle
  refine decide_eq_decide.mpr ?_
  rw [hs, hafter, hsame]
  exact h.kind_eq_iff hend rfl

section Calls

variable (hargs : a.kind (i + 1) = .leftParen →
  endsArguments (a.kind e) = endsArguments (b.kind e))
include hargs

theorem parensAreAll_same (h : Twins a b e) (hi : i < e) {s : State} (hs : s.cursor = i + 1) :
    parensAreAll b s = parensAreAll a s := by
  refine Decidable.byContradiction fun hall => ?_
  obtain ⟨hopen, -, hdiffer⟩ := parensAreAll_ne h (hs ▸ hi) hall
  exact hdiffer (hargs (hs ▸ hopen))

theorem nameStmt_copies (hk : a.kind i = .identifier) : Copies h live false i nameStmt := by
  have hpass : halts (a.kind i) = false := hk ▸ rfl
  have hcall : ∀ {name : String}, Copies h live false i (callStmt i name) := by
    rintro name s rfl hi
    exact callStmt_copied hpass hi (parensAreAll_same hargs h (h.lt hi hpass) rfl)
  refine .within fun hi => .cursor (.peek ?_ fun hhalts => absurd hhalts (by simp [hpass]))
  refine .look (fun input i => input.kind (i + 1)) (fun _ _ => rfl) (fun _ _ => ?_) ?_
  · rcases h.kind_cases (h.lt hi hpass) with hsame | ⟨ha, hb⟩
    · rw [hsame]
    · -- nothing stands behind the name
      have hother : ∀ {kind : Kind}, halts kind = true → decide (kind = .leftParen) = false ∧
          ¬ kind ∈ [.equals, .label, .backslash, .leftParen] := by
        intro kind hkind
        rcases halts_cases hkind with rfl | rfl | rfl | rfl | rfl <;> decide
      simp only [hother ha, hother hb]
  · refine .get fun s => ?_
    extract_lets unknownList finish
    have hfinish : ∀ assigns, Copies h live false i (finish assigns) :=
      fun assigns => .ite (fun _ => hcall) fun _ => .ite (fun _ => assignment_copies) fun _ =>
        .get fun s => .ite (fun _ => hcall) fun _ => .advance hpass fun _ => none_copies
    refine .ite (fun _ => ?_) fun _ => hfinish true
    exact .ask (fun _ => assignsAfterParens_stays) (fun s => assignsAfterParens_same h hpass)
      hfinish

theorem commandStmt_copies (hk : a.kind i = .command) : Copies h live false i commandStmt := by
  rintro s rfl hi
  exact commandStmt_copied hk hi (parensAreAll_same hargs h (h.lt hi (hk ▸ rfl)) rfl)

end Calls

/-! ### Statements that begin with a word -/

section Words

variable (hk : halts (a.kind i) = false)
include hk

theorem declareStmt_copies {scope : DeclScope} : Copies h live false i (declareStmt scope) :=
  .word hk fun hlt => listStmt_copies hlt (fun _ => varDecl_copies) fun _ => rfl

theorem dimStmt_copies : Copies h live false i dimStmt :=
  .word hk fun hlt => listStmt_copies hlt (fun _ => arrayDecl_copies) fun _ => rfl

theorem readStmt_copies : Copies h live false i readStmt :=
  .word hk fun hlt => listStmt_copies hlt (fun _ => readTarget_copies) fun _ => rfl

theorem constStmt_copies : Copies h live false i constStmt := by
  refine .word hk fun hlt => .expect rfl (fun t _ _ _ => ?_) .pure
  refine .expect rfl (fun _ _ _ _ => ?_) .pure
  exact expression_copies.bind fun value _ _ => .define (stmtFrom_copies hlt)

theorem returnStmt_copies
    (hend : i + 1 = e → endsArguments (a.kind e) = endsArguments (b.kind e)) :
    Copies h live false i returnStmt := by
  refine .word hk fun hlt => ?_
  have hsame : endsArguments (b.kind (i + 1)) = endsArguments (a.kind (i + 1)) := by
    rcases Nat.lt_or_eq_of_le hlt with hnext | rfl
    · rw [h.kind hnext]
    · exact (hend rfl).symm
  refine .look (q := (fun input s => (endsArguments (input.kind s.cursor), s) : Parser Bool))
    (f := fun ended => if ended then stmtFrom i (.return_ · none) else do
      let value ← expression
      stmtFrom i (.return_ · (some value)))
    (fun input i => endsArguments (input.kind i)) (fun _ _ => rfl) (fun _ _ => by rw [hsame]) ?_
  exact .ite (fun _ => stmtFrom_copies hlt) fun _ =>
    expression_copies.bind fun value _ _ => stmtFrom_copies hlt

theorem exitStmt_copies : Copies h live false i exitStmt :=
  .word hk fun hlt => stmtFrom_copies hlt

theorem endStmt_copies : Copies h live false i endStmt := by
  refine .word hk fun hlt => .kind (fun k k' hk hk' => ?_) ?_
  · -- `End` does not go on there
    rcases halts_cases hk with rfl | rfl | rfl | rfl | rfl <;>
      rcases halts_cases hk' with rfl | rfl | rfl | rfl | rfl <;> rfl
  · cases hword : a.kind (i + 1) with
    | keyword word =>
      refine .ite (fun hcloses => ?_) fun _ => stmtFrom_copies hlt
      have hpass : halts (a.kind (i + 1)) = false := by
        rw [hword]
        revert hcloses
        cases word <;> decide
      refine .advance hpass fun _ => .spanFrom hlt fun span => ?_
      exact Fails.copies (.report rfl .pure)
    | _ => exact stmtFrom_copies hlt

theorem jumpStmt_copies {make : Span → String → Stmt} : Copies h live false i (jumpStmt make) :=
  .word hk fun hlt => .option labelName_copies (fun _ _ => .pure) fun _ _ _ => stmtFrom_copies hlt

theorem dataStmt_copies (hend : i + 1 = e → (b.kind e).isTerminator = (a.kind e).isTerminator) :
    Copies h live false i dataStmt := by
  refine .word hk fun hlt => .atStatementEnd hend fun ended => ?_
  exact .ite (fun _ => stmtFrom_copies hlt) fun _ =>
    listStmt_copies hlt (fun _ => dataValue_copies) fun _ => rfl

theorem restoreStmt_copies (hend : i + 1 = e → (b.kind e).isTerminator = (a.kind e).isTerminator) :
    Copies h live false i restoreStmt := by
  refine .word hk fun hlt => .atStatementEnd hend fun ended => ?_
  refine .ite (fun _ => stmtFrom_copies hlt) fun _ => ?_
  exact .option labelName_copies (fun _ _ => .pure) fun _ _ _ => stmtFrom_copies hlt

theorem deleteStmt_copies : Copies h live false i deleteStmt := by
  refine .word hk fun hlt => .accept rfl (fun _ _ => ?_) ?_
  · exact .option typeName_copies (fun _ _ => .pure) fun _ _ _ => stmtFrom_copies hlt
  · exact expression_copies.bind fun object _ _ => stmtFrom_copies hlt

theorem insertStmt_copies : Copies h live false i insertStmt := by
  refine .word hk fun hlt => expression_copies.bind fun object _ _ => ?_
  refine .option side_copies (fun _ _ => .pure) fun side _ _ => ?_
  exact expression_copies.bind fun anchor _ _ => stmtFrom_copies hlt

end Words

/-! ### Statements without blocks -/

/-- The readers that ask whether the statement at a token has ended get the same answer at the place
in both inputs. -/
structure EndsAlike (a b : Input) (e i : Nat) : Prop where
  /-- `Data` and `Restore` with nothing behind them. -/
  list : a.kind i ∈ [.keyword .data, .keyword .restore] → i + 1 = e →
    (b.kind e).isTerminator = (a.kind e).isTerminator
  /-- `Return` with nothing behind it. -/
  value : a.kind i = .keyword .return_ → i + 1 = e →
    endsArguments (a.kind e) = endsArguments (b.kind e)
  /-- A call with its arguments in parentheses. -/
  args : a.kind i ∈ [.identifier, .command] → a.kind (i + 1) = .leftParen →
    endsArguments (a.kind e) = endsArguments (b.kind e)

theorem EndsAlike.of_kind (h : b.kind e = a.kind e) : EndsAlike a b e i :=
  ⟨fun _ _ => by rw [h], fun _ _ => by rw [h], fun _ _ => by rw [h]⟩

theorem wordStmt_copies {stmt : Parser (Option Stmt)} {t : Token} {word : Keyword}
    (hk : a.kind i = .keyword word) (hopens : opensBlocks word = false)
    (halike : EndsAlike a b e i) : Copies h live false i (wordStmt stmt t word) := by
  have hpass : halts (.keyword word) = false → halts (a.kind i) = false := fun hw => hk ▸ hw
  unfold wordStmt
  split
  iterate 7 contradiction
  · exact declareStmt_copies (hpass rfl)
  · exact declareStmt_copies (hpass rfl)
  · exact dimStmt_copies (hpass rfl)
  · exact constStmt_copies (hpass rfl)
  · exact returnStmt_copies (hpass rfl) (halike.value hk)
  · exact exitStmt_copies (hpass rfl)
  · exact endStmt_copies (hpass rfl)
  · exact jumpStmt_copies (hpass rfl)
  · exact jumpStmt_copies (hpass rfl)
  · exact dataStmt_copies (hpass rfl) (halike.list (by simp [hk]))
  · exact readStmt_copies (hpass rfl)
  · exact restoreStmt_copies (hpass rfl) (halike.list (by simp [hk]))
  · exact deleteStmt_copies (hpass rfl)
  · exact insertStmt_copies (hpass rfl)
  · exact Fails.copies (.report rfl .pure)

/-- A statement without blocks. -/
theorem statementWith_copies {stmt : Parser (Option Stmt)} (hopens : opensNone (a.kind i) = true)
    (halike : EndsAlike a b e i) : Copies h live false i (statementWith stmt) := by
  refine .peek ?_ fun hhalts => ?_
  · cases ht : a.tokens[i]? with
    | none => exact none_copies
    | some t =>
      have hkt := Input.kind_of_token ht
      dsimp only
      split
      · next hk => exact nameStmt_copies (halike.args (by simp [hkt, hk])) (hkt.trans hk)
      · next hk => exact commandStmt_copies (halike.args (by simp [hkt, hk])) (hkt.trans hk)
      · next hk => exact .advance (by rw [hkt, hk]; rfl) fun _ => .pure
      · next word hk =>
        refine wordStmt_copies (hkt.trans hk) ?_ halike
        rw [hkt, hk] at hopens
        exact (Bool.not_eq_true' _).mp hopens
      · exact Fails.copies (.report rfl .pure)
  · cases ht : a.tokens[i]? with
    | none => exact .reportExpected .pure
    | some t =>
      rw [Input.kind_of_token ht] at hhalts
      dsimp only
      rcases halts_cases hhalts with hk | hk | hk | hk | hk <;> rw [hk] <;> exact .report rfl .pure

theorem statementAt_copies (hopens : opensNone (a.kind i) = true) (halike : EndsAlike a b e i)
    (nesting : Nat) : Copies h live false i (statementAt nesting) := by
  cases nesting with
  | zero => exact .modify (fun _ => rfl) (fun _ => rfl) .pure
  | succ nesting => exact statementWith_copies hopens halike

/-! ### The end of the line -/

namespace Input

variable {input : Input}

/-- The line ends at the place. -/
def EndsLine (input : Input) (e : Nat) : Prop :=
  input.kind e = .newline ∨ input.kind e = .eof

theorem EndsLine.halts (he : input.EndsLine e) : Parser.halts (input.kind e) = true := by
  rcases he with he | he <;> rw [he] <;> rfl

/-- Where the condition fails skipping ends. -/
theorem skipWhile_le {p : Kind → Bool} (he : p (input.kind e) = false) (hi : i ≤ e) :
    input.skipWhile p i ≤ e := by
  suffices key : ∀ count i, i ≤ e → input.skipWhileUpTo p count i ≤ e from key _ i hi
  intro count
  induction count with
  | zero => exact fun _ hi => hi
  | succ count ih =>
    intro i hi
    unfold skipWhileUpTo
    split
    · next hp =>
      have hne : i ≠ e := fun heq => by rw [heq, he] at hp; cases hp
      exact ih (i + 1) (by omega)
    · exact hi

theorem after_le_succ (i : Nat) : input.after i ≤ i + 1 := by
  unfold after
  split <;> omega

/-- After a fault reading goes on at the end of the line at the latest. -/
theorem recover_le (he : input.EndsLine e) (hi : i ≤ e) : input.recover i ≤ input.after e := by
  have hpass : ∀ j, j ≤ e → (if (input.kind j).isSeparator then j + 1 else j) ≤ input.after e := by
    intro j hj
    split
    · next hsep =>
      rcases Nat.lt_or_eq_of_le hj with hlt | rfl
      · exact Nat.le_trans hlt le_after
      · have hne : input.kind j ≠ .eof := fun hk => by rw [hk] at hsep; cases hsep
        exact Nat.le_of_eq (if_neg hne).symm
    · exact Nat.le_trans hj le_after
  refine hpass _ ?_
  split
  · exact hi
  · next hplain =>
    have hne : i ≠ e := by
      rintro rfl
      rcases he with he | he
      · exact hplain (.inr (by rw [he]; rfl))
      · exact hplain (.inl he)
    refine skipWhile_le ?_ (by omega)
    rcases he with he | he <;> rw [he] <;> rfl

end Input

variable {input : Input} {s : State}

/-- A statement without blocks ends on its line. -/
theorem statementAt_within_line (hopens : opensNone (input.kind s.cursor) = true)
    (he : input.EndsLine e) (hs : s.cursor ≤ e) (nesting : Nat) :
    s.cursor ≤ (statementAt nesting input s).2.cursor ∧
      (statementAt nesting input s).2.cursor ≤ e := by
  have hcopies : Copies (Twins.self he.halts) true false s.cursor (statementAt nesting) :=
    statementAt_copies hopens (.of_kind rfl) nesting
  have hrun := hcopies s rfl hs
  exact ⟨hrun.cursor_le, hrun.le_end⟩

/-- Finishing a statement, or passing what is left of one, does not lead into the next line. -/
theorem finishOrRecover_within_line (he : input.EndsLine e) (hs : s.cursor ≤ e) (complete : Bool) :
    s.cursor ≤ (finishOrRecover complete input s).2.cursor ∧
      (finishOrRecover complete input s).2.cursor ≤ input.after e := by
  have hrecover : ∀ s' : State, s'.cursor = s.cursor →
      s.cursor ≤ (recover input s').2.cursor ∧ (recover input s').2.cursor ≤ input.after e := by
    intro s' hs'
    have hrun : (recover input s').2.cursor = input.recover s'.cursor := rfl
    rw [hrun, hs']
    exact ⟨Input.le_recover, Input.recover_le he hs⟩
  cases complete with
  | false => exact hrecover s rfl
  | true =>
    have hend : atStatementEnd input s = ((input.kind s.cursor).isTerminator, s) := rfl
    have hcloser : atAnyCloser input s = (input.closesAny s.cursor, s) := rfl
    unfold finishOrRecover finishStatement
    rw [if_pos rfl, run_look hend, run_look hcloser]
    split
    · exact ⟨Nat.le_refl _, Nat.le_trans hs Input.le_after⟩
    · obtain ⟨err, hreport⟩ := reportExpected_run input .statementEnd s
      rw [run_bind, hreport]
      exact hrecover _ rfl

/-- However malformed it is, a statement without blocks is left before the next line begins: reading
it does not lead past the end of the line, and neither does a whole round with the recovery from its
faults, which passes at least one token.  Only the word that begins the statement counts, so words
that open blocks may stand further on in the line. -/
theorem round_within_line {input : Input} {s : State} {e : Nat} {stmt : Parser (Option Stmt)}
    (hstmt : stmt = statement ∨ ∃ nesting, stmt = statementAt nesting)
    (hopens : opensNone (input.kind s.cursor) = true) (he : input.EndsLine e) (hs : s.cursor ≤ e) :
    (stmt input s).2.cursor ≤ e ∧
      input.after s.cursor ≤ (round finishOrRecover stmt input s).2.cursor ∧
      (round finishOrRecover stmt input s).2.cursor ≤ input.after e := by
  -- `statement` gives a bound for the nesting, and it stays on its line with any
  have hread : s.cursor ≤ (stmt input s).2.cursor ∧ (stmt input s).2.cursor ≤ e := by
    rcases hstmt with rfl | ⟨nesting, rfl⟩
    · exact statementAt_within_line hopens he hs (input.left s.cursor + 1)
    · exact statementAt_within_line hopens he hs nesting
  obtain ⟨hle, hend⟩ := hread
  obtain ⟨hfle, hfend⟩ := finishOrRecover_within_line (s := (stmt input s).2) he hend
    (stmt input s).1.isSome
  let finished := (finishOrRecover (stmt input s).1.isSome input (stmt input s).2).2
  have hrun : (round finishOrRecover stmt input s).2 = (passFrom s.cursor input finished).2 := rfl
  have hpass : (passFrom s.cursor input finished).2.cursor =
      if finished.cursor = s.cursor then input.after finished.cursor else finished.cursor := by
    show ((if finished.cursor = s.cursor then advance else pure ()) input finished).2.cursor = _
    split
    · rfl
    · rfl
  rw [hrun, hpass]
  refine ⟨hend, ?_⟩
  split
  · next hstays =>
    rw [hstays]
    refine ⟨Nat.le_refl _, ?_⟩
    rcases Nat.lt_or_eq_of_le hs with hlt | rfl
    · exact Nat.le_trans (Input.after_le_succ _) (Nat.le_trans hlt Input.le_after)
    · exact Nat.le_refl _
  · next hmoved =>
    have hlt : s.cursor < finished.cursor :=
      Nat.lt_of_le_of_ne (Nat.le_trans hle hfle) (Ne.symm hmoved)
    exact ⟨Nat.le_trans (Input.after_le_succ _) hlt, hfend⟩

theorem round_within_line_malformed :
    let input : Input :=
      ⟨#[⟨.identifier, "x", .unknown⟩, ⟨.equals, "=", .unknown⟩, ⟨.rightParen, ")", .unknown⟩,
        ⟨.keyword .while_, "While", .unknown⟩, ⟨.newline, "", .unknown⟩,
        ⟨.identifier, "y", .unknown⟩], .empty⟩
    input.EndsLine 4 ∧ (round finishOrRecover statement input {}).2.cursor ≤ 5 := by
  intro input
  have he : input.EndsLine 4 := .inl rfl
  exact ⟨he, (round_within_line (s := {}) (.inl rfl) rfl he (by decide)).2.2⟩

end FrameBasic.Parser
