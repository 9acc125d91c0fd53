import FrameBasic.Proofs.Reader.Block
import FrameBasic.Tree.Parser.Program

/-!
# Reading programs

The statements of a program are read up to the first end of the input, and never further.  Each
round of the outermost loop passes a token, and the knot of `Parser.statementAt` is untied by
induction on the bound of the nesting: an inner statement starts behind the first token of the outer
one.  The reader is named by the first word of the statement, so that what is to be said about all
statements of one form is said about one reader.

## Main definitions

* `Stmt.Grounded` — what stands in a statement and below it is taken from the tokens.
* `Parser.Meets` — a condition holds of the statements that are read.

## Main results

* `Parser.statement_reads` — a statement.
* `Program.forall_within` — what holds of each statement that is read holds at whatever depth.
* `Parser.programLoop_reached` — a run of the outermost loop.
* `Parser.readAll_finishes` — every list of tokens is read to its end, and all blocks and scopes are
  closed there.
* `Program.parse_grounded` — **what stands in a program is taken from its tokens**.
* `Program.errorNodes_parse_le` — there are no more `error` nodes than errors about the form.
-/

namespace FrameBasic

/-- What stands in a statement outside of its blocks is taken from the tokens. -/
def Stmt.OwnGrounded (input : Parser.Input) (s : Stmt) : Prop :=
  (∀ use ∈ s.uses, input.Writes use.1) ∧ ∀ e ∈ s.ownExprs, e.Grounded input

/-- What stands in a statement is taken from the tokens, also in the body of a function. -/
def Stmt.Grounded (input : Parser.Input) (s : Stmt) : Prop :=
  ∀ t ∈ s.within true, t.OwnGrounded input

namespace Parser

variable {input : Input} {m : Nat} {stmt : Parser (Option Stmt)} {P : Stmt → Prop}
variable {token : Token} {word : Keyword}

/-! ### Statements -/

/-- A statement without blocks, for which no inner statement is read. -/
theorem wordStmt_simple (htoken : token ∈ input.tokens) (hword : opensBlocks word = false) :
    ReadsStmt input m (some word) P (wordStmt stmt token word) := by
  unfold wordStmt
  split
  iterate 7 contradiction
  · exact declareStmt_reads fun _ _ => rfl
  · exact declareStmt_reads fun _ _ => rfl
  · exact dimStmt_reads
  · exact constStmt_reads
  · exact returnStmt_reads
  · exact exitStmt_reads
  · exact endStmt_reads
  · exact jumpStmt_reads (fun _ _ => .plain rfl rfl rfl) fun _ _ => rfl
  · exact jumpStmt_reads (fun _ _ => .plain rfl rfl rfl) fun _ _ => rfl
  · exact dataStmt_reads
  · exact readStmt_reads
  · exact restoreStmt_reads
  · exact deleteStmt_reads
  · exact insertStmt_reads
  · exact reportFault_reads (Input.marks_token htoken) rfl

theorem wordStmt_starts (htoken : token ∈ input.tokens) (hstmt : ReadsInner input (m + 1) P stmt) :
    StartsStmt input m (some word) P (wordStmt stmt token word) := by
  by_cases hword : opensBlocks word = false
  · exact (wordStmt_simple htoken hword).starts
  · cases word with
    | if_ => exact ifStmt_starts hstmt
    | while_ => exact whileStmt_starts hstmt
    | repeat_ => exact repeatStmt_starts hstmt
    | for_ => exact forStmt_starts hstmt
    | select => exact selectStmt_starts hstmt
    | function => exact functionStmt_starts hstmt
    | type => exact typeStmt_reads.starts
    | _ => exact absurd rfl hword

/-- The token that a statement begins with tells how it is read. -/
theorem statementWith_run {s : State} (htoken : input.tokens[s.cursor]? = some token) :
    (token.kind = .identifier → statementWith stmt input s = nameStmt input s) ∧
      (token.kind = .command → statementWith stmt input s = commandStmt input s) ∧
      ∀ word, token.kind = .keyword word →
        statementWith stmt input s = wordStmt stmt token word input s := by
  have hpeek : peek? input s = (some token, s) := congrArg (·, s) htoken
  rw [statementWith, run_look hpeek]
  dsimp only
  refine ⟨fun hk => ?_, fun hk => ?_, fun word hk => ?_⟩
  · rw [hk]
  · rw [hk]
  · rw [hk]

/-- A statement begins with the word at its place, if there is one. -/
theorem statementWith_reached (stmt : Parser (Option Stmt)) {s : State}
    (hword : ∀ token ∈ input.tokens, ∀ word, input.kind s.cursor = .keyword word →
      StartsStmt input m (some word) P (wordStmt stmt token word))
    (hs : m ≤ s.cursor) (hstop : s.cursor ≤ input.stop) :
    ∃ new, Reached .names input s new (statementWith stmt input s).2 ∧
      Outcome input Stmt.exprs (Stmt.Built input (input.kind s.cursor).word? P)
        (statementWith stmt input s).1 new := by
  unfold statementWith
  rw [run_look (show peek? input s = (input.tokens[s.cursor]?, s) from rfl)]
  cases htoken : input.tokens[s.cursor]? with
  | none => exact reportMissing_reads _ s hs hstop
  | some token =>
    have hk := Input.kind_of_token htoken
    have hmem := Array.mem_of_getElem? htoken
    have hlt : token.kind ≠ .eof → s.cursor < input.stop :=
      Input.lt_stop_of_token hstop htoken
    dsimp only
    rw [hk]
    cases hkind : token.kind with
    | identifier => exact nameStmt_reads s hs hstop
    | command => exact commandStmt_startsAt htoken hkind s rfl hs (hlt (by simp [hkind]))
    | label => exact labelStmt_reads token s hs hstop
    | keyword word => exact hword token hmem word (hk.trans hkind) s hs (hlt (by simp [hkind]))
    | _ => exact reportFault_reads (Input.marks_token hmem) rfl s hs hstop

/-- A statement without blocks, whatever the reader of inner statements is. -/
theorem statementWith_simple (stmt : Parser (Option Stmt)) {s : State}
    (hopens : opensNone (input.kind s.cursor) = true) (hstop : s.cursor ≤ input.stop) :
    ∃ new, Reached .names input s new (statementWith stmt input s).2 ∧
      ∀ read ∈ (statementWith stmt input s).1, read.hasBlocks = false := by
  obtain ⟨new, hr, h⟩ := statementWith_reached stmt (P := fun _ => True)
    (fun token htoken word hk =>
      (wordStmt_simple htoken (opensBlocks_eq_false hopens word (hk ▸ rfl))).starts)
    (Nat.zero_le _) hstop
  refine ⟨new, hr, fun read hread => Stmt.hasBlocks_eq_false fun w hw => ?_⟩
  exact opensBlocks_eq_false hopens w ((h.holds read hread).word ▸ hw)

/-- `P` holds of a statement that is read, whatever the reader of inner statements is. -/
def Meets (input : Input) (P : Stmt → Prop) : Prop :=
  ∀ stmt s, s.cursor ≤ input.stop → ∀ read ∈ (statementWith stmt input s).1,
    read.Built input (input.kind s.cursor).word? (fun _ => True) → P read

/-- At any nesting, `P` holds of the statements that are read and of those in their blocks.  The
inner reader has to be good only behind the first token. -/
theorem statementAt_reads (hP : Meets input P) (nesting : Nat) : ∀ {m : Nat},
    input.stop < m + nesting →
    ReadsInner input m (fun s => ∀ t ∈ s.within true, P t) (statementAt nesting) := by
  induction nesting with
  | zero => exact fun hm => .past_stop hm
  | succ nesting ih =>
    intro m hm s hs hstop
    have hinner := ih (m := m + 1) (by omega)
    obtain ⟨new, hr, h⟩ :=
      statementWith_reached _ (fun _ htoken _ _ => wordStmt_starts htoken hinner) hs hstop
    refine ⟨new, hr, h.imp fun read hread hbuilt => ?_⟩
    rw [Stmt.within_true_eq]
    refine List.forall_mem_cons.mpr ⟨?_, List.forall_mem_flatMap.mpr fun block hblock => ?_⟩
    · exact hP _ s hstop read hread ⟨hbuilt.word, hbuilt.names, fun _ _ _ _ => trivial⟩
    · rw [stmtsWithin_eq_flatMap]
      exact List.forall_mem_flatMap.mpr (hbuilt.blocks block hblock)

theorem statement_reads (hP : Meets input P) :
    ReadsInner input m (fun s => ∀ t ∈ s.within true, P t) statement :=
  .bounded fun nesting _ _ hi => statementAt_reads hP nesting hi

/-! ### Programs -/

/-- One round of the outermost loop. -/
theorem programLoop_succ (rounds : Nat) (input : Input) (s : State) :
    let here : State := { s with cursor := input.skipWhile Kind.isSeparator s.cursor }
    let first := round finishOrRecover statement input here
    let rest := programLoop statement rounds input first.2
    programLoop statement (rounds + 1) input s =
      if input.kind here.cursor = .eof then ([], here) else (first.1.toList ++ rest.1, rest.2) := by
  intro here first rest
  have hrun : programLoop statement (rounds + 1) input s =
      (if decide (input.kind here.cursor = .eof) then return []
        else do
          let first ← round finishOrRecover statement
          let rest ← programLoop statement rounds
          return first.toList ++ rest : Parser (List Stmt)) input here := rfl
  rw [hrun]
  by_cases h : input.kind here.cursor = .eof
  · rw [if_pos h, decide_eq_true h]
    rfl
  · rw [if_neg h, decide_eq_false h]
    rfl

/-- The outermost loop ends at the end of the input. -/
theorem programLoop_reached (hP : Meets input P) (rounds : Nat) : ∀ {s : State},
    s.cursor ≤ input.stop → input.stop < s.cursor + rounds →
    ∃ new, Reached .names input s new (programLoop statement rounds input s).2 ∧
      Body input (fun s => ∀ t ∈ s.within true, P t) (programLoop statement rounds input s).1 new ∧
      (programLoop statement rounds input s).2.cursor = input.stop := by
  induction rounds with
  | zero => exact fun hs hrounds => absurd hs (by omega)
  | succ rounds ih =>
    intro s hs hrounds
    have hskip : Reached .names input s []
        { s with cursor := input.skipWhile Kind.isSeparator s.cursor } :=
      .move (Input.le_skipWhile _) (Input.skipWhile_stops rfl hs).1
    rw [programLoop_succ]
    -- behind the separators the input ends, or a round passes a token
    split
    · next heof =>
      exact ⟨[], hskip, .nothing .nothing, (Input.kind_eq_eof_iff hskip.cursor_le_stop).mp heof⟩
    · next htoken =>
      have hlt := Input.lt_stop hskip.cursor_le_stop htoken
      obtain ⟨new, hr, h, hpass⟩ :=
        round_reached (statement_reads hP) finishOrRecover_reads (Nat.zero_le _) hlt
      have hpassed := Nat.lt_of_le_of_lt hskip.cursor_le hpass
      obtain ⟨new', hr', h', hend⟩ := ih hr.cursor_le_stop (by omega)
      exact ⟨new ++ new', hskip.trans (hr.trans hr'), h.join h', hend⟩

theorem depth_initial (input : Input) : (State.initial input).scopes.depth = 1 := by
  have hfold : ∀ (symbols : List Symbol) (scopes : Scopes),
      (symbols.foldl Scopes.defineGlobal scopes).depth = scopes.depth := by
    intro symbols
    induction symbols with
    | nil => exact fun _ => rfl
    | cons symbol rest ih => exact fun scopes => ih (scopes.defineGlobal symbol)
  exact hfold input.foretold .empty

/-- Reading all statements leads from the first state to the end of the input. -/
theorem readAll_reached (input : Input) :
    ∃ new, Reached .names input (.initial input) new (readAll input).2 ∧
      Accounts input (blockExprs (readAll input).1) new ∧
      (readAll input).2.cursor = input.stop := by
  have hany : Meets input fun _ => True := fun _ _ _ _ _ _ => trivial
  obtain ⟨new, hr, hbody, hend⟩ :=
    programLoop_reached hany (s := .initial input) _ (Nat.zero_le _) (Input.stop_lt_add_left 0)
  exact ⟨new, hr, hbody.1, hend⟩

/-- Every list of tokens is read by itself up to the first token that ends the input, or to the end
if no token does, and all blocks and scopes that were opened are closed there. -/
theorem readAll_finishes (commands : CommandTable) (tokens : List Token) :
    let final := (readAll (.ofTokens commands tokens)).2
    let uncommented := tokens.filter fun token => token.kind ≠ .comment
    final.exhausted = false ∧
    final.cursor = uncommented.findIdx (fun token => token.kind = .eof) ∧
    (Program.parse commands tokens).finished = true ∧
    final.scopes.depth = 1 ∧ final.depth = 0 := by
  intro final uncommented
  obtain ⟨new, hr, _, hend⟩ := readAll_reached (.ofTokens commands tokens)
  have hscopes : final.scopes.depth = (State.initial (.ofTokens commands tokens)).scopes.depth :=
    hr.scopes
  refine ⟨hr.exhausted, hend, ?_, hscopes.trans (depth_initial _), hr.depth⟩
  exact decide_eq_true ((Input.kind_eq_eof_iff hr.cursor_le_stop).mpr hend)

end Parser

/-- What holds of each statement that is read holds at whatever depth of a program. -/
theorem Program.forall_within {P : Stmt → Prop} (commands : CommandTable) (tokens : List Token)
    (hP : Parser.Meets (.ofTokens commands tokens) P) :
    ∀ s ∈ (Program.parse commands tokens).program.stmts, ∀ t ∈ s.within true, P t := by
  obtain ⟨_, -, hbody, -⟩ := Parser.programLoop_reached hP (s := .initial _) _ (Nat.zero_le _)
    (Parser.Input.stop_lt_add_left 0)
  exact hbody.2

/-- What stands in the program that a list of tokens spells is taken from the tokens. -/
theorem Program.parse_grounded (commands : CommandTable) (tokens : List Token) :
    ∀ s ∈ (Program.parse commands tokens).program.stmts,
      s.Grounded (.ofTokens commands tokens) := by
  intro s hs t ht
  have hnames := Program.forall_within commands tokens fun _ _ _ _ _ hbuilt => hbuilt.names
  obtain ⟨new, -, haccounts, -⟩ := Parser.readAll_reached (.ofTokens commands tokens)
  refine ⟨hnames s hs t ht, fun e he => haccounts.grounded e ?_⟩
  refine List.mem_flatMap.mpr ⟨t, ?_, he⟩
  rw [stmtsWithin_eq_flatMap]
  exact List.mem_flatMap.mpr ⟨s, hs, ht⟩

/-- In the program that a list of tokens spells there are no more `error` nodes than recorded errors
about the form, so that there is none unless the form is wrong. -/
theorem Program.errorNodes_parse_le (commands : CommandTable) (tokens : List Token) :
    let parsed := Program.parse commands tokens
    (exprsWithin true parsed.program.stmts).countP Expr.isError ≤
      parsed.errors.countP (fun e => !e.fault.isSemantic) ∧
    ((∀ e ∈ parsed.errors, e.fault.isSemantic = true) →
      ∀ e ∈ exprsWithin true parsed.program.stmts, e.isError = false) := by
  intro parsed
  obtain ⟨new, hr, h, _⟩ := Parser.readAll_reached (.ofTokens commands tokens)
  have herrors : parsed.errors = new := hr.errors
  have hle : (exprsWithin true parsed.program.stmts).countP Expr.isError ≤
      parsed.errors.countP (fun e => !e.fault.isSemantic) := by
    rw [exprsWithin_eq_flatMap, herrors]
    exact h.errorNodes_le
  refine ⟨hle, fun hsemantic e he => ?_⟩
  have hzero : parsed.errors.countP (fun e => !e.fault.isSemantic) = 0 := by
    rw [List.countP_eq_zero]
    intro error herror
    rw [hsemantic error herror]
    exact Bool.false_ne_true
  rw [hzero, Nat.le_zero, List.countP_eq_zero] at hle
  exact eq_false_of_ne_true (hle e he)

/-- `a(1) = 2`, where no array of that name is known: the error is not about the form. -/
theorem Program.no_errorNode_of_unknown_array :
    let parsed := Program.parse .empty
      [⟨.identifier, "a", .unknown⟩, ⟨.leftParen, "(", .unknown⟩, ⟨.integer, "1", .unknown⟩,
        ⟨.rightParen, ")", .unknown⟩, ⟨.equals, "=", .unknown⟩, ⟨.integer, "2", .unknown⟩]
    parsed.errors.length = 1 ∧ (∀ e ∈ parsed.errors, e.fault.isSemantic = true) ∧
      ∀ e ∈ exprsWithin true parsed.program.stmts, e.isError = false := by
  intro parsed
  have hsemantic : ∀ e ∈ parsed.errors, e.fault.isSemantic = true := by decide +kernel
  exact ⟨by decide +kernel, hsemantic, (Program.errorNodes_parse_le _ _).2 hsemantic⟩

end FrameBasic
