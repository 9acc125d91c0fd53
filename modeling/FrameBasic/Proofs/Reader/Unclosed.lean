import FrameBasic.Proofs.Reader.Extent
import FrameBasic.Proofs.Reader.Program

/-!
# Blocks that are not closed

A construct that is not closed is recorded once, at the place of its head.  `If` and `Select` have
several blocks, but a block that is not closed is the last one: no other branch begins where no
closer of the construct stands.  `Select` looks at the last error to tell whether its last clause
was recorded already, which is right because tokens do not overlap and so no other construct was
opened at the same place.

## Main definitions

* `Parser.Around` — a construct was read around statements.

## Main results

* `Parser.body_tallies` — a construct with one block.
* `Parser.ifStmt_begins`, `Parser.selectStmt_begins`, `Parser.typeStmt_begins` — the others.
* `Parser.statement_tallies` — a statement.
* `Program.unclosed_errors` — **the recorded errors about blocks are those of the constructs that
  are not closed**.
-/

namespace FrameBasic

theorem Construct.closers_subset (construct : Construct) : construct.closers ⊆ Closer.all := by
  cases construct <;> decide

namespace Parser

variable {α β : Type} {input : Input} {own : Option Nat} {w head : Nat} {s s₁ s₂ : State}
  {xs ys : List Extent} {stmt : Parser (Option Stmt)} {inner : Trace} {construct : Construct}

/-! ### Single steps -/

theorem run_spanFrom (start : Nat) (s : State) :
    spanFrom start input s = (input.spanFrom start s.cursor, s) :=
  rfl

/-- A word is passed if it stands there. -/
theorem acceptWord_bind (word : Keyword) (p q : Parser β) (s : State) :
    (do if ← acceptWord word then p else q : Parser β) input s =
      if input.kind s.cursor = .keyword word then (do advance; p) input s else q input s := by
  show (if (acceptWord word input s).1 then p else q : Parser β) input
    (acceptWord word input s).2 = _
  by_cases h : input.kind s.cursor = .keyword word
  · rw [if_pos h, show acceptWord word input s = _ from accept_run_pos h]
    rfl
  · rw [if_neg h, show acceptWord word input s = _ from accept_run_neg h]
    rfl

/-- A closer is passed if it stands there, and reading ends. -/
theorem acceptCloser_bind (closer : Closer) (a : β) (q : Parser β) (s : State) :
    (do if ← acceptCloser closer then return a else q : Parser β) input s =
      if input.closesWith s.cursor closer = true then (a, (acceptCloser closer input s).2)
      else q input s := by
  let found := acceptCloser closer input s
  have hfound : found = (if input.closesWith s.cursor closer = true then _ else pure false :
      Parser Bool) input s := rfl
  show (if found.1 then pure a else q : Parser β) input found.2 = _
  by_cases h : input.closesWith s.cursor closer = true
  · have htrue : found.1 = true := by
      rw [hfound, if_pos h]
      cases closer <;> rfl
    rw [if_pos h, if_pos htrue]
    rfl
  · rw [if_neg h, hfound, if_neg h]
    rfl

theorem Input.endsBlock_word {i : Nat} {word : Keyword} (h : input.kind i = .keyword word) :
    input.endsBlock i = Closer.all.any (input.closesWith i) := by
  unfold endsBlock
  rw [h]
  rfl

/-- A word is passed. -/
theorem advance_passes {word : Keyword} (hs : s.cursor ≤ input.stop)
    (hk : input.kind s.cursor = .keyword word) :
    Unharmed input s (advance input s).2 ∧ s.cursor < (advance input s).2.cursor := by
  have hlt : s.cursor < input.stop := Input.lt_stop hs (by rw [hk]; simp)
  refine ⟨(advance_calm s hs).1, ?_⟩
  show s.cursor < input.after s.cursor
  rw [Input.after_of_lt hlt]
  exact Nat.lt_succ_self _

theorem none_tallies : StmtTallies input own (pure none) nothing :=
  .of_quiet (.pure simple_none) fun _ => .of_simple

/-! ### Constructs with one block -/

/-- The last one of the constructs begins at `w`, and the others cover the statements. -/
def Around (input : Input) (construct : Construct) (w : Nat) (stmts : List Stmt)
    (xs : List Extent) : Prop :=
  ∃ ys x, xs = ys ++ [x] ∧ x.construct = construct ∧ x.start = w ∧ w < input.stop ∧
    Covers input ys stmts

theorem Around.imp {stmts stmts' : List Stmt} (h : Around input construct w stmts xs)
    (himp : ∀ ys, Covers input ys stmts → Covers input ys stmts') :
    Around input construct w stmts' xs := by
  obtain ⟨ys, x, hlist, hconstruct, hstart, hlt, hcovers⟩ := h
  exact ⟨ys, x, hlist, hconstruct, hstart, hlt, himp ys hcovers⟩

/-- The statement is a construct that begins at `w`, with the statements in its blocks. -/
structure Made (input : Input) (construct : Construct) (w : Nat) (stmts : List Stmt)
    (made : Stmt) : Prop where
  inner : made.inner.Perm stmts
  span : ∃ j, made.span = input.spanFrom w j
  construct : ∀ c ∈ made.construct?, c = construct

/-- A construct with one block. -/
theorem Made.single {made : Stmt} (body : List Stmt)
    (hblocks : made.blocks ++ made.routines = [body])
    (hspan : ∃ j, made.span = input.spanFrom w j) (hconstruct : made.construct? = some construct) :
    Made input construct w body made := by
  refine ⟨?_, hspan, fun c hc => ?_⟩
  · rw [Stmt.inner, hblocks, List.flatten_singleton]
  · exact Option.some.inj (hc.symm.trans hconstruct)

theorem Around.covers {stmts : List Stmt} {made : Stmt} (h : Around input construct w stmts xs)
    (hmade : Made input construct w stmts made) : Covers input xs [made] := by
  obtain ⟨ys, x, rfl, hconstruct, rfl, hx, hcovers⟩ := h
  obtain ⟨j, hspan⟩ := hmade.span
  refine .of_construct (hcovers.perm hmade.inner.symm) hx hspan fun c hc => ?_
  rw [hconstruct, hmade.construct c hc]

theorem stmtFrom_made {make : Span → Stmt} {stmts : List Stmt}
    (hmake : ∀ j, Made input construct w stmts (make (input.spanFrom w j))) :
    Quiet input (stmtFrom w make) fun o => ∃ made, o = some made ∧
      Made input construct w stmts made :=
  stmtFrom_quiet.imp fun _ ⟨j, ho⟩ => ⟨_, ho, hmake j⟩

section OneBlock

variable (hstmt : StmtTallies input none stmt inner)
include hstmt

/-- A construct with one block, and something quiet behind the block. -/
theorem body_tallies {closers : List Closer} {f : List Stmt → Parser β}
    {B : List Stmt → β → Prop} {R : β → List Extent → Prop}
    (hk : input.kind w = .keyword construct.word) (hclosers : construct.closers = closers)
    (hf : ∀ body, Quiet input (f body) (B body))
    (hR : ∀ body b xs, Around input construct w body xs → B body b → R b xs) :
    Tallies input (some w) (do
      let opened ← spanFrom w
      let body ← block stmt closers construct opened
      f body) (bodyTrace inner stmt construct w) R := by
  subst hclosers
  intro s hs
  have hw := hs.own_lt w rfl
  obtain ⟨hended, hcovers⟩ := block_ended construct _ construct.closers_subset hstmt hs
  have hclosed := hended.close hk hw (Nat.le_refl _)
  obtain ⟨hu, hb⟩ := hf _ _ hended.cursor_le_stop
  refine ⟨hclosed.tail hu, hR _ _ _ ?_ hb⟩
  exact ⟨_, _, rfl, rfl, rfl, Nat.lt_of_lt_of_le hw hs.cursor_le_stop, hcovers⟩

/-- A construct with one block, and the statement that it becomes. -/
theorem bodyStmt_tallies {closers : List Closer} {f : List Stmt → Parser (Option Stmt)}
    (hk : input.kind w = .keyword construct.word) (hclosers : construct.closers = closers)
    (hf : ∀ body, Quiet input (f body) fun o => ∃ made, o = some made ∧
      Made input construct w body made) :
    StmtTallies input (some w) (do
      let opened ← spanFrom w
      let body ← block stmt closers construct opened
      f body) (bodyTrace inner stmt construct w) := by
  refine body_tallies hstmt hk hclosers hf fun body o xs haround hmade => ?_
  obtain ⟨made, rfl, hmade⟩ := hmade
  exact haround.covers hmade

theorem whileStmt_begins : Begins input .while_ (whileStmt stmt) (whileTrace inner stmt) := by
  refine .word fun w hw => .before expression_calm fun condition => ?_
  refine bodyStmt_tallies hstmt hw rfl fun body => (acceptCloser_calm _).step fun _ => ?_
  exact stmtFrom_made fun j => .single body rfl ⟨j, rfl⟩ rfl

theorem repeatStmt_begins : Begins input .repeat_ (repeatStmt stmt) (repeatTrace inner stmt) := by
  refine .word fun w hw => bodyStmt_tallies hstmt hw rfl fun body => ?_
  have hmade : ∀ condition, Quiet input (stmtFrom w (.repeat_ · body condition)) fun o =>
      ∃ made, o = some made ∧ Made input .repeat_ w body made :=
    fun condition => stmtFrom_made fun j => .single body rfl ⟨j, rfl⟩ rfl
  refine accept_calm.step fun _ => .ite ?_ ?_
  · exact expression_calm.step fun condition => hmade (some condition)
  · exact accept_calm.step fun _ => hmade none

/-- The body of `For`, up to `Next`. -/
theorem forBody_tallies (hk : input.kind w = .keyword construct.word)
    (hclosers : construct.closers = [.word .next]) :
    Tallies input (some w) (forBody stmt construct w) (bodyTrace inner stmt construct w)
      (Around input construct w) := by
  refine body_tallies (B := fun body b => b = body) hstmt hk hclosers (fun body => ?_)
    fun body b xs haround hb => hb ▸ haround
  have hpure : Quiet input (pure body) fun b => b = body := .pure rfl
  refine (acceptCloser_calm _).step fun _ => .ite ?_ hpure
  refine .look fun _ => .ite ?_ hpure
  exact advance_calm.step fun _ => hpure

/-- The statement that the body becomes. -/
theorem forBody_stmt {make : Span → List Stmt → Stmt}
    (hk : input.kind w = .keyword construct.word) (hclosers : construct.closers = [.word .next])
    (hmake : ∀ body j, Made input construct w body (make (input.spanFrom w j) body)) :
    StmtTallies input (some w) (do
      let body ← forBody stmt construct w
      stmtFrom w (make · body)) (bodyTrace inner stmt construct w) := by
  refine (forBody_tallies hstmt hk hclosers).after (fun body => stmtFrom_made (hmake body)) ?_
  rintro body _ xs haround ⟨made, rfl, hmade⟩
  exact haround.covers hmade

theorem forEachStmt_tallies {name : String} {tag : Option String}
    (hk : input.kind w = .keyword .for_) :
    StmtTallies input (some w) (forEachStmt stmt w name tag)
      (forEachTrace inner stmt w name tag) := by
  refine .beforeSome typeName_calm none_tallies fun type => ?_
  have hbody : StmtTallies input (some w) (do
      declareLoopVariable name (.declared name (some type) none)
      let body ← forBody stmt .forEach w
      stmtFrom w (.forEach · name type body))
      (before (declareLoopVariable name (.declared name (some type) none)) fun _ =>
        bodyTrace inner stmt .forEach w) := by
    refine .before (declareLoopVariable_calm _ _) fun _ => ?_
    exact forBody_stmt hstmt hk rfl fun body j => .single body rfl ⟨j, rfl⟩ rfl
  dsimp only
  split
  · rw [before_bind]
    exact .before .of_look fun span => .before (report_calm rfl span) fun _ => hbody
  · exact hbody

theorem forRangeStmt_tallies {name : String} (hk : input.kind w = .keyword .for_) :
    StmtTallies input (some w) (forRangeStmt stmt w name) (forRangeTrace inner stmt w name) := by
  refine .before (declareLoopVariable_calm _ _) fun _ => .before expression_calm fun first => ?_
  refine .beforeSome (expect_calm (by decide) _) none_tallies fun _ => ?_
  refine .before expression_calm fun last => ?_
  have hbody : ∀ step, StmtTallies input (some w) (do
      let body ← forBody stmt .for_ w
      stmtFrom w (.for_ · name first last step body)) (bodyTrace inner stmt .for_ w) :=
    fun step => forBody_stmt hstmt hk rfl fun body j => .single body rfl ⟨j, rfl⟩ rfl
  rw [before_bind]
  refine .before accept_calm fun found => ?_
  split
  · exact .before (A := fun _ => True) (.map expression_calm) hbody
  · exact .before (A := fun _ => True) (.pure trivial) hbody

theorem forStmt_begins : Begins input .for_ (forStmt stmt) (forTrace inner stmt) := by
  refine .word fun w hw => .beforeSome (expect_calm (by decide) _) none_tallies fun token => ?_
  refine .before typeTag_calm fun tag => ?_
  refine .beforeSome (expect_calm (by decide) _) none_tallies fun _ => ?_
  refine .before accept_calm fun each => ?_
  cases each with
  | true => exact forEachStmt_tallies hstmt hw
  | false => exact forRangeStmt_tallies hstmt hw

/-- The body of a function, in a scope of its own. -/
theorem functionBody_tallies {found : List Param} (hk : input.kind w = .keyword .function) :
    Tallies input (some w) (functionBody stmt w found) (functionBodyTrace inner stmt w found)
      (Around input .function w) := by
  refine .before (modifyScopes_calm _) fun _ => .before (defineAll_calm found) fun _ => ?_
  refine body_tallies (B := fun body b => b = body) hstmt hk rfl (fun body => ?_)
    fun body b xs haround hb => hb ▸ haround
  exact (modifyScopes_calm _).step fun _ => .pure rfl

theorem functionStmt_begins :
    Begins input .function (functionStmt stmt) (functionTrace inner stmt) := by
  refine .word fun w hw => .beforeSome functionName_calm none_tallies fun name => ?_
  refine .before typeTag_calm fun tag => ?_
  have hbody : StmtTallies input (some w) (do
      let found ← params
      let plain := Symbol.function name (returnType name tag) (found.map Param.name)
      defineGlobal (tag.elim plain plain.withTypeName)
      let body ← functionBody stmt w found
      let _ ← acceptCloser (.endOf .function)
      stmtFrom w (.function · name tag found body)) (paramsTrace inner stmt w name tag) := by
    refine .before params_calm fun found => .before (defineGlobal_calm _) fun _ => ?_
    refine (functionBody_tallies hstmt hw).after (fun body => (acceptCloser_calm _).step fun _ =>
      stmtFrom_made fun j => .single body rfl ⟨j, rfl⟩ rfl) ?_
    rintro body _ xs haround ⟨made, rfl, hmade⟩
    exact haround.covers hmade
  rw [before_bind]
  refine .before .of_look fun s => ?_
  split
  · rw [before_bind]
    refine .before .of_look fun s => ?_
    refine .before .of_look fun span => .before (report_calm ?_ span) fun _ => hbody
    split <;> rfl
  · exact hbody

end OneBlock

/-! ### `If` on one line -/

section LineIf

variable (hstmt : StmtTallies input none stmt inner)
include hstmt

theorem inlineStmts_tallies :
    Tallies input none (inlineStmts stmt) (inlineTrace inner stmt) fun body xs =>
      Covers input xs body := by
  intro s hs
  let entered : State := { s with depth := s.depth + 1 }
  have hentered : Behind input none entered := ⟨nofun, hs.cursor_le_stop, hs.errors⟩
  have hrounds : Rounds input (inlineLoop stmt) (skipWhile fun kind => kind = .colon)
      (fun input i => isInlineEnd (input.kind i)) (round finishInline stmt) id := by
    intro rounds s
    extract_lets here first rest
    have hrun : inlineLoop stmt (rounds + 1) input s =
        (if isInlineEnd (input.kind here.cursor) then return []
          else do
            let first ← round finishInline stmt
            let rest ← inlineLoop stmt rounds
            return first.toList ++ rest : Parser (List Stmt)) input here := rfl
    rw [hrun]
    split <;> rfl
  obtain ⟨here, h, -, hstate, hcovers⟩ := rounds_tally hrounds (skipWhile_calm rfl)
    (fun i hi heof => by rw [heof] at hi; cases hi) hstmt finishInline_calm
    (input.left s.cursor + 1) hentered (Input.stop_lt_add_left s.cursor)
  have hcursor := congrArg State.cursor hstate
  have herrors := congrArg State.errors hstate
  have htally : Tally input none s _ here :=
    ⟨h.cursor_le, h.cursor_le_stop, h.errors, h.sound, h.le_start, h.start_lt, h.nodup⟩
  exact ⟨htally.congr hcursor herrors, hcovers⟩

theorem lineIf_tallies {condition : Expr} :
    StmtTallies input (some w) (lineIf stmt w condition) (lineIfTrace inner stmt) := by
  refine .append (inlineStmts_tallies hstmt) fun thenBranch xs hthen => ?_
  refine .before accept_calm fun found => ?_
  have hcovers : ∀ elseBranch ys j, Covers input ys (elseBranch.getD []) →
      Covers input (xs ++ ys)
        [.if_ (input.spanFrom w j) condition thenBranch [] elseBranch] := by
    intro elseBranch ys j helse
    have hinner : (Stmt.if_ (input.spanFrom w j) condition thenBranch [] elseBranch).inner =
        thenBranch ++ elseBranch.getD [] := by
      cases elseBranch <;> simp [Stmt.inner, Stmt.blocks, Stmt.routines]
    exact .of_inner (hinner ▸ hthen.append helse) rfl
  have hlast : ∀ elseBranch, Quiet input (do
      let _ ← acceptWord .endIf
      stmtFrom w (.if_ · condition thenBranch [] elseBranch)) fun o =>
        ∃ j, o = some (.if_ (input.spanFrom w j) condition thenBranch [] elseBranch) :=
    fun elseBranch => accept_calm.step fun _ => stmtFrom_quiet
  cases found with
  | true =>
    refine (inlineStmts_tallies hstmt).inside.after (fun body => hlast (some body)) ?_
    rintro body _ ys hbody ⟨j, rfl⟩
    exact hcovers (some body) ys j hbody
  | false =>
    refine .of_quiet (hlast none) ?_
    rintro _ ⟨j, rfl⟩
    exact hcovers none [] j .nil

end LineIf

/-! ### `If` over several lines -/

theorem acceptElseIf_cases (hs : s.cursor ≤ input.stop) :
    (acceptElseIf input s = (false, s) ∧ input.kind s.cursor ≠ .keyword .elseIf) ∨
      ∃ s', acceptElseIf input s = (true, s') ∧ s.cursor < s'.cursor ∧
        branchClosers.any (input.closesWith s.cursor) = true := by
  let words : Parser Bool := do
    if (← checkWord .else_) && (← kindAhead 1) = .keyword .if_ then
      advance
      advance
      return true
    else
      return false
  have hrun : acceptElseIf input s =
      (if (acceptWord .elseIf input s).1 then return true else words : Parser Bool) input
        (acceptWord .elseIf input s).2 := rfl
  rw [hrun]
  by_cases hword : input.kind s.cursor = .keyword .elseIf
  · have hlt : s.cursor < input.stop := Input.lt_stop hs (by rw [hword]; simp)
    rw [show acceptWord .elseIf input s = _ from accept_run_pos hword]
    refine .inr ⟨_, rfl, ?_, ?_⟩
    · show s.cursor < input.after s.cursor
      rw [Input.after_of_lt hlt]
      exact Nat.lt_succ_self _
    · simp [branchClosers, Input.closesWith, hword]
  · rw [show acceptWord .elseIf input s = _ from accept_run_neg hword]
    have hwords : words input s =
        (if (decide (input.kind s.cursor = .keyword .else_) &&
          decide (input.kind (s.cursor + 1) = .keyword .if_)) then do advance; advance; return true
        else return false : Parser Bool) input s := rfl
    show words input s = (false, s) ∧ _ ∨ ∃ s', words input s = (true, s') ∧ _
    rw [hwords]
    split
    · next h =>
      have helse : input.kind s.cursor = .keyword .else_ := by
        simp only [Bool.and_eq_true, decide_eq_true_eq] at h
        exact h.1
      have hlt : s.cursor < input.stop := Input.lt_stop hs (by rw [helse]; simp)
      refine .inr ⟨_, rfl, ?_, ?_⟩
      · show s.cursor < input.after (input.after s.cursor)
        have hle : input.after s.cursor ≤ input.after (input.after s.cursor) := Input.le_after
        rw [Input.after_of_lt hlt] at hle ⊢
        exact hle
      · simp [branchClosers, Input.closesWith, helse]
    · exact .inl ⟨rfl, hword⟩

/-- What follows the last branch of `If`. -/
def closeIf (start : Nat) (condition : Expr) (thenBranch : List Stmt) (branches : List ElseIf)
    (elseBranch : Option (List Stmt)) : Parser (Option Stmt) := do
  unless ← acceptCloser (.word .endIf) do
    let _ ← acceptCloser (.endOf .if_)
  stmtFrom start (.if_ · condition thenBranch branches elseBranch)

theorem branchClosers_subset : branchClosers ⊆ Closer.all := by
  decide

section BlockIf

variable (hstmt : StmtTallies input none stmt inner)
include hstmt

/-- The branches after the first one.  A branch that is not closed is the last one, because nothing
stands there that begins another one. -/
theorem elseIfs_ended {opened : Span} (hs : Behind input (some w) s) (rounds : Nat) :
    ∀ {xs s₁}, Ended input branchClosers .if_ opened s xs s₁ → input.stop < s₁.cursor + rounds →
    let read := elseIfs stmt opened rounds input s₁
    let trace := elseIfsTrace inner stmt opened rounds input s₁
    Ended input branchClosers .if_ opened s (xs ++ trace) read.2 ∧
      input.kind read.2.cursor ≠ .keyword .elseIf ∧
      Covers input trace (read.1.map ElseIf.body).flatten := by
  induction rounds with
  | zero => exact fun h hrounds => absurd h.cursor_le_stop (by omega)
  | succ rounds ih =>
    intro xs s₁ h hrounds read trace
    have hread : read =
        (if (acceptElseIf input s₁).1 then do
          let condition ← expression
          let _ ← acceptWord .then_
          let body ← block stmt branchClosers .if_ opened
          let rest ← elseIfs stmt opened rounds
          return .mk condition body :: rest
        else return [] : Parser (List ElseIf)) input (acceptElseIf input s₁).2 := rfl
    have htrace : trace = (if (acceptElseIf input s₁).1 then
          before expression fun _ => before (acceptWord .then_) fun _ =>
            blockThen inner stmt branchClosers .if_ opened (elseIfsTrace inner stmt opened rounds)
        else nothing) input (acceptElseIf input s₁).2 := rfl
    rcases acceptElseIf_cases h.cursor_le_stop with ⟨hrun, hword⟩ | ⟨s₂, hrun, hpassed, hclosed⟩
    · rw [hread, htrace, hrun]
      exact ⟨(List.append_nil xs).symm ▸ h, hword, .nil⟩
    · -- a closer of branches stands there, so that the branch before was not recorded
      obtain ⟨hu, -⟩ := acceptElseIf_calm s₁ h.cursor_le_stop
      rw [hrun] at hu
      obtain ⟨hcondition, -⟩ := expression_calm s₂ hu.cursor_le_stop
      let condition := expression input s₂
      have hthen : Unharmed input condition.2 (acceptWord .then_ input condition.2).2 :=
        (accept_calm condition.2 hcondition.cursor_le_stop).1
      have htally := (((h.tally hclosed).tail hu).tail hcondition).tail hthen
      let s₃ := (acceptWord .then_ input condition.2).2
      let body := block stmt branchClosers .if_ opened input s₃
      obtain ⟨hblock, hcovers⟩ :=
        block_ended .if_ opened branchClosers_subset hstmt (htally.behind hs)
      have hle := Nat.le_trans (hcondition.trans hthen).cursor_le hblock.cursor_le
      obtain ⟨hrest, hend, hcovers'⟩ := ih (hblock.after htally) (by omega)
      let rest := elseIfs stmt opened rounds input body.2
      have hbranch : read = (.mk condition.1 body.1 :: rest.1, rest.2) := by
        rw [hread, hrun]
        rfl
      have hlist : trace = blockTrace inner stmt input s₃ ++
          elseIfsTrace inner stmt opened rounds input body.2 := by
        rw [htrace, hrun]
        rfl
      rw [List.append_assoc] at hrest
      rw [hbranch, hlist]
      exact ⟨hrest, hend, hcovers.append hcovers'⟩

/-- `Else`, or the end of `If`, and something quiet behind it. -/
theorem elseBranch_tally {opened : Span} {f : Option (List Stmt) → Parser β}
    {B : Option (List Stmt) → β → Prop} (hf : ∀ branch, Quiet input (f branch) (B branch))
    (hopened : opened = input.spanFrom w head) (hk : input.kind w = .keyword .if_) (hw : w < head)
    (hhead : head ≤ s.cursor) (hs : Behind input (some w) s)
    (h : Ended input branchClosers .if_ opened s xs s₁)
    (hword : input.kind s₁.cursor ≠ .keyword .elseIf) :
    let last := ended .if_ w head
    let read := (do
      if ← acceptWord .else_ then
        let body ← block stmt ifClosers .if_ opened
        f (some body)
      else f none : Parser β) input s₁
    let trace := before (acceptWord .else_) (fun found =>
      if found then blockThen inner stmt ifClosers .if_ opened last else last) input s₁
    Tally input (some w) s (xs ++ trace) read.2 ∧
      ∃ (branch : Option (List Stmt)) (ys : List Extent) (x : Extent),
        trace = ys ++ [x] ∧ x.construct = .if_ ∧ x.start = w ∧
        Covers input ys (branch.getD []) ∧ B branch read.1 := by
  intro last read trace
  subst hopened
  have hread : read = (if (acceptWord .else_ input s₁).1 then
        block stmt ifClosers .if_ (input.spanFrom w head) >>= fun body => f (some body)
      else f none : Parser β) input (acceptWord .else_ input s₁).2 := rfl
  have htrace : trace = (if (acceptWord .else_ input s₁).1 then
        blockThen inner stmt ifClosers .if_ (input.spanFrom w head) last
      else last) input (acceptWord .else_ input s₁).2 := rfl
  by_cases helse : input.kind s₁.cursor = .keyword .else_
  · rw [hread, htrace, show acceptWord .else_ input s₁ = _ from accept_run_pos helse]
    have hclosed : branchClosers.any (input.closesWith s₁.cursor) = true := by
      simp [branchClosers, Input.closesWith, helse]
    obtain ⟨hmove, -⟩ := advance_calm s₁ h.cursor_le_stop
    have htally := (h.tally hclosed).tail hmove
    obtain ⟨hblock, hcovers⟩ :=
      block_ended .if_ (input.spanFrom w head) Construct.if_.closers_subset hstmt (htally.behind hs)
    have hdone := (hblock.after htally).close hk hw hhead
    obtain ⟨hu, hb⟩ := hf _ _ hblock.cursor_le_stop
    rw [List.append_assoc] at hdone
    exact ⟨hdone.tail hu, some _, _, _, rfl, rfl, rfl, hcovers, hb⟩
  · rw [hread, htrace, show acceptWord .else_ input s₁ = _ from accept_run_neg helse]
    -- without the words of another branch, what ends a branch ends `If`
    have hsame : ifClosers.any (input.closesWith s₁.cursor) =
        branchClosers.any (input.closesWith s₁.cursor) := by
      simp [ifClosers, branchClosers, Input.closesWith, helse, hword]
    have hended : Ended input Construct.if_.closers .if_ (input.spanFrom w head) s xs s₁ :=
      h.change hsame
    have hdone := hended.close hk hw hhead
    obtain ⟨hu, hb⟩ := hf none _ h.cursor_le_stop
    exact ⟨hdone.tail hu, none, [], _, rfl, rfl, rfl, .nil, hb⟩

omit hstmt in
/-- The closer of `If` is passed. -/
theorem closeIf_quiet (w : Nat) (condition : Expr) (thenBranch : List Stmt) (branches : List ElseIf)
    (elseBranch : Option (List Stmt)) :
    Quiet input (closeIf w condition thenBranch branches elseBranch) fun o =>
      ∃ j, o = some (.if_ (input.spanFrom w j) condition thenBranch branches elseBranch) := by
  refine (acceptCloser_calm _).step fun _ => .ite stmtFrom_quiet ?_
  exact (acceptCloser_calm _).step fun _ => stmtFrom_quiet

omit hstmt in
theorem blockIf_run (condition : Expr) (s : State) :
    let opened := input.spanFrom w s.cursor
    let first := block stmt branchClosers .if_ opened input s
    let others := bounded (elseIfs stmt opened) input first.2
    blockIf stmt w condition input s = (do
      if ← acceptWord .else_ then
        let body ← block stmt ifClosers .if_ opened
        closeIf w condition first.1 others.1 (some body)
      else closeIf w condition first.1 others.1 none) input others.2 := by
  intro opened first others
  unfold blockIf
  simp only [run_bind, run_spanFrom]
  by_cases hfound : (acceptWord .else_ input others.2).1 = true
  · rw [if_pos hfound, if_pos hfound]
    rfl
  · rw [if_neg hfound, if_neg hfound]
    rfl

theorem blockIf_tallies {condition : Expr} (hk : input.kind w = .keyword .if_) :
    StmtTallies input (some w) (blockIf stmt w condition) (blockIfTrace inner stmt w) := by
  intro s hs
  have hw := hs.own_lt w rfl
  let opened := input.spanFrom w s.cursor
  let first := block stmt branchClosers .if_ opened input s
  let others := bounded (elseIfs stmt opened) input first.2
  obtain ⟨hthen, hcovers⟩ := block_ended .if_ opened branchClosers_subset hstmt hs
  obtain ⟨hbranches, hword, hcovers'⟩ :=
    elseIfs_ended hstmt hs _ hthen (Input.stop_lt_add_left first.2.cursor)
  obtain ⟨htally, elseBranch, ys, x, hlist, hconstruct, hstart, helse, j, ho⟩ :=
    elseBranch_tally hstmt (closeIf_quiet w condition first.1 others.1) rfl hk hw (Nat.le_refl _) hs
      hbranches hword
  have htrace : blockIfTrace inner stmt w input s = blockTrace inner stmt input s ++
      (elseIfsTrace inner stmt opened (input.left first.2.cursor + 1) input first.2 ++
        (ys ++ [x])) :=
    congrArg (fun rest => blockTrace inner stmt input s ++ (_ ++ rest)) hlist
  rw [hlist, List.append_assoc] at htally
  have hresult : (blockIf stmt w condition input s).1 = _ :=
    (congrArg Prod.fst (blockIf_run condition s)).trans ho
  rw [htrace, hresult, blockIf_run]
  refine ⟨htally, ?_⟩
  rw [← List.append_assoc, ← List.append_assoc]
  have haround : Around input .if_ w
      (first.1 ++ (others.1.map ElseIf.body).flatten ++ elseBranch.getD []) _ :=
    ⟨_, x, rfl, hconstruct, hstart, Nat.lt_of_lt_of_le hw hs.cursor_le_stop,
      (hcovers.append hcovers').append helse⟩
  refine haround.covers ⟨.of_eq ?_, ⟨j, rfl⟩, fun c hc => ?_⟩
  · cases elseBranch <;> simp [Stmt.inner, Stmt.blocks, Stmt.routines]
  · -- without `ElseIf` the tree does not tell it from an `If` on one line
    cases hbranch : others.1 with
    | nil => rw [hbranch] at hc; cases hc
    | cons => rw [hbranch] at hc; exact (Option.some.inj hc).symm

theorem ifStmt_begins : Begins input .if_ (ifStmt stmt) (ifTrace inner stmt) := by
  refine .word fun w hw => .before expression_calm fun condition => ?_
  refine .before accept_calm fun _ => .before .of_look fun kind => ?_
  split
  · exact blockIf_tallies hstmt hw
  · exact lineIf_tallies hstmt

end BlockIf

/-! ### Lists of clauses and fields -/

/-- A fault among clauses or fields: at least one token is passed. -/
theorem resume_passes (expected : Expected) (hs : s.cursor < input.stop) :
    let s' := ((do reportExpected expected; recover; passFrom s.cursor : Parser Unit) input s).2
    Unharmed input s s' ∧ s.cursor < s'.cursor := by
  intro s'
  obtain ⟨hreport, -⟩ := reportExpected_calm expected s (Nat.le_of_lt hs)
  let reported := (reportExpected expected input s).2
  obtain ⟨hrecover, -⟩ := recover_calm reported hreport.cursor_le_stop
  have hu := hreport.trans hrecover
  let recovered := (recover input reported).2
  obtain ⟨hpass, -⟩ := passFrom_calm s.cursor recovered hu.cursor_le_stop
  obtain ⟨-, hlt⟩ :=
    @passFrom_reached .none input recovered s.cursor hs hu.cursor_le hu.cursor_le_stop
  exact ⟨hu.trans hpass, hlt⟩

/-- A list of clauses or fields ends where its construct is closed. -/
theorem Ended.closed {opened : Span} (hs : s.cursor ≤ input.stop)
    (h : construct.closers.any (input.closesWith s.cursor) = true) :
    Ended input construct.closers construct opened s [] s := by
  refine ⟨s, .of_unharmed (.refl hs), ?_, rfl, ?_⟩
  · exact Input.endsBlock_of_closed construct.closers_subset h
  · rw [ending_of_closed h, List.append_nil]

/-- A list of clauses or fields is recorded where it ends otherwise. -/
theorem Ended.reported {opened : Span} (hs : s.cursor ≤ input.stop)
    (hends : input.endsBlock s.cursor = true)
    (h : ¬ construct.closers.any (input.closesWith s.cursor) = true) :
    Ended input construct.closers construct opened s []
      { s with errors := s.errors ++ [⟨.unclosed construct, opened⟩] } := by
  refine ⟨s, .of_unharmed (.refl hs), hends, rfl, ?_⟩
  rw [ending_of_not_closed h]

/-! ### User types -/

theorem Input.endsBlock_field {i : Nat} (h : input.kind i = .keyword .field) :
    input.endsBlock i = false := by
  rw [endsBlock_word h]
  simp [Closer.all, closesWith, h]

/-- One round of the loop over fields. -/
theorem fieldLoop_succ (opened : Span) (rounds : Nat) (s : State) :
    let here := (skipSeparators input s).2
    fieldLoop opened (rounds + 1) input s =
      if input.closesWith here.cursor (.endOf .type) = true then
        ([], (acceptCloser (.endOf .type) input here).2)
      else if input.kind here.cursor = .keyword .field then
        (do
          advance
          let (found, _) ← bounded (collect fieldDecl)
          finishStatement
          let rest ← fieldLoop opened rounds
          return found ++ rest : Parser (List FieldDecl)) input here
      else if input.endsBlock here.cursor = true then
        ([], { here with errors := here.errors ++ [⟨.unclosed .type, opened⟩] })
      else (do
          reportExpected .fieldOrEnd
          recover
          passFrom here.cursor
          fieldLoop opened rounds : Parser (List FieldDecl)) input here := by
  intro here
  let fields : Parser (List FieldDecl) := do
    let (found, _) ← bounded (collect fieldDecl)
    finishStatement
    let rest ← fieldLoop opened rounds
    return found ++ rest
  let others : Parser (List FieldDecl) := do
    if (← atEnd) || (← atAnyCloser) then
      report (.unclosed .type) opened
      return []
    else do
      reportExpected .fieldOrEnd
      recover
      passFrom here.cursor
      fieldLoop opened rounds
  have hrun : fieldLoop opened (rounds + 1) input s = (do
      if ← acceptCloser (.endOf .type) then return []
      else do if ← acceptWord .field then fields else others) input here := rfl
  have hothers : others input here = (if input.endsBlock here.cursor = true then do
        report (.unclosed .type) opened
        return []
      else do
        reportExpected .fieldOrEnd
        recover
        passFrom here.cursor
        fieldLoop opened rounds : Parser (List FieldDecl)) input here := rfl
  rw [hrun, acceptCloser_bind, acceptWord_bind, hothers]
  by_cases hends : input.endsBlock here.cursor = true
  · rw [if_pos hends, if_pos hends]
    rfl
  · rw [if_neg hends, if_neg hends]

/-- The fields of a user type, and the type when they have ended. -/
theorem fieldLoop_tally (hk : input.kind w = .keyword .type) (hw : w < head) (rounds : Nat) :
    ∀ {s : State}, Behind input (some w) s → head ≤ s.cursor → input.stop < s.cursor + rounds →
    let trace := fieldLoopTrace w head rounds input s
    Tally input (some w) s trace (fieldLoop (input.spanFrom w head) rounds input s).2 ∧
      Around input .type w [] trace := by
  induction rounds with
  | zero => exact fun hs _ hrounds => absurd hs.cursor_le_stop (by omega)
  | succ rounds ih =>
    intro s hs hhead hrounds trace
    have hskip := (@skipWhile_calm input Kind.isSeparator rfl s hs.cursor_le_stop).1
    let here : State := (skipSeparators input s).2
    have hbehind : Behind input (some w) here := hs.of_unharmed hskip
    have hcursor : s.cursor ≤ here.cursor := hskip.cursor_le
    have hstop : here.cursor ≤ input.stop := hskip.cursor_le_stop
    have hhere : head ≤ here.cursor := Nat.le_trans hhead hcursor
    have hlast : Around input .type w [] [⟨.type, w, head, here.cursor⟩] :=
      ⟨[], _, rfl, rfl, rfl, by omega, .nil⟩
    have htrace : trace = if input.endsBlock here.cursor then [⟨.type, w, head, here.cursor⟩]
        else if input.kind here.cursor = .keyword .field then
          before advance (fun _ => before (bounded (collect fieldDecl)) fun _ =>
            before finishStatement fun _ => fieldLoopTrace w head rounds) input here
        else
          before (do reportExpected .fieldOrEnd; recover; passFrom here.cursor)
            (fun _ => fieldLoopTrace w head rounds) input here := rfl
    rw [htrace, fieldLoop_succ]
    by_cases hcloser : input.closesWith here.cursor (.endOf .type) = true
    · have hclosed : Construct.type.closers.any (input.closesWith here.cursor) = true := by
        simpa [Construct.closers] using hcloser
      rw [if_pos hcloser, if_pos (Input.endsBlock_of_closed Construct.type.closers_subset hclosed)]
      have hclose := acceptCloser_calm (.endOf .type) here hstop
      refine ⟨.head hskip (.tail ?_ hclose.1), hlast⟩
      exact (Ended.closed hstop hclosed).close hk hw hhere
    rw [if_neg hcloser]
    by_cases hword : input.kind here.cursor = .keyword .field
    · rw [if_pos hword, if_pos hword, Input.endsBlock_field hword, if_neg Bool.false_ne_true]
      obtain ⟨hmove, hpassed⟩ := advance_passes hstop hword
      obtain ⟨hfields, -⟩ := collect_calm fieldDecl_calm (advance input here).2 hmove.cursor_le_stop
      obtain ⟨hfinish, -⟩ := finishStatement_calm _ hfields.cursor_le_stop
      have hu := hmove.trans (hfields.trans hfinish)
      have hle := (hfields.trans hfinish).cursor_le
      obtain ⟨htally, haround⟩ := ih (hbehind.of_unharmed hu) (by omega) (by omega)
      exact ⟨.head hskip (.head hu htally), haround⟩
    rw [if_neg hword, if_neg hword]
    by_cases hends : input.endsBlock here.cursor = true
    · rw [if_pos hends, if_pos hends]
      refine ⟨.head hskip ?_, hlast⟩
      refine (Ended.reported hstop hends ?_).close hk hw hhere
      simpa [Construct.closers] using hcloser
    · rw [if_neg hends, if_neg hends]
      have hlt := Input.lt_stop hstop (Input.kind_of_endsBlock (Bool.eq_false_iff.mpr hends))
      obtain ⟨hu, hpassed⟩ := resume_passes .fieldOrEnd hlt
      obtain ⟨htally, haround⟩ := ih (hbehind.of_unharmed hu) (by omega) (by omega)
      exact ⟨.head hskip (.head hu htally), haround⟩

theorem typeStmt_begins : Begins input .type typeStmt typeTrace := by
  refine .word fun w hw => .beforeSome (expect_calm (by decide) _) none_tallies fun token => ?_
  intro s hs
  let opened := input.spanFrom w s.cursor
  let last : List FieldDecl → Parser (Option Stmt) := fun fields => do
    defineGlobal (.userType token.text (fields.map FieldDecl.name))
    stmtFrom w (.type · token.text fields)
  have hlast : ∀ fields, Quiet input (last fields) fun o => ∃ made, o = some made ∧
      Made input .type w [] made := fun fields =>
    (defineGlobal_calm _).step fun _ => stmtFrom_made fun j =>
      ⟨.refl _, ⟨j, rfl⟩, fun _ hc => (Option.some.inj hc).symm⟩
  have hfields : ∀ s', Unharmed input s s' →
      let trace := fieldLoopTrace w s.cursor (input.left s'.cursor + 1) input s'
      let read := (bounded (fieldLoop opened) >>= last) input s'
      Tally input (some w) s trace read.2 ∧ Covers input trace read.1.toList := by
    intro s' hu trace read
    obtain ⟨htally, haround⟩ := fieldLoop_tally hw (hs.own_lt w rfl) _ (hs.of_unharmed hu)
      hu.cursor_le (Input.stop_lt_add_left s'.cursor)
    obtain ⟨hend, made, ho, hmade⟩ := hlast (bounded (fieldLoop opened) input s').1 _
      htally.cursor_le_stop
    have hresult : read.1 = some made := ho
    rw [hresult]
    exact ⟨.head hu (htally.tail hend), haround.covers hmade⟩
  -- a type in a block is recorded, and read all the same
  let nested := report .typeInBlock opened
  let rest := bounded (fieldLoop opened) >>= last
  let next : Trace :=
    fun input s' => fieldLoopTrace w s.cursor (input.left s'.cursor + 1) input s'
  show Tally input (some w) s
      (before (if 0 < s.depth then nested else pure ()) (fun _ => next) input s)
      ((if 0 < s.depth then nested >>= fun _ => rest else rest) input s).2 ∧
    Covers input
      (before (if 0 < s.depth then nested else pure ()) (fun _ => next) input s)
      ((if 0 < s.depth then nested >>= fun _ => rest else rest) input s).1.toList
  split
  · exact hfields _ (report_calm rfl _ s hs.cursor_le_stop).1
  · exact hfields s (.refl hs.cursor_le_stop)

/-! ### `Select` -/

/-- What the loop over clauses gives. -/
abbrev Clauses := List CaseClause × Option (List Stmt)

/-- The statements in the clauses. -/
def Clauses.stmts (found : Clauses) : List Stmt :=
  (found.1.map CaseClause.body).flatten ++ found.2.getD []

theorem Clauses.stmts_cons (values : List Expr) (body : List Stmt) (span : Span) (rest : Clauses) :
    Clauses.stmts (.mk values body span :: rest.1, rest.2) = body ++ rest.stmts :=
  List.append_assoc ..

/-- A later `Default` takes the place of one before it. -/
theorem Covers.default {body : List Stmt} {rest : Clauses}
    (h : Covers input xs (body ++ rest.stmts)) :
    Covers input xs (Clauses.stmts (rest.1, rest.2.or (some body))) := by
  obtain ⟨cases, default⟩ := rest
  cases default with
  | some other => exact h.of_append_right
  | none =>
    unfold Clauses.stmts at h
    rw [Option.getD_none, List.append_nil] at h
    exact h.perm List.perm_append_comm

theorem caseClosers_subset : caseClosers ⊆ Closer.all := by
  decide

section Select

variable (stmt) in
/-- A clause behind `Case`, and those after it. -/
def caseThen (opened : Span) (start : Nat) (next : Parser Clauses) : Parser Clauses := do
  let values ← bounded (separated expression)
  let body ← block stmt caseClosers .select opened
  let clause := CaseClause.mk values body (← spanFrom start)
  let rest ← next
  return (clause :: rest.1, rest.2)

variable (stmt) in
/-- What is behind `Default`, and the clauses after it. -/
def defaultThen (opened : Span) (next : Parser Clauses) : Parser Clauses := do
  let body ← block stmt caseClosers .select opened
  let rest ← next
  return (rest.1, rest.2.or (some body))

theorem caseThen_run (opened : Span) (start : Nat) (next : Parser Clauses) (s : State) :
    let values := bounded (separated expression) input s
    let body := block stmt caseClosers .select opened input values.2
    let rest := next input body.2
    let clause := CaseClause.mk values.1 body.1 (input.spanFrom start body.2.cursor)
    caseThen stmt opened start next input s = ((clause :: rest.1.1, rest.1.2), rest.2) := by
  rfl

theorem defaultThen_run (opened : Span) (next : Parser Clauses) (s : State) :
    let body := block stmt caseClosers .select opened input s
    let rest := next input body.2
    defaultThen stmt opened next input s = ((rest.1.1, rest.1.2.or (some body.1)), rest.2) := by
  rfl

theorem secondDefault_calm (seen : Bool) (start : Nat) :
    Calm input (do if seen then report .secondDefault (← spanFrom start)) :=
  .ite (.look fun span => report_calm rfl span) (.pure trivial)

theorem secondDefault_bind (seen : Bool) (start : Nat) (p : Parser β) (s : State) :
    (do
      if seen then report .secondDefault (← spanFrom start)
      p : Parser β) input s =
        p input
          ((do if seen then report .secondDefault (← spanFrom start) : Parser Unit) input s).2 := by
  cases seen <;> rfl

/-- One round of the loop over clauses. -/
theorem selectLoop_succ (opened : Span) (rounds : Nat) (seen : Bool) (s : State) :
    let here := (skipSeparators input s).2
    selectLoop stmt opened (rounds + 1) seen input s =
      if input.closesWith here.cursor (.endOf .select) = true then
        (([], none), (acceptCloser (.endOf .select) input here).2)
      else if input.kind here.cursor = .keyword .case then
        (do
          advance
          caseThen stmt opened here.cursor (selectLoop stmt opened rounds seen)) input here
      else if input.kind here.cursor = .keyword .default then
        (do
          advance
          if seen then report .secondDefault (← spanFrom here.cursor)
          defaultThen stmt opened (selectLoop stmt opened rounds true)) input here
      else if input.endsBlock here.cursor = true then
        (([], none), if reportedUnclosed here.errors opened then here
          else { here with errors := here.errors ++ [⟨.unclosed .select, opened⟩] })
      else
        (do
          reportExpected .caseOrDefault
          recover
          passFrom here.cursor
          selectLoop stmt opened rounds seen) input here := by
  intro here
  let clause := caseThen stmt opened here.cursor (selectLoop stmt opened rounds seen)
  let default : Parser Clauses := do
    if seen then report .secondDefault (← spanFrom here.cursor)
    defaultThen stmt opened (selectLoop stmt opened rounds true)
  let last : Parser Clauses := do
    unless reportedUnclosed (← get).errors opened do
      report (.unclosed .select) opened
    return ([], none)
  let resumed : Parser Clauses := do
    reportExpected .caseOrDefault
    recover
    passFrom here.cursor
    selectLoop stmt opened rounds seen
  let others : Parser Clauses := do
    if (← atEnd) || (← atAnyCloser) then last else resumed
  let words : Parser Clauses := do
    if ← acceptWord .default then default else others
  have hrun : selectLoop stmt opened (rounds + 1) seen input s = (do
      if ← acceptCloser (.endOf .select) then return ([], none)
      else do if ← acceptWord .case then clause else words : Parser Clauses) input here := rfl
  have hwords : words input here = _ := acceptWord_bind .default default others here
  have hothers : others input here =
      (if input.endsBlock here.cursor = true then last else resumed) input here := rfl
  have hlast : last input here = (if reportedUnclosed here.errors opened then return ([], none)
      else do
        report (.unclosed .select) opened
        return ([], none) : Parser Clauses) input here := rfl
  rw [hrun, acceptCloser_bind, acceptWord_bind, hwords, hothers]
  by_cases hends : input.endsBlock here.cursor = true
  · rw [if_pos hends, if_pos hends, hlast]
    by_cases hreported : reportedUnclosed here.errors opened = true
    · rw [if_pos hreported, if_pos hreported]
      rfl
    · rw [if_neg hreported, if_neg hreported]
      rfl
  · rw [if_neg hends, if_neg hends]

/-- Tokens that begin at the same place are one. -/
theorem Input.Ordered.eq_of_start (h : input.Ordered) {i j : Nat} {a b : Token}
    (hi : i < input.stop) (hj : j < input.stop) (ha : input.tokens[i]? = some a)
    (hb : input.tokens[j]? = some b) (heq : a.span.start = b.span.start) : i = j := by
  have ha' := h.wide hi ha
  have hb' := h.wide hj hb
  rcases Nat.lt_trichotomy i j with hij | hij | hij
  · have := h.apart hij ha hb
    omega
  · exact hij
  · have := h.apart hij hb ha
    omega

/-- A construct that was not recorded is not taken for one that was. -/
theorem reportedUnclosed_of_behind (hinput : input.Ordered) (hs : Behind input (some w) s) :
    reportedUnclosed s.errors (input.spanFrom w head) = false := by
  unfold reportedUnclosed
  split
  · next c span hlast =>
    refine decide_eq_false fun hspan => ?_
    have hmem : ⟨.unclosed c, span⟩ ∈ unclosed s.errors :=
      List.mem_filter.mpr ⟨List.mem_of_getLast? hlast, rfl⟩
    obtain ⟨j, hj, hne, t, ht, hstart⟩ := hs.errors _ hmem
    have hw := Nat.lt_of_lt_of_le (hs.own_lt w rfl) hs.cursor_le_stop
    obtain ⟨t', ht', -⟩ := Input.token_of_lt hw
    have hj' := Nat.lt_of_lt_of_le hj hs.cursor_le_stop
    refine hne (congrArg some (hinput.eq_of_start hw hj' ht' ht ?_))
    rw [← hstart, ← Input.start_spanFrom ht', ← hspan]
  · rfl

theorem reportedUnclosed_append (errors : List ParseError) (opened : Span) :
    reportedUnclosed (errors ++ [⟨.unclosed construct, opened⟩]) opened = true := by
  unfold reportedUnclosed
  rw [List.getLast?_concat]
  exact decide_eq_true rfl

theorem Input.isSeparator_of_endsBlock {i : Nat} (h : input.endsBlock i = true) :
    (input.kind i).isSeparator = false := by
  cases hk : input.kind i with
  | newline | colon => simp [endsBlock, closesAny, Closer.all, closesWith, hk] at h
  | _ => rfl

/-- When a clause was recorded, no other one begins and nothing more is recorded. -/
theorem selectLoop_stops {opened : Span} (rounds : Nat) (seen : Bool)
    (hends : input.endsBlock s.cursor = true)
    (hclosers : ¬ caseClosers.any (input.closesWith s.cursor) = true)
    (hreported : reportedUnclosed s.errors opened = true) :
    selectLoop stmt opened (rounds + 1) seen input s = (([], none), s) ∧
      selectLoopTrace inner stmt w head (rounds + 1) seen input s =
        [⟨.select, w, head, s.cursor⟩] := by
  have hskip : (skipSeparators input s).2 = s := by
    show { s with cursor := input.skipWhile Kind.isSeparator s.cursor } = s
    rw [Input.skipWhile_self (Input.isSeparator_of_endsBlock hends)]
  have hnone : ¬ input.closesWith s.cursor (.endOf .select) = true ∧
      ¬ input.kind s.cursor = .keyword .case ∧ ¬ input.kind s.cursor = .keyword .default := by
    simpa [caseClosers, Input.closesWith] using hclosers
  obtain ⟨hend, hcase, hdefault⟩ := hnone
  constructor
  · rw [selectLoop_succ]
    rw [hskip, if_neg hend, if_neg hcase, if_neg hdefault, if_pos hends, if_pos hreported]
  · rw [selectLoopTrace]
    show (if input.kind (skipSeparators input s).2.cursor = .keyword .case then _ else _) = _
    rw [hskip, if_neg hcase, if_neg hdefault, if_pos hends]
    rfl

/-- The loop over clauses records the constructs in them that are not closed, and then `Select`. -/
def LoopTallies (input : Input) (w head : Nat) (stmt : Parser (Option Stmt)) (inner : Trace)
    (rounds : Nat) : Prop :=
  ∀ (seen : Bool) {s : State}, Behind input (some w) s → head ≤ s.cursor →
    input.stop < s.cursor + rounds →
    let read := selectLoop stmt (input.spanFrom w head) rounds seen input s
    let trace := selectLoopTrace inner stmt w head rounds seen input s
    Tally input (some w) s trace read.2 ∧ Around input .select w (Clauses.stmts read.1) trace

variable (hstmt : StmtTallies input none stmt inner)
include hstmt

/-- The statements of a clause, and the clauses after it. -/
theorem clause_tally {rounds : Nat} (ih : LoopTallies input w head stmt inner rounds)
    (seen : Bool) (hk : input.kind w = .keyword .select) (hw : w < head)
    (hs : Behind input (some w) s) (hhead : head ≤ s.cursor)
    (hrounds : input.stop < s.cursor + rounds) :
    let opened := input.spanFrom w head
    let body := block stmt caseClosers .select opened input s
    let rest := selectLoop stmt opened rounds seen input body.2
    let trace := blockThen inner stmt caseClosers .select opened
      (selectLoopTrace inner stmt w head rounds seen) input s
    Tally input (some w) s trace rest.2 ∧
      Around input .select w (body.1 ++ Clauses.stmts rest.1) trace := by
  intro opened body rest trace
  obtain ⟨hblock, hcovers⟩ := block_ended .select opened caseClosers_subset hstmt hs
  have hle := hblock.cursor_le
  have hstop := hblock.cursor_le_stop
  by_cases hclosed : caseClosers.any (input.closesWith body.2.cursor) = true
  · -- another clause or the end of `Select` follows
    have htally := hblock.tally hclosed
    obtain ⟨hrest, ys, x, htrace, hconstruct, hstart, hlt, hcovers'⟩ :=
      ih seen (htally.behind hs) (Nat.le_trans hhead hle) (by omega)
    refine ⟨htally.append hrest hs.own_lt, blockTrace inner stmt input s ++ ys, x, ?_, hconstruct,
      hstart, hlt, hcovers.append hcovers'⟩
    rw [List.append_assoc, ← htrace]
    rfl
  · -- the clause was recorded, and `Select` ends with it
    obtain ⟨rounds, rfl⟩ : ∃ n, rounds = n + 1 := Nat.exists_eq_succ_of_ne_zero (by omega)
    have hreported : reportedUnclosed body.2.errors opened = true := by
      obtain ⟨here, -, -, hcursor, herrors⟩ := hblock
      rw [hcursor] at hclosed
      rw [herrors, ending_of_not_closed hclosed]
      exact reportedUnclosed_append _ _
    obtain ⟨hread, htrace⟩ := selectLoop_stops rounds seen hblock.endsBlock hclosed hreported
    have hrest : rest = (([], none), body.2) := hread
    have hlist : trace = blockTrace inner stmt input s ++ [⟨.select, w, head, body.2.cursor⟩] :=
      congrArg (blockTrace inner stmt input s ++ ·) htrace
    have hother : ¬ Construct.select.closers.any (input.closesWith body.2.cursor) = true :=
      fun h => hclosed (by simp_all [caseClosers, Construct.closers])
    have hended : Ended input Construct.select.closers .select opened s _ body.2 :=
      hblock.change (by rw [Bool.eq_false_iff.mpr hclosed, Bool.eq_false_iff.mpr hother])
    rw [hrest, hlist]
    refine ⟨hended.close hk hw hhead, _, _, rfl, rfl, rfl, by have := hs.own_lt w rfl; omega, ?_⟩
    exact (List.append_nil body.1).symm ▸ hcovers

/-- The clauses of `Select`.  Each round passes a token. -/
theorem selectLoop_tallies (hinput : input.Ordered) (hk : input.kind w = .keyword .select)
    (hw : w < head) (rounds : Nat) : LoopTallies input w head stmt inner rounds := by
  induction rounds with
  | zero => exact fun _ _ hs _ hrounds => absurd hs.cursor_le_stop (by omega)
  | succ rounds ih =>
    intro seen s hs hhead hrounds read trace
    let opened := input.spanFrom w head
    have hskip := (@skipWhile_calm input Kind.isSeparator rfl s hs.cursor_le_stop).1
    let here : State := (skipSeparators input s).2
    have hbehind : Behind input (some w) here := hs.of_unharmed hskip
    have hcursor : s.cursor ≤ here.cursor := hskip.cursor_le
    have hstop : here.cursor ≤ input.stop := hskip.cursor_le_stop
    have hhere : head ≤ here.cursor := Nat.le_trans hhead hcursor
    have hlast : Around input .select w [] [⟨.select, w, head, here.cursor⟩] :=
      ⟨[], _, rfl, rfl, rfl, by omega, .nil⟩
    let second : Parser Unit := do if seen then report .secondDefault (← spanFrom here.cursor)
    have htrace : trace = if input.kind here.cursor = .keyword .case then
          before advance (fun _ => before (bounded (separated expression)) fun _ =>
            blockThen inner stmt caseClosers .select opened
              (selectLoopTrace inner stmt w head rounds seen)) input here
        else if input.kind here.cursor = .keyword .default then
          before advance (fun _ => before second fun _ =>
            blockThen inner stmt caseClosers .select opened
              (selectLoopTrace inner stmt w head rounds true)) input here
        else if input.endsBlock here.cursor then [⟨.select, w, head, here.cursor⟩]
        else
          before (do reportExpected .caseOrDefault; recover; passFrom here.cursor)
            (fun _ => selectLoopTrace inner stmt w head rounds seen) input here := rfl
    have hread : read = _ := selectLoop_succ opened rounds seen s
    rw [hread, htrace]
    -- the trace asks for the words first; `End` is neither of them
    by_cases hcloser : input.closesWith here.cursor (.endOf .select) = true
    · have hword : input.kind here.cursor = .keyword .end_ := by
        simp only [Input.closesWith, Bool.and_eq_true, decide_eq_true_eq] at hcloser
        exact hcloser.1
      have hclosed : Construct.select.closers.any (input.closesWith here.cursor) = true := by
        simpa [Construct.closers] using hcloser
      rw [if_pos hcloser, if_neg (by rw [hword]; simp), if_neg (by rw [hword]; simp),
        if_pos (Input.endsBlock_of_closed Construct.select.closers_subset hclosed)]
      have hclose := acceptCloser_calm (.endOf .select) here hstop
      refine ⟨.head hskip (.tail ?_ hclose.1), hlast⟩
      exact (Ended.closed hstop hclosed).close hk hw hhere
    rw [if_neg hcloser]
    by_cases hcase : input.kind here.cursor = .keyword .case
    · rw [if_pos hcase, if_pos hcase]
      obtain ⟨hmove, hpassed⟩ := advance_passes hstop hcase
      obtain ⟨hvalues, -⟩ := expressions_calm (advance input here).2 hmove.cursor_le_stop
      have hu := hmove.trans hvalues
      have hle := hvalues.cursor_le
      obtain ⟨htally, haround⟩ := clause_tally hstmt ih seen hk hw (hbehind.of_unharmed hu)
        (by omega) (by omega)
      have hrun : (do
          advance
          caseThen stmt opened here.cursor (selectLoop stmt opened rounds seen)) input here = _ :=
        (run_bind ..).trans (caseThen_run ..)
      rw [hrun]
      refine ⟨.head hskip (.head hu htally), haround.imp fun ys hcovers => ?_⟩
      rw [Clauses.stmts_cons]
      exact hcovers
    rw [if_neg hcase, if_neg hcase]
    by_cases hdefault : input.kind here.cursor = .keyword .default
    · rw [if_pos hdefault, if_pos hdefault]
      obtain ⟨hmove, hpassed⟩ := advance_passes hstop hdefault
      obtain ⟨hreport, -⟩ := secondDefault_calm seen here.cursor _ hmove.cursor_le_stop
      have hu := hmove.trans hreport
      have hle := hreport.cursor_le
      obtain ⟨htally, haround⟩ := clause_tally hstmt ih true hk hw (hbehind.of_unharmed hu)
        (by omega) (by omega)
      have hrun : (do
          advance
          if seen then report .secondDefault (← spanFrom here.cursor)
          defaultThen stmt opened (selectLoop stmt opened rounds true)) input here = _ :=
        (run_bind ..).trans (secondDefault_bind ..)
      rw [hrun, defaultThen_run]
      exact ⟨.head hskip (.head hu htally), haround.imp fun ys => .default⟩
    rw [if_neg hdefault, if_neg hdefault]
    by_cases hends : input.endsBlock here.cursor = true
    · -- no clause has ended here, so that the last error is about another construct
      have hnew : ¬ reportedUnclosed here.errors opened = true := by
        rw [reportedUnclosed_of_behind hinput hbehind]
        exact Bool.false_ne_true
      rw [if_pos hends, if_pos hends, if_neg hnew]
      refine ⟨.head hskip ?_, hlast⟩
      refine (Ended.reported hstop hends ?_).close hk hw hhere
      simpa [Construct.closers] using hcloser
    · rw [if_neg hends, if_neg hends]
      have hlt := Input.lt_stop hstop (Input.kind_of_endsBlock (Bool.eq_false_iff.mpr hends))
      obtain ⟨hu, hpassed⟩ := resume_passes .caseOrDefault hlt
      obtain ⟨htally, haround⟩ := ih seen (hbehind.of_unharmed hu) (by omega) (by omega)
      exact ⟨.head hskip (.head hu htally), haround⟩

/-- The clauses of `Select`, from the first one on. -/
theorem clauses_tallies (hinput : input.Ordered) (hk : input.kind w = .keyword .select) :
    Tallies input (some w) (do
      let opened ← spanFrom w
      bounded fun rounds => selectLoop stmt opened rounds false)
      (fun input s =>
        selectLoopTrace inner stmt w s.cursor (input.left s.cursor + 1) false input s)
      fun found => Around input .select w (Clauses.stmts found) :=
  fun s hs => selectLoop_tallies hstmt hinput hk (hs.own_lt w rfl) _ false hs (Nat.le_refl _)
    (Input.stop_lt_add_left s.cursor)

theorem selectStmt_begins (hinput : input.Ordered) :
    Begins input .select (selectStmt stmt) (selectTrace inner stmt) := by
  refine .word fun w hw => .before expression_calm fun subject => ?_
  have hmade : ∀ found : Clauses,
      Quiet input (stmtFrom w (.select · subject found.1 found.2)) fun o =>
        ∃ made, o = some made ∧ Made input .select w found.stmts made := by
    intro found
    refine stmtFrom_made fun j => ⟨.of_eq ?_, ⟨j, rfl⟩, fun _ hc => (Option.some.inj hc).symm⟩
    cases hdefault : found.2 <;>
      simp [Stmt.inner, Stmt.blocks, Stmt.routines, Clauses.stmts, hdefault]
  refine (clauses_tallies hstmt hinput hw).after hmade ?_
  rintro found _ xs haround ⟨made, rfl, hmade⟩
  exact haround.covers hmade

end Select

/-! ### Statements -/

theorem wordStmt_begins (hinput : input.Ordered) (hstmt : StmtTallies input none stmt inner)
    (token : Token) {word : Keyword} (hword : opensBlocks word = true) :
    Begins input word (wordStmt stmt token word) (wordTrace inner stmt word) := by
  cases word with
  | if_ => exact ifStmt_begins hstmt
  | while_ => exact whileStmt_begins hstmt
  | repeat_ => exact repeatStmt_begins hstmt
  | for_ => exact forStmt_begins hstmt
  | select => exact selectStmt_begins hstmt hinput
  | function => exact functionStmt_begins hstmt
  | type => exact typeStmt_begins
  | _ => cases hword

theorem kindTrace_of_opensNone {kind : Kind} (h : opensNone kind = true) :
    kindTrace inner stmt kind = nothing := by
  cases kind with
  | keyword word => cases word <;> first | rfl | cases h
  | _ => rfl

theorem statementWith_tallies (hinput : input.Ordered)
    (hstmt : StmtTallies input none stmt inner) :
    StmtTallies input none (statementWith stmt) (before kind (kindTrace inner stmt)) := by
  intro s hs
  show Tally input none s (kindTrace inner stmt (input.kind s.cursor) input s)
      (statementWith stmt input s).2 ∧
    Covers input (kindTrace inner stmt (input.kind s.cursor) input s)
      (statementWith stmt input s).1.toList
  by_cases hopens : opensNone (input.kind s.cursor) = true
  · obtain ⟨hu, hsimple⟩ : Unharmed input s (statementWith stmt input s).2 ∧ Simple _ :=
      statementWith_quiet hopens hs.cursor_le_stop
    rw [kindTrace_of_opensNone hopens]
    exact ⟨.of_unharmed hu, .of_simple hsimple⟩
  · obtain ⟨word, hk, hword⟩ := word_of_opens hopens
    have heof : input.kind s.cursor ≠ .eof := by rw [hk]; nofun
    obtain ⟨token, htoken, hkt⟩ := Input.token_of_kind heof
    rw [(statementWith_run htoken).2.2 word (hkt.trans hk), hk]
    exact wordStmt_begins hinput hstmt token hword s hs hk

theorem statementAt_tallies (hinput : input.Ordered) (nesting : Nat) :
    StmtTallies input none (statementAt nesting) (statementTraceAt nesting) := by
  induction nesting with
  | zero => exact .of_quiet (exhaust_calm.step fun _ => .pure simple_none) fun _ => .of_simple
  | succ nesting ih => exact statementWith_tallies hinput ih

theorem statement_tallies (hinput : input.Ordered) :
    StmtTallies input none statement statementTrace :=
  fun s hs => statementAt_tallies hinput _ s hs

/-! ### Programs -/

/-- Reading a program records the constructs that are not closed. -/
theorem readAll_tally (hinput : input.Ordered) :
    Tally input none (.initial input) (constructsOf input) (readAll input).2 ∧
      Covers input (constructsOf input) (readAll input).1 := by
  have hinitial : Behind input none (.initial input) :=
    ⟨nofun, Nat.zero_le _, List.forall_mem_nil _⟩
  have hrounds : Rounds input (programLoop statement) skipSeparators
      (fun input i => decide (input.kind i = .eof)) (round finishOrRecover statement) id := by
    intro rounds s
    rw [programLoop_succ]
    simp only [decide_eq_true_eq]
    rfl
  obtain ⟨here, htally, -, hstate, hcovers⟩ := rounds_tally hrounds (skipWhile_calm rfl)
    (fun i hi => of_decide_eq_false hi) (statement_tallies hinput) finishOrRecover_calm
    (input.left 0 + 1) hinitial (Input.stop_lt_add_left 0)
  exact ⟨htally.congr (congrArg State.cursor hstate) (congrArg State.errors hstate), hcovers⟩

/-- Constructs that begin at different tokens begin at different places. -/
theorem nodup_openings (hinput : input.Ordered) (hsound : ∀ x ∈ xs, x.Sound input)
    (hstarts : (xs.map Extent.start).Nodup) :
    (xs.map fun x => (x.opened input).start).Nodup := by
  have hlt : ∀ x ∈ xs, x.start < input.stop := by
    intro x hx
    have h := hsound x hx
    exact Nat.lt_of_lt_of_le h.start_lt (Nat.le_trans h.head_le h.stop_le)
  refine List.pairwise_map.mpr ((List.pairwise_map.mp hstarts).imp_of_mem ?_)
  intro x y hx hy hne hxy
  obtain ⟨a, ha, -⟩ := Input.token_of_lt (hlt x hx)
  obtain ⟨b, hb, -⟩ := Input.token_of_lt (hlt y hy)
  refine hne (hinput.eq_of_start (hlt x hx) (hlt y hy) ha hb ?_)
  rw [← Input.start_spanFrom ha, ← Input.start_spanFrom hb]
  exact hxy

end Parser

/-- The errors that say that a block is not closed are those of the constructs whose last block did
not end at a closer of their own: one error for each, at the place of its head, in the order in
which they end, and none for a construct that is closed.  A construct begins with its word and ends
where a closer stands or the input ends, different ones begin at different places, and all
constructs in the program, at any depth, are among them. -/
theorem Program.unclosed_errors (commands table : CommandTable) (source : String) :
    let parsed := Program.parse table (tokens commands source)
    let input := Parser.Input.ofTokens table (tokens commands source)
    let constructs := Parser.constructsOf input
    parsed.errors.filter (fun e => e.fault.isUnclosed) =
      (constructs.filter fun x => !x.isClosed input).map (Extent.error input) ∧
    (∀ x ∈ constructs, x.Sound input) ∧
    (constructs.map fun x => (x.opened input).start).Nodup ∧
    Parser.Covers input constructs parsed.program.stmts := by
  intro parsed input constructs
  have hinput : input.Ordered := Parser.Input.ordered_ofTokens
  obtain ⟨htally, hcovers⟩ := Parser.readAll_tally hinput
  have hnodup := Parser.nodup_openings hinput htally.sound htally.nodup
  exact ⟨htally.errors, htally.sound, hnodup, hcovers⟩

end FrameBasic
