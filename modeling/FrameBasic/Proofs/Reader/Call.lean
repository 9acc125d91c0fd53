import FrameBasic.Proofs.Reader.Line

/-!
# Calls and assignments

A name with a list in parentheses behind it begins a call or an assignment to an element.  Which of
them it is depends on what the name stands for and on the token behind the list.

## Main results

* `Parser.statement_run` — the first token of a statement tells how it is read.
* `Parser.nameStmt_open` — a call or an assignment.
* `Parser.target_open` — the element that an assignment begins with.
* `Parser.assignment_eq`, `Parser.assignment_isSome` — an assignment is its target, an equals sign
  and its value.
-/

namespace FrameBasic.Parser

variable {input : Input} {s : State} {name : Token}

/-- The token that a statement begins with tells how it is read. -/
theorem statement_run {t : Token} (ht : input.tokens[s.cursor]? = some t) :
    (t.kind = .identifier → statement input s = nameStmt input s) ∧
      (t.kind = .command → statement input s = commandStmt input s) ∧
      ∀ word, t.kind = .keyword word →
        ∃ stmt, statement input s = wordStmt stmt t word input s := by
  have hrun : statement input s = statementWith (statementAt (input.left s.cursor)) input s := rfl
  obtain ⟨hname, hcommand, hword⟩ := statementWith_run ht
  exact ⟨hname, hcommand, fun word hk => ⟨_, hword word hk⟩⟩

/-- The text of the token at an index. -/
def Input.textAt (input : Input) (i : Nat) : String :=
  (input.tokens[i]?.map Token.text).getD ""

/-- What a name with a parenthesis behind it begins. -/
theorem nameStmt_open (hopen : input.kind (s.cursor + 1) = .leftParen) :
    nameStmt input s =
      if (!s.scopes.isArray (input.textAt s.cursor) && !(assignsAfterParens input s).1) = true then
        callStmt s.cursor (input.textAt s.cursor) input s
      else assignment input s := by
  have hcursor : Parser.cursor input s = (s.cursor, s) := rfl
  have hpeek : peek? input s = (input.tokens[s.cursor]?, s) := rfl
  have hahead : kindAhead 1 input s = (.leftParen, s) := congrArg (·, s) hopen
  have hget : (get : Parser State) input s = (s, s) := rfl
  have hassigns : assignsAfterParens input s = ((assignsAfterParens input s).1, s) := by
    rw [assignsAfterParens_eq]
  have hnext : Kind.leftParen ∈ [Kind.equals, .label, .backslash, .leftParen] := by decide
  unfold nameStmt Input.textAt
  rw [run_look hcursor, run_look hpeek, run_look hahead, run_look hget, decide_eq_true rfl,
    Bool.true_and]
  generalize (input.tokens[s.cursor]?.map Token.text).getD "" = name
  cases s.scopes.isArray name with
  | true => rfl
  | false =>
    rw [Bool.not_false, if_pos rfl, run_look hassigns]
    cases (assignsAfterParens input s).1 with
    | true => rfl
    | false => rfl

/-- A call is made of its arguments. -/
theorem callStmt_run (text : String) (start : Nat) (hk : input.kind s.cursor ≠ .eof) :
    let found := statementArgs input { s with cursor := s.cursor + 1 }
    ∃ span info, callStmt start text input s =
      (some (.expr span (.call info text found.1)), found.2) := by
  have hadvance : (advance input s).2 = { s with cursor := s.cursor + 1 } := by
    show { s with cursor := input.after s.cursor } = _
    rw [Input.after, if_neg hk]
  intro found
  unfold callStmt
  rw [run_bind, hadvance, run_bind]
  exact ⟨_, _, rfl⟩

/-- Whether an equals sign follows is asked at the end of the list. -/
theorem assignsAfterParens_behind (hk : input.kind s.cursor ≠ .eof) :
    (assignsAfterParens input s).1 = decide (input.kind
      (parenArgs expression input { s with cursor := s.cursor + 1 }).2.cursor = .equals) := by
  rw [assignsAfterParens_eq, Input.after, if_neg hk]

/-- The element that an assignment begins with.  It is recorded if the name is no array. -/
theorem target_open (hname : input.tokens[s.cursor]? = some name) (hkind : name.kind = .identifier)
    (hopen : input.kind (s.cursor + 1) = .leftParen) :
    let found := parenArgs expression input { s with cursor := s.cursor + 1 }
    ∃ info, target input s =
      (some <$> withFields s.cursor (.element info name.text found.1)) input
        (if found.2.scopes.isArray name.text = true then found.2
        else { found.2 with errors := found.2.errors ++
          [⟨.notArray name.text, input.spanFrom s.cursor found.2.cursor⟩] }) := by
  intro found
  let behind : State := { s with cursor := s.cursor + 1 }
  have hcursor : Parser.cursor input s = (s.cursor, s) := rfl
  have hne : input.kind s.cursor ≠ .eof := by rw [Input.kind_of_token hname, hkind]; nofun
  have htag : typeTag input behind = (none, behind) := by
    have hnone : input.tagAt? behind.cursor = none := by
      refine Option.eq_none_iff_forall_not_mem.mpr fun _ htag => ?_
      have hlabel := Input.kind_of_tagAt? htag
      rw [hopen] at hlabel
      cases hlabel
    rw [typeTag_eq, run_bind, hnone]
    rfl
  have hcheck : check .leftParen input behind = (true, behind) :=
    congrArg (·, behind) (decide_eq_true hopen)
  have hget : (get : Parser State) input found.2 = (found.2, found.2) := rfl
  unfold target
  rw [run_look hcursor, run_bind, expectName, expect_run_pos hname hkind, Input.after, if_neg hne]
  dsimp only
  rw [run_look htag]
  dsimp only
  rw [run_look hcheck, if_pos rfl, run_bind, run_look hget]
  cases found.2.scopes.isArray name.text with
  | true => exact ⟨_, rfl⟩
  | false => exact ⟨_, rfl⟩

/-- Where no field follows, an expression has none. -/
theorem withFields_run {start : Nat} {e : Expr} (hends : input.kind s.cursor ≠ .backslash) :
    withFields start e input s = (e, s) := by
  have hrun : withFields start e input s =
      fieldChain start (input.left s.cursor + 1) e input s := rfl
  rw [hrun, fieldChain, run_look (accept_run_neg hends)]
  rfl

/-- What is read behind the equals sign of an assignment. -/
def Input.valueOf (input : Input) (s : State) : Expr × State :=
  expression input { (target input s).2 with cursor := (target input s).2.cursor + 1 }

/-- An assignment is its target, an equals sign and its value. -/
theorem assignment_eq {x : Expr} (hx : (target input s).1 = some x)
    (hequals : input.kind (target input s).2.cursor = .equals) : ∃ span,
      assignment input s =
        let declared := declareTarget x (input.valueOf s).1.type input (input.valueOf s).2
        (some (.assign span declared.1 (input.valueOf s).1), declared.2) := by
  have hcursor : Parser.cursor input s = (s.cursor, s) := rfl
  have hne : input.kind (target input s).2.cursor ≠ .eof := by rw [hequals]; nofun
  obtain ⟨t, ht, hkt⟩ := Input.token_of_kind hne
  unfold assignment Input.valueOf
  rw [run_look hcursor, run_bind, hx]
  dsimp only
  rw [run_bind, expect_run_pos ht (hkt.trans hequals), Input.after, if_neg hne]
  dsimp only
  exact ⟨_, rfl⟩

theorem assignment_isSome (hsome : (assignment input s).1.isSome = true) :
    input.kind (target input s).2.cursor = .equals := by
  have hcursor : Parser.cursor input s = (s.cursor, s) := rfl
  unfold assignment at hsome
  rw [run_look hcursor, run_bind] at hsome
  refine Decidable.byContradiction fun hequals => ?_
  cases hx : (target input s).1 with
  | none =>
    rw [hx] at hsome
    cases hsome
  | some x =>
    rw [hx] at hsome
    dsimp only at hsome
    rw [run_bind, expect_run_neg hequals] at hsome
    cases hsome

end FrameBasic.Parser
