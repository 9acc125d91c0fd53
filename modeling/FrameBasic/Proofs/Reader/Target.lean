import FrameBasic.Proofs.Reader.StatementSteps

/-!
# What values are stored in

A target is a name with its type or its indices, and the fields behind it.  Where the name of the
last field is missing, an error is recorded, but the target is not given up: an `error` node stands
in its place, and the assignment or the list of `Read` goes on behind it.  There is no other way for
a target to be something that no value can be stored in.

## Main definitions

* `Program.targets` — what values are stored in.

## Main results

* `Parser.statementWith_targets` — only two readers of statements read targets.
* `Program.targets_read` — **the targets of a program are assignable but for those whose field has
  no name**, of which there are no more than errors about the form.
-/

namespace FrameBasic

/-- What the statements of a program store values in, at whatever depth. -/
def Program.targets (p : Program) : List Expr :=
  (stmtsWithin true p.stmts).flatMap Stmt.targets

/-- A statement that begins with another word than `Read` has no targets. -/
theorem Stmt.targets_eq_nil {s : Stmt} {word : Keyword} (h : s.word? = some word)
    (hne : word ≠ .read) : s.targets = [] := by
  cases s with
  | assign => cases h
  | read => exact absurd (Option.some.inj h).symm hne
  | _ => rfl

/-- The targets are among the expressions of the statements. -/
theorem targets_sublist (stmts : List Stmt) : (stmts.flatMap Stmt.targets).Sublist
    (stmts.flatMap fun s => s.ownExprs.flatMap Expr.subterms) := by
  have hall : ∀ es : List Expr, es.Sublist (es.flatMap Expr.subterms) := by
    intro es
    induction es with
    | nil => exact .slnil
    | cons e rest ih =>
      have hself : [e].Sublist e.subterms :=
        List.singleton_sublist.mpr (Expr.mem_subterms_self e)
      exact hself.append ih
  have hown : ∀ s : Stmt, s.targets.Sublist s.ownExprs := by
    intro s
    cases s with
    | assign => exact .cons_cons _ (List.nil_sublist _)
    | read => exact .refl _
    | _ => exact List.nil_sublist _
  induction stmts with
  | nil => exact .slnil
  | cons s rest ih =>
    exact ((hown s).trans (hall _)).append ih

namespace Parser

variable {input : Input} {e : Expr} {i : Nat}

theorem TargetRead.isError (h : TargetRead input e) : e.isError = !e.isAssignable := by
  cases h with
  | complete _ _ _ assignable _ => cases e <;> simp_all [Expr.isAssignable, Expr.isError]
  | broken => rfl

theorem readStmt_runs (hi : i < input.stop) :
    Runs input.anywhere i readStmt (fun o _ => TargetsRead input o) fun _ _ => True := by
  refine .word hi (readTargets_runs.known fun r j _ _ htargets => ?_)
  obtain ⟨targets, complete⟩ := r
  refine .ite (fun _ => .spanFrom (.ends ?_)) fun _ => .ends nofun
  rintro _ ⟨⟩
  exact htargets

/-- Only two readers of statements read targets. -/
theorem statementWith_targets : Meets input fun read => ∀ e ∈ read.targets, TargetRead input e := by
  intro stmt s hstop
  rw [statementWith, run_look (show peek? input s = (input.tokens[s.cursor]?, s) from rfl)]
  cases htoken : input.tokens[s.cursor]? with
  | none =>
    intro read hread
    cases hread
  | some token =>
    have hplace := Input.kind_of_token htoken
    have hlt : token.kind ≠ .eof → s.cursor < input.stop := Input.lt_stop_of_token hstop htoken
    dsimp only
    rw [hplace]
    cases hkind : token.kind with
    | identifier =>
      intro read hread _
      exact (nameStmt_runs (hlt (by simp [hkind])) s rfl hstop trivial).2.1 read hread
    | command | label =>
      rintro _ ⟨⟩ _
      exact List.forall_mem_nil _
    | keyword word =>
      intro read hread hbuilt
      by_cases hword : word = .read
      · rw [hword] at hread
        exact (readStmt_runs (hlt (by simp [hkind])) s rfl hstop trivial).2.1 read hread
      · rw [Stmt.targets_eq_nil hbuilt.word hword]
        exact List.forall_mem_nil _
    | _ =>
      intro read hread
      cases hread

end Parser

/-- **The targets of a program are assignable but for those whose field has no name.**  There are no
more of these than errors about the form, so that there are none unless the form is wrong. -/
theorem Program.targets_read (commands : CommandTable) (tokens : List Token) :
    let parsed := Program.parse commands tokens
    let targets := parsed.program.targets
    (∀ e ∈ targets, Parser.TargetRead (.ofTokens commands tokens) e) ∧
    targets.countP (fun e => !e.isAssignable) ≤
      parsed.errors.countP (fun e => !e.fault.isSemantic) ∧
    ((∀ e ∈ parsed.errors, e.fault.isSemantic = true) →
      ∀ e ∈ targets, e.isAssignable = true) := by
  intro parsed targets
  have hread : ∀ e ∈ targets, Parser.TargetRead (.ofTokens commands tokens) e := by
    have hall := Program.forall_within commands tokens Parser.statementWith_targets
    refine List.forall_mem_flatMap.mpr ?_
    rw [stmtsWithin_eq_flatMap]
    exact List.forall_mem_flatMap.mpr hall
  have hle : targets.countP (fun e => !e.isAssignable) ≤
      parsed.errors.countP (fun e => !e.fault.isSemantic) := by
    obtain ⟨new, hr, haccounts, -⟩ := Parser.readAll_reached (.ofTokens commands tokens)
    have herrors : parsed.errors = new := hr.errors
    calc targets.countP (fun e => !e.isAssignable)
      _ = targets.countP Expr.isError := List.countP_congr fun e he => by rw [(hread e he).isError]
      _ ≤ (exprsWithin true parsed.program.stmts).countP Expr.isError :=
        (targets_sublist _).countP_le
      _ ≤ parsed.errors.countP (fun e => !e.fault.isSemantic) := by
        rw [exprsWithin_eq_flatMap, herrors]
        exact haccounts.errorNodes_le
  refine ⟨hread, hle, fun hsemantic e he => ?_⟩
  have hzero : parsed.errors.countP (fun e => !e.fault.isSemantic) = 0 :=
    List.countP_eq_zero.mpr fun error herror => by simp [hsemantic error herror]
  rw [hzero, Nat.le_zero, List.countP_eq_zero] at hle
  simpa using hle e he

/-- A field of an element and a field of a variable, in a loop. -/
theorem Program.targets_read_loop :
    let tokens : List Token :=
      [⟨.keyword .dim, "Dim", .unknown⟩, ⟨.identifier, "a", .unknown⟩, ⟨.leftParen, "(", .unknown⟩,
        ⟨.integer, "3", .unknown⟩, ⟨.rightParen, ")", .unknown⟩, ⟨.newline, "", .unknown⟩,
        ⟨.keyword .while_, "While", .unknown⟩, ⟨.integer, "1", .unknown⟩, ⟨.newline, "", .unknown⟩,
        ⟨.identifier, "a", .unknown⟩, ⟨.leftParen, "(", .unknown⟩, ⟨.integer, "1", .unknown⟩,
        ⟨.rightParen, ")", .unknown⟩, ⟨.backslash, "\\", .unknown⟩, ⟨.identifier, "f", .unknown⟩,
        ⟨.equals, "=", .unknown⟩, ⟨.integer, "2", .unknown⟩, ⟨.newline, "", .unknown⟩,
        ⟨.keyword .read, "Read", .unknown⟩, ⟨.identifier, "x", .unknown⟩,
        ⟨.backslash, "\\", .unknown⟩, ⟨.identifier, "g", .unknown⟩, ⟨.newline, "", .unknown⟩,
        ⟨.keyword .wend, "Wend", .unknown⟩]
    let parsed := Program.parse .empty tokens
    parsed.errors = [] ∧ parsed.program.targets.length = 2 ∧
      (∀ e ∈ parsed.program.targets, Parser.TargetRead (.ofTokens .empty tokens) e) ∧
      ∀ e ∈ parsed.program.targets, e.isAssignable = true := by
  intro tokens parsed
  have hread : parsed.errors = [] ∧ parsed.program.targets.length = 2 := by decide +kernel
  -- nothing is computed from here on
  clear_value tokens
  obtain ⟨htargets, -, hassignable⟩ := targets_read .empty tokens
  refine ⟨hread.1, hread.2, htargets, hassignable fun e he => ?_⟩
  rw [hread.1] at he
  cases he

/-- In `x\ = 3` and in `Read x\` a value is stored in an `error` node. -/
theorem Program.nameless_field_stored :
    let equals : Token := ⟨.equals, "=", .unknown⟩
    let newline : Token := ⟨.newline, "", .unknown⟩
    let parsed := Program.parse .empty
      [⟨.identifier, "x", .unknown⟩, ⟨.backslash, "\\", .unknown⟩, equals,
        ⟨.integer, "3", .unknown⟩, newline, ⟨.keyword .read, "Read", .unknown⟩,
        ⟨.identifier, "x", .unknown⟩, ⟨.backslash, "\\", .unknown⟩, newline]
    parsed.program.targets.map Expr.isAssignable = [false, false] ∧
      parsed.program.targets.map Expr.isError = [true, true] ∧
      parsed.errors = [⟨.unexpected .fieldName equals, .unknown⟩,
        ⟨.unexpected .fieldName newline, .unknown⟩] := by
  decide +kernel

end FrameBasic
