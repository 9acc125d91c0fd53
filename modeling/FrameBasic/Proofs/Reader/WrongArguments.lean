import FrameBasic.Proofs.Reader.Program

/-!
# Which wrong arguments are reported

The arguments of a command are compared with its parameters when the command has been read.  A call
may be read more than once, because a reader that finds no assignment behind parentheses goes back
and reads them again; what it recorded is then taken back as well.  So each wrong argument of a
command that stands in the program is reported once, and if nothing else is wrong with the program
there are no other errors.

## Main definitions

* `Expr.argumentError?` — the error about one argument.
* `Expr.wrongArguments` — the errors about the arguments of the commands in expressions.

## Main results

* `Expr.argumentErrors_command` — the errors about one command, position by position.
* `Parser.Accounts.exists_perm` — the errors of a reader are those about the arguments in what was
  read, and others.
* `Program.errors_perm_wrong_arguments` — **each wrong argument is reported exactly once**.
-/

namespace FrameBasic

namespace Expr

/-- The errors about the arguments of the commands in expressions, in them or below. -/
def wrongArguments (commands : CommandTable) (es : List Expr) : List ParseError :=
  (es.flatMap subterms).flatMap (argumentErrors commands)

variable {commands : CommandTable}

@[simp] theorem wrongArguments_append (as bs : List Expr) : wrongArguments commands (as ++ bs) =
    wrongArguments commands as ++ wrongArguments commands bs := by
  simp [wrongArguments]

theorem wrongArguments_singleton (e : Expr) : wrongArguments commands [e] =
    e.argumentErrors commands ++ wrongArguments commands e.parts := by
  simp only [wrongArguments, List.flatMap_singleton]
  rw [subterms_eq, List.flatMap_cons]

/-- The error about an argument in a position, if it does not fit its parameter. -/
def argumentError? (name : String) (position : Nat) (expected : ValueType) (arg : Expr) :
    Option ParseError :=
  if expected.accepts arg.type then none
  else some ⟨.argument name position expected arg.type, arg.span⟩

/-- Every position with a parameter and an argument is compared, and gives one error if the argument
does not fit. -/
theorem argumentErrors_command (info : Info) (name : String) (args : List Expr) :
    (command info name args).argumentErrors commands =
      (commands.get? name).elim [] fun d =>
        ((d.params.zip args).zipIdx 1).filterMap fun entry =>
          argumentError? name entry.2 entry.1.1 entry.1.2 := by
  have hfrom : ∀ (params : List ValueType) (position : Nat) (args : List Expr),
      ((mismatchesFrom position params args).map fun m =>
        (⟨.argument name m.position m.expected m.found, m.span⟩ : ParseError)) =
      ((params.zip args).zipIdx position).filterMap fun entry =>
        argumentError? name entry.2 entry.1.1 entry.1.2 := by
    intro params
    induction params with
    | nil => exact fun _ _ => rfl
    | cons expected params ih =>
      intro position args
      cases args with
      | nil => rfl
      | cons arg args =>
        rw [mismatchesFrom, List.zip_cons_cons, List.zipIdx_cons, List.filterMap_cons,
          List.map_append, ih, argumentError?]
        split <;> rfl
  rw [argumentErrors]
  cases commands.get? name with
  | none => rfl
  | some d => exact hfrom d.params 1 args

end Expr

namespace Parser.Accounts

variable {input : Input} {es : List Expr} {new : List ParseError}

theorem not_all_argument (hbad : ∃ e ∈ new, IsSyntax e) :
    ¬ ∀ e ∈ new, e.fault.isArgument = true := by
  obtain ⟨e, he, hform⟩ := hbad
  intro h
  exact Bool.false_ne_true (hform.not_argument.symm.trans (h e he))

/-- The errors that account for expressions are those about the arguments in them and others.  There
are no others if all errors are about arguments: only an error about the form lets something be
dropped. -/
theorem exists_perm (h : Accounts input es new) :
    ∃ others, new.Perm (Expr.wrongArguments input.commands es ++ others) ∧
      ((∀ e ∈ new, e.fault.isArgument = true) → others = []) := by
  induction h with
  | nothing => exact ⟨[], .nil, fun _ => rfl⟩
  | @join es es' new new' _ _ ih ih' =>
    obtain ⟨others, hperm, hnone⟩ := ih
    obtain ⟨others', hperm', hnone'⟩ := ih'
    refine ⟨others ++ others', ?_, fun hargs => ?_⟩
    · rw [Expr.wrongArguments_append, List.append_assoc]
      refine (hperm.append hperm').trans ?_
      -- the others of the first part are moved behind the arguments of the second
      rw [List.append_assoc]
      exact (List.perm_append_comm_assoc _ _ _).append_left _
    · obtain ⟨hargs, hargs'⟩ := List.forall_mem_append.mp hargs
      rw [hnone hargs, hnone' hargs', List.append_nil]
  | arrange hes _ ih =>
    obtain ⟨others, hperm, hnone⟩ := ih
    have hwrong := (hes.flatMap_right Expr.subterms).flatMap_right (Expr.argumentErrors input.commands)
    exact ⟨others, hperm.trans (hwrong.append_right others), hnone⟩
  | @node e new _ _ _ _ ih =>
    obtain ⟨others, hperm, hnone⟩ := ih
    refine ⟨others, ?_, fun hargs => hnone (List.forall_mem_append.mp hargs).1⟩
    rw [Expr.wrongArguments_singleton, List.append_assoc]
    exact List.perm_append_comm.trans (hperm.append_left _)
  | @fault e he =>
    refine ⟨[e], .refl _, fun hargs => ?_⟩
    rw [hargs e List.mem_cons_self] at he
    cases he
  | @drop es dropped new _ hbad ih =>
    obtain ⟨others, hperm, -⟩ := ih
    -- what is dropped counts among the others, and the error about the form says why
    rw [Expr.wrongArguments_append, List.append_assoc] at hperm
    exact ⟨_, hperm, fun hargs => absurd hargs (not_all_argument hbad)⟩
  | bad info _ _ hbad =>
    exact ⟨_, .refl _, fun hargs => absurd hargs (not_all_argument hbad)⟩

end Parser.Accounts

/-- If the errors recorded with a program are all about arguments of commands, they are exactly
those about the commands that stand in the program and are known, each as often as it is found
there. -/
theorem Program.errors_perm_wrong_arguments (commands : CommandTable) (tokens : List Token)
    (hargs : ∀ e ∈ (Program.parse commands tokens).errors, e.fault.isArgument = true) :
    let parsed := Program.parse commands tokens
    parsed.errors.Perm
      ((exprsWithin true parsed.program.stmts).flatMap (Expr.argumentErrors commands)) ∧
    ∀ info name args, Expr.argumentErrors commands (.command info name args) =
      (commands.get? name).elim [] fun d =>
        ((d.params.zip args).zipIdx 1).filterMap fun entry =>
          Expr.argumentError? name entry.2 entry.1.1 entry.1.2 := by
  intro parsed
  obtain ⟨new, hr, h, _⟩ := Parser.readAll_reached (.ofTokens commands tokens)
  have herrors : parsed.errors = new := hr.errors
  refine ⟨?_, fun info name args => Expr.argumentErrors_command info name args⟩
  obtain ⟨others, hperm, hnone⟩ := h.exists_perm
  rw [← herrors] at hperm hnone
  rw [hnone hargs, List.append_nil] at hperm
  rw [exprsWithin_eq_flatMap]
  exact hperm

/-- `f (Len(1)), 2`: the parentheses are read as indices, as all arguments, and at last as the first
argument, and the wrong argument in them is reported once. -/
theorem Program.wrong_argument_read_thrice :
    let commands := CommandTable.ofList [("Len", { category := .call, params := [.string] })]
    let tokens : List Token := [⟨.identifier, "f", .unknown⟩, ⟨.leftParen, "(", .unknown⟩,
      ⟨.command, "Len", .unknown⟩, ⟨.leftParen, "(", .unknown⟩, ⟨.integer, "1", .unknown⟩,
      ⟨.rightParen, ")", .unknown⟩, ⟨.rightParen, ")", .unknown⟩, ⟨.comma, ",", .unknown⟩,
      ⟨.integer, "2", .unknown⟩]
    let parsed := Program.parse commands tokens
    parsed.errors = [⟨.argument "Len" 1 .string .number, .unknown⟩] ∧
      parsed.errors.Perm
        ((exprsWithin true parsed.program.stmts).flatMap (Expr.argumentErrors commands)) := by
  intro commands tokens parsed
  have herrors : parsed.errors = [⟨.argument "Len" 1 .string .number, .unknown⟩] := by
    decide +kernel
  have hargs : ∀ e ∈ parsed.errors, e.fault.isArgument = true := by
    rw [herrors]
    decide
  clear_value commands tokens
  exact ⟨herrors, (Program.errors_perm_wrong_arguments commands tokens hargs).1⟩

end FrameBasic
