import FrameBasic.Proofs.Program.Binding
import FrameBasic.Proofs.Reader.Reads

/-!
# Which errors come with which expressions

Reading an expression records an error for every part that cannot be read, which becomes an `error`
node, and for every argument of a command that has a wrong type.  `Accounts` relates expressions to
the errors recorded with them, whatever the places are.  What was read may only be dropped when an
error about the form of the program says so.

The reader takes what stands in an expression from tokens, and makes up nothing itself: the names of
variables, arrays, commands and fields, and the numbers.  Whatever holds of these tokens thus holds
of all expressions that they spell, whether errors were recorded or not.  So do the names that a
statement declares, and its first word names its reader.

## Main definitions

* `Parser.Input.Names`, `Parser.Input.Calls` — a text is a name, or a command, among the tokens.
* `Expr.FromTokens`, `Expr.Grounded` — what stands in a node, or in an expression and everything
  below it, is taken from the tokens.
* `Expr.argumentErrors` — the errors about the arguments of a command.
* `Parser.Accounts` — the errors that account for expressions.
* `Parser.Outcome` — the same for a reader that may give nothing; `Parser.Body` for a block.
* `Stmt.exprs`, `blockExprs` — the expressions that stand in statements and in their blocks.
* `Stmt.word?` — the word that a statement begins with.
* `Stmt.Built` — how a statement was built by its reader.

## Main results

* `Parser.Accounts.errorNodes_le` — there are no more `error` nodes than errors about the form.
* `Parser.Accounts.grounded` — **what stands in an expression is taken from the tokens**.
-/

namespace FrameBasic

open Script (identifier)

/-! ### What stands in trees -/

/-- The text is a name among the tokens. -/
def Parser.Input.Names (input : Input) (name : String) : Prop :=
  ∃ token ∈ input.tokens, token.kind = .identifier ∧ token.text = name

/-- The text is a command among the tokens. -/
def Parser.Input.Calls (input : Input) (name : String) : Prop :=
  ∃ token ∈ input.tokens, token.kind = .command ∧ token.text = name

namespace Expr

/-- What stands in a node itself is taken from the tokens. -/
def FromTokens (input : Parser.Input) : Expr → Prop
  | .float _ x => ∃ token ∈ input.tokens, token.kind = .float ∧
      Decimal.readReal token.text.toList = .ok x
  | .var _ name _ | .element _ name _ => input.Names name
  | .command _ name _ => input.Calls name
  | .field _ _ name => input.Names name ∨ input.Calls name
  | _ => True

/-- What stands in an expression and below it is taken from the tokens. -/
def Grounded (input : Parser.Input) (e : Expr) : Prop :=
  ∀ sub ∈ e.subterms, sub.FromTokens input

theorem grounded_iff {input : Parser.Input} {e : Expr} :
    e.Grounded input ↔ e.FromTokens input ∧ ∀ part ∈ e.parts, part.Grounded input := by
  unfold Grounded
  rw [subterms_eq, List.forall_mem_cons, List.forall_mem_flatMap]

theorem fromTokens_withInfo {input : Parser.Input} (i : Info) (e : Expr) :
    (e.withInfo i).FromTokens input ↔ e.FromTokens input := by
  cases e <;> rfl

/-- The errors about the arguments of a command. -/
def argumentErrors (commands : CommandTable) : Expr → List ParseError
  | .command _ name args =>
    ((commands.get? name).elim [] fun d => mismatches d args).map fun m =>
      ⟨.argument name m.position m.expected m.found, m.span⟩
  | _ => []

theorem isError_withInfo (i : Info) (e : Expr) : (e.withInfo i).isError = e.isError := by
  cases e <;> rfl

theorem parts_withInfo (i : Info) (e : Expr) : (e.withInfo i).parts = e.parts := by
  cases e <;> rfl

theorem argumentErrors_withInfo (commands : CommandTable) (i : Info) (e : Expr) :
    (e.withInfo i).argumentErrors commands = e.argumentErrors commands := by
  cases e <;> rfl

/-- The number of `error` nodes among the expressions and below them. -/
def errorNodes (es : List Expr) : Nat :=
  (es.flatMap subterms).countP isError

@[simp] theorem errorNodes_append (as bs : List Expr) :
    errorNodes (as ++ bs) = errorNodes as + errorNodes bs := by
  simp [errorNodes]

theorem errorNodes_singleton (e : Expr) :
    errorNodes [e] = errorNodes e.parts + if e.isError then 1 else 0 := by
  simp only [errorNodes, List.flatMap_cons, List.flatMap_nil, List.append_nil]
  rw [subterms_eq, List.countP_cons]

end Expr

/-- Whether the fault is that an argument of a command has the wrong type. -/
def Fault.isArgument : Fault → Bool
  | .argument .. => true
  | _ => false

/-! ### The expressions of statements -/

/-- The expressions that stand in a list of statements and in their blocks. -/
def blockExprs (stmts : List Stmt) : List Expr :=
  (stmtsWithin true stmts).flatMap Stmt.ownExprs

/-- The expressions that stand in a statement and in its blocks. -/
def Stmt.exprs (s : Stmt) : List Expr :=
  (s.within true).flatMap Stmt.ownExprs

/-- The expressions that stand in branches. -/
def elseIfExprs (branches : List ElseIf) : List Expr :=
  branches.map ElseIf.condition ++ (elseIfsWithin true branches).flatMap Stmt.ownExprs

/-- The expressions that stand in clauses. -/
def caseExprs (cases : List CaseClause) : List Expr :=
  cases.flatMap CaseClause.values ++ (casesWithin true cases).flatMap Stmt.ownExprs

@[simp] theorem blockExprs_nil : blockExprs [] = [] := rfl

@[simp] theorem blockExprs_cons (s : Stmt) (rest : List Stmt) :
    blockExprs (s :: rest) = s.exprs ++ blockExprs rest := by
  simp [blockExprs, Stmt.exprs]

theorem blockExprs_append (as bs : List Stmt) :
    blockExprs (as ++ bs) = blockExprs as ++ blockExprs bs := by
  simp [blockExprs, stmtsWithin_append]

/-! The reader meets the condition of a branch right before its statements. -/

theorem elseIfExprs_cons (condition : Expr) (body : List Stmt) (rest : List ElseIf) :
    (elseIfExprs (.mk condition body :: rest)).Perm
      (condition :: (blockExprs body ++ elseIfExprs rest)) := by
  simp only [elseIfExprs, elseIfsWithin, ElseIf.condition, blockExprs, List.map_cons,
    List.flatMap_append, List.cons_append]
  exact (List.perm_append_comm_assoc _ _ _).cons condition

theorem caseExprs_cons (values : List Expr) (body : List Stmt) (span : Span)
    (rest : List CaseClause) :
    (caseExprs (.mk values body span :: rest)).Perm
      (values ++ (blockExprs body ++ caseExprs rest)) := by
  simp only [caseExprs, casesWithin, CaseClause.values, blockExprs, List.flatMap_cons,
    List.flatMap_append, List.append_assoc]
  exact (List.perm_append_comm_assoc _ _ _).append_left values

theorem Stmt.exprs_if (span : Span) (condition : Expr) (thenBranch : List Stmt)
    (branches : List ElseIf) (elseBranch : Option (List Stmt)) :
    (Stmt.if_ span condition thenBranch branches elseBranch).exprs.Perm
      (condition :: (blockExprs thenBranch ++
        (elseIfExprs branches ++ elseBranch.elim [] blockExprs))) := by
  cases elseBranch <;>
    simp only [Stmt.exprs, Stmt.within, Stmt.ownExprs, elseIfExprs, blockExprs, List.flatMap_cons,
      List.flatMap_append, List.cons_append, List.append_assoc, Option.elim_none, Option.elim_some,
      List.append_nil] <;>
    exact (List.perm_append_comm_assoc _ _ _).cons condition

theorem Stmt.exprs_select (span : Span) (subject : Expr) (cases : List CaseClause)
    (default : Option (List Stmt)) :
    (Stmt.select span subject cases default).exprs =
      subject :: (caseExprs cases ++ default.elim [] blockExprs) := by
  cases default <;>
    simp [Stmt.exprs, Stmt.within, Stmt.ownExprs, caseExprs, blockExprs]

theorem exprsWithin_eq_flatMap (stmts : List Stmt) :
    exprsWithin true stmts = (blockExprs stmts).flatMap Expr.subterms := by
  simp [exprsWithin, blockExprs, List.flatMap_assoc]

/-! ### How statements are built -/

/-- The text is what the script writes for a name among the tokens. -/
def Parser.Input.Writes (input : Input) (text : String) : Prop :=
  ∃ name, input.Names name ∧ identifier name = text

theorem Parser.Input.Names.writes {input : Input} {name : String} (h : input.Names name) :
    input.Writes (identifier name) :=
  ⟨name, h, rfl⟩

/-- The reserved word that a statement begins with. -/
def Stmt.word? : Stmt → Option Keyword
  | .assign .. | .label .. | .expr .. => none
  | .declare _ .inner _ => some .local_
  | .declare _ .global _ => some .global
  | .dim .. => some .dim
  | .const .. => some .const
  | .if_ .. => some .if_
  | .while_ .. => some .while_
  | .repeat_ .. => some .repeat_
  | .for_ .. | .forEach .. => some .for_
  | .select .. => some .select
  | .function .. => some .function
  | .type .. => some .type
  | .return_ .. => some .return_
  | .exit .. => some .exit
  | .end_ .. => some .end_
  | .goto .. => some .goto
  | .gosub .. => some .gosub
  | .data .. => some .data
  | .read .. => some .read
  | .restore .. => some .restore
  | .delete .. | .deleteEach .. => some .delete
  | .insert .. => some .insert

/-- Whether a statement may have blocks. -/
def Stmt.hasBlocks : Stmt → Bool
  | .if_ .. | .while_ .. | .repeat_ .. | .for_ .. | .forEach .. | .select .. | .function ..
  | .type .. => true
  | _ => false

/-- Whether a word begins a statement with blocks. -/
def Parser.opensBlocks (word : Keyword) : Bool :=
  word ∈ [.if_, .while_, .repeat_, .for_, .select, .function, .type]

/-- No statement with blocks begins at a token of the kind. -/
def Parser.opensNone : Kind → Bool
  | .keyword word => !opensBlocks word
  | _ => true

/-- A word that opens blocks. -/
theorem Parser.word_of_opens {kind : Kind} (h : opensNone kind ≠ true) :
    ∃ word, kind = .keyword word ∧ opensBlocks word = true := by
  cases kind with
  | keyword word => exact ⟨word, rfl, by simpa [opensNone] using h⟩
  | _ => exact absurd rfl h

/-- The reserved word that a token is. -/
def Kind.word? : Kind → Option Keyword
  | .keyword word => some word
  | _ => none

/-- A word that does not open blocks. -/
theorem Parser.opensBlocks_eq_false {kind : Kind} (h : opensNone kind = true) :
    ∀ w ∈ kind.word?, opensBlocks w = false := by
  intro w hw
  cases kind with
  | keyword word =>
    obtain rfl : word = w := Option.some.inj hw
    exact (Bool.not_eq_true' _).mp h
  | _ => cases hw

/-- A statement that begins with no such word. -/
theorem Stmt.hasBlocks_eq_false {s : Stmt} (h : ∀ w ∈ s.word?, Parser.opensBlocks w = false) :
    s.hasBlocks = false := by
  cases s with
  | if_ | while_ | repeat_ | for_ | forEach | select | function | type =>
    exact absurd (h _ rfl) (by decide)
  | _ => rfl

/-- How a statement is built: it begins with the word, the names that it uses are taken from the
tokens, and `P` holds of the statements in its blocks. -/
structure Stmt.Built (input : Parser.Input) (word : Option Keyword) (P : Stmt → Prop)
    (s : Stmt) : Prop where
  word : s.word? = word
  names : ∀ use ∈ s.uses, input.Writes use.1
  blocks : ∀ block ∈ s.blocks ++ s.routines, ∀ inner ∈ block, P inner

/-- A statement without blocks that declares no name. -/
theorem Stmt.Built.plain {input : Parser.Input} {word : Option Keyword} {P : Stmt → Prop} {s : Stmt}
    (hword : s.word? = word) (huses : s.uses = []) (hblocks : s.blocks ++ s.routines = []) :
    s.Built input word P :=
  ⟨hword, huses ▸ List.forall_mem_nil _, hblocks ▸ List.forall_mem_nil _⟩

/-- A single use. -/
theorem Parser.writes_of_use {input : Input} {name : String} {first : Initial}
    (h : input.Names name) : ∀ use ∈ [(identifier name, first)], input.Writes use.1 := by
  have hwrites := h.writes
  generalize identifier name = text at hwrites
  intro use huse
  rw [List.mem_singleton.mp huse]
  exact hwrites

namespace Parser

/-- The errors account for the expressions, which were read from the tokens: they are those that
reading the expressions recorded, in the order in which they were found. -/
inductive Accounts (input : Input) : List Expr → List ParseError → Prop
  /-- Nothing was read. -/
  | nothing : Accounts input [] []
  /-- Some expressions were read after others. -/
  | join {es es' : List Expr} {new new' : List ParseError} : Accounts input es new →
      Accounts input es' new' → Accounts input (es ++ es') (new ++ new')
  /-- The expressions are arranged in another order. -/
  | arrange {es es' : List Expr} {new : List ParseError} : es.Perm es' →
      Accounts input es new → Accounts input es' new
  /-- An expression was read after its parts, from the tokens. -/
  | node {e : Expr} {new : List ParseError} : input.Marks e.span → e.isError = false →
      e.FromTokens input → Accounts input e.parts new →
      Accounts input [e] (new ++ e.argumentErrors input.commands)
  /-- An error was recorded besides those of arguments. -/
  | fault {e : ParseError} : e.fault.isArgument = false → Accounts input [] [e]
  /-- Some of what was read is dropped because of an error about the form. -/
  | drop {es dropped : List Expr} {new : List ParseError} : Accounts input (es ++ dropped) new →
      (∃ e ∈ new, IsSyntax e) → Accounts input es new
  /-- An error about the form became a node. -/
  | bad {new : List ParseError} (info : Info) : input.Marks info.span → Accounts input [] new →
      (∃ e ∈ new, IsSyntax e) → Accounts input [.error info] new

variable {input : Input} {es es' : List Expr} {new new' : List ParseError}
variable {e : ParseError}

/-- The number of errors about the form of the program. -/
def syntaxErrors (errors : List ParseError) : Nat :=
  errors.countP fun e => !e.fault.isSemantic

@[simp] theorem syntaxErrors_append (as bs : List ParseError) :
    syntaxErrors (as ++ bs) = syntaxErrors as + syntaxErrors bs :=
  List.countP_append

theorem syntaxErrors_pos (h : ∃ e ∈ new, IsSyntax e) : 0 < syntaxErrors new := by
  obtain ⟨e, hmem, he⟩ := h
  have he' : e.fault.isSemantic = false := he
  exact List.countP_pos_iff.mpr ⟨e, hmem, by simp [he']⟩

theorem IsSyntax.not_argument (h : IsSyntax e) : e.fault.isArgument = false := by
  unfold IsSyntax at h
  cases hf : e.fault <;> simp_all [Fault.isSemantic, Fault.isArgument]

namespace Accounts

/-- There are no more `error` nodes than errors about the form of the program. -/
theorem errorNodes_le (h : Accounts input es new) : Expr.errorNodes es ≤ syntaxErrors new := by
  induction h with
  | nothing => exact Nat.le_refl 0
  | join _ _ ih ih' =>
    rw [Expr.errorNodes_append, syntaxErrors_append]
    exact Nat.add_le_add ih ih'
  | arrange hperm _ ih =>
    have heq := (hperm.flatMap_right Expr.subterms).countP_eq Expr.isError
    unfold Expr.errorNodes at *
    rwa [← heq]
  | node _ hne _ _ ih =>
    rw [Expr.errorNodes_singleton, hne, syntaxErrors_append]
    exact Nat.le_trans ih (Nat.le_add_right _ _)
  | fault => exact Nat.zero_le _
  | drop _ _ ih =>
    rw [Expr.errorNodes_append] at ih
    exact Nat.le_trans (Nat.le_add_right _ _) ih
  | bad info _ _ hbad =>
    -- its errors account for nothing else, and one of them is about the form
    exact syntaxErrors_pos hbad

/-- What holds of each node that holds it of its parts, and of the `error` nodes, holds of all
expressions. -/
theorem forall_mem {P : Expr → Prop} (h : Accounts input es new)
    (hnode : ∀ e : Expr, input.Marks e.span → e.FromTokens input → (∀ part ∈ e.parts, P part) → P e)
    (hbad : ∀ info : Info, input.Marks info.span → P (.error info)) : ∀ e ∈ es, P e := by
  induction h with
  | nothing | fault => exact List.forall_mem_nil _
  | join _ _ ih ih' => exact List.forall_mem_append.mpr ⟨ih, ih'⟩
  | arrange hperm _ ih => exact fun e he => ih e (hperm.mem_iff.mpr he)
  | node hplace _ hown _ ih => exact List.forall_mem_singleton.mpr (hnode _ hplace hown ih)
  | drop _ _ ih => exact (List.forall_mem_append.mp ih).1
  | bad info hplace => exact List.forall_mem_singleton.mpr (hbad info hplace)

/-- What stands in the expressions is taken from the tokens. -/
theorem grounded (h : Accounts input es new) : ∀ e ∈ es, e.Grounded input :=
  h.forall_mem (fun _ _ hown ih => Expr.grounded_iff.mpr ⟨hown, ih⟩)
    fun _ _ => Expr.grounded_iff.mpr ⟨trivial, List.forall_mem_nil _⟩

/-- The expressions stand at places of the tokens. -/
theorem marks (h : Accounts input es new) : ∀ e ∈ es, input.Marks e.span :=
  h.forall_mem (fun _ hplace _ _ => hplace) fun _ hplace => hplace

/-- An expression that is no command was read after its parts. -/
theorem plain {e : Expr} (hplace : input.Marks e.span) (hne : e.isError = false)
    (harg : e.argumentErrors input.commands = []) (hown : e.FromTokens input)
    (h : Accounts input e.parts new) : Accounts input [e] new := by
  have hnode := Accounts.node hplace hne hown h
  rwa [harg, List.append_nil] at hnode

theorem leaf {e : Expr} (hplace : input.Marks e.span) (hne : e.isError = false)
    (harg : e.argumentErrors input.commands = []) (hparts : e.parts = [])
    (hown : e.FromTokens input) : Accounts input [e] [] :=
  plain hplace hne harg hown (hparts ▸ .nothing)

/-- What is known of the nodes besides their form and their place does not matter. -/
theorem withInfo (i : Info) (h : Accounts input es new) (hplace : input.Marks i.span) :
    Accounts input (es.map (Expr.withInfo i)) new := by
  induction h with
  | nothing => exact .nothing
  | join _ _ ih ih' =>
    rw [List.map_append]
    exact ih.join ih'
  | arrange hperm _ ih => exact ih.arrange (hperm.map _)
  | node _ hne hown h ih =>
    rw [← Expr.argumentErrors_withInfo input.commands i]
    refine .node ?_ (by rwa [Expr.isError_withInfo]) ((Expr.fromTokens_withInfo i _).mpr hown) ?_
    · rwa [Expr.span, Expr.info_withInfo]
    · rwa [Expr.parts_withInfo]
  | fault hf => exact .fault hf
  | drop _ hbad ih =>
    rw [List.map_append] at ih
    exact ih.drop hbad
  | bad info _ h hbad ih => exact .bad i hplace h hbad

theorem syntaxError (h : IsSyntax e) : Accounts input [] [e] :=
  .fault h.not_argument

/-- Errors besides those of the expressions. -/
theorem beside (h : Accounts input es new) (h' : Accounts input [] new') :
    Accounts input es (new ++ new') := by
  have hjoin := h.join h'
  rwa [List.append_nil] at hjoin

/-- The place of what was read is taken by an `error` node. -/
theorem spoilt {info : Info} (hplace : input.Marks info.span) (h : Accounts input es new)
    (hbad : ∃ e ∈ new, IsSyntax e) : Accounts input [.error info] new :=
  .bad info hplace (h.drop hbad) hbad

end Accounts

/-- An expression is read. -/
abbrev ReadsExpr (k : Effect) (input : Input) (m : Nat) (p : Parser Expr) : Prop :=
  Reads k input m p (Accounts input [·])

/-- The errors account for the statements of a block, and `P` holds of each. -/
def Body (input : Input) (P : Stmt → Prop) (stmts : List Stmt) (new : List ParseError) : Prop :=
  Accounts input (blockExprs stmts) new ∧ ∀ s ∈ stmts, P s

variable {P : Stmt → Prop}

theorem Body.nothing (h : Accounts input [] new) : Body input P [] new :=
  ⟨h, List.forall_mem_nil _⟩

theorem Body.join {as bs : List Stmt} (h : Body input P as new) (h' : Body input P bs new') :
    Body input P (as ++ bs) (new ++ new') := by
  refine ⟨?_, List.forall_mem_append.mpr ⟨h.2, h'.2⟩⟩
  rw [blockExprs_append]
  exact h.1.join h'.1

/-- The errors account for what was read, if anything, and `A` holds of it; otherwise one of them
says that the form was wrong. -/
def Outcome {α : Type} (input : Input) (exprs : α → List Expr) (A : α → Prop) :
    Option α → List ParseError → Prop
  | some a, new => Accounts input (exprs a) new ∧ A a
  | none, new => Accounts input [] new ∧ ∃ e ∈ new, IsSyntax e

section Outcome

variable {α : Type} {exprs : α → List Expr} {A A' : α → Prop} {o : Option α}

theorem Outcome.failed (h : Accounts input es new) (hbad : ∃ e ∈ new, IsSyntax e) :
    Outcome input exprs A none new :=
  ⟨h.drop hbad, hbad⟩

theorem Outcome.imp (h : Outcome input exprs A o new) (hA : ∀ a ∈ o, A a → A' a) :
    Outcome input exprs A' o new := by
  cases o with
  | none => exact h
  | some a => exact ⟨h.1, hA a rfl h.2⟩

theorem Outcome.holds (h : Outcome input exprs A o new) : ∀ a ∈ o, A a := by
  rintro a ⟨⟩
  exact h.2

end Outcome

/-- A statement of a block is read, or an error about the form is recorded. -/
abbrev ReadsInner (input : Input) (m : Nat) (P : Stmt → Prop) (p : Parser (Option Stmt)) : Prop :=
  Reads .names input m p (Outcome input Stmt.exprs P)

/-- A statement that begins with the word is read, or an error about the form is recorded. -/
abbrev ReadsStmt (input : Input) (m : Nat) (word : Option Keyword) (P : Stmt → Prop)
    (p : Parser (Option Stmt)) : Prop :=
  ReadsInner input m (Stmt.Built input word P) p

@[inherit_doc ReadsStmt]
abbrev StartsStmt (input : Input) (m : Nat) (word : Option Keyword) (P : Stmt → Prop)
    (p : Parser (Option Stmt)) : Prop :=
  Starts .names input m p (Outcome input Stmt.exprs (Stmt.Built input word P))

end Parser

end FrameBasic
