import FrameBasic.Proofs.Reader.Expression
import FrameBasic.Proofs.Reader.Trial
import Mathlib.Data.List.Basic

/-!
# Reading simple statements

A simple statement is read to its end, the errors account for the expressions in it, and it begins
with the word that names its reader.  What was tried and taken back leaves no trace.

## Main definitions

* `Parser.Collected` — the errors that account for the items of a list, which may be incomplete.

## Main results

* `Parser.statementArgs_reads` — the arguments of a call that is a statement.
* `Parser.nameStmt_reads`, `Parser.commandStmt_reads`, and so on — the statements.
-/

namespace FrameBasic.Parser

variable {α β : Type} {k : Effect} {input : Input} {m : Nat} {start : Nat}
variable {exprs : α → List Expr} {A : α → Prop} {before : List ParseError}
variable {word : Option Keyword} {P : Stmt → Prop}

/-! ### Statements without blocks -/

theorem exprs_eq_ownExprs {s : Stmt} (h : s.within true = [s]) : s.exprs = s.ownExprs := by
  unfold Stmt.exprs
  rw [h, List.flatMap_cons, List.flatMap_nil, List.append_nil]

/-- A statement, when the errors so far account for its expressions. -/
theorem stmtFrom_reads {make : Span → Stmt} (hbuilt : ∀ span, (make span).Built input word P)
    (h : ∀ span, Accounts input (make span).exprs before) :
    Reads k input m (stmtFrom start make) fun o new =>
      Outcome input Stmt.exprs (Stmt.Built input word P) o (before ++ new) := by
  exact .look fun span => .done ⟨h span, hbuilt span⟩

/-- Nothing was read, and an error about the form says so. -/
theorem Reads.failed {es : List Expr} (h : Accounts input es before)
    (hbad : ∃ e ∈ before, IsSyntax e) :
    Reads k input m (Pure.pure none) fun o new =>
      Outcome input exprs A o (before ++ new) :=
  .done (.failed h hbad)

/-- Nothing was read after the last error, which is about the form. -/
theorem Reads.missing {es : List Expr} {e : ParseError} (h : Accounts input es before)
    (he : IsSyntax e) :
    Reads k input m (Pure.pure none) fun o new =>
      Outcome input exprs A o (before ++ ([e] ++ new)) := by
  simp only [← List.append_assoc]
  exact .failed (h.beside (.syntaxError he)) ⟨e, by simp, he⟩

/-- A name is read, or nothing at all. -/
theorem Reads.name {f : Option Token → Parser (Option α)} {expected : Expected}
    (hsome : ∀ token : Token, input.Names token.text →
      Reads k input (m + 1) (f (some token)) (Outcome input exprs A))
    (hnone : f none = Pure.pure none) :
    Reads k input m (expectName expected >>= f) (Outcome input exprs A) := by
  refine .expect (by decide) (fun token h => hsome token ⟨token, h.1, h.2, rfl⟩) fun e he => ?_
  rw [hnone]
  exact .missing .nothing he

/-- Something is recorded as missing, and nothing was read. -/
theorem reportMissing_reads (expected : Expected) :
    Reads k input m (do reportExpected expected; return none) (Outcome input exprs A) := by
  refine .reportExpected fun e he => ?_
  exact .failed (.syntaxError he) ⟨e, by simp, he⟩

/-- A fault about the form is recorded, and nothing was read. -/
theorem reportFault_reads {fault : Fault} {span : Span} (hspan : input.Marks span)
    (hf : fault.isSemantic = false) :
    Reads k input m (do report fault span; return none) (Outcome input exprs A) := by
  have hsyntax : IsSyntax ⟨fault, span⟩ := hf
  exact .report hspan (.failed (.syntaxError hsyntax) ⟨_, by simp, hsyntax⟩)

/-! ### Lists of items -/

/-- The errors account for the items, and `A` holds of each; if some are missing, one of the errors
is about the form. -/
structure Collected (input : Input) (exprs : α → List Expr) (A : α → Prop) (items : List α × Bool)
    (new : List ParseError) : Prop where
  accounts : Accounts input (items.1.flatMap exprs) new
  incomplete : items.2 = false → ∃ e ∈ new, IsSyntax e
  holds : ∀ a ∈ items.1, A a

theorem collect_collected {p : Parser (Option α)}
    (hp : Reads k input m p (Outcome input exprs A)) :
    Reads k input m (bounded (collect p)) (Collected input exprs A) := by
  refine collect_reads hp (fun new h => ⟨h.1, fun _ => h.2, List.forall_mem_nil _⟩)
    (fun a new h => ?_) fun a as new new' h h' => ?_
  · refine ⟨?_, nofun, List.forall_mem_singleton.mpr h.2⟩
    rw [List.flatMap_cons, List.flatMap_nil, List.append_nil]
    exact h.1
  · refine ⟨?_, fun hfalse => ?_, List.forall_mem_cons.mpr ⟨h.2, h'.holds⟩⟩
    · rw [List.flatMap_cons]
      exact h.1.join h'.accounts
    · obtain ⟨e, he, hsyntax⟩ := h'.incomplete hfalse
      exact ⟨e, List.mem_append_right new he, hsyntax⟩

/-- A statement that is a list of items; there is none unless all of them were read. -/
theorem listStmt_reads {p : Parser (Option α)} {make : Span → List α → Stmt}
    (hp : Reads k input m p (Outcome input exprs A))
    (hbuilt : ∀ span items, (∀ a ∈ items, A a) → (make span items).Built input word P)
    (hmake : ∀ span items, (make span items).exprs = items.flatMap exprs) :
    Reads k input m (do
      let (items, complete) ← bounded (collect p)
      if complete then stmtFrom start (make · items) else return none)
      (Outcome input Stmt.exprs (Stmt.Built input word P)) := by
  refine (collect_collected hp).bind fun items new h => ?_
  obtain ⟨items, complete⟩ := items
  cases complete with
  | true =>
    refine stmtFrom_reads (hbuilt · items h.holds) fun span => ?_
    rw [hmake]
    exact h.accounts
  | false => exact .failed h.accounts (h.incomplete rfl)

/-- The names that a list declares. -/
theorem writes_of_names {name : α → String} {first : α → Initial} {items : List α}
    (h : ∀ a ∈ items, input.Names (name a)) :
    ∀ use ∈ items.map fun a => (Script.identifier (name a), first a), input.Writes use.1 := by
  refine List.forall_mem_map.mpr fun a ha => ?_
  exact (h a ha).writes

/-! ### Assignments and calls -/

theorem statementArgs_reads : Reads k input m statementArgs (Accounts input) := by
  intro s hs hstop
  rw [statementArgs_eq]
  split
  · exact parenArgs_reads expression_reads s hs hstop
  · exact bareArgs_reads expression_reads s hs hstop

theorem assignsAfterParens_reads :
    Reads k input m assignsAfterParens fun _ new => new = [] := by
  intro s _ hstop
  rw [assignsAfterParens_stays]
  exact ⟨[], .refl hstop, rfl⟩

theorem target_reads :
    Reads k input m target (Outcome input (fun e => [e]) fun _ => True) := by
  refine .look fun start => ?_
  refine .name (fun token hname => .silent typeTag_reads fun tag => ?_) rfl
  extract_lets fields
  have hfields : ∀ {e : Expr} {before : List ParseError}, Accounts input [e] before →
      Reads k input (m + 1) (fields e) fun o new =>
        Outcome input (fun e => [e]) (fun _ => True) o (before ++ new) :=
    fun h => .map ((withFields_reads h).imp fun _ _ h => ⟨h, trivial⟩)
  have hvar : ∀ i tag, input.Marks (Expr.var i token.text tag).span →
      Reads k input (m + 1) (fields (.var i token.text tag))
        (Outcome input (fun e => [e]) fun _ => True) :=
    fun i tag hi => hfields (.leaf hi rfl rfl rfl hname)
  cases tag with
  | some typeName => exact .node (fun _ _ => rfl) fun i => hvar i _
  | none =>
    refine .look fun paren => ?_
    split
    · refine (parenArgs_reads expression_reads).bind fun indices new h => ?_
      refine .look fun s => ?_
      split
      · exact .node (fun _ _ => rfl) fun i hi => hfields (.plain hi rfl rfl hname h)
      · refine .span fun span hspan => .report hspan ?_
        simp only [← List.append_assoc]
        refine .node (fun _ _ => rfl) fun i hi => hfields ?_
        exact .plain hi rfl rfl hname (h.beside (.fault rfl))
    · exact .node (fun _ _ => rfl) fun i => hvar i _

/-- Declaring a target changes at most what is known of it besides its form. -/
theorem declareTarget_reads {e : Expr} {type : ValueType} (h : Accounts input [e] before) :
    Reads .names input m (declareTarget e type) fun e' new =>
      new = [] ∧ Accounts input [e'] before := by
  unfold declareTarget
  split
  · next i name typeName =>
    have htyped : Reads .names input m (typed (.var i name typeName)) fun e' new =>
        new = [] ∧ Accounts input [e'] before := by
      refine fun _ _ hstop => ⟨[], .refl hstop, rfl, h.withInfo _ ?_⟩
      exact h.marks _ (List.mem_singleton_self _)
    refine .look fun s => ?_
    extract_lets scopes hides
    split
    · exact .silent (define_reads _) fun _ => htyped
    · exact htyped
  · exact .pure ⟨rfl, h⟩

theorem assignment_reads : ReadsStmt input m none P assignment := by
  refine .look fun start => target_reads.bind fun e new h => ?_
  cases e with
  | none => exact .failed h.1 h.2
  | some e =>
    refine .expect (by decide) (fun _ _ => ?_) fun fault hf => .missing h.1 hf
    refine expression_reads.bind fun value new' h' => ?_
    refine (declareTarget_reads h.1).bind fun e new'' h'' => ?_
    obtain ⟨rfl, he⟩ := h''
    simp only [← List.append_assoc, List.append_nil]
    exact stmtFrom_reads (fun _ => .plain rfl rfl rfl) fun span => he.join h'

theorem callStmt_reads {name : String} : ReadsStmt input m none P (callStmt start name) := by
  refine .silent advance_reads fun _ => statementArgs_reads.bind fun args new h => ?_
  refine .node (fun _ _ => rfl) fun i hi => stmtFrom_reads (fun _ => .plain rfl rfl rfl) fun span => ?_
  exact .plain hi rfl rfl trivial h

theorem nameStmt_reads : ReadsStmt input m none P nameStmt := by
  refine .look fun start => .look fun token => ?_
  refine .look fun next => .look fun s => ?_
  extract_lets unknownList go
  have hgo : ∀ assigns, ReadsStmt input m none P (go assigns) := by
    intro assigns
    dsimp only [go]
    split
    · exact callStmt_reads
    · split
      · exact assignment_reads
      · refine .look fun s => ?_
        split
        · exact callStmt_reads
        · exact .silent advance_reads fun _ => reportMissing_reads _
  split
  · exact .silent assignsAfterParens_reads hgo
  · exact hgo true

theorem commandStmt_startsAt {i : Nat} {token : Token} (htoken : input.tokens[i]? = some token)
    (hkind : token.kind = .command) :
    StartsAt k input m i commandStmt (Outcome input Stmt.exprs (Stmt.Built input none P)) := by
  refine .look fun start => .takeText htoken ?_
  refine statementArgs_reads.bind fun args new h => ?_
  have hname : input.Calls token.text := ⟨token, Array.mem_of_getElem? htoken, hkind, rfl⟩
  refine (commandNode_reads hname h).bind fun e new' h' => ?_
  simp only [← List.append_assoc]
  exact stmtFrom_reads (fun _ => .plain rfl rfl rfl) fun span => h'

/-! ### Declarations -/

theorem initialValue_reads :
    Reads k input m initialValue fun o new => Accounts input o.toList new := by
  refine .ifAccept (by decide) (.map ?_) (.pure .nothing)
  exact expression_reads

theorem varDecl_reads (scope : DeclScope) :
    Reads .names input m (varDecl scope)
      (Outcome input (fun d => d.value.toList) fun d => input.Names d.name) := by
  refine .look fun start => .name (fun token hname => ?_) rfl
  refine .silent typeTag_reads fun tag => initialValue_reads.bind fun value new h => ?_
  extract_lets symbol finish
  have hfinish : Reads .names input (m + 1) (finish ()) fun o new' =>
      Outcome input (fun d => d.value.toList) (fun d => input.Names d.name) o (new ++ new') := by
    exact .look fun span => .done ⟨h, hname⟩
  cases scope with
  | inner => exact .silent (define_reads _) fun _ => hfinish
  | global => exact .silent (defineGlobal_reads _) fun _ => hfinish

theorem declareStmt_reads {scope : DeclScope}
    (hword : ∀ span vars, (Stmt.declare span scope vars).word? = word) :
    ReadsStmt input m word P (declareStmt scope) := by
  refine .look fun start => .silent advance_reads fun _ => ?_
  refine listStmt_reads (varDecl_reads scope) (fun span vars hvars => ?_) fun span vars => ?_
  · exact ⟨hword span vars, writes_of_names hvars, List.forall_mem_nil _⟩
  · rw [exprs_eq_ownExprs rfl]
    exact List.filterMap_eq_flatMap_toList _ _

theorem arrayDecl_reads : Reads .names input m arrayDecl
    (Outcome input ArrayDecl.dimensions fun d => input.Names d.name) := by
  refine .look fun start => .name (fun token hname => ?_) rfl
  refine .silent typeTag_reads fun tag => .look fun paren => ?_
  split
  · refine (parenArgs_reads expression_reads).bind fun dimensions new h => ?_
    extract_lets plain finish
    have hfinish : ∀ {before}, Accounts input dimensions before →
        Reads .names input (m + 1) (finish ()) fun o new' =>
          Outcome input ArrayDecl.dimensions (fun d => input.Names d.name) o (before ++ new') := by
      intro before h
      refine .silent (defineGlobal_reads _) fun _ => .look fun span => ?_
      exact .done ⟨h, hname⟩
    split
    · refine .span fun span hspan => .report hspan ?_
      simp only [← List.append_assoc]
      exact hfinish (h.beside (.fault rfl))
    · exact hfinish h
  · exact reportMissing_reads _

theorem dimStmt_reads : ReadsStmt input m (some .dim) P dimStmt := by
  refine .look fun start => .silent advance_reads fun _ => ?_
  refine listStmt_reads arrayDecl_reads (fun span arrays harrays => ?_) fun span arrays => ?_
  · exact ⟨rfl, writes_of_names harrays, List.forall_mem_nil _⟩
  · exact exprs_eq_ownExprs rfl

theorem constStmt_reads : ReadsStmt input m (some .const) P constStmt := by
  refine .look fun start => .silent advance_reads fun _ => .name (fun token hname => ?_) rfl
  refine .expect (by decide) (fun _ _ => ?_) fun e he => .missing .nothing he
  refine expression_reads.bind fun value new h => .silent (define_reads _) fun _ => ?_
  exact stmtFrom_reads (fun _ => ⟨rfl, writes_of_use hname, List.forall_mem_nil _⟩) fun span => h

/-! ### Jumps -/

/-- A statement without expressions. -/
theorem bareStmt_reads {make : Span → Stmt} (hbuilt : ∀ span, (make span).Built input word P)
    (h : ∀ span, (make span).exprs = []) : ReadsStmt input m word P (stmtFrom start make) := by
  have hstmt : Reads .names input m (stmtFrom start make) fun o new =>
      Outcome input Stmt.exprs (Stmt.Built input word P) o ([] ++ new) := by
    refine stmtFrom_reads hbuilt fun span => ?_
    rw [h span]
    exact .nothing
  exact hstmt

theorem returnStmt_reads : ReadsStmt input m (some .return_) P returnStmt := by
  refine .look fun start => .silent advance_reads fun _ => ?_
  refine .look fun atEnd => .look fun atElse => ?_
  split
  · exact bareStmt_reads (fun _ => .plain rfl rfl rfl) fun span => rfl
  · refine expression_reads.bind fun value new h => ?_
    exact stmtFrom_reads (fun _ => .plain rfl rfl rfl) fun span => h

theorem exitStmt_reads : ReadsStmt input m (some .exit) P exitStmt := by
  refine .look fun start => .silent advance_reads fun _ => ?_
  exact bareStmt_reads (fun _ => .plain rfl rfl rfl) fun span => rfl

theorem endStmt_reads : ReadsStmt input m (some .end_) P endStmt := by
  refine .look fun start => .silent advance_reads fun _ => ?_
  refine .look fun kind => ?_
  split
  · split
    · refine .silent advance_reads fun _ => .span fun span hspan => ?_
      exact reportFault_reads hspan rfl
    · exact bareStmt_reads (fun _ => .plain rfl rfl rfl) fun span => rfl
  · exact bareStmt_reads (fun _ => .plain rfl rfl rfl) fun span => rfl

theorem labelName_reads :
    Reads k input m labelName (Outcome input (fun _ => []) fun _ => True) := by
  refine .look fun name => .look fun label => ?_
  split
  · exact .map (takeText_reads.imp fun text new h => ⟨h ▸ .nothing, trivial⟩)
  · exact reportMissing_reads _

/-- A statement that names a label. -/
theorem labelled_reads {make : Span → String → Stmt}
    (hbuilt : ∀ span label, (make span label).Built input word P)
    (h : ∀ span label, (make span label).exprs = []) : ReadsStmt input m word P (do
      let some label ← labelName | return none
      stmtFrom start (make · label)) := by
  refine labelName_reads.bind fun label new h' => ?_
  cases label with
  | none => exact .failed h'.1 h'.2
  | some label =>
    refine stmtFrom_reads (hbuilt · label) fun span => ?_
    rw [h span label]
    exact h'.1

theorem jumpStmt_reads {make : Span → String → Stmt}
    (hbuilt : ∀ span label, (make span label).Built input word P)
    (h : ∀ span label, (make span label).exprs = []) :
    ReadsStmt input m word P (jumpStmt make) := by
  refine .look fun start => .silent advance_reads fun _ => ?_
  exact labelled_reads hbuilt h

theorem labelStmt_reads (token : Token) : ReadsStmt input m none P (labelStmt token) :=
  .silent advance_reads fun _ => .pure ⟨.nothing, .plain rfl rfl rfl⟩

/-! ### The data pool -/

/-- The fault of a number of a `Data` list is about the form. -/
theorem dataLiteral?_error {negative : Bool} {token : Token} {fault : Fault}
    (h : dataLiteral? negative token = some (.error fault)) : fault.isSemantic = false := by
  unfold dataLiteral? at h
  extract_lets whole at h
  have hwhole : ∀ value, whole value = some (.error fault) → fault.isSemantic = false := by
    intro value hvalue
    cases value with
    | some v => simp [whole] at hvalue
    | none =>
      obtain rfl : Fault.dataRange = fault := by simpa [whole] using hvalue
      rfl
  split at h
  · exact hwhole _ h
  · exact hwhole _ h
  · split at h
    · simp at h
    · obtain rfl : Fault.dataReal = fault := by simpa using h
      rfl
  all_goals simp at h

theorem dataValue_reads :
    Reads k input m dataValue (Outcome input (fun _ => []) fun _ => True) := by
  refine .look fun start => ?_
  refine .silent (accept_reads (by decide)) fun negative => ?_
  refine .look fun token => ?_
  cases token with
  | none => exact reportMissing_reads _
  | some token =>
    dsimp only
    split
    · exact .silent advance_reads fun _ => .pure ⟨.nothing, trivial⟩
    · next fault hliteral =>
      refine .silent advance_reads fun _ => .span fun span hspan => ?_
      exact reportFault_reads hspan (dataLiteral?_error hliteral)
    · exact reportMissing_reads _

theorem dataStmt_reads : ReadsStmt input m (some .data) P dataStmt := by
  refine .look fun start => .silent advance_reads fun _ => ?_
  refine .look fun atEnd => ?_
  split
  · exact bareStmt_reads (fun _ => .plain rfl rfl rfl) fun span => rfl
  · refine listStmt_reads dataValue_reads (fun _ _ _ => .plain rfl rfl rfl) fun span values => ?_
    rw [exprs_eq_ownExprs rfl]
    simp [Stmt.ownExprs]

theorem readTarget_reads :
    Reads .names input m readTarget (Outcome input (fun e => [e]) fun _ => True) := by
  refine target_reads.bind fun e new h => ?_
  cases e with
  | none => exact .failed h.1 h.2
  | some e =>
    refine .map ((declareTarget_reads h.1).imp fun e' new' h' => ?_)
    rw [h'.1, List.append_nil]
    exact ⟨h'.2, trivial⟩

theorem readStmt_reads : ReadsStmt input m (some .read) P readStmt := by
  refine .look fun start => .silent advance_reads fun _ => ?_
  refine listStmt_reads readTarget_reads (fun _ _ _ => .plain rfl rfl rfl) fun span targets => ?_
  rw [exprs_eq_ownExprs rfl]
  simp [Stmt.ownExprs]

theorem restoreStmt_reads : ReadsStmt input m (some .restore) P restoreStmt := by
  refine .look fun start => .silent advance_reads fun _ => ?_
  refine .look fun atEnd => ?_
  split
  · exact bareStmt_reads (fun _ => .plain rfl rfl rfl) fun span => rfl
  · have hmake : ∀ span (label : String), (Stmt.restore span (some label)).exprs = [] :=
      fun _ _ => rfl
    exact labelled_reads (fun _ _ => .plain rfl rfl rfl) hmake

/-! ### Lists of objects -/

theorem deleteStmt_reads : ReadsStmt input m (some .delete) P deleteStmt := by
  refine .look fun start => .silent advance_reads fun _ => ?_
  refine .silent (accept_reads (by decide)) fun each => ?_
  split
  · refine typeName_reads.bind fun name new h => ?_
    cases name with
    | none => exact .failed h.1 h.2
    | some name => exact stmtFrom_reads (fun _ => .plain rfl rfl rfl) fun span => h.1
  · refine expression_reads.bind fun object new h => ?_
    exact stmtFrom_reads (fun _ => .plain rfl rfl rfl) fun span => h

theorem side_reads : Reads k input m side (Outcome input (fun _ => []) fun _ => True) := by
  refine .silent (accept_reads (by decide)) fun before => ?_
  split
  · exact .pure ⟨.nothing, trivial⟩
  · refine .silent (accept_reads (by decide)) fun after => ?_
    split
    · exact .pure ⟨.nothing, trivial⟩
    · exact reportMissing_reads _

theorem insertStmt_reads : ReadsStmt input m (some .insert) P insertStmt := by
  refine .look fun start => .silent advance_reads fun _ => ?_
  refine expression_reads.bind fun object new h => side_reads.bind fun found new' h' => ?_
  simp only [← List.append_assoc]
  cases found with
  | none => exact .failed (h.join h'.1) (h'.2.imp fun e he => ⟨List.mem_append_right _ he.1, he.2⟩)
  | some s =>
    refine expression_reads.bind fun anchor new'' h'' => ?_
    simp only [← List.append_assoc]
    exact stmtFrom_reads (fun _ => .plain rfl rfl rfl) fun span => (h.beside h'.1).join h''

end FrameBasic.Parser
