import FrameBasic.Proofs.Reader.Program
import FrameBasic.Script.Program
import Mathlib.Data.List.Perm.Subperm

/-!
# Where functions and types are declared

The script has the functions and types that stand at the top level of a program, and no others.  One
that stands inside of another statement is recorded as an error, at the place where it begins.  The
reader knows how many blocks are around a statement by a number that it changes whenever it enters or
leaves a block.  This number is right at every statement, so none is left out.

What is owed for the statements that a reader gives is one error for each declaration that is out of
place.  The judgement `Parser.Settles` says that all of them are recorded.  It goes through the
readers of blocks; what the other readers do is known already.

## Main definitions

* `TopDecl` — what is declared at the top level only; `Stmt.topDecl?` and `ParseError.misplaced?` say
  which statements declare it, and which errors complain about it.
* `Stmt.nestedDecls`, `declsIn` — the declarations below a statement, and in a block.
* `Parser.Settles` — the judgement about readers.

## Main results

* `Parser.block_settles` — every declaration in a block is recorded.
* `Parser.readAll_settles` — so is every declaration that is not at the top level.
* `Program.declared_on_top` — **without errors, functions and types stand at the top level**, and the
  script has all functions.
-/

namespace FrameBasic

/-! ### Declarations -/

/-- What is declared at the top level only. -/
inductive TopDecl where
  | function
  | type
deriving DecidableEq, Repr

/-- Where a stretch of the text begins. -/
def Span.origin (span : Span) : Position :=
  ⟨span.start, span.line, span.column⟩

/-- What a statement declares, and where it begins. -/
def Stmt.topDecl? : Stmt → Option (TopDecl × Position)
  | .function span .. => some (.function, span.origin)
  | .type span .. => some (.type, span.origin)
  | _ => none

/-- The declaration that an error complains about, because it is not at the top level. -/
def ParseError.misplaced? (e : ParseError) : Option (TopDecl × Position) :=
  match e.fault with
  | .functionInBlock | .functionInFunction => some (.function, e.span.origin)
  | .typeInBlock => some (.type, e.span.origin)
  | _ => none

/-- The declarations that the errors complain about. -/
def misplacedIn (errors : List ParseError) : List (TopDecl × Position) :=
  errors.filterMap ParseError.misplaced?

/-- The declarations below a statement. -/
def Stmt.nestedDecls (s : Stmt) : List (TopDecl × Position) :=
  (s.within true).tail.filterMap Stmt.topDecl?

/-- The declarations in a block, at any depth. -/
def declsIn (stmts : List Stmt) : List (TopDecl × Position) :=
  (stmtsWithin true stmts).filterMap Stmt.topDecl?

@[simp] theorem misplacedIn_append (as bs : List ParseError) :
    misplacedIn (as ++ bs) = misplacedIn as ++ misplacedIn bs :=
  List.filterMap_append

@[simp] theorem declsIn_append (as bs : List Stmt) :
    declsIn (as ++ bs) = declsIn as ++ declsIn bs := by
  simp [declsIn, stmtsWithin_append]

theorem Stmt.nestedDecls_eq (s : Stmt) :
    s.nestedDecls = (s.blocks ++ s.routines).flatMap declsIn := by
  unfold nestedDecls
  rw [within_true_eq, List.tail_cons, List.filterMap_flatMap]
  rfl

theorem declsIn_singleton (s : Stmt) : declsIn [s] = s.topDecl?.toList ++ s.nestedDecls := by
  unfold declsIn Stmt.nestedDecls
  rw [stmtsWithin_cons, stmtsWithin_nil, List.append_nil, Stmt.within_true_eq, List.tail_cons]
  cases h : s.topDecl? <;> simp [h]

/-- What is owed for a statement with `depth` blocks around it: an error for each declaration below
it, and one for itself if it is in a block. -/
def Stmt.owed (depth : Nat) (s : Stmt) : List (TopDecl × Position) :=
  (if depth = 0 then [] else s.topDecl?.toList) ++ s.nestedDecls

/-- A statement that is no declaration owes what its blocks do. -/
theorem Stmt.owed_of_plain {s : Stmt} (depth : Nat) (h : s.topDecl? = none) :
    s.owed depth = (s.blocks ++ s.routines).flatMap declsIn := by
  unfold owed
  rw [h, nestedDecls_eq, Option.toList_none, ite_self, List.nil_append]

namespace Parser

/-- What is owed for a statement that may have been read. -/
abbrev owedBy (depth : Nat) (o : Option Stmt) : List (TopDecl × Position) :=
  o.toList.flatMap (Stmt.owed depth)

/-- The errors are kept and as many blocks are left open as there were.  What is owed for the result
is settled by what was paid before and by the new errors, each of which counts once. -/
abbrev Settled {α : Type} (input : Input) (depth : Nat) (paid : List (TopDecl × Position))
    (errors : List ParseError) (after : α × State) (owed : α → List (TopDecl × Position)) : Prop :=
  ∃ new, after.2.errors = errors ++ new ∧ after.2.depth = depth ∧ after.2.cursor ≤ input.stop ∧
    (owed after.1).Subperm (paid ++ misplacedIn new)

/-- With `depth` blocks around it, the reader settles what is owed for its result. -/
def Settles {α : Type} (input : Input) (depth : Nat) (paid : List (TopDecl × Position))
    (p : Parser α) (owed : α → List (TopDecl × Position)) : Prop :=
  ∀ s : State, s.depth = depth → s.cursor ≤ input.stop →
    Settled input depth paid s.errors (p input s) owed

/-- As `Settles`, at a place. -/
def SettlesAt {α : Type} (input : Input) (depth i : Nat) (p : Parser α)
    (owed : α → List (TopDecl × Position)) : Prop :=
  ∀ s : State, s.depth = depth → s.cursor = i → i ≤ input.stop →
    Settled input depth [] s.errors (p input s) owed

variable {α β : Type} {input : Input} {depth : Nat} {paid : List (TopDecl × Position)}
variable {p : Parser α} {f : α → Parser β}
variable {owed : α → List (TopDecl × Position)} {due : β → List (TopDecl × Position)}

namespace Settles

theorem pure {a : α} (h : (owed a).Subperm paid) : Settles input depth paid (pure a) owed := by
  intro s hs hstop
  refine ⟨[], (List.append_nil _).symm, hs, hstop, ?_⟩
  show (owed a).Subperm (paid ++ [])
  rw [List.append_nil]
  exact h

theorem nothing {a : α} (h : owed a = []) : Settles input depth paid (Pure.pure a) owed :=
  .pure (h ▸ List.nil_subperm)

/-- What is owed for the first result is paid when the second reader starts. -/
theorem bind (hp : Settles input depth [] p owed)
    (hf : ∀ a, Settles input depth (paid ++ owed a) (f a) due) :
    Settles input depth paid (p >>= f) due := by
  intro s hs hstop
  obtain ⟨new, herrors, hdepth, hcursor, howed⟩ := hp s hs hstop
  obtain ⟨new', herrors', hdepth', hcursor', hdue⟩ := hf (p input s).1 (p input s).2 hdepth hcursor
  refine ⟨new ++ new', ?_, hdepth', hcursor', hdue.trans ?_⟩
  · show (f (p input s).1 input (p input s).2).2.errors = _
    rw [herrors', herrors, List.append_assoc]
  · rw [misplacedIn_append, ← List.append_assoc]
    exact ((List.Subperm.refl paid).append howed).append (.refl _)

/-- A reader for whose result nothing is owed, and another one after it. -/
theorem step (hp : Settles input depth [] p fun _ => [])
    (hf : ∀ a, Settles input depth paid (f a) due) : Settles input depth paid (p >>= f) due := by
  apply hp.bind
  intro a
  rw [List.append_nil]
  exact hf a

theorem of_reads {Q : α → List ParseError → Prop} (h : Reads .names input 0 p Q) :
    Settles input depth [] p fun _ => [] := by
  intro s hs hstop
  obtain ⟨new, hr, -⟩ := h s (Nat.zero_le _) hstop
  exact ⟨new, hr.errors, hr.depth.trans hs, hr.cursor_le_stop, List.nil_subperm⟩

theorem reads {Q : α → List ParseError → Prop} (hp : Reads .names input 0 p Q)
    (hf : ∀ a, Settles input depth paid (f a) due) : Settles input depth paid (p >>= f) due :=
  (of_reads hp).step hf

/-- A reader that only looks, and another one after it. -/
theorem look {g : Input → State → α} (hf : ∀ a, Settles input depth paid (f a) due) :
    Settles input depth paid (looking g >>= f) due :=
  fun s hs hstop => hf _ s hs hstop

theorem at_place {i : Nat} (h : Settles input depth [] p owed) : SettlesAt input depth i p owed :=
  fun s hs hi hstop => h s hs (hi ▸ hstop)

theorem spanFrom {i : Nat} {f : Span → Parser β}
    (hf : ∀ stop, Settles input depth paid (f (input.spanFrom i stop)) due) :
    Settles input depth paid (spanFrom i >>= f) due :=
  fun s hs hstop => hf s.cursor s hs hstop

/-- The number of blocks is known. -/
theorem get {f : State → Parser β}
    (hf : ∀ s : State, s.depth = depth → Settles input depth paid (f s) due) :
    Settles input depth paid (get >>= f) due :=
  fun s hs hstop => hf s hs s hs hstop

theorem modifyScopes {g : Scopes → Scopes} {f : Unit → Parser β}
    (hf : Settles input depth paid (f ()) due) :
    Settles input depth paid (modifyScopes g >>= f) due :=
  fun s hs hstop => hf { s with scopes := g s.scopes } hs hstop

theorem exhaust {f : Unit → Parser β} (hf : Settles input depth paid (f ()) due) :
    Settles input depth paid (exhaust >>= f) due :=
  fun s hs hstop => hf { s with exhausted := true } hs hstop

/-- An error that complains about a declaration pays for it. -/
theorem report {fault : Fault} {span : Span} {f : Unit → Parser β}
    (hf : Settles input depth (paid ++ misplacedIn [⟨fault, span⟩]) (f ()) due) :
    Settles input depth paid (report fault span >>= f) due := by
  intro s hs hstop
  obtain ⟨new, herrors, hdepth, hcursor, hdue⟩ :=
    hf { s with errors := s.errors ++ [⟨fault, span⟩] } hs hstop
  refine ⟨[⟨fault, span⟩] ++ new, ?_, hdepth, hcursor, ?_⟩
  · rw [← List.append_assoc]
    exact herrors
  · rw [misplacedIn_append, ← List.append_assoc]
    exact hdue

/-- An error about a declaration in a block pays for it. -/
theorem misplaced {place : TopDecl × Position} {fault : Fault} {span : Span} {f : Unit → Parser β}
    (hdepth : 0 < depth) (hplace : misplacedIn [⟨fault, span⟩] = [place])
    (hf : Settles input depth (if depth = 0 then [] else [place]) (f ()) due) :
    Settles input depth [] (Parser.report fault span >>= f) due := by
  apply report
  rw [hplace]
  rw [if_neg (Nat.ne_of_gt hdepth)] at hf
  exact hf

theorem ite {c : Prop} [Decidable c] {q : Parser α} (hp : c → Settles input depth paid p owed)
    (hq : ¬ c → Settles input depth paid q owed) :
    Settles input depth paid (if c then p else q) owed := by
  by_cases h : c
  · rw [if_pos h]
    exact hp h
  · rw [if_neg h]
    exact hq h

theorem bounded {loop : Nat → Parser α} (h : ∀ rounds, Settles input depth paid (loop rounds) owed) :
    Settles input depth paid (bounded loop) owed :=
  fun s hs hstop => h _ s hs hstop

/-- Inside of a block there is one more block around. -/
theorem inBlock (h : Settles input (depth + 1) paid p owed) :
    Settles input depth paid (inBlock p) owed := by
  intro s hs hstop
  obtain ⟨new, herrors, hdepth, hcursor, howed⟩ :=
    h { s with depth := s.depth + 1 } (by rw [← hs]) hstop
  refine ⟨new, herrors, ?_, hcursor, howed⟩
  show (p input { s with depth := s.depth + 1 }).2.depth - 1 = depth
  rw [hdepth]
  rfl

/-- Something that is read or not. -/
theorem optional {c : Prop} [Decidable c] {f : Option α → Parser β}
    (hp : Settles input depth [] p owed)
    (hf : ∀ o : Option α, Settles input depth (paid ++ o.elim [] owed) (f o) due) :
    Settles input depth paid (if c then (some <$> p) >>= f else Pure.pure none >>= f) due := by
  apply ite
  · intro _
    have hsome : Settles input depth [] (some <$> p) fun o => o.elim [] owed := hp
    exact hsome.bind hf
  · intro _
    have hnone := hf none
    rw [Option.elim_none, List.append_nil] at hnone
    exact hnone

end Settles

theorem SettlesAt.cursor {i : Nat} {f : Nat → Parser β} (hf : Settles input depth [] (f i) due) :
    SettlesAt input depth i (cursor >>= f) due := by
  intro s hs hi hstop
  subst hi
  exact hf s hs hstop

/-! ### Simple statements -/

section Simple

theorem stmtFrom_settles {start : Nat} {make : Span → Stmt}
    (h : ∀ stop, ((make (input.spanFrom start stop)).owed depth).Subperm paid) :
    Settles input depth paid (stmtFrom start make) (owedBy depth) := by
  intro s hs hstop
  refine ⟨[], (List.append_nil _).symm, hs, hstop, ?_⟩
  show (owedBy depth (some (make (input.spanFrom start s.cursor)))).Subperm (paid ++ [])
  rw [List.append_nil, owedBy, Option.toList_some, List.flatMap_singleton]
  exact h s.cursor

/-- A statement that owes what its only block does. -/
theorem stmtFrom_settles_of_block {start : Nat} {make : Span → Stmt} {body : List Stmt}
    (h : ∀ span, (make span).topDecl? = none ∧
      (make span).blocks ++ (make span).routines = [body]) :
    Settles input depth ([] ++ declsIn body) (stmtFrom start make) (owedBy depth) := by
  refine stmtFrom_settles fun stop => ?_
  obtain ⟨hplain, hblocks⟩ := h (input.spanFrom start stop)
  rw [Stmt.owed_of_plain _ hplain, hblocks, List.flatMap_singleton, List.nil_append]

/-- Nothing is owed for the statement. -/
def OwesNothing (depth : Nat) (o : Option Stmt) : Prop :=
  owedBy depth o = []

theorem owesNothing_of_simple {s : Stmt} (hplain : s.topDecl? = none)
    (hblocks : s.blocks ++ s.routines = []) : OwesNothing depth (some s) := by
  unfold OwesNothing
  rw [owedBy, Option.toList_some, List.flatMap_singleton, Stmt.owed_of_plain _ hplain, hblocks,
    List.flatMap_nil]

/-- A statement without blocks. -/
theorem owesNothing_of_hasBlocks {o : Option Stmt} (h : ∀ s ∈ o, s.hasBlocks = false) :
    OwesNothing depth o := by
  cases o with
  | none => rfl
  | some s =>
    have hplain : s.hasBlocks = false := h s rfl
    cases s with
    | if_ | while_ | repeat_ | for_ | forEach | select | function | type => cases hplain
    | _ => exact owesNothing_of_simple rfl rfl

end Simple

/-! ### Blocks -/

section Blocks

variable {stmt : Parser (Option Stmt)} {start : Nat} {opened : Span}

theorem expect_settles {wanted : Kind} {expected : Expected} (hw : wanted ≠ .eof) :
    Settles input depth [] (expect wanted expected) fun _ => [] := by
  have h : Reads .names input 0 (expect wanted expected >>= pure) fun _ _ => True :=
    Reads.expect hw (fun _ _ => .pure trivial) fun _ _ => .pure trivial
  exact .of_reads h

theorem passFrom_settles {i : Nat} : Settles input depth [] (passFrom i) fun _ => [] :=
  .look fun _ => .ite (fun _ => .of_reads advance_reads) fun _ => .nothing rfl

theorem round_settles {finish : Bool → Parser Unit} {Q : Unit → List ParseError → Prop}
    (hstmt : Settles input depth [] stmt (owedBy depth))
    (hfinish : ∀ complete, Reads .names input 0 (finish complete) Q) :
    Settles input depth [] (round finish stmt) (owedBy depth) := by
  refine .look fun before => hstmt.bind fun result => ?_
  refine .reads (hfinish result.isSome) fun _ => .step passFrom_settles fun _ => ?_
  exact .pure (.refl _)

/-- One round of a loop and the rounds after it. -/
theorem rounds_settles {finish : Bool → Parser Unit} {Q : Unit → List ParseError → Prop}
    {more : Parser (List Stmt)} (hstmt : Settles input depth [] stmt (owedBy depth))
    (hfinish : ∀ complete, Reads .names input 0 (finish complete) Q)
    (hmore : Settles input depth [] more fun stmts => stmts.flatMap (Stmt.owed depth)) :
    Settles input depth [] (do
      let first ← round finish stmt
      let rest ← more
      return first.toList ++ rest) fun stmts => stmts.flatMap (Stmt.owed depth) := by
  refine (round_settles hstmt hfinish).bind fun first => hmore.bind fun rest => .pure ?_
  rw [List.flatMap_append, List.nil_append]

theorem blockLoop_settles {closers : List Closer} {construct : Construct}
    (hstmt : Settles input depth [] stmt (owedBy depth)) (rounds : Nat) :
    Settles input depth [] (blockLoop stmt closers construct opened rounds)
      fun stmts => stmts.flatMap (Stmt.owed depth) := by
  induction rounds with
  | zero => exact .exhaust (.nothing rfl)
  | succ rounds ih =>
    refine .reads (skipWhile_reads rfl) fun _ => .look fun tokens => ?_
    refine .look fun i => .ite (fun _ => .nothing rfl) fun _ => ?_
    refine .ite (fun _ => .report (.nothing rfl)) fun _ => ?_
    exact rounds_settles hstmt finishOrRecover_reads ih

theorem inlineLoop_settles (hstmt : Settles input depth [] stmt (owedBy depth)) (rounds : Nat) :
    Settles input depth [] (inlineLoop stmt rounds) fun stmts => stmts.flatMap (Stmt.owed depth) := by
  induction rounds with
  | zero => exact .exhaust (.nothing rfl)
  | succ rounds ih =>
    refine .reads (skipWhile_reads rfl) fun _ => .look fun kind => ?_
    refine .ite (fun _ => .nothing rfl) fun _ => ?_
    exact rounds_settles hstmt finishInline_reads ih

/-- In a block, a statement owes what it declares itself too. -/
theorem flatMap_owed_succ (depth : Nat) (stmts : List Stmt) :
    stmts.flatMap (Stmt.owed (depth + 1)) = declsIn stmts := by
  induction stmts with
  | nil => rfl
  | cons s rest ih =>
    rw [List.flatMap_cons, ih, ← List.singleton_append, declsIn_append, declsIn_singleton]
    rfl

variable (hstmt : Settles input (depth + 1) [] stmt (owedBy (depth + 1)))
include hstmt

/-- Every declaration in a block is recorded. -/
theorem block_settles {closers : List Closer} {construct : Construct} :
    Settles input depth [] (block stmt closers construct opened) declsIn := by
  apply Settles.inBlock
  rw [← funext (flatMap_owed_succ depth)]
  exact .bounded fun rounds => blockLoop_settles hstmt rounds

theorem inlineStmts_settles : Settles input depth [] (inlineStmts stmt) declsIn := by
  apply Settles.inBlock
  rw [← funext (flatMap_owed_succ depth)]
  exact .bounded fun rounds => inlineLoop_settles hstmt rounds

/-! ### Branches -/

theorem lineIf_settles {condition : Expr} :
    Settles input depth [] (lineIf stmt start condition) (owedBy depth) := by
  refine (inlineStmts_settles hstmt).bind fun thenBranch => ?_
  refine .reads (accept_reads (by decide)) fun otherwise => ?_
  refine .optional (inlineStmts_settles hstmt) fun elseBranch => ?_
  refine .reads (accept_reads (by decide)) fun _ => stmtFrom_settles fun stop => ?_
  rw [Stmt.owed_of_plain _ rfl]
  cases elseBranch <;> simp [Stmt.blocks, Stmt.routines, List.Subperm.refl]

theorem elseIfs_settles (rounds : Nat) : Settles input depth [] (elseIfs stmt opened rounds)
    fun branches => (branches.map ElseIf.body).flatMap declsIn := by
  induction rounds with
  | zero => exact .exhaust (.nothing rfl)
  | succ rounds ih =>
    have haccept : Reads .names input 0 acceptElseIf fun _ _ => True := by
      exact acceptElseIf_reads (.pure trivial) (.pure trivial)
    refine .reads haccept fun found => .ite (fun _ => ?_) fun _ => .nothing rfl
    refine .reads expression_reads fun condition => ?_
    refine .reads (accept_reads (by decide)) fun _ => ?_
    refine (block_settles hstmt).bind fun body => ih.bind fun rest => .pure ?_
    simp [ElseIf.body, List.Subperm.refl]

theorem blockIf_settles {condition : Expr} :
    Settles input depth [] (blockIf stmt start condition) (owedBy depth) := by
  refine .look fun opened => (block_settles hstmt).bind fun thenBranch => ?_
  refine (Settles.bounded (elseIfs_settles hstmt)).bind fun branches => ?_
  refine .reads (accept_reads (by decide)) fun otherwise => ?_
  refine .optional (block_settles hstmt) fun elseBranch => ?_
  refine .reads (acceptCloser_reads _) fun closed => ?_
  extract_lets make
  have hmake : Settles input depth
      ([] ++ declsIn thenBranch ++ (branches.map ElseIf.body).flatMap declsIn ++
        elseBranch.elim [] declsIn) (make ()) (owedBy depth) := by
    refine stmtFrom_settles fun stop => ?_
    rw [Stmt.owed_of_plain _ rfl]
    cases elseBranch <;> simp [Stmt.blocks, Stmt.routines, List.Subperm.refl]
  exact .ite (fun _ => hmake) fun _ => .reads (acceptCloser_reads _) fun _ => hmake

theorem ifStmt_settles : Settles input depth [] (ifStmt stmt) (owedBy depth) := by
  refine .look fun start => .reads advance_reads fun _ => ?_
  refine .reads expression_reads fun condition => ?_
  refine .reads (accept_reads (by decide)) fun _ => .look fun kind => ?_
  exact .ite (fun _ => blockIf_settles hstmt) fun _ => lineIf_settles hstmt

/-- What is owed for the clauses of `Select`. -/
def owedByClauses (clauses : List CaseClause × Option (List Stmt)) : List (TopDecl × Position) :=
  (clauses.1.map CaseClause.body ++ clauses.2.toList).flatMap declsIn

theorem selectLoop_settles (rounds : Nat) : ∀ seen,
    Settles input depth [] (selectLoop stmt opened rounds seen) owedByClauses := by
  induction rounds with
  | zero => exact fun _ => .exhaust (.nothing rfl)
  | succ rounds ih =>
    intro seen
    refine .reads (skipWhile_reads rfl) fun _ => .look fun start => ?_
    refine .reads (acceptCloser_reads _) fun ended => ?_
    refine .ite (fun _ => .nothing rfl) fun _ => ?_
    refine .reads (accept_reads (by decide)) fun clause => .ite (fun _ => ?_) fun _ => ?_
    · have hvalues : Reads .names input 0 (bounded (separated expression)) _ :=
        separated_exprs_reads expression_reads
      refine .reads hvalues fun values => (block_settles hstmt).bind fun body => ?_
      refine .look fun span => (ih seen).bind fun rest => .pure ?_
      simp [owedByClauses, CaseClause.body, List.Subperm.refl]
    refine .reads (accept_reads (by decide)) fun default => .ite (fun _ => ?_) fun _ => ?_
    · extract_lets go
      have hgo : Settles input depth [] (go ()) owedByClauses := by
        refine (block_settles hstmt).bind fun body => (ih true).bind fun rest => .pure ?_
        -- of two `Default` blocks the later one is kept, and the other one is paid for in vain
        cases hlast : rest.2 with
        | none =>
          simpa [owedByClauses, hlast] using List.perm_append_comm.subperm
        | some last =>
          simpa [owedByClauses, hlast] using (List.sublist_append_right _ _).subperm
      refine .ite (fun _ => .look fun span => ?_) fun _ => hgo
      exact .report hgo
    · refine .look fun atEnd => .look fun closes => ?_
      refine .ite (fun _ => .look fun s => ?_) fun _ => ?_
      · exact .ite (fun _ => .nothing rfl) fun _ => .report (.nothing rfl)
      · refine .reads (reportExpected_reads _) fun _ => ?_
        refine .reads recover_reads fun _ => .step passFrom_settles fun _ => ih seen

theorem selectStmt_settles : Settles input depth [] (selectStmt stmt) (owedBy depth) := by
  refine .look fun start => .reads advance_reads fun _ => ?_
  refine .reads expression_reads fun subject => ?_
  refine .look fun opened => ?_
  have hloop : Settles input depth [] (bounded fun rounds => selectLoop stmt opened rounds false)
      owedByClauses :=
    .bounded fun rounds => selectLoop_settles hstmt rounds false
  refine hloop.bind fun clauses => stmtFrom_settles fun stop => ?_
  rw [Stmt.owed_of_plain _ rfl]
  simp [owedByClauses, Stmt.blocks, Stmt.routines, List.Subperm.refl]

/-! ### Loops -/

theorem whileStmt_settles : Settles input depth [] (whileStmt stmt) (owedBy depth) := by
  refine .look fun start => .reads advance_reads fun _ => ?_
  refine .reads expression_reads fun condition => ?_
  refine .look fun opened => (block_settles hstmt).bind fun body => ?_
  refine .reads (acceptCloser_reads _) fun _ => ?_
  exact stmtFrom_settles_of_block fun _ => ⟨rfl, rfl⟩

theorem repeatStmt_settles : Settles input depth [] (repeatStmt stmt) (owedBy depth) := by
  refine .look fun start => .reads advance_reads fun _ => ?_
  refine .look fun opened => (block_settles hstmt).bind fun body => ?_
  refine .reads (accept_reads (by decide)) fun found => .ite (fun _ => ?_) fun _ => ?_
  · refine .reads expression_reads fun condition => ?_
    exact stmtFrom_settles_of_block fun _ => ⟨rfl, rfl⟩
  · refine .reads (accept_reads (by decide)) fun _ => ?_
    exact stmtFrom_settles_of_block fun _ => ⟨rfl, rfl⟩

theorem forBody_settles {construct : Construct} :
    Settles input depth [] (forBody stmt construct start) declsIn := by
  refine .look fun opened => (block_settles hstmt).bind fun body => ?_
  have hpure : Settles input depth ([] ++ declsIn body) (pure body) declsIn := .pure (.refl _)
  refine .reads (acceptCloser_reads _) fun closed => .ite (fun _ => ?_) fun _ => hpure
  refine .look fun named => .ite (fun _ => ?_) fun _ => hpure
  exact .reads advance_reads fun _ => hpure

theorem forEachStmt_settles {name : String} {tag : Option String} :
    Settles input depth [] (forEachStmt stmt start name tag) (owedBy depth) := by
  refine .reads typeName_reads fun type => ?_
  cases type with
  | none => exact .nothing rfl
  | some type =>
    have hrest : Settles input depth [] (do
        declareLoopVariable name (.declared name (some type) none)
        let body ← forBody stmt .forEach start
        stmtFrom start (.forEach · name type body)) (owedBy depth) := by
      refine .reads (declareLoopVariable_reads _ _) fun _ => ?_
      refine (forBody_settles hstmt).bind fun body => ?_
      exact stmtFrom_settles_of_block fun _ => ⟨rfl, rfl⟩
    refine .ite (fun _ => .look fun span => ?_) fun _ => hrest
    exact .report hrest

theorem forRangeStmt_settles {name : String} :
    Settles input depth [] (forRangeStmt stmt start name) (owedBy depth) := by
  refine .reads (declareLoopVariable_reads _ _) fun _ => ?_
  refine .reads expression_reads fun first => ?_
  refine .step (expect_settles (by decide)) fun word => ?_
  cases word with
  | none => exact .nothing rfl
  | some word =>
    refine .reads expression_reads fun last => ?_
    refine .reads (accept_reads (by decide)) fun stepped => ?_
    extract_lets rest
    have hrest : ∀ step, Settles input depth [] (rest step) (owedBy depth) := by
      refine fun step => (forBody_settles hstmt).bind fun body => ?_
      exact stmtFrom_settles_of_block fun _ => ⟨rfl, rfl⟩
    refine .optional (.of_reads expression_reads) fun step => ?_
    have hnil : step.elim [] (fun _ : Expr => ([] : List (TopDecl × Position))) = [] := by
      cases step <;> rfl
    rw [hnil]
    exact hrest step

theorem forStmt_settles : Settles input depth [] (forStmt stmt) (owedBy depth) := by
  refine .look fun start => .reads advance_reads fun _ => ?_
  refine .step (expect_settles (by decide)) fun token => ?_
  cases token with
  | none => exact .nothing rfl
  | some token =>
    refine .reads typeTag_reads fun tag => ?_
    refine .step (expect_settles (by decide)) fun equals => ?_
    cases equals with
    | none => exact .nothing rfl
    | some equals =>
      refine .reads (accept_reads (by decide)) fun each => ?_
      exact .ite (fun _ => forEachStmt_settles hstmt) fun _ => forRangeStmt_settles hstmt

end Blocks

/-! ### Functions and types -/

section Declarations

variable {stmt : Parser (Option Stmt)} {start : Nat} {first : Token}

theorem spanFrom_origin (hfirst : input.tokens[start]? = some first) (stop : Nat) :
    (input.spanFrom start stop).origin = first.span.origin := by
  unfold Input.spanFrom
  rw [hfirst]
  rfl

theorem functionBody_settles (hstmt : Settles input (depth + 1) [] stmt (owedBy (depth + 1)))
    {found : List Param} : Settles input depth [] (functionBody stmt start found) declsIn := by
  have hparams : Settles input depth []
      (found.forM fun p => define (.declared p.name p.typeName (p.default.map Expr.type)))
      fun _ => [] := by
    induction found with
    | nil => exact .nothing rfl
    | cons p rest ih => exact .reads (define_reads _) fun _ => ih
  refine .modifyScopes (.step hparams fun _ => .look fun opened => ?_)
  exact (block_settles hstmt).bind fun body => .modifyScopes (.pure (.refl _))

/-- A function that is not at the top level is recorded where it begins. -/
theorem functionStmt_settles (hstmt : Settles input (depth + 1) [] stmt (owedBy (depth + 1)))
    (hfirst : input.tokens[start]? = some first) :
    SettlesAt input depth start (functionStmt stmt) (owedBy depth) := by
  apply SettlesAt.cursor
  refine .reads advance_reads fun _ => .reads functionName_reads fun name => ?_
  cases name with
  | none => exact .nothing rfl
  | some name =>
    refine .reads typeTag_reads fun tag => .get fun inside hinside => ?_
    extract_lets declare
    have hdeclare : Settles input depth
        (if depth = 0 then [] else [(.function, first.span.origin)]) (declare ()) (owedBy depth) := by
      refine .reads params_reads fun found => ?_
      refine .reads (defineGlobal_reads _) fun _ => ?_
      refine (functionBody_settles hstmt).bind fun body => ?_
      refine .reads (acceptCloser_reads _) fun _ => stmtFrom_settles fun stop => ?_
      have howed : ((Stmt.function (input.spanFrom start stop) name tag found body).owed depth) =
          (if depth = 0 then [] else [(.function, first.span.origin)]) ++ declsIn body := by
        rw [← spanFrom_origin hfirst stop, Stmt.owed, Stmt.nestedDecls_eq]
        simp [Stmt.topDecl?, Stmt.blocks, Stmt.routines]
      rw [howed]
    refine .ite (fun hpos => .look fun inside => ?_) fun hzero => ?_
    · extract_lets nested
      refine .spanFrom fun stop => .misplaced (hinside ▸ hpos) ?_ hdeclare
      rw [← spanFrom_origin hfirst stop]
      show [_].filterMap ParseError.misplaced? = _
      simp only [nested]
      split <;> rfl
    · rw [if_pos (hinside ▸ Nat.eq_zero_of_not_pos hzero)] at hdeclare
      exact hdeclare

/-- A type that is not at the top level is recorded where it begins. -/
theorem typeStmt_settles (hfirst : input.tokens[start]? = some first) :
    SettlesAt input depth start typeStmt (owedBy depth) := by
  apply SettlesAt.cursor
  refine .reads advance_reads fun _ => .step (expect_settles (by decide)) fun token => ?_
  cases token with
  | none => exact .nothing rfl
  | some token =>
    refine .spanFrom fun stop => .get fun inside hinside => ?_
    extract_lets declare
    have hdeclare : Settles input depth
        (if depth = 0 then [] else [(.type, first.span.origin)]) (declare ()) (owedBy depth) := by
      have hfields : Reads .names input 0 (bounded (fieldLoop (input.spanFrom start stop))) _ :=
        .bounded (fieldLoop_reads ⟨start, stop, rfl⟩)
      refine .reads hfields fun fields => ?_
      refine .reads (defineGlobal_reads _) fun _ => stmtFrom_settles fun stop => ?_
      have howed : (Stmt.type (input.spanFrom start stop) token.text fields).owed depth =
          if depth = 0 then [] else [(.type, first.span.origin)] := by
        rw [← spanFrom_origin hfirst stop, Stmt.owed, Stmt.nestedDecls_eq]
        simp [Stmt.topDecl?, Stmt.blocks, Stmt.routines]
      rw [howed]
    refine .ite (fun hpos => .misplaced (hinside ▸ hpos) ?_ hdeclare) fun hzero => ?_
    · rw [← spanFrom_origin hfirst stop]
      rfl
    · rw [if_pos (hinside ▸ Nat.eq_zero_of_not_pos hzero)] at hdeclare
      exact hdeclare

end Declarations

/-! ### Programs -/

section Programs

variable {stmt : Parser (Option Stmt)} {token : Token}

theorem wordStmt_settles (hstmt : Settles input (depth + 1) [] stmt (owedBy (depth + 1))) {i : Nat}
    (htoken : input.tokens[i]? = some token) {word : Keyword} (hword : opensBlocks word = true) :
    SettlesAt input depth i (wordStmt stmt token word) (owedBy depth) := by
  cases word with
  | if_ => exact (ifStmt_settles hstmt).at_place
  | while_ => exact (whileStmt_settles hstmt).at_place
  | repeat_ => exact (repeatStmt_settles hstmt).at_place
  | for_ => exact (forStmt_settles hstmt).at_place
  | select => exact (selectStmt_settles hstmt).at_place
  | function => exact functionStmt_settles hstmt htoken
  | type => exact typeStmt_settles htoken
  | _ => cases hword

theorem statementWith_settles (hstmt : Settles input (depth + 1) [] stmt (owedBy (depth + 1))) :
    Settles input depth [] (statementWith stmt) (owedBy depth) := by
  intro s hs hstop
  by_cases hopens : opensNone (input.kind s.cursor) = true
  · obtain ⟨new, hr, hsimple⟩ := statementWith_simple stmt hopens hstop
    refine ⟨new, hr.errors, hr.depth.trans hs, hr.cursor_le_stop, ?_⟩
    rw [owesNothing_of_hasBlocks hsimple]
    exact List.nil_subperm
  · obtain ⟨word, hk, hword⟩ := word_of_opens hopens
    obtain ⟨token, htoken, hkt⟩ := Input.token_of_kind (by rw [hk]; nofun)
    rw [(statementWith_run htoken).2.2 word (hkt.trans hk)]
    exact wordStmt_settles hstmt htoken hword s hs rfl hstop

/-- At any nesting, a statement settles what it owes. -/
theorem statementAt_settles (nesting : Nat) :
    ∀ depth, Settles input depth [] (statementAt nesting) (owedBy depth) := by
  induction nesting with
  | zero => exact fun _ => .exhaust (.nothing rfl)
  | succ nesting ih => exact fun depth => statementWith_settles (ih (depth + 1))

theorem statement_settles : Settles input depth [] statement (owedBy depth) :=
  .bounded fun nesting => statementAt_settles nesting depth

theorem programLoop_settles (rounds : Nat) : Settles input depth [] (programLoop statement rounds)
    fun stmts => stmts.flatMap (Stmt.owed depth) := by
  induction rounds with
  | zero => exact .exhaust (.nothing rfl)
  | succ rounds ih =>
    refine .reads (skipWhile_reads rfl) fun _ => .look fun ended => ?_
    exact .ite (fun _ => .nothing rfl) fun _ => rounds_settles statement_settles finishOrRecover_reads ih

/-- Every declaration that is not at the top level of what is read is recorded. -/
theorem readAll_settles (input : Input) : ((readAll input).1.flatMap Stmt.nestedDecls).Subperm
    (misplacedIn (readAll input).2.errors) := by
  have hloop : Settles input 0 [] (bounded (programLoop statement)) fun stmts => stmts.flatMap (Stmt.owed 0) :=
    .bounded programLoop_settles
  obtain ⟨new, herrors, -, -, howed⟩ := hloop (.initial input) rfl (Nat.zero_le _)
  have hnew : (readAll input).2.errors = new := herrors
  rw [hnew]
  exact howed

end Programs

end Parser

/-! ### Scripts -/

theorem ParseError.message_of_misplaced {e : ParseError} (h : e.misplaced?.isSome) :
    ∃ why, e.fault.message = "invalid statement: " ++ why := by
  unfold misplaced? at h
  split at h
  · next hfault => exact ⟨"functions must be declared at the top level", by rw [hfault]; rfl⟩
  · next hfault => exact ⟨"functions cannot be nested", by rw [hfault]; rfl⟩
  · next hfault => exact ⟨"types must be declared at the top level", by rw [hfault]; rfl⟩
  · exact absurd h Bool.false_ne_true

/-- The statement declares neither a function nor a type. -/
theorem Stmt.topDecl?_eq_none_iff {s : Stmt} :
    s.topDecl? = none ↔ s.isFunction = false ∧ s.isType = false := by
  cases s <;> simp [topDecl?, isFunction, isType]

/-- What holds of no statement below another one is found at the top level. -/
theorem filter_stmtsWithin {stmts : List Stmt} {p : Stmt → Bool}
    (h : ∀ s ∈ stmts, ∀ t ∈ (s.within true).tail, p t = false) :
    (stmtsWithin true stmts).filter p = stmts.filter p := by
  induction stmts with
  | nil => rfl
  | cons s rest ih =>
    obtain ⟨hs, hrest⟩ := List.forall_mem_cons.mp h
    have hbelow : (s.within true).tail.filter p = [] :=
      List.filter_eq_nil_iff.mpr fun t ht => Bool.eq_false_iff.mp (hs t ht)
    have hwithin : (s.within true).filter p = [s].filter p := by
      rw [Stmt.within_true_eq] at hbelow ⊢
      rw [← List.singleton_append, List.filter_append]
      rw [List.tail_cons] at hbelow
      rw [hbelow, List.append_nil]
    rw [stmtsWithin_cons, List.filter_append, hwithin, ih hrest, ← List.filter_append,
      List.singleton_append]

namespace Script

/-- Each of several texts stands in all of them together. -/
theorem exists_concat_eq {text : String} {texts : List String} (h : text ∈ texts) :
    ∃ before after, concat texts = before ++ text ++ after := by
  obtain ⟨front, back, rfl⟩ := List.append_of_mem h
  refine ⟨String.join front, String.join back, ?_⟩
  show String.join _ = _
  rw [String.join_append, String.join_cons, String.append_assoc]

/-- The text of a function stands in the text of the script. -/
theorem exists_render_eq {s : Script} {f : FunctionCode} (h : f ∈ s.functions) :
    ∃ before after, s.render = before ++ f.render ++ after := by
  have hmem : f.render ∈ s.functions.map FunctionCode.render := List.mem_map_of_mem h
  obtain ⟨before, after, heq⟩ := exists_concat_eq hmem
  have hbody : ∃ front back,
      s.body = front ++ concat (s.functions.map FunctionCode.render) ++ back := by
    rw [body, String.append_assoc, String.append_assoc, String.append_assoc]
    exact ⟨_, _, rfl⟩
  obtain ⟨front, back, hfront⟩ := hbody
  refine ⟨preamble ++ front ++ before, after ++ back, ?_⟩
  rw [render, hfront, heq]
  simp only [String.append_assoc]

end Script

/-- **Without errors, functions and types stand at the top level.**  Whatever the tokens are, each
function and each type below another statement has an error of its own about a statement that is not
valid there, at the place where the declaration begins.  So in a program that was read without errors
there is none, and the script has all of its functions. -/
theorem Program.declared_on_top (commands : CommandTable) (tokens : List Token) :
    let parsed := Program.parse commands tokens
    let stmts := parsed.program.stmts
    let plan := Script.Plan.ofProgram commands parsed.program
    (stmts.flatMap Stmt.nestedDecls).Subperm (misplacedIn parsed.errors) ∧
      (∀ e ∈ parsed.errors, e.misplaced?.isSome →
        ∃ why, e.fault.message = "invalid statement: " ++ why) ∧
      (parsed.errors = [] →
        (∀ s ∈ stmts, ∀ t ∈ (s.within true).tail, t.isFunction = false ∧ t.isType = false) ∧
          (stmtsWithin true stmts).filter Stmt.isFunction = plan.schedule.functions ∧
          (stmtsWithin true stmts).filter Stmt.isType = plan.schedule.types ∧
          ∀ f ∈ stmtsWithin true stmts, f.isFunction = true →
            ∃ code ∈ (Script.ofPlan plan).functions, Script.functionCode? plan f = some code ∧
              ∃ before after, (Script.ofPlan plan).render = before ++ code.render ++ after) := by
  intro parsed stmts plan
  have hsettled : (stmts.flatMap Stmt.nestedDecls).Subperm (misplacedIn parsed.errors) :=
    Parser.readAll_settles _
  refine ⟨hsettled, fun e _ he => ParseError.message_of_misplaced he, fun hnone => ?_⟩
  have hbelow : ∀ s ∈ stmts, ∀ t ∈ (s.within true).tail, t.isFunction = false ∧ t.isType = false := by
    intro s hs t ht
    apply Stmt.topDecl?_eq_none_iff.mp
    have hnil : stmts.flatMap Stmt.nestedDecls = [] := by
      rw [hnone] at hsettled
      exact List.subperm_nil.mp hsettled
    exact List.filterMap_eq_nil_iff.mp (List.flatMap_eq_nil_iff.mp hnil s hs) t ht
  have hfunctions : (stmtsWithin true stmts).filter Stmt.isFunction = plan.schedule.functions :=
    (filter_stmtsWithin fun s hs t ht => (hbelow s hs t ht).1).trans
      (Schedule.functions_ofProgram ..).symm
  have htypes : (stmtsWithin true stmts).filter Stmt.isType = plan.schedule.types :=
    (filter_stmtsWithin fun s hs t ht => (hbelow s hs t ht).2).trans
      (Schedule.types_ofProgram ..).symm
  refine ⟨hbelow, hfunctions, htypes, ?_⟩
  intro f hf hisFunction
  have hmem : f ∈ plan.schedule.functions := hfunctions ▸ List.mem_filter.mpr ⟨hf, hisFunction⟩
  obtain ⟨code, hcode⟩ : ∃ code, Script.functionCode? plan f = some code := by
    cases f <;> first | exact ⟨_, rfl⟩ | exact absurd hisFunction Bool.false_ne_true
  have hscript : code ∈ (Script.ofPlan plan).functions := List.mem_filterMap.mpr ⟨f, hmem, hcode⟩
  exact ⟨code, hscript, hcode, Script.exists_render_eq hscript⟩

/-- A type, and a function with a branch that calls it. -/
theorem Program.declared_on_top_branch :
    let tokens : List Token :=
      [⟨.keyword .type, "Type", .unknown⟩, ⟨.identifier, "T", .unknown⟩, ⟨.newline, "", .unknown⟩,
        ⟨.keyword .end_, "End", .unknown⟩, ⟨.keyword .type, "Type", .unknown⟩,
        ⟨.newline, "", .unknown⟩, ⟨.keyword .function, "Function", .unknown⟩,
        ⟨.identifier, "F", .unknown⟩, ⟨.leftParen, "(", .unknown⟩, ⟨.rightParen, ")", .unknown⟩,
        ⟨.newline, "", .unknown⟩, ⟨.keyword .if_, "If", .unknown⟩, ⟨.integer, "1", .unknown⟩,
        ⟨.keyword .then_, "Then", .unknown⟩, ⟨.identifier, "F", .unknown⟩,
        ⟨.newline, "", .unknown⟩, ⟨.keyword .end_, "End", .unknown⟩,
        ⟨.keyword .function, "Function", .unknown⟩]
    let parsed := Program.parse .empty tokens
    parsed.errors = [] ∧ (stmtsWithin true parsed.program.stmts).length = 4 ∧
      (Script.Plan.ofProgram .empty parsed.program).schedule.functions.length = 1 ∧
      (stmtsWithin true parsed.program.stmts).filter Stmt.isFunction =
        (Script.Plan.ofProgram .empty parsed.program).schedule.functions ∧
      ∀ s ∈ parsed.program.stmts, ∀ t ∈ (s.within true).tail,
        t.isFunction = false ∧ t.isType = false := by
  intro tokens parsed
  have hread : parsed.errors = [] ∧ (stmtsWithin true parsed.program.stmts).length = 4 ∧
      (Script.Plan.ofProgram .empty parsed.program).schedule.functions.length = 1 := by
    decide +kernel
  -- nothing is computed from here on
  clear_value tokens
  have hplaced := (declared_on_top .empty tokens).2.2 hread.1
  exact ⟨hread.1, hread.2.1, hread.2.2, hplaced.2.1, hplaced.1⟩

end FrameBasic
