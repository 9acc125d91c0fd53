import FrameBasic.Proofs.Reader.Simple
import FrameBasic.Tree.Parser.Block

/-!
# Reading statements with blocks

The readers of blocks take the reader of inner statements, which has to be good only behind the
first token of the construct.  Every round of a loop passes a token, whatever the inner reader did,
and every block and scope that is opened is closed again, also when its closer is missing.

## Main results

* `Parser.round_reached` — one statement and its end pass at least one token.
* `Parser.block_reads` — the statements of a block.
* `Parser.ifStmt_starts`, `Parser.selectStmt_starts`, `Parser.functionStmt_starts`, and so on — the
  statements.
-/

namespace FrameBasic.Parser

variable {α β : Type} {k : Effect} {input : Input} {m : Nat} {start : Nat} {opened : Span}
variable {before : List ParseError} {stmt : Parser (Option Stmt)} {P : Stmt → Prop}
variable {R : β → List ParseError → Prop}

/-! ### Blocks -/

theorem finishStatement_accounts :
    Reads k input m finishStatement fun _ new => Accounts input [] new := by
  refine finishStatement_reads.imp fun _ new h => ?_
  rcases h with rfl | ⟨e, he, rfl⟩
  · exact .nothing
  · exact .syntaxError he

/-- A part that may be missing, and what comes after it. -/
theorem Reads.optional {p : Parser α} {f : Option α → Parser β} {exprs : α → List Expr}
    {A : α → Prop} {present : Bool}
    (hp : Reads k input m p fun a new => Accounts input (exprs a) new ∧ A a)
    (hf : ∀ o new, Accounts input (o.elim [] exprs) new → (∀ a ∈ o, A a) →
      Reads k input m (f o) fun b new' => R b (new ++ new')) :
    Reads k input m (if present then some <$> p >>= f else Pure.pure none >>= f) R := by
  cases present with
  | true =>
    have hsome : Reads k input m (some <$> p) fun o new =>
        Accounts input (o.elim [] exprs) new ∧ ∀ a ∈ o, A a :=
      .map (hp.imp fun a new h => ⟨h.1, by rintro a ⟨⟩; exact h.2⟩)
    exact hsome.bind fun o new h => hf o new h.1 h.2
  | false => exact hf none [] .nothing nofun

theorem finishOrRecover_reads (complete : Bool) :
    Reads k input m (finishOrRecover complete) fun _ new => Accounts input [] new := by
  cases complete with
  | true => exact finishStatement_accounts
  | false => exact recover_reads.imp fun _ new h => h ▸ .nothing

section Blocks

variable (hstmt : ReadsInner input m P stmt)
include hstmt

/-- One statement and its end pass at least one token. -/
theorem round_reached {finish : Bool → Parser Unit} {s : State}
    (hfinish : ∀ complete, Reads .names input m (finish complete) fun _ new =>
      Accounts input [] new)
    (hs : m ≤ s.cursor) (hstop : s.cursor < input.stop) :
    ∃ new, Reached .names input s new (round finish stmt input s).2 ∧
      Body input P (round finish stmt input s).1.toList new ∧
      s.cursor < (round finish stmt input s).2.cursor := by
  -- the round before its last step, which passes a token if nothing else did
  have hread : Reads .names input m (do let result ← stmt; finish result.isSome; return result)
      fun o new => Body input P o.toList new := by
    refine hstmt.bind fun o new h => (hfinish o.isSome).bind fun _ new' h' => .pure ?_
    rw [List.append_nil]
    refine ⟨Accounts.beside ?_ h', fun s hs => h.holds s (Option.mem_toList.mp hs)⟩
    cases o with
    | none => exact h.1
    | some s =>
      rw [Option.toList_some, blockExprs_cons, blockExprs_nil, List.append_nil]
      exact h.1
  obtain ⟨new, hr, h⟩ := hread s hs (Nat.le_of_lt hstop)
  obtain ⟨hr', hlt⟩ := passFrom_reached hstop hr.cursor_le hr.cursor_le_stop
  have hall := hr.trans hr'
  rw [List.append_nil] at hall
  exact ⟨new, hall, h, hlt⟩

theorem round_starts {finish : Bool → Parser Unit}
    (hfinish : ∀ complete, Reads .names input m (finish complete) fun _ new =>
      Accounts input [] new) {more : Parser (List Stmt)}
    (hmore : Reads .names input (m + 1) more (Body input P)) :
    Starts .names input m (do
      let first ← round finish stmt
      let rest ← more
      return first.toList ++ rest) (Body input P) := by
  intro s hs hstop
  obtain ⟨new, hr, h, hlt⟩ := round_reached hstmt hfinish hs hstop
  obtain ⟨new', hr', h'⟩ := hmore _ (Nat.lt_of_le_of_lt hs hlt) hr.cursor_le_stop
  exact ⟨new ++ new', hr.trans hr', h.join h'⟩

theorem blockLoop_reads {closers : List Closer} {construct : Construct}
    (hopened : input.Marks opened) (rounds : Nat) : ∀ i, m ≤ i → input.stop < i + rounds →
    Reads .names input i (blockLoop stmt closers construct opened rounds) (Body input P) := by
  induction rounds with
  | zero => exact fun i _ hi => .past_stop hi
  | succ rounds ih =>
    intro i hm hi
    have hunclosed : Reads .names input i (do report (.unclosed construct) opened; return [])
        (Body input P) :=
      .report hopened (.pure (.nothing (.fault rfl)))
    refine .silent (skipWhile_reads rfl) fun _ => .read ?_
    refine .place (fun j heof => ?_) fun j htoken => ?_
    · -- at the end of the input there is no further round
      split
      · exact .pure (.nothing .nothing)
      · rw [if_pos (.inl heof)]
        exact hunclosed
    · split
      · exact (Reads.pure (.nothing .nothing)).starts
      · split
        · exact hunclosed.starts
        · refine round_starts (hstmt.later hm) finishOrRecover_reads ?_
          exact ih (i + 1) (by omega) (by omega)

theorem block_reads {closers : List Closer} {construct : Construct}
    (hopened : input.Marks opened) :
    Reads .names input m (block stmt closers construct opened) (Body input P) :=
  .inBlock (.bounded (blockLoop_reads hstmt hopened))

/-! ### Branches -/

omit hstmt in
theorem finishInline_reads (complete : Bool) :
    Reads k input m (finishInline complete) fun _ new => Accounts input [] new := by
  refine .look fun rest => ?_
  extract_lets skip
  have hskip : Reads k input m (skip ()) fun _ new => new = [] := skipWhile_reads rfl
  split
  · refine (reportExpected_reads _).bind fun _ new h => hskip.imp fun _ new' h' => ?_
    obtain ⟨e, he, rfl⟩ := h
    rw [h', List.append_nil]
    exact .syntaxError he
  · exact hskip.imp fun _ new h => h ▸ .nothing

theorem inlineLoop_reads (rounds : Nat) : ∀ i, m ≤ i → input.stop < i + rounds →
    Reads .names input i (inlineLoop stmt rounds) (Body input P) := by
  induction rounds with
  | zero => exact fun i _ hi => .past_stop hi
  | succ rounds ih =>
    intro i hm hi
    refine .silent (skipWhile_reads rfl) fun _ => ?_
    refine .kind (.pure (.nothing .nothing)) fun kind _ => ?_
    split
    · exact (Reads.pure (.nothing .nothing)).starts
    · refine round_starts (hstmt.later hm) finishInline_reads ?_
      exact ih (i + 1) (by omega) (by omega)

theorem inlineStmts_reads : Reads .names input m (inlineStmts stmt) (Body input P) :=
  .inBlock (.bounded (inlineLoop_reads hstmt))

omit hstmt in
theorem built_if {span : Span} {condition : Expr} {thenBranch : List Stmt}
    {branches : List ElseIf} {elseBranch : Option (List Stmt)} (hthen : ∀ s ∈ thenBranch, P s)
    (hbranches : ∀ branch ∈ branches, ∀ s ∈ branch.body, P s)
    (helse : ∀ block ∈ elseBranch, ∀ s ∈ block, P s) :
    (Stmt.if_ span condition thenBranch branches elseBranch).Built input (some .if_) P := by
  refine ⟨rfl, List.forall_mem_nil _, ?_⟩
  simp only [Stmt.blocks, Stmt.routines, List.append_nil, List.forall_mem_cons,
    List.forall_mem_append, List.forall_mem_map, Option.mem_toList]
  exact ⟨hthen, hbranches, helse⟩

theorem lineIf_reads {condition : Expr} (h : Accounts input [condition] before) :
    Reads .names input m (lineIf stmt start condition) fun o new =>
      Outcome input Stmt.exprs (Stmt.Built input (some .if_) P) o (before ++ new) := by
  refine (inlineStmts_reads hstmt).bind fun thenBranch new ht => ?_
  refine .silent (accept_reads (by decide)) fun otherwise => ?_
  refine .optional (inlineStmts_reads hstmt) fun elseBranch new' he helse => ?_
  refine .silent (accept_reads (by decide)) fun _ => ?_
  simp only [← List.append_assoc]
  refine stmtFrom_reads (fun _ => built_if ht.2 (List.forall_mem_nil _) helse) fun span =>
    ((h.join ht.1).join he).arrange ?_
  have hperm := (Stmt.exprs_if span condition thenBranch [] elseBranch).symm
  simpa [elseIfExprs, elseIfsWithin] using hperm

omit hstmt in
theorem acceptElseIf_reads {f : Bool → Parser β} (htrue : Reads k input (m + 1) (f true) R)
    (hfalse : Reads k input m (f false) R) : Reads k input m (acceptElseIf >>= f) R := by
  unfold acceptElseIf
  rw [bind_assoc]
  refine .accept (by decide) htrue ?_
  rw [if_neg Bool.false_ne_true, bind_assoc]
  refine .check (by decide) ?_ ?_
  · rw [bind_assoc]
    refine Starts.look fun next => ?_
    split
    · show Starts k input m (do advance; advance; f true) R
      exact Starts.advance (.silent advance_reads fun _ => htrue)
    · exact hfalse.starts
  · rw [bind_assoc]
    exact .look fun next => hfalse

theorem elseIfs_reads (hopened : input.Marks opened) (rounds : Nat) :
    ∀ i, m ≤ i → input.stop < i + rounds →
    Reads .names input i (elseIfs stmt opened rounds) fun branches new =>
      Accounts input (elseIfExprs branches) new ∧ ∀ branch ∈ branches, ∀ s ∈ branch.body, P s := by
  induction rounds with
  | zero => exact fun i _ hi => .past_stop hi
  | succ rounds ih =>
    intro i hm hi
    refine acceptElseIf_reads ?_ (.pure ⟨.nothing, List.forall_mem_nil _⟩)
    refine expression_reads.bind fun condition new hc => ?_
    refine .silent (accept_reads (by decide)) fun _ => ?_
    refine (block_reads (hstmt.later (by omega)) hopened).bind fun body new' hb => ?_
    refine (ih (i + 1) (by omega) (by omega)).bind fun rest new'' hr => .pure ?_
    rw [List.append_nil, ← List.append_assoc]
    refine ⟨((hc.join hb.1).join hr.1).arrange ?_, List.forall_mem_cons.mpr ⟨hb.2, hr.2⟩⟩
    simpa using (elseIfExprs_cons condition body rest).symm

theorem blockIf_reads {condition : Expr} (h : Accounts input [condition] before) :
    Reads .names input m (blockIf stmt start condition) fun o new =>
      Outcome input Stmt.exprs (Stmt.Built input (some .if_) P) o (before ++ new) := by
  refine .span fun opened hopened => ?_
  refine (block_reads hstmt hopened).bind fun thenBranch new ht => ?_
  refine (Reads.bounded (elseIfs_reads hstmt hopened)).bind fun branches new' hb => ?_
  refine .silent (accept_reads (by decide)) fun otherwise => ?_
  refine .optional (block_reads hstmt hopened) fun elseBranch new'' he helse => ?_
  refine .silent (acceptCloser_reads _) fun closed => ?_
  extract_lets make
  have hmake : Reads .names input m (make ()) fun o all =>
      Outcome input Stmt.exprs (Stmt.Built input (some .if_) P) o
        (before ++ new ++ new' ++ new'' ++ all) := by
    refine stmtFrom_reads (fun _ => built_if ht.2 hb.2 helse) fun span =>
      (((h.join ht.1).join hb.1).join he).arrange ?_
    simpa using (Stmt.exprs_if span condition thenBranch branches elseBranch).symm
  simp only [← List.append_assoc]
  split
  · exact hmake
  · exact .silent (acceptCloser_reads _) fun _ => hmake

end Blocks

theorem ifStmt_starts (hstmt : ReadsInner input (m + 1) P stmt) :
    StartsStmt input m (some .if_) P (ifStmt stmt) := by
  refine Starts.look fun start => Starts.advance ?_
  refine expression_reads.bind fun condition new h => ?_
  refine .silent (accept_reads (by decide)) fun _ => .look fun kind => ?_
  split
  · exact blockIf_reads hstmt h
  · exact lineIf_reads hstmt h

/-- What was read of `Select`.  After the first `Default` another one is an error about the form,
and its statements take the place of those before. -/
structure SelectOutcome (input : Input) (P : Stmt → Prop) (seen : Bool)
    (clauses : List CaseClause × Option (List Stmt)) (new : List ParseError) : Prop where
  accounts : Accounts input (caseExprs clauses.1 ++ clauses.2.elim [] blockExprs) new
  again : seen = true → clauses.2.isSome = true → ∃ e ∈ new, IsSyntax e
  cases : ∀ clause ∈ clauses.1, ∀ s ∈ clause.body, P s
  last : ∀ block ∈ clauses.2, ∀ s ∈ block, P s

section Select

variable {seen : Bool} {new new' new'' : List ParseError}
variable {rest : List CaseClause × Option (List Stmt)} {body : List Stmt}

theorem SelectOutcome.end_ (h : Accounts input [] new) :
    SelectOutcome input P seen ([], none) new :=
  ⟨h, fun _ hsome => absurd hsome Bool.false_ne_true, List.forall_mem_nil _, nofun⟩

theorem SelectOutcome.skip (h : Accounts input [] new)
    (hr : SelectOutcome input P seen rest new') :
    SelectOutcome input P seen rest (new ++ new') := by
  refine ⟨h.join hr.accounts, fun hseen hsome => ?_, hr.cases, hr.last⟩
  obtain ⟨e, he, hsyntax⟩ := hr.again hseen hsome
  exact ⟨e, List.mem_append_right new he, hsyntax⟩

theorem SelectOutcome.case {values : List Expr} {span : Span} (hv : Accounts input values new)
    (hb : Body input P body new') (hr : SelectOutcome input P seen rest new'') :
    SelectOutcome input P seen (.mk values body span :: rest.1, rest.2)
      (new ++ new' ++ new'') := by
  refine ⟨((hv.join hb.1).join hr.accounts).arrange ?_, fun hseen hsome => ?_,
    List.forall_mem_cons.mpr ⟨hb.2, hr.cases⟩, hr.last⟩
  · have hcons := (caseExprs_cons values body span rest.1).symm.append_right
      (rest.2.elim [] blockExprs)
    simpa using hcons
  · obtain ⟨e, he, hsyntax⟩ := hr.again hseen hsome
    exact ⟨e, List.mem_append_right _ he, hsyntax⟩

/-- The statements of a `Default` stand for the others unless another `Default` follows. -/
theorem SelectOutcome.default (h : Accounts input [] new)
    (hseen : seen = true → ∃ e ∈ new, IsSyntax e)
    (hb : Body input P body new') (hr : SelectOutcome input P true rest new'') :
    SelectOutcome input P seen (rest.1, rest.2.or (some body)) (new ++ new' ++ new'') := by
  have hall := (h.join hb.1).join hr.accounts
  refine ⟨?_, fun hs _ => ?_, hr.cases, fun block hblock => ?_⟩
  · cases hd : rest.2 with
    | none =>
      rw [hd] at hall
      refine hall.arrange ?_
      simpa using List.perm_append_comm
    | some last =>
      -- the later `Default` is an error, on account of which this body is dropped
      obtain ⟨e, he, hsyntax⟩ := hr.again rfl (by rw [hd]; rfl)
      rw [hd] at hall
      have hswap := hall.arrange List.perm_append_comm
      exact hswap.drop ⟨e, List.mem_append_right _ he, hsyntax⟩
  · obtain ⟨e, he, hsyntax⟩ := hseen hs
    exact ⟨e, List.mem_append_left _ (List.mem_append_left _ he), hsyntax⟩
  · -- of two `Default` blocks the later one is kept
    rcases Option.or_eq_some_iff.mp hblock with hlast | ⟨-, hbody⟩
    · exact hr.last block hlast
    · cases hbody
      exact hb.2

end Select

theorem selectLoop_reads (hstmt : ReadsInner input m P stmt) (hopened : input.Marks opened)
    (rounds : Nat) : ∀ i seen, m ≤ i → input.stop < i + rounds →
    Reads .names input i (selectLoop stmt opened rounds seen) (SelectOutcome input P seen) := by
  induction rounds with
  | zero => exact fun i _ _ hi => .past_stop hi
  | succ rounds ih =>
    intro i seen hm hi
    refine .silent (skipWhile_reads rfl) fun _ => .cursor fun start hstart => ?_
    -- whatever stands at `start`, the next round begins behind it
    have hnext : ∀ seen, Reads .names input (start + 1) (selectLoop stmt opened rounds seen)
        (SelectOutcome input P seen) :=
      fun seen => ih (start + 1) seen (by omega) (by omega)
    have hblock : Reads .names input (start + 1) (block stmt caseClosers .select opened)
        (Body input P) :=
      block_reads (hstmt.later (Nat.le_succ_of_le (Nat.le_trans hm hstart))) hopened
    refine .ifAcceptCloser (.pure (.end_ .nothing)) ?_
    refine .ifAccept (by decide) ?_ (.ifAccept (by decide) ?_ ?_)
    · refine (separated_exprs_reads expression_reads).bind fun values new hv => ?_
      refine hblock.bind fun body new' hb => .look fun span => ?_
      refine (hnext seen).bind fun rest new'' hr => .pure ?_
      rw [List.append_nil, ← List.append_assoc]
      exact .case hv hb hr
    · extract_lets go
      have hgo : ∀ {new}, Accounts input [] new →
          (seen = true → ∃ e ∈ new, IsSyntax e) →
          Reads .names input (start + 1) (go ()) fun clauses new' =>
            SelectOutcome input P seen clauses (new ++ new') := by
        intro new h hseen
        refine hblock.bind fun body new' hb => ?_
        refine (hnext true).bind fun rest new'' hr => .pure ?_
        rw [List.append_nil, ← List.append_assoc]
        exact .default h hseen hb hr
      cases seen with
      | true =>
        refine .span fun span hspan => .report hspan ?_
        exact hgo (.fault rfl) fun _ => ⟨_, List.mem_singleton_self _, rfl⟩
      | false => exact hgo .nothing nofun
    · have hclose : Reads .names input start (do
          unless reportedUnclosed (← get).errors opened do
            report (.unclosed .select) opened
          return ([], none)) (SelectOutcome input P seen) := by
        refine .look fun s => ?_
        split
        · exact .pure (.end_ .nothing)
        · exact .report hopened (.pure (.end_ (.fault rfl)))
      refine .atEnd (.look fun closes => hclose) ?_
      refine Starts.look fun closes => ?_
      split
      · exact hclose.starts
      · refine Starts.of_lt fun hstop => .reportExpected fun e he => ?_
        refine .silent recover_reads fun _ => .passFrom hstop ?_
        exact (hnext seen).imp fun rest new h => .skip (.syntaxError he) h

theorem selectStmt_starts (hstmt : ReadsInner input (m + 1) P stmt) :
    StartsStmt input m (some .select) P (selectStmt stmt) := by
  refine Starts.look fun start => Starts.advance ?_
  refine expression_reads.bind fun subject new h => .span fun opened hopened => ?_
  have hloop : Reads .names input (m + 1) (bounded fun rounds => selectLoop stmt opened rounds false)
      (SelectOutcome input P false) :=
    .bounded fun rounds i => selectLoop_reads hstmt hopened rounds i false
  refine hloop.bind fun clauses new' hc => ?_
  simp only [← List.append_assoc]
  refine stmtFrom_reads (fun span => ⟨rfl, List.forall_mem_nil _, ?_⟩) fun span => ?_
  · simp only [Stmt.blocks, Stmt.routines, List.append_nil, List.forall_mem_append,
      List.forall_mem_map, Option.mem_toList]
    exact ⟨hc.cases, hc.last⟩
  · rw [Stmt.exprs_select]
    exact h.join hc.accounts

/-! ### Loops -/

/-- A statement with one block. -/
theorem built_of_block {s : Stmt} {word : Option Keyword} {body : List Stmt} (hword : s.word? = word)
    (hnames : ∀ use ∈ s.uses, input.Writes use.1) (hblocks : s.blocks ++ s.routines = [body])
    (hbody : ∀ s ∈ body, P s) : s.Built input word P :=
  ⟨hword, hnames, hblocks ▸ List.forall_mem_singleton.mpr hbody⟩

theorem whileStmt_starts (hstmt : ReadsInner input (m + 1) P stmt) :
    StartsStmt input m (some .while_) P (whileStmt stmt) := by
  refine Starts.look fun start => Starts.advance ?_
  refine expression_reads.bind fun condition new h => .span fun opened hopened => ?_
  refine (block_reads hstmt hopened).bind fun body new' hb => ?_
  refine .silent (acceptCloser_reads _) fun _ => ?_
  simp only [← List.append_assoc]
  exact stmtFrom_reads (fun _ => built_of_block rfl (List.forall_mem_nil _) rfl hb.2)
    fun span => h.join hb.1

theorem repeatStmt_starts (hstmt : ReadsInner input (m + 1) P stmt) :
    StartsStmt input m (some .repeat_) P (repeatStmt stmt) := by
  refine Starts.look fun start => Starts.advance ?_
  refine .span fun opened hopened => (block_reads hstmt hopened).bind fun body new hb => ?_
  have hbuilt : ∀ condition span, (Stmt.repeat_ span body condition).Built input (some .repeat_) P :=
    fun _ _ => built_of_block rfl (List.forall_mem_nil _) rfl hb.2
  refine .silent (accept_reads (by decide)) fun until_ => ?_
  split
  · refine expression_reads.bind fun condition new' h => ?_
    simp only [← List.append_assoc]
    exact stmtFrom_reads (hbuilt _) fun span => (hb.1.join h).arrange List.perm_append_comm
  · exact .silent (accept_reads (by decide)) fun _ => stmtFrom_reads (hbuilt _) fun span => hb.1

theorem forBody_reads {construct : Construct} (hstmt : ReadsInner input m P stmt) :
    Reads .names input m (forBody stmt construct start) (Body input P) := by
  refine .span fun opened hopened => (block_reads hstmt hopened).bind fun body new h => ?_
  have hpure : Reads .names input m (Pure.pure body) fun stmts new' =>
      Body input P stmts (new ++ new') :=
    .done h
  refine .silent (acceptCloser_reads _) fun closed => ?_
  split
  · refine .look fun named => ?_
    split
    · exact .silent advance_reads fun _ => hpure
    · exact hpure
  · exact hpure

theorem declareLoopVariable_reads (name : String) (symbol : Symbol) :
    Reads .names input m (declareLoopVariable name symbol) fun _ new => new = [] := by
  refine .look fun known => ?_
  split
  · exact define_reads symbol
  · exact .pure rfl

theorem forEachStmt_reads {name : String} {tag : Option String} (hname : input.Names name)
    (hstmt : ReadsInner input m P stmt) :
    ReadsStmt input m (some .for_) P (forEachStmt stmt start name tag) := by
  refine typeName_reads.bind fun type new h => ?_
  cases type with
  | none => exact .failed h.1 h.2
  | some type =>
    dsimp -zeta only
    extract_lets go
    have hgo : ∀ {all}, Accounts input [] all →
        Reads .names input m (go ()) fun o new =>
          Outcome input Stmt.exprs (Stmt.Built input (some .for_) P) o (all ++ new) := by
      intro all hall
      refine .silent (declareLoopVariable_reads _ _) fun _ => ?_
      refine (forBody_reads hstmt).bind fun body new hb => ?_
      simp only [← List.append_assoc]
      exact stmtFrom_reads (fun _ => built_of_block rfl (writes_of_use hname) rfl hb.2)
        fun span => hall.join hb.1
    split
    · refine .span fun span hspan => .report hspan ?_
      simp only [← List.append_assoc]
      exact hgo (h.1.join (.fault rfl))
    · exact hgo h.1

theorem forRangeStmt_reads {name : String} (hname : input.Names name)
    (hstmt : ReadsInner input m P stmt) :
    ReadsStmt input m (some .for_) P (forRangeStmt stmt start name) := by
  refine .silent (declareLoopVariable_reads _ _) fun _ => ?_
  refine expression_reads.bind fun first new h => ?_
  refine .expect (by decide) (fun _ _ => ?_) fun e he => .missing h he
  refine expression_reads.bind fun last new' h' => ?_
  refine .silent (accept_reads (by decide)) fun stepped => ?_
  refine .optional (expression_reads.imp fun _ _ h => ⟨h, trivial⟩) fun step news hs _ => ?_
  refine (forBody_reads (hstmt.later (Nat.le_succ m))).bind fun body newb hb => ?_
  simp only [← List.append_assoc]
  refine stmtFrom_reads (fun _ => built_of_block rfl (writes_of_use hname) rfl hb.2) fun span => ?_
  have hall := ((h.join h').join hs).join hb.1
  cases step with
  | none => exact hall
  | some step => exact hall

theorem forStmt_starts (hstmt : ReadsInner input (m + 1) P stmt) :
    StartsStmt input m (some .for_) P (forStmt stmt) := by
  refine Starts.look fun start => Starts.advance (.name (fun token hname => ?_) rfl)
  refine .silent typeTag_reads fun tag => ?_
  refine .expect (by decide) (fun _ _ => ?_) fun e he => .missing .nothing he
  refine .silent (accept_reads (by decide)) fun each => ?_
  have hinner := hstmt.later (show m + 1 ≤ m + 1 + 1 + 1 by omega)
  split
  · exact forEachStmt_reads hname hinner
  · exact forRangeStmt_reads hname hinner

/-! ### Functions and types -/

theorem param_reads :
    Reads k input m param (Outcome input (fun p => p.default.toList) fun _ => True) := by
  refine .look fun start => .name (fun token _ => ?_) rfl
  refine .silent typeTag_reads fun tag => initialValue_reads.bind fun value new h => ?_
  exact .look fun span => .done ⟨h, trivial⟩

theorem params_reads :
    Reads k input m params fun found new =>
      Accounts input (found.flatMap fun p => p.default.toList) new := by
  refine .expect (by decide) (fun _ _ => ?_) fun e he => ?_
  · refine .ifAccept (by decide) (.pure .nothing) ?_
    refine (collect_collected param_reads).bind fun items new h => ?_
    obtain ⟨found, complete⟩ := items
    dsimp -zeta only
    extract_lets keep finish
    have hfinish : ∀ {closed all}, Accounts input [] all →
        Reads k input (m + 1) (finish closed) fun found new' =>
          Accounts input (found.flatMap fun p => p.default.toList)
            (new ++ (all ++ new')) := by
      intro closed all hall
      have hpure : Reads k input (m + 1) (Pure.pure found) fun found new' =>
          Accounts input (found.flatMap fun p => p.default.toList)
            (new ++ (all ++ new')) := by
        refine .pure ?_
        rw [List.append_nil]
        exact h.accounts.beside hall
      cases closed with
      | none => exact .silent (skipWhile_reads rfl) fun _ => hpure
      | some _ => exact hpure
    cases complete with
    | true =>
      refine .expect (by decide) (fun _ _ => ?_) fun e he => hfinish (.syntaxError he)
      exact (hfinish .nothing).later (Nat.le_succ _)
    | false =>
      show Reads k input (m + 1) (finish none) _
      exact hfinish .nothing
  · refine .silent (skipWhile_reads rfl) fun _ => .pure ?_
    exact .syntaxError he

theorem functionName_reads :
    Reads k input m functionName (Outcome input (fun _ => []) fun _ => True) := by
  refine .token (reportMissing_reads _) fun token htoken => ?_
  dsimp only
  split
  · exact .silent advance_reads fun _ => .pure ⟨.nothing, trivial⟩
  · split
    · refine .silent advance_reads fun _ => .report (Input.marks_token htoken) ?_
      exact .pure ⟨.fault rfl, trivial⟩
    · exact reportMissing_reads _

theorem functionBody_reads {found : List Param} (hstmt : ReadsInner input m P stmt) :
    Reads .names input m (functionBody stmt start found) (Body input P) := by
  have hdefine : Reads .names input m
      (found.forM fun p => define (.declared p.name p.typeName (p.default.map Expr.type)))
      fun _ new => new = [] := by
    induction found with
    | nil => exact .pure rfl
    | cons p rest ih => exact .silent (define_reads _) fun _ => ih
  have hbody : Reads .names input m (do
      found.forM fun p => define (.declared p.name p.typeName (p.default.map Expr.type))
      let opened ← spanFrom start
      block stmt [.endOf .function] .function opened) (Body input P) :=
    .silent hdefine fun _ => .span fun _ => block_reads hstmt
  exact .inScope hbody

theorem functionStmt_starts (hstmt : ReadsInner input (m + 1) P stmt) :
    StartsStmt input m (some .function) P (functionStmt stmt) := by
  refine Starts.look fun start => Starts.advance ?_
  refine functionName_reads.bind fun name new h => ?_
  cases name with
  | none => exact .failed h.1 h.2
  | some name =>
    refine .silent typeTag_reads fun tag => .look fun s => ?_
    extract_lets go
    have hgo : ∀ {all}, Accounts input [] all →
        Reads .names input (m + 1) (go ()) fun o new =>
          Outcome input Stmt.exprs (Stmt.Built input (some .function) P) o (all ++ new) := by
      intro all hall
      refine params_reads.bind fun found new hp => .silent (defineGlobal_reads _) fun _ => ?_
      refine (functionBody_reads hstmt).bind fun body new' hb => ?_
      refine .silent (acceptCloser_reads _) fun _ => ?_
      simp only [← List.append_assoc]
      refine stmtFrom_reads (fun _ => built_of_block rfl (List.forall_mem_nil _) rfl hb.2) fun span => ?_
      have hparts := (hall.join hp).join hb.1
      rw [List.nil_append, ← List.filterMap_eq_flatMap_toList] at hparts
      exact hparts
    split
    · refine .look fun s' => ?_
      extract_lets nested
      refine .span fun span hspan => .report hspan ?_
      simp only [← List.append_assoc]
      refine hgo (h.1.join (.fault ?_))
      dsimp only [nested]
      split
      · rfl
      · rfl
    · exact hgo h.1

theorem fieldDecl_reads :
    Reads k input m fieldDecl (Outcome input (fun _ => []) fun _ => True) := by
  refine .look fun start => .name (fun token _ => ?_) rfl
  exact .silent typeTag_reads fun tag => .look fun span => .pure ⟨.nothing, trivial⟩

theorem fieldLoop_reads (hopened : input.Marks opened) (rounds : Nat) :
    ∀ i, m ≤ i → input.stop < i + rounds →
    Reads k input i (fieldLoop opened rounds) fun _ new => Accounts input [] new := by
  induction rounds with
  | zero => exact fun i _ hi => .past_stop hi
  | succ rounds ih =>
    intro i hm hi
    refine .silent (skipWhile_reads rfl) fun _ => .cursor fun start hstart => ?_
    have hnext := ih (start + 1) (by omega) (by omega)
    refine .ifAcceptCloser (.pure .nothing) (.ifAccept (by decide) ?_ ?_)
    · refine (collect_collected fieldDecl_reads).bind fun found new h => ?_
      refine finishStatement_accounts.bind fun _ new' h' => hnext.bind fun rest newr h'' => .pure ?_
      have hnil : found.1.flatMap (fun _ => ([] : List Expr)) = [] := by simp
      have hnone : Accounts input [] new := hnil ▸ h.accounts
      rw [List.append_nil, ← List.append_assoc]
      exact (hnone.join h').join h''
    · have hclose : Reads k input start
          (do report (.unclosed .type) opened; return ([] : List FieldDecl))
          fun _ new => Accounts input [] new :=
        .report hopened (.pure (.fault rfl))
      refine .atEnd (.look fun closes => hclose) ?_
      refine Starts.look fun closes => ?_
      split
      · exact hclose.starts
      · refine Starts.of_lt fun hstop => .reportExpected fun e he => ?_
        refine .silent recover_reads fun _ => .passFrom hstop ?_
        exact hnext.imp fun rest new h => Accounts.join (.syntaxError he) h

theorem typeStmt_reads : ReadsStmt input m (some .type) P typeStmt := by
  refine .look fun start => .silent advance_reads fun _ => .name (fun token _ => ?_) rfl
  refine .span fun opened hopened => .look fun s => ?_
  extract_lets go
  have hgo : ∀ {all}, Accounts input [] all →
      Reads .names input (m + 1) (go ()) fun o new =>
        Outcome input Stmt.exprs (Stmt.Built input (some .type) P) o (all ++ new) := by
    intro all hall
    refine (Reads.bounded (fieldLoop_reads hopened)).bind fun fields new h => ?_
    refine .silent (defineGlobal_reads _) fun _ => ?_
    simp only [← List.append_assoc]
    exact stmtFrom_reads (fun _ => .plain rfl rfl rfl) fun span => hall.join h
  split
  · exact .report hopened (hgo (.fault rfl))
  · exact hgo .nothing

end FrameBasic.Parser
