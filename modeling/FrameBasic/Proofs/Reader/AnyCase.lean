import FrameBasic.Proofs.Reader.AgreeSimple
import FrameBasic.Proofs.Reader.Data
import FrameBasic.Tree.Parser.Program

/-!
# Programs in any case

Two lists of tokens that differ only in the case of names and labels hold the same program up to the
case of its names, and the same faults at the same places.  The reader of a statement with blocks
agrees with itself on both lists when the reader of the statements inside it does.

## Main definitions

* `Parser.readAllFrom` — the statements of an input, with the `Data` values of another one.

## Main results

* `Parser.block_agrees` — the statements of a block.
* `Parser.statementAt_agrees` — **a statement is read alike in any case**.
* `Parser.Input.Alike.foretold` — the functions and types of a program are known alike.
* `Parser.readAll_agrees` — **a program is read alike in any case**, with its errors.
* `Parser.dataStmt_congr` — a `Data` statement that lists no name is read alike for all spellings.
* `Program.parse_congr` — **commands that are not among the tokens do not matter**.
-/

namespace FrameBasic.Parser

variable {r : Relabel} [r.Respells] {input input' : Input} {h : input.Alike r input'}
variable {start : Nat} {name name' : String}

/-! ### Blocks -/

variable {stmt stmt' : Parser (Option Stmt)}

/-- The readers give blocks that are equal up to case. -/
abbrev BlocksAgree (h : input.Alike r input') (p p' : Parser (List Stmt)) : Prop :=
  Agrees h (Same (relabelStmts r)) p p'

theorem round_agrees (hstmt : StmtsAgree h stmt stmt') {finish : Bool → Parser Unit}
    (hfinish : ∀ complete, Steady h Eq (finish complete)) :
    StmtsAgree h (round finish stmt) (round finish stmt') := by
  refine .same cursor_agrees fun start => hstmt.bind fun o o' ho => ?_
  have hsome := congrArg Option.isSome ho
  rw [Option.isSome_map, Option.isSome_map] at hsome
  rw [hsome]
  exact .same (hfinish _) fun _ => .same (passFrom_agrees start) fun _ => .pure ho

theorem finishOrRecover_agrees (complete : Bool) :
    Steady h Eq (finishOrRecover complete) := by
  exact .ite finishStatement_agrees recover_agrees

/-- A statement, if it could be read, before others. -/
theorem stmts_agrees {p p' : Parser (Option Stmt)} {q q' : Parser (List Stmt)}
    (hp : StmtsAgree h p p') (hq : BlocksAgree h q q') :
    BlocksAgree h
      (do let first ← p; let rest ← q; return first.toList ++ rest)
      (do let first ← p'; let rest ← q'; return first.toList ++ rest) := by
  refine hp.bind fun o o' ho => hq.bind fun rest rest' hrest => .pure ?_
  have hrest : relabelStmts r rest = relabelStmts r rest' := hrest
  show relabelStmts r (o.toList ++ rest) = relabelStmts r (o'.toList ++ rest')
  rw [relabelStmts_eq_map] at hrest ⊢
  rw [relabelStmts_eq_map] at hrest ⊢
  rw [List.map_append, List.map_append, hrest, ← Option.toList_map, ho, Option.toList_map]

theorem blockLoop_agrees (hstmt : StmtsAgree h stmt stmt') (closers : List Closer)
    (construct : Construct) (opened : Span) (rounds : Nat) :
    BlocksAgree h (blockLoop stmt closers construct opened rounds)
      (blockLoop stmt' closers construct opened rounds) := by
  induction rounds with
  | zero => exact .same exhaust_agrees fun _ => .pure rfl
  | succ rounds ih =>
    refine .same (skipWhile_agrees _) fun _ => .read (.same cursor_agrees fun i => ?_)
    rw [funext (h.closesWith i), h.kind, h.closesAny]
    refine .ite (.pure rfl) (.ite (.same (report_agrees rfl opened) fun _ => .pure rfl) ?_)
    exact stmts_agrees (round_agrees hstmt finishOrRecover_agrees) ih

theorem block_agrees (hstmt : StmtsAgree h stmt stmt') (closers : List Closer) (construct : Construct)
    (opened : Span) :
    BlocksAgree h (block stmt closers construct opened) (block stmt' closers construct opened) :=
  inBlock_agrees (bounded_agrees fun rounds => blockLoop_agrees hstmt closers construct opened rounds)

/-! ### Branches -/

theorem finishInline_agrees (complete : Bool) :
    Steady h Eq (finishInline complete) :=
  .same kind_agrees fun _ => .ite
    (.same (reportExpected_agrees rfl) fun _ => skipWhile_agrees _) (skipWhile_agrees _)

theorem inlineLoop_agrees (hstmt : StmtsAgree h stmt stmt') (rounds : Nat) :
    BlocksAgree h (inlineLoop stmt rounds) (inlineLoop stmt' rounds) := by
  induction rounds with
  | zero => exact .same exhaust_agrees fun _ => .pure rfl
  | succ rounds ih =>
    refine .same (skipWhile_agrees _) fun _ => .same kind_agrees fun _ => .ite (.pure rfl) ?_
    exact stmts_agrees (round_agrees hstmt finishInline_agrees) ih

theorem inlineStmts_agrees (hstmt : StmtsAgree h stmt stmt') :
    BlocksAgree h (inlineStmts stmt) (inlineStmts stmt') :=
  inBlock_agrees (bounded_agrees (inlineLoop_agrees hstmt))

theorem lineIf_agrees (hstmt : StmtsAgree h stmt stmt') {condition condition' : Expr}
    (hcondition : condition.relabel r = condition'.relabel r) :
    StmtsAgree h (lineIf stmt start condition) (lineIf stmt' start condition') := by
  refine (inlineStmts_agrees hstmt).bind fun body body' hbody => .same (accept_agrees _) fun _ => ?_
  refine .iteBind (inlineStmts_agrees hstmt).some (.pure rfl) fun branch branch' hbranch => ?_
  refine .same (accept_agrees _) fun _ => stmtFrom_agrees fun span => ?_
  simp only [Stmt.relabel_if, hcondition, hbody, hbranch]

theorem acceptElseIf_agrees : Steady h Eq acceptElseIf := by
  refine .same (accept_agrees _) fun _ => .ite (.pure rfl) ?_
  refine .same (check_agrees _) fun _ => .same (kindAhead_agrees 1) fun _ => .ite ?_ (.pure rfl)
  exact .same advance_agrees fun _ => .same advance_agrees fun _ => .pure rfl

theorem elseIfs_agrees (hstmt : StmtsAgree h stmt stmt') (opened : Span) (rounds : Nat) :
    Agrees h (Same (relabelElseIfs r)) (elseIfs stmt opened rounds) (elseIfs stmt' opened rounds) := by
  induction rounds with
  | zero => exact .same exhaust_agrees fun _ => .pure rfl
  | succ rounds ih =>
    refine .same acceptElseIf_agrees fun _ => .ite ?_ (.pure rfl)
    refine expression_agrees.bind fun e e' he => .same (accept_agrees _) fun _ => ?_
    refine (block_agrees hstmt _ _ _).bind fun body body' hbody => ih.bind fun rest rest' hrest => ?_
    refine .pure ?_
    simp only [Same, relabelElseIfs, he, hbody, hrest]

theorem blockIf_agrees (hstmt : StmtsAgree h stmt stmt') {condition condition' : Expr}
    (hcondition : condition.relabel r = condition'.relabel r) :
    StmtsAgree h (blockIf stmt start condition) (blockIf stmt' start condition') := by
  refine .same (spanFrom_agrees start) fun opened => ?_
  refine (block_agrees hstmt _ _ _).bind fun body body' hbody => ?_
  refine (bounded_agrees (elseIfs_agrees hstmt opened)).bind fun rest rest' hrest => ?_
  refine .same (accept_agrees _) fun _ => ?_
  refine .iteBind (block_agrees hstmt _ _ _).some (.pure rfl) fun branch branch' hbranch => ?_
  have hmade : StmtsAgree h (stmtFrom start (.if_ · condition body rest branch))
      (stmtFrom start (.if_ · condition' body' rest' branch')) := by
    refine stmtFrom_agrees fun span => ?_
    simp only [Stmt.relabel_if, hcondition, hbody, hrest, hbranch]
  refine .same (acceptCloser_agrees _) fun _ => .ite hmade ?_
  exact .same (acceptCloser_agrees _) fun _ => hmade

theorem ifStmt_agrees (hstmt : StmtsAgree h stmt stmt') :
    StmtsAgree h (ifStmt stmt) (ifStmt stmt') := by
  refine .word fun start => ?_
  refine expression_agrees.bind fun e e' he => .same (accept_agrees _) fun _ => ?_
  exact .same kind_agrees fun _ => .ite (blockIf_agrees hstmt he) (lineIf_agrees hstmt he)

omit [r.Respells] in
/-- Whether a block was recorded as not closed does not depend on case. -/
theorem reportedUnclosed_congr {errors errors' : List ParseError}
    (herrors : errors.map (ParseError.relabel r) = errors'.map (ParseError.relabel r)) (opened : Span) :
    reportedUnclosed errors opened = reportedUnclosed errors' opened := by
  have hsame : ∀ errors : List ParseError,
      reportedUnclosed (errors.map (ParseError.relabel r)) opened = reportedUnclosed errors opened := by
    intro errors
    unfold reportedUnclosed
    rw [List.getLast?_map]
    cases errors.getLast? with
    | none => rfl
    | some e =>
      obtain ⟨fault, span⟩ := e
      cases fault <;> rfl
  rw [← hsame, herrors, hsame]

theorem selectLoop_agrees (hstmt : StmtsAgree h stmt stmt') (opened : Span) (rounds : Nat) : ∀ seen : Bool,
    Agrees h (Same (Prod.map (relabelCases r) (Option.map (relabelStmts r))))
      (selectLoop stmt opened rounds seen) (selectLoop stmt' opened rounds seen) := by
  induction rounds with
  | zero => exact fun _ => .same exhaust_agrees fun _ => .pure rfl
  | succ rounds ih =>
    intro seen
    refine .same (skipWhile_agrees _) fun _ => .same cursor_agrees fun start => ?_
    refine .same (acceptCloser_agrees _) fun _ => .ite (.pure rfl) ?_
    refine .same (accept_agrees _) fun _ => .ite ?_ (.same (accept_agrees _) fun _ => .ite ?_ ?_)
    · refine (args_agrees expression_agrees).bind fun values values' hvalues => ?_
      refine (block_agrees hstmt _ _ _).bind fun body body' hbody => ?_
      refine .same (spanFrom_agrees start) fun span => (ih seen).bind fun all all' hall => .pure ?_
      obtain ⟨hcases, hdefault⟩ := Prod.mk.inj hall
      simp only [Same, Prod.map, relabelCases, hvalues, hbody, hcases, hdefault]
    · refine .also ?_ fun hrest => .same (spanFrom_agrees start) fun span =>
        .same (report_agrees rfl span) fun _ => hrest
      refine (block_agrees hstmt _ _ _).bind fun body body' hbody => ?_
      refine (ih true).bind fun all all' hall => .pure ?_
      obtain ⟨hcases, hdefault⟩ := Prod.mk.inj hall
      simp only [Same, Prod.map, Option.map_or, Option.map_some, hbody, hcases, hdefault]
    · refine .same (check_agrees _) fun _ => .same atAnyCloser_agrees fun _ => .ite ?_ ?_
      · refine .get fun s s' hs => ?_
        rw [reportedUnclosed_congr hs.errors]
        exact .ite (.pure rfl) (.same (report_agrees rfl opened) fun _ => .pure rfl)
      · refine .same (reportExpected_agrees rfl) fun _ => .same recover_agrees fun _ => ?_
        exact .same (passFrom_agrees start) fun _ => ih seen

theorem selectStmt_agrees (hstmt : StmtsAgree h stmt stmt') :
    StmtsAgree h (selectStmt stmt) (selectStmt stmt') := by
  refine .word fun start => ?_
  refine expression_agrees.bind fun e e' he => .same (spanFrom_agrees start) fun opened => ?_
  refine (bounded_agrees fun rounds => selectLoop_agrees hstmt opened rounds false).bind
    fun all all' hall => stmtFrom_agrees fun span => ?_
  obtain ⟨hcases, hdefault⟩ := Prod.mk.inj hall
  rw [Stmt.relabel_select, Stmt.relabel_select, he, hcases, hdefault]

/-! ### Loops -/

theorem whileStmt_agrees (hstmt : StmtsAgree h stmt stmt') :
    StmtsAgree h (whileStmt stmt) (whileStmt stmt') := by
  refine .word fun start => ?_
  refine expression_agrees.bind fun e e' he => .same (spanFrom_agrees start) fun opened => ?_
  refine (block_agrees hstmt _ _ _).bind fun body body' hbody => ?_
  refine .same (acceptCloser_agrees _) fun _ => stmtFrom_agrees fun span => ?_
  simp only [Stmt.relabel, he, hbody]

theorem repeatStmt_agrees (hstmt : StmtsAgree h stmt stmt') :
    StmtsAgree h (repeatStmt stmt) (repeatStmt stmt') := by
  refine .word fun start => ?_
  refine .same (spanFrom_agrees start) fun opened => ?_
  refine (block_agrees hstmt _ _ _).bind fun body body' hbody => ?_
  refine .same (accept_agrees _) fun _ => .ite ?_ ?_
  · refine expression_agrees.bind fun e e' he => stmtFrom_agrees fun span => ?_
    simp only [Stmt.relabel, Option.map_some, he, hbody]
  · refine .same (accept_agrees _) fun _ => stmtFrom_agrees fun span => ?_
    simp only [Stmt.relabel, Option.map_none, hbody]

theorem forBody_agrees (hstmt : StmtsAgree h stmt stmt') (construct : Construct) :
    BlocksAgree h (forBody stmt construct start) (forBody stmt' construct start) := by
  refine .same (spanFrom_agrees start) fun opened => ?_
  refine (block_agrees hstmt _ _ _).bind fun body body' hbody => ?_
  refine .same (acceptCloser_agrees _) fun _ => .ite ?_ (.pure hbody)
  exact .same (check_agrees _) fun _ => .ite (.same advance_agrees fun _ => .pure hbody) (.pure hbody)

theorem declareLoopVariable_agrees (hname : r.name name = r.name name') (symbol : Symbol) :
    Agrees h Eq (declareLoopVariable name symbol) (declareLoopVariable name' symbol) := by
  unfold declareLoopVariable lookup?
  rw [bind_assoc, bind_assoc]
  refine .get fun s s' hs => ?_
  rw [pure_bind, pure_bind, Scopes.isNone_lookup?_congr hs.scopes hname]
  exact .ite (define_agrees rfl) (.pure rfl)

theorem forEachStmt_agrees (hstmt : StmtsAgree h stmt stmt')
    (hname : r.name name = r.name name') {tag tag' : Option String}
    (htag : tag.map r.name = tag'.map r.name) :
    StmtsAgree h (forEachStmt stmt start name tag) (forEachStmt stmt' start name' tag') := by
  refine .option typeName_agrees (.pure rfl) fun type type' htype => ?_
  have hdiffers : (tag.any fun tag => !Text.sameLetters tag type) =
      tag'.any fun tag => !Text.sameLetters tag type' := by
    have hmap : ∀ (tag : Option String) (type : String),
        (tag.any fun tag => !Text.sameLetters tag type) =
          (tag.map r.name).any fun tag => !(Text.lower tag == Text.lower (r.name type)) := by
      intro tag type
      simp only [Option.any_map, Text.sameLetters, Relabel.Respells.lower_name]
    rw [hmap, hmap, htag, htype]
  have hsymbol : Symbol.declared name (some type) none = .declared name' (some type') none := by
    refine Symbol.declared_congr hname ?_ none
    exact congrArg some htype
  dsimp only
  rw [hdiffers, hsymbol]
  refine .also ?_ fun hrest => .same (spanFrom_agrees start) fun span =>
    .same (report_agrees (by simp only [Fault.relabel, htype]) span) fun _ => hrest
  refine .same (declareLoopVariable_agrees hname _) fun _ => ?_
  refine (forBody_agrees hstmt _).bind fun body body' hbody => stmtFrom_agrees fun span => ?_
  simp only [Stmt.relabel, hname, htype, hbody]

theorem forRangeStmt_agrees (hstmt : StmtsAgree h stmt stmt') (hname : r.name name = r.name name') :
    StmtsAgree h (forRangeStmt stmt start name) (forRangeStmt stmt' start name') := by
  unfold forRangeStmt
  rw [Symbol.declared_congr hname rfl]
  refine .same (declareLoopVariable_agrees hname _) fun _ => ?_
  refine expression_agrees.bind fun first first' hfirst => ?_
  refine .option (expect_agrees _ _) (.pure rfl) fun _ _ _ => ?_
  refine expression_agrees.bind fun last last' hlast => .same (accept_agrees _) fun _ => ?_
  refine .iteBind expression_agrees.some (.pure rfl) fun step step' hstep => ?_
  refine (forBody_agrees hstmt _).bind fun body body' hbody => stmtFrom_agrees fun span => ?_
  simp only [Stmt.relabel, hname, hfirst, hlast, hstep, hbody]

theorem forStmt_agrees (hstmt : StmtsAgree h stmt stmt') :
    StmtsAgree h (forStmt stmt) (forStmt stmt') := by
  refine .word fun start => ?_
  refine .option (expect_agrees _ _) (.pure rfl) fun t t' ht => ?_
  have htext := Token.text_congr ht
  refine typeTag_agrees.bind fun tag tag' htag => ?_
  refine .option (expect_agrees _ _) (.pure rfl) fun _ _ _ => .same (accept_agrees _) fun _ => ?_
  exact .ite (forEachStmt_agrees hstmt htext htag) (forRangeStmt_agrees hstmt htext)

/-! ### Functions and types -/

theorem param_agrees :
    Steady h (Same (Option.map (Param.relabel r))) param := by
  refine .same cursor_agrees fun start => ?_
  refine .option (expect_agrees _ _) (.pure rfl) fun t t' ht => ?_
  have htext := Token.text_congr ht
  refine typeTag_agrees.bind fun type type' htype => initialValue_agrees.bind fun value value' hvalue => ?_
  refine .same (spanFrom_agrees start) fun span => .pure (congrArg some ?_)
  simp only [Param.relabel, htext, hvalue, htype]

theorem params_agrees :
    Steady h (Same (List.map (Param.relabel r))) params := by
  refine .option (expect_agrees _ _) (.same (skipWhile_agrees _) fun _ => .pure rfl) fun _ _ _ => ?_
  refine .same (accept_agrees _) fun _ => .ite (.pure rfl) ?_
  refine (bounded_agrees fun rounds => collect_agrees param_agrees rounds).bind fun r r' hr => ?_
  obtain ⟨found, complete⟩ := r
  obtain ⟨found', complete'⟩ := r'
  obtain ⟨hfound, hcomplete⟩ := Prod.mk.inj hr
  subst hcomplete
  refine .iteBind (expect_agrees _ _) (.pure rfl) fun closed closed' hclosed => ?_
  have hnone := congrArg Option.isNone hclosed
  rw [Option.isNone_map, Option.isNone_map] at hnone
  dsimp only
  rw [hnone]
  exact .also (.pure hfound) fun hrest => .same (skipWhile_agrees _) fun _ => hrest

theorem functionName_agrees :
    Steady h (Same (Option.map r.name)) functionName := by
  refine .option peek?_agrees ?_ fun t t' ht => ?_
  · exact .same (reportExpected_agrees rfl) fun _ => .pure rfl
  have hkind := Token.kind_congr ht
  have hspan := Token.span_congr ht
  dsimp only
  rw [← hkind, ← hspan]
  by_cases hname : t.kind = .identifier
  · rw [if_pos hname, if_pos hname]
    exact .same advance_agrees fun _ => .pure (congrArg some (Token.text_congr ht))
  rw [if_neg hname, if_neg hname]
  by_cases hcommand : t.kind = .command
  · -- the fault names the command, whose letters are kept
    have htext := Token.text_eq ht hname (by rw [hcommand]; decide)
    rw [if_pos hcommand, if_pos hcommand, htext]
    exact .same advance_agrees fun _ => .same (report_agrees rfl _) fun _ => .pure rfl
  · rw [if_neg hcommand, if_neg hcommand]
    exact .same (reportExpected_agrees rfl) fun _ => .pure rfl

/-- The same is done with items that are equal up to case. -/
theorem forM_agrees {α γ : Type} {g : α → γ} {f : α → Parser Unit}
    (hf : ∀ a a', g a = g a' → Agrees h Eq (f a) (f a')) : ∀ {items items' : List α},
    items.map g = items'.map g → Agrees h Eq (items.forM f) (items'.forM f) := by
  intro items
  induction items with
  | nil =>
    intro items' hitems
    rw [List.map_eq_nil_iff.mp hitems.symm]
    exact .pure rfl
  | cons a rest ih =>
    intro items' hitems
    cases items' with
    | nil => cases hitems
    | cons a' rest' =>
      obtain ⟨ha, hrest⟩ := List.cons.inj hitems
      exact .same (hf a a' ha) fun _ => ih hrest

theorem functionBody_agrees (hstmt : StmtsAgree h stmt stmt') {found found' : List Param}
    (hfound : found.map (Param.relabel r) = found'.map (Param.relabel r)) :
    BlocksAgree h (functionBody stmt start found) (functionBody stmt' start found') := by
  have henter : Steady h Eq (modifyScopes Scopes.enter) :=
    modifyScopes_agrees fun s s' hs => by rw [Scopes.relabel_enter, Scopes.relabel_enter, hs]
  have hexit : Steady h Eq (modifyScopes Scopes.exit) :=
    modifyScopes_agrees fun s s' hs => by rw [Scopes.relabel_exit, Scopes.relabel_exit, hs]
  have hdefine : ∀ p p' : Param, p.relabel r = p'.relabel r →
      Agrees h Eq (define (.declared p.name p.typeName (p.default.map Expr.type)))
        (define (.declared p'.name p'.typeName (p'.default.map Expr.type))) := by
    intro p p' hp
    rw [Symbol.declared_congr (congrArg Param.name hp) (congrArg Param.typeName hp),
      map_type_congr (congrArg Param.default hp)]
    exact define_agrees rfl
  refine .same henter fun _ => .same (forM_agrees hdefine hfound) fun _ => ?_
  refine .same (spanFrom_agrees start) fun opened => ?_
  refine (block_agrees hstmt _ _ _).bind fun body body' hbody => ?_
  exact .same hexit fun _ => .pure hbody

theorem returnType_congr (hname : r.name name = r.name name') {tag tag' : Option String}
    (htag : tag.map r.name = tag'.map r.name) : returnType name tag = returnType name' tag' := by
  have hsome := congrArg Option.isSome htag
  rw [Option.isSome_map, Option.isSome_map] at hsome
  unfold returnType
  rw [hsome, Relabel.markedType?_congr hname]

theorem functionStmt_agrees (hstmt : StmtsAgree h stmt stmt') :
    StmtsAgree h (functionStmt stmt) (functionStmt stmt') := by
  refine .word fun start => ?_
  refine .option functionName_agrees (.pure rfl) fun name name' hname => ?_
  refine typeTag_agrees.bind fun tag tag' htag => .get fun s s' hs => ?_
  rw [hs.depth]
  refine .also ?_ fun hrest => .get fun s s' hs => ?_
  · refine params_agrees.bind fun found found' hfound => ?_
    rw [returnType_congr hname htag]
    have hparams : (found.map Param.name).map r.name = (found'.map Param.name).map r.name := by
      have hnames := congrArg (List.map Param.name) hfound
      rwa [List.map_map, List.map_map] at hnames ⊢
    refine .same (defineGlobal_agrees (Symbol.function_congr hname htag _ hparams)) fun _ => ?_
    refine (functionBody_agrees hstmt hfound).bind fun body body' hbody => ?_
    refine .same (acceptCloser_agrees _) fun _ => stmtFrom_agrees fun span => ?_
    simp only [Stmt.relabel, hname, hfound, hbody, htag]
  · rw [Scopes.isGlobal_congr hs.scopes]
    exact .same (spanFrom_agrees start) fun span => .same (report_agrees rfl span) fun _ => hrest

theorem fieldDecl_agrees :
    Steady h (Same (Option.map (FieldDecl.relabel r))) fieldDecl := by
  refine .same cursor_agrees fun start => ?_
  refine .option (expect_agrees _ _) (.pure rfl) fun t t' ht => ?_
  refine typeTag_agrees.bind fun type type' htype => ?_
  refine .same (spanFrom_agrees start) fun span => .pure (congrArg some ?_)
  simp only [FieldDecl.relabel, Token.text_congr ht, htype]

theorem fieldLoop_agrees (opened : Span) (rounds : Nat) :
    Steady h (Same (List.map (FieldDecl.relabel r))) (fieldLoop opened rounds) := by
  induction rounds with
  | zero => exact .same exhaust_agrees fun _ => .pure rfl
  | succ rounds ih =>
    refine .same (skipWhile_agrees _) fun _ => .same cursor_agrees fun start => ?_
    refine .same (acceptCloser_agrees _) fun _ => .ite (.pure rfl) ?_
    refine .same (accept_agrees _) fun _ => .ite ?_ ?_
    · refine (bounded_agrees fun rounds => collect_agrees fieldDecl_agrees rounds).bind
        fun r r' hr => .same finishStatement_agrees fun _ => ih.bind fun rest rest' hrest => .pure ?_
      simp only [Same, List.map_append, (Prod.mk.inj hr).1, hrest]
    · refine .same (check_agrees _) fun _ => .same atAnyCloser_agrees fun _ => .ite ?_ ?_
      · exact .same (report_agrees rfl opened) fun _ => .pure rfl
      · refine .same (reportExpected_agrees rfl) fun _ => .same recover_agrees fun _ => ?_
        exact .same (passFrom_agrees start) fun _ => ih

theorem typeStmt_agrees : StmtAgrees h typeStmt := by
  refine .word fun start => ?_
  refine .option (expect_agrees _ _) (.pure rfl) fun t t' ht => ?_
  have htext := Token.text_congr ht
  refine .same (spanFrom_agrees start) fun opened => .get fun s s' hs => ?_
  rw [hs.depth]
  refine .also ?_ fun hrest => .same (report_agrees rfl opened) fun _ => hrest
  refine (bounded_agrees (fieldLoop_agrees opened)).bind fun fields fields' hfields => ?_
  have hnames : (fields.map FieldDecl.name).map r.name = (fields'.map FieldDecl.name).map r.name := by
    have hnames := congrArg (List.map FieldDecl.name) hfields
    rwa [List.map_map, List.map_map] at hnames ⊢
  refine .same (defineGlobal_agrees (Symbol.userType_congr htext hnames)) fun _ => ?_
  refine stmtFrom_agrees fun span => ?_
  simp only [Stmt.relabel, htext, hfields]

/-! ### Statements and programs -/

theorem wordStmt_agrees (hstmt : StmtsAgree h stmt stmt') {word : Keyword}
    (hdata : word = .data → StmtAgrees h dataStmt) {t t' : Token} (ht : t.relabel r = t'.relabel r) :
    StmtsAgree h (wordStmt stmt t word) (wordStmt stmt' t' word) := by
  have hspan := Token.span_congr ht
  have hbad : StmtsAgree h
      (do report (.badStatement t) t.span; return none)
      (do report (.badStatement t') t'.span; return none) := by
    rw [hspan]
    exact .same (report_agrees (by simp only [Fault.relabel, ht]) _) fun _ => .pure rfl
  cases word with
  | if_ => exact ifStmt_agrees hstmt
  | while_ => exact whileStmt_agrees hstmt
  | repeat_ => exact repeatStmt_agrees hstmt
  | for_ => exact forStmt_agrees hstmt
  | select => exact selectStmt_agrees hstmt
  | function => exact functionStmt_agrees hstmt
  | type => exact typeStmt_agrees
  | local_ | global => exact declareStmt_agrees _
  | dim => exact dimStmt_agrees
  | const => exact constStmt_agrees
  | return_ => exact returnStmt_agrees
  | exit => exact exitStmt_agrees
  | end_ => exact endStmt_agrees
  | goto | gosub => exact jumpStmt_agrees fun _ _ => rfl
  | data => exact hdata rfl
  | read => exact readStmt_agrees
  | restore => exact restoreStmt_agrees
  | delete => exact deleteStmt_agrees
  | insert => exact insertStmt_agrees
  | _ => exact hbad

/-- A statement that is no `Data` statement, or one whose values are read alike. -/
theorem statementWith_agreesAt (hstmt : StmtsAgree h stmt stmt') {i : Nat}
    (hdata : input.kind i = .keyword .data → StmtAgrees h dataStmt) :
    AgreesAt h i (Same (Option.map (Stmt.relabel r))) (statementWith stmt)
      (statementWith stmt') := by
  refine .peek ?_
  rcases h.token_cases i with ⟨ht, ht'⟩ | ⟨t, t', ht, ht', hsame⟩
  · rw [ht, ht']
    exact .of_agrees (.same (reportExpected_agrees rfl) fun _ => .pure rfl)
  rw [ht, ht']
  have hkind := Token.kind_congr hsame
  have hspan := Token.span_congr hsame
  have hhere : input.kind i = t.kind := by unfold Input.kind; rw [ht]
  dsimp only
  rw [← hkind]
  cases hk : t.kind with
  | identifier => exact .of_agrees nameStmt_agrees
  | command => exact commandStmt_agreesAt (hhere.trans hk)
  | label => exact .of_agrees (labelStmt_agrees hsame)
  | keyword word =>
    refine .of_agrees (wordStmt_agrees hstmt (fun hword => hdata ?_) hsame)
    rw [hhere, hk, hword]
  | _ =>
    rw [hspan]
    exact .of_agrees
      (.same (report_agrees (by simp only [Fault.relabel, hsame]) _) fun _ => .pure rfl)

theorem statementAt_agrees (hdata : StmtAgrees h dataStmt) (nesting : Nat) :
    StmtAgrees h (statementAt nesting) := by
  induction nesting with
  | zero => exact .same exhaust_agrees fun _ => .pure rfl
  | succ nesting ih => exact .at fun i => statementWith_agreesAt ih fun _ => hdata

theorem programLoop_agrees (hstmt : StmtsAgree h stmt stmt') (rounds : Nat) :
    BlocksAgree h (programLoop stmt rounds) (programLoop stmt' rounds) := by
  induction rounds with
  | zero => exact .same exhaust_agrees fun _ => .pure rfl
  | succ rounds ih =>
    refine .same (skipWhile_agrees _) fun _ => .same (check_agrees _) fun _ => .ite (.pure rfl) ?_
    exact stmts_agrees (round_agrees hstmt finishOrRecover_agrees) ih

/-- What a token and those after it declare does not depend on case. -/
theorem foretoldAt_relabel (before : Option Token) (token : Token) (rest : List Token) :
    foretoldAt (before.map (Token.relabel r)) (token.relabel r) (rest.map (Token.relabel r)) =
      foretoldAt before token rest := by
  cases rest with
  | nil => rfl
  | cons name more =>
    have htext : name.kind = .identifier → (name.relabel r).text = r.name name.text := by
      intro hk
      unfold Token.relabel
      rw [if_pos (.inl hk)]
    simp only [foretoldAt, List.map_cons, List.head?_map, Option.any_map, Token.kind_relabel,
      Token.span_relabel, Symbol.function, Symbol.userType]
    split
    · next hname =>
      rw [htext hname.1, Relabel.fold_name, Relabel.markedType?_name]
    · rfl

theorem foretold_relabel (tokens : List Token) : ∀ before : Option Token,
    foretold (before.map (Token.relabel r)) (tokens.map (Token.relabel r)) =
      foretold before tokens := by
  induction tokens with
  | nil => exact fun _ => rfl
  | cons token rest ih =>
    intro before
    have hrest := ih (some token)
    rw [Option.map_some] at hrest
    rw [List.map_cons, foretold, foretold, foretoldAt_relabel, hrest]

/-- The functions and types of a program are known alike. -/
theorem Input.Alike.foretold (h : input.Alike r input') : input.foretold = input'.foretold := by
  have htokens : input.tokens.toList.map (Token.relabel r) =
      input'.tokens.toList.map (Token.relabel r) := by
    refine List.ext_getElem? fun i => ?_
    rw [List.getElem?_map, List.getElem?_map, Array.getElem?_toList, Array.getElem?_toList]
    exact h.token i
  unfold Input.foretold
  rw [← foretold_relabel (r := r), Option.map_none, htokens]
  exact foretold_relabel _ none

/-- A program is read alike if its statements are. -/
theorem program_agrees (h : input.Alike r input') (hstmt : StmtsAgree h stmt stmt') :
    relabelStmts r (bounded (programLoop stmt) input (.initial input)).1 =
        relabelStmts r (bounded (programLoop stmt') input' (.initial input')).1 ∧
      (bounded (programLoop stmt) input (.initial input)).2.Alike r
        (bounded (programLoop stmt') input' (.initial input')).2 := by
  have hinitial : (State.initial input).Alike r (State.initial input') := by
    unfold State.initial
    rw [h.foretold]
    exact ⟨rfl, rfl, rfl, rfl, rfl⟩
  exact bounded_agrees (h := h) (programLoop_agrees hstmt) _ _ hinitial

/-- A program is read alike in any case. -/
theorem readAll_agrees (h : input.Alike r input') (hwords : input.SameWords r input') :
    relabelStmts r (readAll input).1 = relabelStmts r (readAll input').1 ∧
      (readAll input).2.Alike r (readAll input').2 :=
  program_agrees h (bounded_agrees (statementAt_agrees (dataStmt_agrees hwords)))

/-! ### Bare words -/

/-- A statement; the values of its `Data` statements are read from `data`, and nothing else. -/
def statementFromAt (data : Input) : Nat → Parser (Option Stmt)
  | 0 => do
    exhaust
    return none
  | nesting + 1 => do
    if ← checkWord .data then
      fun input s => ((dataStmt data s).1, (dataStmt input s).2)
    else
      statementWith (statementFromAt data nesting)

/-- Reads all statements, the values of `Data` statements from `data`. -/
def readAllFrom (data input : Input) : List Stmt × State :=
  ((bounded (programLoop (bounded (statementFromAt data)))).run input).run (.initial input)

/-- The values of a `Data` statement do not change how the reading goes on. -/
theorem dataStmt_alike (h : input.Alike r input') {s s' : State} (hs : s.Alike r s') :
    (dataStmt input s).2.Alike r (dataStmt input' s').2 := by
  -- no value is told apart from another one, so nothing has to be known about bare words
  let merged : Relabel := { r with data := fun _ => default }
  have hrespells : merged.Respells := { ‹r.Respells› with }
  have hmerged : input.Alike merged input' := ⟨⟨h.token⟩, h.command⟩
  have hstate : s.Alike merged s' := ⟨hs.cursor, hs.errors, hs.scopes, hs.depth, hs.exhausted⟩
  have hnext := (dataStmt_agrees (h := hmerged) (fun _ _ _ _ _ _ => rfl) s s' hstate).2
  exact ⟨hnext.cursor, hnext.errors, hnext.scopes, hnext.depth, hnext.exhausted⟩

/-- A statement is read alike if the values of its `Data` statements are. -/
theorem statementFromAt_agrees {data : Input}
    (hdata : ∀ s s' : State, s.Alike r s' → input.kind s.cursor = .keyword .data →
      Same (Option.map (Stmt.relabel r)) (dataStmt data s).1 (dataStmt input' s').1) (nesting : Nat) :
    StmtsAgree h (statementFromAt data nesting) (statementAt nesting) := by
  induction nesting with
  | zero => exact .same exhaust_agrees fun _ => .pure rfl
  | succ nesting ih =>
    intro s s' hs
    have hcheck : ∀ f : Bool → Parser (Option Stmt), (checkWord .data >>= f) input s =
        f (decide (input.kind s.cursor = .keyword .data)) input s := fun _ => rfl
    rw [statementFromAt, hcheck]
    by_cases hk : input.kind s.cursor = .keyword .data
    · have hk' : input'.kind s'.cursor = .keyword .data := by rw [← h.kind, ← hs.cursor, hk]
      rw [decide_eq_true hk, statementAt, statementWith_of_data hk']
      exact ⟨hdata s s' hs hk, dataStmt_alike h hs⟩
    · rw [decide_eq_false hk]
      exact statementWith_agreesAt ih (absurd · hk) s s' hs rfl

/-- A program with the bare words of another input is the program of that input up to case. -/
theorem readAllFrom_agrees (h : input.Alike r input') :
    relabelStmts r (readAllFrom input' input).1 = relabelStmts r (readAll input').1 := by
  have hself : input'.Alike r input' := ⟨⟨fun _ => rfl⟩, fun _ _ _ _ => rfl⟩
  have hdata : StmtAgrees hself dataStmt := dataStmt_agrees (.refl input')
  exact (program_agrees h (bounded_agrees
    (statementFromAt_agrees fun s s' hs _ => (hdata s s' hs).1))).1

/-! ### With another table -/

section Keep

theorem tokenRelabel_keep (t : Token) : t.relabel .keep = t := by
  unfold Token.relabel
  split <;> rfl

theorem errorRelabel_keep (e : ParseError) : e.relabel .keep = e := by
  have hexpected : ∀ x : Expected, x.relabel .keep = x := by
    intro x
    cases x <;> rfl
  obtain ⟨fault, span⟩ := e
  unfold ParseError.relabel
  cases fault <;> simp [Fault.relabel, hexpected, tokenRelabel_keep]

theorem scopesRelabel_keep (s : Scopes) : s.relabel .keep = s := by
  have hsymbol : ∀ symbol : Symbol, symbol.relabel .keep = symbol := by
    intro symbol
    obtain ⟨_, _, _, kind⟩ := symbol
    cases kind <;> simp [Symbol.relabel, SymbolKind.relabel]
  have hscope : Dict.mapValues (Symbol.relabel .keep) = id := by
    funext d
    unfold Dict.mapValues
    simp only [hsymbol]
    exact List.map_id d
  unfold Scopes.relabel
  rw [hscope]
  exact congrArg (Scopes.mk _) (List.map_id _)

/-- States that are equal up to nothing are equal. -/
theorem State.Alike.eq {s s' : State} (h : s.Alike .keep s') : s = s' := by
  obtain ⟨hcursor, herrors, hscopes, hdepth, hexhausted⟩ := h
  rw [scopesRelabel_keep, scopesRelabel_keep] at hscopes
  rw [funext errorRelabel_keep, List.map_id', List.map_id'] at herrors
  obtain ⟨cursor, errors, scopes, depth, exhausted⟩ := s
  cases hcursor
  cases herrors
  cases hscopes
  cases hdepth
  cases hexhausted
  rfl

/-- Other words do not matter if each `Data` statement is read as with its own. -/
theorem readAllFrom_eq {data input : Input} (h : ∀ s : State,
    input.kind s.cursor = .keyword .data → (dataStmt data s).1 = (dataStmt input s).1) :
    (readAllFrom data input).1 = (readAll input).1 := by
  have halike : input.Alike .keep input := ⟨⟨fun _ => rfl⟩, fun _ _ _ _ => rfl⟩
  have hagrees : ∀ nesting, StmtsAgree halike (statementFromAt data nesting) (statementAt nesting) :=
    statementFromAt_agrees fun s s' hs hk => by rw [← hs.eq, h s hk]
  have hstmts := (program_agrees halike (bounded_agrees hagrees)).1
  rwa [relabelStmts_keep, relabelStmts_keep] at hstmts

end Keep

/-! ### Lists without names -/

section Lists

variable {q : Relabel} {i j : Nat} {v : DataValue} {items : List (Nat × DataValue)}

theorem Input.SameTokens.literal? (h : input.SameTokens q input') {negative : Bool}
    (hother : negative = true ∨ input.kind i ≠ .identifier) :
    input.literal? negative i = input'.literal? negative i := by
  unfold Input.literal?
  rcases h.token_cases i with ⟨ht, ht'⟩ | ⟨t, t', ht, ht', hsame⟩
  · rw [ht, ht']
  rw [ht, ht', Option.bind_some, Option.bind_some]
  rcases dataLiteral?_cases hsame negative with heq | ⟨hname, hword, -⟩
  · rw [heq]
  · rcases hother with rfl | hother
    · simp [dataLiteral?, hname] at hword
    · exact absurd ((Input.kind_of_token ht).trans hname) hother

/-- A value ends at the same place, and is the same if it is no name. -/
theorem Input.SameTokens.value? (h : input.SameTokens q input') (hv : input.value? i = some (v, j)) :
    ∃ v', input'.value? i = some (v', j) ∧ (input.kind i ≠ .identifier → v' = v) := by
  by_cases hname : input.kind i = .identifier
  · rcases h.token_cases i with ⟨ht, -⟩ | ⟨t, t', ht, ht', hsame⟩
    · rw [Input.kind, ht] at hname
      cases hname
    have hk : t.kind = .identifier := (Input.kind_of_token ht).symm.trans hname
    rw [Input.value?_word ht (.inl hk)] at hv
    cases hv
    exact ⟨_, Input.value?_word ht' (.inl (Token.kind_congr hsame ▸ hk)), absurd hname⟩
  · refine ⟨v, ?_, fun _ => rfl⟩
    rw [← hv, Input.value?, Input.value?, h.literal? (.inl rfl), h.literal? (.inr hname), h.kind]

/-- The same places are listed, and the same values if no name is among them. -/
theorem Input.SameTokens.row (h : input.SameTokens q input') (hrow : input.Row i items j) :
    ∃ items', input'.Row i items' j ∧
      ((∀ item ∈ items, input.kind item.1 ≠ .identifier) → items' = items) := by
  induction hrow with
  | last value ends =>
    obtain ⟨v', hv', hsame⟩ := h.value? value
    refine ⟨_, .last hv' (h.kind _ ▸ ends), fun hnames => ?_⟩
    rw [hsame (hnames _ List.mem_cons_self)]
  | more value comma rest ih =>
    obtain ⟨v', hv', hsame⟩ := h.value? value
    obtain ⟨items', hrow, hitems⟩ := ih
    refine ⟨_, .more hv' (h.kind _ ▸ comma) hrow, fun hnames => ?_⟩
    obtain ⟨hname, hnames⟩ := List.forall_mem_cons.mp hnames
    rw [hsame hname, hitems hnames]

theorem Input.SameTokens.lists (h : input.SameTokens q input') (hlists : input.Lists i items j) :
    ∃ items', input'.Lists i items' j ∧
      ((∀ item ∈ items, input.kind item.1 ≠ .identifier) → items' = items) := by
  rcases hlists with ⟨rfl, rfl, hends⟩ | hrow
  · exact ⟨[], .inl ⟨rfl, rfl, h.kind _ ▸ hends⟩, fun _ => rfl⟩
  · obtain ⟨items', hrow, hitems⟩ := h.row hrow
    exact ⟨items', .inr hrow, hitems⟩

/-- A `Data` statement without names in its list does not depend on the spelling of names. -/
theorem dataStmt_congr (h : input.SameTokens q input') {s : State}
    (hk : input.kind s.cursor ≠ .eof) (hnames : ∀ items j, input.Lists s.cursor items j →
      ∀ item ∈ items, input.kind item.1 ≠ .identifier) :
    (dataStmt input' s).1 = (dataStmt input s).1 := by
  have hk' : input'.kind s.cursor ≠ .eof := h.kind _ ▸ hk
  cases hread : (dataStmt input s).1 with
  | some read =>
    obtain ⟨items, j, hlists⟩ := exists_lists_of_dataStmt hk (Option.isSome_of_mem hread)
    obtain ⟨items', hlists', hitems⟩ := h.lists hlists
    rw [← hread, dataStmt_run hk hlists, dataStmt_run hk' hlists', hitems (hnames _ _ hlists),
      h.spanFrom]
  | none =>
    -- the list of the other statement would stand in this input as well
    by_contra hsome
    obtain ⟨items, j, hlists⟩ := exists_lists_of_dataStmt hk' (Option.isSome_iff_ne_none.mpr hsome)
    obtain ⟨items', hlists', -⟩ := h.symm.lists hlists
    rw [dataStmt_run hk hlists'] at hread
    cases hread

end Lists

end FrameBasic.Parser

/-- A table that says the same of the commands among the tokens gives the same program, with the
same errors and names. -/
theorem FrameBasic.Program.parse_congr {commands table : CommandTable} {tokens : List Token}
    (h : ∀ (i : Nat) t, (Parser.Input.ofTokens commands tokens).tokens[i]? = some t →
      t.kind = .command → table.get? t.text = commands.get? t.text) :
    Program.parse table tokens = Program.parse commands tokens := by
  have halike : (Parser.Input.ofTokens commands tokens).Alike .keep
      (Parser.Input.ofTokens table tokens) := ⟨⟨fun _ => rfl⟩, h⟩
  obtain ⟨hstmts, hstate⟩ := Parser.readAll_agrees halike (.refl _)
  rw [relabelStmts_keep, relabelStmts_keep] at hstmts
  have hread : Parser.readAll (.ofTokens table tokens) =
      Parser.readAll (.ofTokens commands tokens) := Prod.ext hstmts.symm hstate.eq.symm
  simp only [parse, hread]
  rfl
