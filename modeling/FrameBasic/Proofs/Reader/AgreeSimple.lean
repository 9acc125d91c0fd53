import FrameBasic.Proofs.Reader.Agree
import FrameBasic.Tree.Parser.Simple

/-!
# Simple statements in any case

The statements without blocks are read alike from two lists of tokens that differ only in the case of
names and labels.

A name in a `Data` list is a value itself, a bare word, and then its case is kept.  What becomes of
such values is left open: they are taken together by a function that does not tell the words of the
two lists apart.

## Main definitions

* `Expr.varName?` — the name of a variable and its type name.
* `Parser.Input.SameWords` — the bare words of two lists are not told apart.
* `Parser.readType` — the type of a target of `Read`.

## Main results

* `Parser.nameStmt_agrees`, `Parser.declareStmt_agrees` — a reader of a statement agrees with itself.
* `Parser.dataStmt_agrees` — **the values of a `Data` statement are the same up to its bare words**.
-/

namespace FrameBasic

/-! ### Variables -/

/-- The name of a variable and the type name after it. -/
def Expr.varName? : Expr → Option (String × Option String)
  | .var _ name typeName => some (name, typeName)
  | _ => none

theorem Expr.varName?_relabel (r : Relabel) (e : Expr) :
    (e.relabel r).varName? = e.varName?.map (Prod.map r.name (Option.map r.name)) := by
  cases e <;> rfl

/-- Expressions that are equal up to case are both variables or none of them is. -/
theorem Expr.varName?_congr {r : Relabel} {e e' : Expr}
    (he : e.relabel r = e'.relabel r) :
    (e.varName? = none ∧ e'.varName? = none) ∨
      ∃ name name' typeName typeName', e.varName? = some (name, typeName) ∧
        e'.varName? = some (name', typeName') ∧ r.name name = r.name name' ∧
        typeName.map r.name = typeName'.map r.name := by
  have hmap := congrArg varName? he
  rw [varName?_relabel, varName?_relabel] at hmap
  cases hv : e.varName? with
  | none =>
    rw [hv] at hmap
    exact .inl ⟨rfl, Option.map_eq_none_iff.mp hmap.symm⟩
  | some v =>
    rw [hv] at hmap
    obtain ⟨v', hv', hsame⟩ := Option.map_eq_some_iff.mp hmap.symm
    obtain ⟨hname, htype⟩ := Prod.mk.inj hsame
    exact .inr ⟨v.1, v'.1, v.2, v'.2, rfl, hv', hname.symm, htype.symm⟩

namespace Parser

variable {r : Relabel} [r.Respells] {input input' : Input} {h : input.Alike r input'}
variable {start : Nat} {name name' : String} {e e' : Expr}

/-! ### Assignments and calls -/

/-- The readers give statements that are equal up to case. -/
abbrev StmtsAgree (h : input.Alike r input') (p p' : Parser (Option Stmt)) : Prop :=
  Agrees h (Same (Option.map (Stmt.relabel r))) p p'

/-- The reader of a statement agrees with itself. -/
abbrev StmtAgrees (h : input.Alike r input') (stmt : Parser (Option Stmt)) : Prop :=
  StmtsAgree h stmt stmt

/-- The word that begins a statement is passed. -/
theorem Agrees.word {α : Type} {R : α → α → Prop} {f f' : Nat → Parser α}
    (hf : ∀ start, Agrees h R (f start) (f' start)) :
    Agrees h R (do let start ← cursor; advance; f start)
      (do let start ← cursor; advance; f' start) :=
  .same cursor_agrees fun start => .same advance_agrees fun _ => hf start

theorem stmtFrom_agrees {make make' : Span → Stmt}
    (hmake : ∀ span, (make span).relabel r = (make' span).relabel r) :
    StmtsAgree h (stmtFrom start make) (stmtFrom start make') :=
  .same (spanFrom_agrees start) fun span => .pure (congrArg some (hmake span))

theorem statementArgs_agrees :
    Steady h (Same (relabelAll r)) statementArgs := by
  have hbare := bareArgs_agrees (h := h) expression_agrees
  refine .same (check_agrees _) fun _ => .ite ?_ hbare
  refine .same mark_agrees fun m => (parenArgs_agrees expression_agrees).bind fun args args' hargs => ?_
  refine .same atStatementEnd_agrees fun _ => .same (check_agrees _) fun _ => .ite (.pure hargs) ?_
  exact .same (rewind_agrees m) fun _ => hbare

theorem target_agrees :
    Steady h (Same (Option.map (Expr.relabel r))) target := by
  have hfields : ∀ {start : Nat} {e e' : Expr}, Same (Expr.relabel r) e e' →
      Agrees h (Same (Option.map (Expr.relabel r))) (some <$> withFields start e)
        (some <$> withFields start e') :=
    fun he => (withFields_agrees he).some
  refine .same cursor_agrees fun start => ?_
  refine .option (expect_agrees _ _) (.pure rfl) fun t t' ht => ?_
  have htext := Token.text_congr ht
  refine .option typeTag_agrees ?_ fun type type' htype => ?_
  · refine .same (check_agrees _) fun _ => .ite ?_ ?_
    · refine (parenArgs_agrees expression_agrees).bind fun args args' hargs => .get fun s s' hs => ?_
      have hnode : Agrees h (Same (Option.map (Expr.relabel r)))
          (do some <$> withFields start (← node start (.element · t.text args)))
          (do some <$> withFields start (← node start (.element · t'.text args'))) := by
        refine .bind (node_agrees (fun info => ?_) fun _ _ => rfl) fun e e' he => hfields he
        simp only [Expr.relabel, htext, hargs]
      rw [Scopes.isArray_congr hs.scopes htext]
      refine .ite hnode (.same (spanFrom_agrees start) fun span => ?_)
      refine .same (report_agrees ?_ span) fun _ => hnode
      simp only [Fault.relabel, htext]
    · refine .bind (node_agrees (fun info => ?_) fun _ _ => rfl) fun e e' he => hfields he
      simp only [Expr.relabel, Option.map_none, htext]
  · refine .bind (node_agrees (fun info => ?_) fun _ _ => rfl) fun e e' he => hfields he
    simp only [Expr.relabel, Option.map_some, htext, htype]

theorem declareTarget_of_none {value : ValueType} (hv : e.varName? = none) :
    declareTarget e value = pure e := by
  cases e with
  | var => cases hv
  | _ => rfl

theorem declareTarget_of_some {value : ValueType} {typeName : Option String}
    (hv : e.varName? = some (name, typeName)) :
    declareTarget e value = (do
      let scopes := (← get).scopes
      let hides := typeName.isSome && (scopes.lookupInner? name).isNone
      if (scopes.lookup? name).isNone || hides then
        define (.declared name typeName (some value))
      typed e) := by
  cases e with
  | var => cases hv; rfl
  | _ => cases hv

/-- The type of a variable does not depend on the table. -/
theorem declaredType_congr {v : String × Option String} (hv : e.varName? = some v) {scopes : Scopes}
    {commands commands' : CommandTable} :
    e.inferredType scopes commands = e.inferredType scopes commands' := by
  cases e with
  | var info name tag => cases tag <;> rfl
  | _ => cases hv

theorem declareTarget_agrees (he : e.relabel r = e'.relabel r)
    (value : ValueType) : ExprsAgree h (declareTarget e value) (declareTarget e' value) := by
  rcases Expr.varName?_congr he with ⟨hv, hv'⟩ | ⟨name, name', type, type', hv, hv', hname, htype⟩
  · rw [declareTarget_of_none hv, declareTarget_of_none hv']
    exact .pure he
  · rw [declareTarget_of_some hv, declareTarget_of_some hv']
    refine .get fun s s' hs => ?_
    have hsome := congrArg Option.isSome htype
    rw [Option.isSome_map, Option.isSome_map] at hsome
    have htyped : ExprsAgree h (typed e) (typed e') :=
      typed_agrees he fun _ => declaredType_congr hv'
    dsimp only
    rw [Scopes.isNone_lookup?_congr hs.scopes hname, Scopes.isNone_lookupInner?_congr hs.scopes hname,
      hsome, Symbol.declared_congr hname htype]
    exact .ite (.same (define_agrees rfl) fun _ => htyped) htyped

/-- The types of expressions that are equal up to case. -/
theorem type_congr (he : e.relabel r = e'.relabel r) :
    e.type = e'.type := by
  rw [← Expr.type_relabel (r := r), he, Expr.type_relabel]

theorem assignment_agrees : StmtAgrees h assignment := by
  refine .same cursor_agrees fun start => .option target_agrees (.pure rfl) fun e e' he => ?_
  refine .option (expect_agrees _ _) (.pure rfl) fun _ _ _ => ?_
  refine expression_agrees.bind fun value value' hvalue => ?_
  rw [type_congr hvalue]
  refine (declareTarget_agrees he _).bind fun e e' he => stmtFrom_agrees fun span => ?_
  simp only [Stmt.relabel, show e.relabel r = e'.relabel r from he,
    show value.relabel r = value'.relabel r from hvalue]

theorem callStmt_agrees (hname : r.name name = r.name name') :
    StmtsAgree h (callStmt start name) (callStmt start name') := by
  refine .same advance_agrees fun _ => statementArgs_agrees.bind fun args args' hargs => ?_
  refine .bind (node_agrees (fun info => ?_) fun _ _ => rfl) fun e e' he =>
    stmtFrom_agrees fun span => ?_
  · simp only [Expr.relabel, hname, hargs]
  · exact congrArg (Stmt.expr _) he

theorem assignsAfterParens_agrees : Steady h Eq assignsAfterParens := by
  refine .same mark_agrees fun m => .same advance_agrees fun _ => ?_
  refine (parenArgs_agrees expression_agrees).bind fun _ _ _ => ?_
  exact .same (check_agrees _) fun _ => .same (rewind_agrees m) fun _ => .pure rfl

theorem nameStmt_agrees : StmtAgrees h nameStmt := by
  refine .same cursor_agrees fun start => peek?_agrees.bind fun t t' ht => ?_
  have hname : r.name ((t.map Token.text).getD "") = r.name ((t'.map Token.text).getD "") := by
    cases t with
    | none =>
      rw [show t' = none from Option.map_eq_none_iff.mp ht.symm]
    | some t =>
      obtain ⟨t', rfl, hsame⟩ := Option.map_eq_some_iff.mp ht.symm
      exact Token.text_congr hsame.symm
  refine .same (kindAhead_agrees 1) fun next => .get fun s s' hs => ?_
  rw [Scopes.isArray_congr hs.scopes hname]
  refine .iteBind assignsAfterParens_agrees (.pure rfl) ?_
  rintro assigns _ rfl
  refine .ite (callStmt_agrees hname) (.ite assignment_agrees (.get fun s s' hs => ?_))
  rw [Scopes.isFunction_congr hs.scopes hname]
  refine .ite (callStmt_agrees hname) (.same advance_agrees fun _ => ?_)
  exact .same (reportExpected_agrees (by simp only [Expected.relabel, hname])) fun _ => .pure rfl

theorem commandStmt_agreesAt {i : Nat} (hk : input.kind i = .command) :
    AgreesAt h i (Same (Option.map (Stmt.relabel r))) commandStmt commandStmt := by
  refine .cursor ((takeCommand_agreesAt hk).bind ?_)
  rintro name _ ⟨rfl, hname⟩
  refine statementArgs_agrees.bind fun args args' hargs => ?_
  refine (commandNode_agrees hname hargs).bind fun e e' he => stmtFrom_agrees fun span => ?_
  exact congrArg (Stmt.expr _) he

/-! ### Declarations -/

theorem initialValue_agrees :
    Steady h (Same (Option.map (Expr.relabel r))) initialValue :=
  .same (accept_agrees _) fun _ =>
    .ite expression_agrees.some (.pure rfl)

/-- The types of first values that are equal up to case. -/
theorem map_type_congr {value value' : Option Expr}
    (hvalue : value.map (Expr.relabel r) = value'.map (Expr.relabel r)) :
    value.map Expr.type = value'.map Expr.type := by
  have htype := congrArg (Option.map Expr.type) hvalue
  rwa [Option.map_map, Option.map_map, show Expr.type ∘ Expr.relabel r = Expr.type from
    funext Expr.type_relabel] at htype

theorem varDecl_agrees (scope : DeclScope) :
    Steady h (Same (Option.map (VarDecl.relabel r))) (varDecl scope) := by
  refine .same cursor_agrees fun start => ?_
  refine .option (expect_agrees _ _) (.pure rfl) fun t t' ht => ?_
  have htext := Token.text_congr ht
  refine typeTag_agrees.bind fun type type' htype => initialValue_agrees.bind fun value value' hvalue => ?_
  have hdecl : Agrees h (Same (Option.map (VarDecl.relabel r)))
      (do return some (VarDecl.mk t.text type value (← spanFrom start)))
      (do return some (VarDecl.mk t'.text type' value' (← spanFrom start))) := by
    refine .same (spanFrom_agrees start) fun span => .pure (congrArg some ?_)
    simp only [VarDecl.relabel, htext, htype, hvalue]
  rw [Symbol.declared_congr htext htype, map_type_congr hvalue]
  cases scope with
  | inner => exact .same (define_agrees rfl) fun _ => hdecl
  | global => exact .same (defineGlobal_agrees rfl) fun _ => hdecl

/-- A list of declarations, and the statement that holds them. -/
theorem listStmt_agrees {α : Type} {g : α → α} {item : Parser (Option α)}
    {make : Span → List α → Stmt} (hitem : Steady h (Same (Option.map g)) item)
    (hmake : ∀ span items, (make span items).relabel r = make (r.span span) (items.map g)) :
    StmtsAgree h
      (do let (items, complete) ← bounded (collect item)
          if complete then stmtFrom start (make · items) else return none)
      (do let (items, complete) ← bounded (collect item)
          if complete then stmtFrom start (make · items) else return none) := by
  refine (bounded_agrees fun rounds => collect_agrees hitem rounds).bind fun r r' hr => ?_
  obtain ⟨items, complete⟩ := r
  obtain ⟨items', complete'⟩ := r'
  obtain ⟨hitems, hcomplete⟩ := Prod.mk.inj (show (items.map g, complete) = (items'.map g, complete')
    from hr)
  subst hcomplete
  refine .ite (stmtFrom_agrees fun span => ?_) (.pure rfl)
  rw [hmake, hmake, hitems]

theorem declareStmt_agrees (scope : DeclScope) : StmtAgrees h (declareStmt scope) :=
  .same cursor_agrees fun _ => .same advance_agrees fun _ =>
    listStmt_agrees (varDecl_agrees scope) fun _ _ => rfl

theorem arrayDecl_agrees :
    Steady h (Same (Option.map (ArrayDecl.relabel r))) arrayDecl := by
  refine .same cursor_agrees fun start => ?_
  refine .option (expect_agrees _ _) (.pure rfl) fun t t' ht => ?_
  have htext := Token.text_congr ht
  refine typeTag_agrees.bind fun type type' htype => ?_
  refine .same (check_agrees _) fun _ => .ite ?_ (.same (reportExpected_agrees rfl) fun _ => .pure rfl)
  refine (parenArgs_agrees expression_agrees).bind fun dims dims' hdims => ?_
  have hdims : dims.map (Expr.relabel r) = dims'.map (Expr.relabel r) := by
    rw [← relabelAll_eq_map, ← relabelAll_eq_map]
    exact hdims
  have hlength := congrArg List.length hdims
  have hempty := congrArg List.isEmpty hdims
  rw [List.length_map, List.length_map] at hlength
  rw [List.isEmpty_map, List.isEmpty_map] at hempty
  rw [hempty, hlength]
  refine .also ?_ fun hrest => .same (spanFrom_agrees start) fun span =>
    .same (report_agrees rfl span) fun _ => hrest
  refine .same (defineGlobal_agrees (congrArg _ (Symbol.array_congr htext htype _))) fun _ => ?_
  refine .same (spanFrom_agrees start) fun span => .pure (congrArg some ?_)
  simp only [ArrayDecl.relabel, htext, htype, hdims]

theorem dimStmt_agrees : StmtAgrees h dimStmt :=
  .same cursor_agrees fun _ => .same advance_agrees fun _ =>
    listStmt_agrees arrayDecl_agrees fun _ _ => rfl

theorem constStmt_agrees : StmtAgrees h constStmt := by
  refine .word fun start => ?_
  refine .option (expect_agrees _ _) (.pure rfl) fun t t' ht => ?_
  have htext := Token.text_congr ht
  refine .option (expect_agrees _ _) (.pure rfl) fun _ _ _ => ?_
  refine expression_agrees.bind fun value value' hvalue => ?_
  rw [Symbol.declared_congr htext rfl, type_congr hvalue]
  refine .same (define_agrees rfl) fun _ => stmtFrom_agrees fun span => ?_
  simp only [Stmt.relabel, htext, hvalue]

/-! ### Jumps -/

theorem returnStmt_agrees : StmtAgrees h returnStmt := by
  refine .word fun start => ?_
  refine .same atStatementEnd_agrees fun _ => .same (check_agrees _) fun _ => .ite ?_ ?_
  · exact stmtFrom_agrees fun _ => rfl
  · refine expression_agrees.bind fun value value' hvalue => stmtFrom_agrees fun span => ?_
    exact congrArg (fun value => Stmt.return_ _ (some value)) hvalue

theorem exitStmt_agrees : StmtAgrees h exitStmt :=
  .same cursor_agrees fun _ => .same advance_agrees fun _ => stmtFrom_agrees fun _ => rfl

theorem endStmt_agrees : StmtAgrees h endStmt := by
  refine .word fun start => .same kind_agrees fun k => ?_
  split
  · refine .ite (.same advance_agrees fun _ => .same (spanFrom_agrees start) fun span => ?_) ?_
    · exact .same (report_agrees rfl span) fun _ => .pure rfl
    · exact stmtFrom_agrees fun _ => rfl
  · exact stmtFrom_agrees fun _ => rfl

theorem labelName_agrees : Steady h (Same (Option.map r.name)) labelName := by
  refine .same (check_agrees _) fun _ => .same (check_agrees _) fun _ => .ite ?_ ?_
  · exact takeText_agrees.some
  · exact .same (reportExpected_agrees rfl) fun _ => .pure rfl

theorem jumpStmt_agrees {make : Span → String → Stmt}
    (hmake : ∀ span label, (make span label).relabel r = make (r.span span) (r.name label)) :
    StmtAgrees h (jumpStmt make) := by
  refine .word fun start => ?_
  refine .option labelName_agrees (.pure rfl) fun label label' hlabel => stmtFrom_agrees fun span => ?_
  rw [hmake, hmake, hlabel]

theorem labelStmt_agrees {t t' : Token} (ht : t.relabel r = t'.relabel r) :
    StmtsAgree h (labelStmt t) (labelStmt t') := by
  refine .same advance_agrees fun _ => .pure (congrArg some ?_)
  have hspan := Token.span_congr ht
  simp only [Stmt.relabel, hspan, Token.text_congr ht]

/-! ### The data pool -/

theorem badData_agrees (fault : Fault) :
    Steady h (Same (Option.map r.data)) (badData start fault) := by
  refine .same advance_agrees fun _ => .same (spanFrom_agrees start) fun span => ?_
  exact .same (report_agrees rfl span) fun _ => .pure rfl

/-- A bare word of a `Data` list is not told apart from the one in its place. -/
def Input.SameWords (r : Relabel) (input input' : Input) : Prop :=
  ∀ ⦃i : Nat⦄ ⦃t t' : Token⦄, input.tokens[i]? = some t → input'.tokens[i]? = some t' →
    t.kind = .identifier → r.data (.string t.text) = r.data (.string t'.text)

omit [r.Respells] in
theorem Input.SameWords.refl (input : Input) : input.SameWords r input :=
  fun _ _ _ ht ht' _ => by rw [Option.some.inj (ht.symm.trans ht')]

omit [r.Respells] in
/-- Literals at the same place are the same, or bare words. -/
theorem dataLiteral?_cases {t t' : Token} (ht : t.relabel r = t'.relabel r) (negative : Bool) :
    dataLiteral? negative t = dataLiteral? negative t' ∨ t.kind = .identifier ∧
      dataLiteral? negative t = some (.ok (.string t.text)) ∧
      dataLiteral? negative t' = some (.ok (.string t'.text)) := by
  have hkind := Token.kind_congr ht
  unfold dataLiteral?
  rw [← hkind]
  by_cases hname : t.kind = .identifier
  · rw [hname]
    cases negative with
    | true => exact .inl rfl
    | false => exact .inr ⟨rfl, rfl, rfl⟩
  by_cases hlabel : t.kind = .label
  · rw [hlabel]
    exact .inl rfl
  · rw [Token.text_eq ht hname hlabel]
    exact .inl rfl

/-- A value of a `Data` list is the same, or a bare word that is not told apart from the other. -/
theorem dataValue_agrees (hwords : input.SameWords r input') :
    Steady h (Same (Option.map r.data)) dataValue := by
  refine .same cursor_agrees fun start => .same (accept_agrees _) fun negative => .at fun i => .peek ?_
  rcases h.token_cases i with ⟨ht, ht'⟩ | ⟨t, t', ht, ht', hsame⟩
  · rw [ht, ht']
    exact .of_agrees (.same (reportExpected_agrees rfl) fun _ => .pure rfl)
  rw [ht, ht']
  refine .of_agrees ?_
  dsimp only
  rcases dataLiteral?_cases hsame negative with heq | ⟨hname, hv, hv'⟩
  · rw [heq]
    split
    · exact .same advance_agrees fun _ => .pure rfl
    · exact badData_agrees _
    · exact .same (reportExpected_agrees rfl) fun _ => .pure rfl
  · rw [hv, hv']
    exact .same advance_agrees fun _ => .pure (congrArg some (hwords ht ht' hname))

theorem dataStmt_agrees (hwords : input.SameWords r input') : StmtAgrees h dataStmt := by
  refine .word fun start => .same atStatementEnd_agrees fun _ => .ite ?_ ?_
  · exact stmtFrom_agrees fun _ => rfl
  · exact listStmt_agrees (dataValue_agrees hwords) fun _ _ => rfl

/-- The type of a target of `Read`. -/
def readType (e : Expr) : ValueType :=
  match e with
  | .var _ name _ => (Name.markedType? name).getD .number
  | _ => e.type

theorem readType_congr (he : e.relabel r = e'.relabel r) :
    readType e = readType e' := by
  have hvariable : ∀ e : Expr, readType e =
      (e.varName?.map fun v => (Name.markedType? v.1).getD .number).getD e.type := by
    intro e
    cases e <;> rfl
  rw [hvariable, hvariable, type_congr he]
  rcases Expr.varName?_congr he with ⟨hv, hv'⟩ | ⟨name, name', type, type', hv, hv', hname, -⟩
  · rw [hv, hv']
  · rw [hv, hv', Option.map_some, Option.map_some, Relabel.markedType?_congr hname]

theorem readTarget_agrees :
    Steady h (Same (Option.map (Expr.relabel r))) readTarget := by
  refine .option target_agrees (.pure rfl) fun e e' he => ?_
  show Agrees h _ (some <$> declareTarget e (readType e)) (some <$> declareTarget e' (readType e'))
  rw [readType_congr he]
  exact (declareTarget_agrees he _).some

theorem readStmt_agrees : StmtAgrees h readStmt :=
  .same cursor_agrees fun _ => .same advance_agrees fun _ =>
    listStmt_agrees readTarget_agrees fun _ _ => rfl

theorem restoreStmt_agrees : StmtAgrees h restoreStmt := by
  refine .word fun start => ?_
  refine .same atStatementEnd_agrees fun _ => .ite (stmtFrom_agrees fun _ => rfl) ?_
  refine .option labelName_agrees (.pure rfl) fun label label' hlabel => stmtFrom_agrees fun span => ?_
  exact congrArg (fun label => Stmt.restore _ (some label)) hlabel

/-! ### Lists of objects -/

theorem deleteStmt_agrees : StmtAgrees h deleteStmt := by
  refine .word fun start => ?_
  refine .same (accept_agrees _) fun _ => .ite ?_ ?_
  · refine .option typeName_agrees (.pure rfl) fun type type' htype => stmtFrom_agrees fun span => ?_
    exact congrArg (Stmt.deleteEach _) htype
  · exact expression_agrees.bind fun e e' he => stmtFrom_agrees fun span =>
      congrArg (Stmt.delete _) he

theorem side_agrees : Steady h (Same (Option.map id)) side := by
  refine .same (accept_agrees _) fun _ => .ite (.pure rfl) ?_
  refine .same (accept_agrees _) fun _ => .ite (.pure rfl) ?_
  exact .same (reportExpected_agrees rfl) fun _ => .pure rfl

theorem insertStmt_agrees : StmtAgrees h insertStmt := by
  refine .word fun start => ?_
  refine expression_agrees.bind fun object object' hobject => ?_
  refine .option side_agrees (.pure rfl) fun s s' hs => ?_
  obtain rfl : s = s' := hs
  refine expression_agrees.bind fun anchor anchor' hanchor => stmtFrom_agrees fun span => ?_
  simp only [Stmt.relabel,
    show object.relabel r = object'.relabel r from hobject,
    show anchor.relabel r = anchor'.relabel r from hanchor]

end Parser

end FrameBasic
