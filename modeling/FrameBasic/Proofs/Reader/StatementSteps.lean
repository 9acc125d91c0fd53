import FrameBasic.Proofs.Reader.Program
import FrameBasic.Proofs.Reader.Steps

/-!
# The steps of statements

Reading a program is a run.  A declaration is a step at a token on the line of its word, so the
readers of lists follow the line; all others may end anywhere.

A statement spans the tokens that were passed while it was read, with the separators and closers
that belong to it.  The statements of a block are read one after the other, so that none of them
overlap.

## Main definitions

* `Stmt.targets` — what a statement stores values in.
* `Parser.TargetRead` — what is given for a target.

## Main results

* `Parser.varDecl_passes`, `Parser.arrayDecl_passes`, `Parser.params_runs` — names are declared on
  the line of their word.
* `Parser.target_runs`, `Parser.readTargets_runs` — targets, with the fields behind them.
* `Parser.statement_passes` — reading a statement is a run, and it lies where it was read.
* `Parser.readAll_run` — **reading a program is a run**.
* `Parser.readAll_inRow` — the statements of a program were read one after the other.
-/

namespace FrameBasic

/-- What a statement stores values in. -/
def Stmt.targets : Stmt → List Expr
  | .assign _ target _ => [target]
  | .read _ targets => targets
  | _ => []

namespace Parser

variable {input : Input} {line : input.Line} {α β γ : Type} {i j w start : Nat} {p : Parser α}
  {A Q : α → Nat → Prop} {B R : β → Nat → Prop} {stmt : Parser (Option Stmt)}

/-! ### More rules -/

namespace Runs

/-- A run on a line, seen from outside. -/
theorem carry (h : Runs line i p A Q) (hi : line.Has i) :
    Runs input.anywhere i p (fun a j => line.Has j ∧ A a j) Q := by
  intro s hs hstop _
  obtain ⟨⟨hrun, hend, hline⟩, ha, hq⟩ := h s hs hstop hi
  exact ⟨⟨hrun, hend, trivial⟩, ⟨hline, ha⟩, hq⟩

/-- What the reader gives, wherever it stops. -/
theorem also {B : α → Prop} (h : Runs line i p A Q) (hB : ∀ s, B (p input s).1) :
    Runs line i p (fun a _ => B a) Q :=
  fun s hs hi hline => ⟨(h s hs hi hline).1, hB s, (h s hs hi hline).2.2⟩

/-- What is known about a reader that declares nothing and calls no type unknown. -/
theorem of_reads {Q : α → List ParseError → Prop} (h : Reads .none input 0 p Q)
    (hQ : ∀ a new, Q a new → ∀ e ∈ new, IsSyntax e) :
    Passes input.anywhere i p fun _ _ => True := by
  intro s hs hi _
  obtain ⟨new, hr, hq⟩ := h s (Nat.zero_le _) (hs ▸ hi)
  have hreports : ∀ {new : List ParseError} {s : State}, (∀ e ∈ new, IsSyntax e) →
      Run input s { s with errors := s.errors ++ new } := by
    intro new
    induction new with
    | nil =>
      intro s _
      rw [List.append_nil]
    | cons e rest ih =>
      intro s hnew
      obtain ⟨he, hrest⟩ := List.forall_mem_cons.mp hnew
      have hfault : ∀ name, e.fault ≠ .unknownType name := by
        intro name hname
        rw [IsSyntax, hname] at he
        exact Bool.false_ne_true he.symm
      have hnext := ih (s := { s with errors := s.errors ++ [e] }) hrest
      rw [List.append_assoc] at hnext
      exact .head (.report hfault) hnext
  have hend : (p input s).2 =
      { s with cursor := (p input s).2.cursor, errors := s.errors ++ new } := by
    have hscopes : (p input s).2.scopes = s.scopes := hr.scopes
    rw [← hr.errors, ← hr.depth, ← hr.exhausted, ← hscopes]
  refine ⟨⟨?_, hr.cursor_le_stop, trivial⟩, trivial, fun _ => trivial⟩
  rw [hend]
  exact .head (.move hr.cursor_le) (hreports (s := { s with cursor := _ }) (hQ _ _ hq))

/-- What a silent reader does. -/
theorem silent (h : Reads .none input 0 p fun _ new => new = []) :
    Passes input.anywhere i p fun _ _ => True :=
  of_reads h fun _ _ hnew => by simp [hnew]

/-- A silent reader and what comes after it. -/
theorem skip {f : α → Parser β} (h : Reads .none input 0 p fun _ new => new = [])
    (hf : ∀ a j, i ≤ j → Runs input.anywhere j (f a) B R) :
    Runs input.anywhere i (p >>= f) B R :=
  (silent h).step hf

/-- The place of a statement is kept and its first word passed. -/
theorem word {f : Nat → Parser β} (hi : i < input.stop)
    (hf : Runs input.anywhere (i + 1) (f i) B R) :
    Runs input.anywhere i (do
      let start ← Parser.cursor
      Parser.advance
      f start) B R :=
  cursor (pass hi (fun _ => trivial) hf)

theorem define {symbol : Symbol} {f : Unit → Parser β} (hj : j < i) (h : input.Declares j)
    (hname : input.NameAt j symbol.name) (hf : Runs line i (f ()) B R) :
    Runs line i (define symbol >>= f) B R :=
  of_step (fun _ hs => ⟨.define (hs ▸ hj) h hname, hs⟩) fun _ => hf

theorem defineGlobal {symbol : Symbol} {f : Unit → Parser β} (hj : j < i) (h : input.Declares j)
    (hname : input.NameAt j symbol.name) (hf : Runs line i (f ()) B R) :
    Runs line i (defineGlobal symbol >>= f) B R :=
  of_step (fun _ hs => ⟨.defineGlobal (hs ▸ hj) h hname, hs⟩) fun _ => hf

theorem inBlock (h : Runs line i p A Q) : Runs line i (inBlock p) A Q := by
  intro s hs hi hline
  obtain ⟨⟨hrun, hends⟩, hresult⟩ := h { s with depth := s.depth + 1 } hs hi hline
  exact ⟨⟨.head .nest (hrun.tail .nest), hends⟩, hresult⟩

end Runs

/-- What is read from `i` on is a statement that spans the tokens since `start`. -/
abbrev PlacesStmt (input : Input) (start i : Nat) (p : Parser (Option Stmt)) : Prop :=
  Passes input.anywhere i p (Stands input start)

theorem stmtFrom_passes {make : Span → Stmt} {R : Option Stmt → Nat → Prop}
    (h : ∀ span, span = input.spanFrom start i → i ≤ input.stop → R (some (make span)) i) :
    Passes line i (stmtFrom start make) R :=
  .spanFrom (.pure fun hi => h _ rfl hi)

/-- A statement without nodes that spans the tokens since `start`. -/
theorem leafStmt_passes {make : Span → Stmt} (hstart : start < i)
    (hspan : ∀ span, (make span).span = span) (hrows : ∀ span, (make span).rows = []) :
    Passes line i (stmtFrom start make) (Stands input start) :=
  stmtFrom_passes fun span hfrom hstop =>
    .of_leaf hstart hstop ((hspan span).trans hfrom) (hrows span)

/-- Something else that spans the tokens since `start`. -/
theorem item_passes {node : α → TreeNode} {make : Span → α} (hstart : start < i)
    (hspan : ∀ span, (node (make span)).span = span) :
    Passes line i (do return some (make (← Parser.spanFrom start))) fun o j =>
      (∀ span, ∀ row ∈ (node (make span)).rows, InRow input start i row) →
        ∀ a ∈ o, Lies input start j (node a) := by
  refine .spanFrom (.pure fun hi hrows a ha => ?_)
  cases ha
  exact .of_rows hstart hi (hspan _) (hrows _)

/-! ### Lists -/

/-- What the reader gives, if it gives something, lies where it was read. -/
def PlacesIf (line : input.Line) (node : α → TreeNode) (p : Parser (Option α)) : Prop :=
  ∀ i, Passes line i p fun o j => ∀ a ∈ o, Lies input i j (node a)

/-- The items of a list are read one after the other.  They stand where `P` holds, which every comma
passes on. -/
theorem collect_runs {item : Parser (Option α)} {node : α → TreeNode} {P : Nat → Prop}
    {A : α → Nat → Prop}
    (hcomma : ∀ i j, P i → i ≤ j → line.Has j → input.kind j = .comma → P (j + 1))
    (hmono : ∀ a i j, i ≤ j → A a i → A a j)
    (hitem : ∀ i, P i → Runs line i item (fun o j => ∀ a ∈ o, A a j)
      fun o j => ∀ a ∈ o, Lies input i j (node a)) (hi : P i) :
    Runs line i (bounded (collect item)) (fun r j => ∀ a ∈ r.1, A a j)
      fun r j => InRow input i j (r.1.map node) := by
  refine .bounded fun rounds => ?_
  induction rounds generalizing i with
  | zero => exact .exhaust (.ends (List.forall_mem_nil _))
  | succ rounds ih =>
    refine (hitem i hi).andThen fun first j hij hj hfirst => ?_
    cases first with
    | none => exact .gives (List.forall_mem_nil _) fun _ _ => .nil hij
    | some first =>
      have hone : A first j := hfirst first rfl
      refine .accept rfl (fun hkind => ?_)
        (.gives (List.forall_mem_singleton.mpr hone) fun _ h => .single (h first rfl))
      refine (ih (hcomma i j hi hij hj hkind)).andThen fun rest k hjk _ hrest => ?_
      refine .gives (List.forall_mem_cons.mpr ⟨hmono _ _ _ (by omega) hone, hrest⟩) ?_
      intro _ hrow h
      exact .cons (Nat.le_refl _) (h first rfl) (hrow.mono (Nat.le_succ j) (Nat.le_refl _))

theorem collect_passes {item : Parser (Option α)} {node : α → TreeNode}
    (h : PlacesIf line node item) :
    Passes line i (bounded (collect item)) fun r j => InRow input i j (r.1.map node) := by
  have hall := collect_runs (P := fun _ => True) (A := fun (_ : α) _ => True) (i := i)
    (fun _ _ _ _ _ _ => trivial) (fun _ _ _ _ _ => trivial)
    (fun i _ => (h i).weaken (fun _ _ _ _ _ _ => trivial) fun _ _ _ _ h => h) trivial
  exact hall.imp fun _ _ _ _ h => h

/-- The names of the list that the word at `w` begins. -/
theorem names_runs {item : Parser (Option α)} {node : α → TreeNode} {A : α → Nat → Prop}
    (hw : input.kind w ∈ [.keyword .local_, .keyword .global, .keyword .dim, .keyword .function])
    (hmono : ∀ a i j, i ≤ j → A a i → A a j)
    (hitem : ∀ i, input.Declares i → Runs (input.lineOf w) i item (fun o j => ∀ a ∈ o, A a j)
      fun o j => ∀ a ∈ o, Lies input i j (node a)) (hlt : w < i) (hi : input.Declares i) :
    Runs (input.lineOf w) i (bounded (collect item)) (fun r j => ∀ a ∈ r.1, A a j)
      fun r j => InRow input i j (r.1.map node) := by
  refine collect_runs (P := fun j => w < j ∧ input.Declares j) ?_ hmono
    (fun i hi => hitem i hi.2) ⟨hlt, hi⟩
  intro i j hi hij hline hcomma
  have hj : w < j := Nat.lt_of_lt_of_le hi.1 hij
  exact ⟨Nat.lt_succ_of_lt hj, Input.declares_next hw hj hline hcomma⟩

/-- A statement that is a list of items. -/
theorem listStmt_passes {item : Parser (Option α)} {node : α → TreeNode}
    {make : Span → List α → Stmt} {A : List α × Bool → Nat → Prop}
    (h : Runs line i (bounded (collect item)) A fun r j => InRow input i j (r.1.map node))
    (hstart : start < i) (hspan : ∀ span items, (make span items).span = span)
    (hrows : ∀ span items, (make span items).rows = [items.map node]) :
    Passes line i (do
      let (items, complete) ← bounded (collect item)
      if complete then stmtFrom start (make · items) else return none) (Stands input start) := by
  refine h.bind fun r j hj => ?_
  obtain ⟨items, complete⟩ := r
  refine .ite (fun _ => stmtFrom_passes ?_) fun _ => .pure fun _ _ => .none
  intro span hfrom hstop hitems
  refine .of_row (by omega) hstop ((hspan span items).trans hfrom) (hrows span items) ?_
  exact hitems.mono (Nat.le_of_lt hstart) (Nat.le_refl _)

/-- A statement that begins with the word at `w` and declares names on its line. -/
theorem namesStmt_passes {item : Parser (Option α)} {node : α → TreeNode}
    {make : Span → List α → Stmt}
    (hw : input.kind w ∈ [.keyword .local_, .keyword .global, .keyword .dim])
    (hitem : ∀ i, input.Declares i →
      Passes (input.lineOf w) i item fun o j => ∀ a ∈ o, Lies input i j (node a))
    (hspan : ∀ span items, (make span items).span = span)
    (hrows : ∀ span items, (make span items).rows = [items.map node]) :
    PlacesStmt input w w (do
      let start ← cursor
      advance
      let (items, complete) ← bounded (collect item)
      if complete then stmtFrom start (make · items) else return none) := by
  have hplain : (input.kind w).isTerminator = false ∧ (input.kind w).isSeparator = false := by
    cases hk : input.kind w <;> simp_all [Kind.isTerminator, Kind.isSeparator]
  -- inside of the list the line of the word is followed, behind it any place will do
  have hlist := names_runs (A := fun (_ : α) _ => True) (List.mem_append_left [_] hw)
    (fun _ _ _ _ _ => trivial)
    (fun i hi => (hitem i hi).weaken (fun _ _ _ _ _ _ => trivial) fun _ _ _ _ h => h)
    (Nat.lt_succ_self w) (Input.declares_first (List.mem_append_left [_, _] hw))
  refine .cursor (.advance hplain.1 ?_)
  refine listStmt_passes (hlist.carry ?_) (Nat.lt_succ_self w) hspan hrows
  exact (input.lineOf w).steady w hplain.2 (Input.oneLine_self w)

/-! ### Assignments and calls -/

section Simple

theorem statementArgs_passes : PassesRow line .expr i statementArgs := by
  intro s hs hi hline
  rw [statementArgs_eq]
  split
  · exact parenArgs_passes expression_passes s hs hi hline
  · exact bareArgs_passes expression_passes s hs hi hline

/-- A variable stands for the name at a token, with a type only if there is a label behind it. -/
def TargetAt (input : Input) (i : Nat) (e : Expr) : Prop :=
  ∀ info name tag, e = .var info name tag →
    input.NameAt i (Name.fold name) ∧ (tag.isSome = true → input.kind (i + 1) = .label)

/-- How the reader came to a target: at `start` there is a name, which ends at `i` with its type or
its indices, and from there to `j` there are fields. -/
inductive TargetRead (input : Input) : Expr → Prop
  /-- That is all, and a value can be stored in it. -/
  | complete {e : Expr} {start i j : Nat} (name : input.kind start = .identifier)
      (behind : start < i) (fields : input.Fields i j) (assignable : e.isAssignable = true)
      (span : e.span = input.spanFrom start j) : TargetRead input e
  /-- Another field has no name. -/
  | broken {start i j : Nat} (name : input.kind start = .identifier) (behind : start < i)
      (fields : input.Fields i j) (point : input.kind j = .backslash)
      (nameless : input.kind (j + 1) ∉ [.identifier, .command]) :
    TargetRead input (.error { span := input.spanFrom start (j + 1) })

theorem FieldsRead.target {e : Expr} (h : FieldsRead input start i e)
    (hname : input.kind start = .identifier) (hbehind : start < i) : TargetRead input e := by
  obtain ⟨j, hfields, ⟨hassignable, hspan⟩ | ⟨hpoint, hnameless, rfl⟩⟩ := h
  · exact .complete hname hbehind hfields hassignable hspan
  · exact .broken hname hbehind hfields hpoint hnameless

/-- The type of a variable does not matter. -/
theorem TargetRead.typed {e : Expr} (h : TargetRead input e) (hassignable : e.isAssignable = true)
    (scopes : Scopes) (commands : CommandTable) : TargetRead input (e.typed scopes commands) := by
  cases h with
  | complete name behind fields assignable span =>
    refine .complete name behind fields ?_ ?_
    · exact (Expr.isAssignable_withType _ e).trans assignable
    · exact (Expr.span_withType _ e).trans span
  | broken => cases hassignable

/-- The target that is given begins at `i` and ends before `j`. -/
def GivesTarget (input : Input) (i : Nat) (o : Option Expr) (j : Nat) : Prop :=
  ∀ e ∈ o, i < j ∧ TargetAt input i e ∧ TargetRead input e

/-- A target is assignable, or the name of its last field is missing. -/
theorem target_runs :
    Runs line i target (GivesTarget input i) fun o j => ∀ e ∈ o, Lies input i j (.expr e) := by
  refine .cursor (.expect rfl (fun token htoken hkind => ?_) (.ends nofun))
  have hname := Input.nameAt_of_token htoken hkind
  refine typeTag_runs.known fun tag j hij _ htag => ?_
  extract_lets fields
  have hfields : ∀ {make : Info → Expr} {parts : List Expr} {j : Nat}, i < j →
      (∀ i j, (make i).withInfo j = make j) → (∀ info, (make info).parts = parts) →
      (∀ info, (make info).isAssignable = true) → (∀ info, TargetAt input i (make info)) →
      Runs line j (node i make >>= fields) (GivesTarget input i)
        fun o k => InRow input i j (parts.map .expr) → ∀ e ∈ o, Lies input i k (.expr e) := by
    intro make parts j hj hmake hparts hassignable htarget
    refine .node hmake fun info hspan => .map (withFields_runs.weaken ?_ ?_)
    · rintro e k hk ⟨hvar, hread⟩ found hfound
      cases hfound
      refine ⟨by omega, fun info' name tag he => ?_, ?_⟩
      · exact htarget info info' name tag ((hvar info' name tag he).symm.trans he)
      · exact (hread (hassignable info) hspan).target ((Input.kind_of_token htoken).trans hkind) hj
    · intro e k hk hstop hlies hrow found hfound
      cases hfound
      exact hlies (.of_expr hj (by omega) hspan (hparts info ▸ hrow))
  have hplain : Runs line j (node i (.var · token.text tag) >>= fields) (GivesTarget input i)
      fun o k => ∀ e ∈ o, Lies input i k (.expr e) := by
    refine Runs.weaken (hfields (by omega) (fun _ _ => rfl) (fun _ => rfl) (fun _ => rfl) ?_)
      (fun _ _ _ h => h) fun _ _ _ _ h => h (.nil (by omega))
    intro info info' name tag' hvar
    cases hvar
    exact ⟨hname, htag⟩
  cases tag with
  | some typeName => exact hplain
  | none =>
    refine .look fun paren => .ite (fun _ => ?_) fun _ => hplain
    refine (parenArgs_passes expression_passes).bind fun args k hk => ?_
    have helement : Runs line k (node i (.element · token.text args) >>= fields)
        (GivesTarget input i)
        fun o l => InRow input j k (args.map .expr) → ∀ e ∈ o, Lies input i l (.expr e) :=
      Runs.weaken
        (hfields (by omega) (fun _ _ => rfl) (fun _ => rfl) (fun _ => rfl) fun _ => nofun)
        (fun _ _ _ h => h) fun _ _ _ _ h hargs => h (hargs.mono (by omega) (Nat.le_refl _))
    refine .look fun state => .ite (fun _ => helement) fun _ => ?_
    exact .look fun span => .report (by simp) helement

/-- A variable is declared where it is not known, or to give it a type in the innermost scope.  It
stays the same expression, with its type. -/
theorem declareTarget_runs {e : Expr} {type : ValueType} (hj : j < i) (he : TargetAt input j e)
    (hread : TargetRead input e) :
    Runs line i (declareTarget e type) (fun e' _ => TargetRead input e') fun e' k =>
      k = i ∧ ∀ {first last : Nat},
        Lies input first last (.expr e) → Lies input first last (.expr e') := by
  cases e with
  | var info name tag =>
    obtain ⟨hname, htag⟩ := he info name tag rfl
    have hsymbol := Symbol.name_declared name tag (some type)
    intro s hs hi hline
    -- which step it is depends on the scopes of the state
    have hrun : declareTarget (.var info name tag) type input s =
        (if (s.scopes.lookup? name).isNone || (tag.isSome && (s.scopes.lookupInner? name).isNone)
          then define (.declared name tag (some type)) >>= fun _ => typed (.var info name tag)
          else typed (.var info name tag)) input s := rfl
    rw [hrun]
    split
    · next hnew =>
      have hstep : Step input s
          { s with scopes := s.scopes.define (.declared name tag (some type)) } := by
        rw [Bool.or_eq_true, Bool.and_eq_true] at hnew
        rcases hnew with hnew | ⟨hsome, hnew⟩
        · exact .defineNew hsymbol (Option.isNone_iff_eq_none.mp hnew)
        · exact .defineTagged (hs ▸ hj) (htag hsome) (hsymbol ▸ hname) hsymbol
            (Option.isNone_iff_eq_none.mp hnew)
      exact ⟨⟨.single hstep, hs ▸ hi, hs ▸ hline⟩, hread.typed rfl _ _,
        fun _ => ⟨hs, fun h => h.congr rfl rfl⟩⟩
    · exact ⟨⟨.refl, hs ▸ hi, hs ▸ hline⟩, hread.typed rfl _ _,
        fun _ => ⟨hs, fun h => h.congr rfl rfl⟩⟩
  | _ => exact .gives hread fun _ => ⟨rfl, id⟩

/-- The targets of the statement that was read, if any. -/
def TargetsRead (input : Input) (o : Option Stmt) : Prop :=
  ∀ s ∈ o, ∀ e ∈ s.targets, TargetRead input e

theorem assignment_runs :
    Runs line i assignment (fun o _ => TargetsRead input o) (Stands input i) := by
  refine .cursor (target_runs.andThen fun o j hj _ ho => ?_)
  cases o with
  | none => exact .gives nofun fun _ _ => .none
  | some e =>
    obtain ⟨hlt, htarget, hread⟩ := ho e rfl
    refine .expect rfl (fun _ _ _ => ?_) (.ends nofun)
    refine (expression_passes (j + 1)).bind fun value k hk => ?_
    refine (declareTarget_runs (by omega) htarget hread).andThen fun e' l hl _ he' => ?_
    refine .spanFrom (.gives ?_ fun hstop hdeclared hvalue hlies => ?_)
    · rintro _ ⟨⟩
      exact List.forall_mem_singleton.mpr he'
    · have hfirst : Lies input i j (.expr e') := hdeclared.2 (hlies e rfl)
      refine .of_row (by omega) hstop rfl rfl (.cons (Nat.le_refl _) hfirst ?_)
      exact (InRow.single hvalue).mono (Nat.le_succ j) hl

/-- A call and the statement that it is span the same tokens. -/
theorem callStmt_passes {name : String} (hi : i < input.stop) :
    PlacesStmt input i i (callStmt i name) := by
  refine .pass hi (fun _ => trivial) (statementArgs_passes.bind fun args j hj => ?_)
  refine .node (fun _ _ => rfl) fun info hinfo => stmtFrom_passes fun span hspan hstop hargs => ?_
  have hcall : Lies input i j (.expr (.call info name args)) :=
    .of_expr (by omega) hstop hinfo (hargs.mono (Nat.le_succ i) (Nat.le_refl _))
  exact .of_row hcall.lt hstop hspan rfl (.single hcall)

/-- A statement that begins with a name is a call or an assignment. -/
theorem nameStmt_runs (hi : i < input.stop) :
    Runs input.anywhere i nameStmt (fun o _ => TargetsRead input o) (Stands input i) := by
  refine .cursor (.look fun token => .look fun next => ?_)
  refine .look fun state => ?_
  extract_lets unknownList rest
  have hcall : ∀ name, Runs input.anywhere i (callStmt i name)
      (fun o _ => TargetsRead input o) (Stands input i) :=
    fun name => (callStmt_passes hi).also fun s => by rintro _ ⟨⟩; exact List.forall_mem_nil _
  have hrest : ∀ assigns, Runs input.anywhere i (rest assigns)
      (fun o _ => TargetsRead input o) (Stands input i) := by
    intro assigns
    refine .ite (fun _ => hcall _) fun _ => .ite (fun _ => assignment_runs) fun _ => ?_
    refine .look fun s => .ite (fun _ => hcall _) fun _ => ?_
    exact .pass hi (fun _ => trivial) (.reportExpected (.ends nofun))
  refine .ite (fun _ s hs hi hline => ?_) fun _ => hrest true
  rw [run_bind_of_look assignsAfterParens_stays]
  exact hrest _ s hs hi hline

theorem commandStmt_passes (hkind : input.kind i = .command) :
    Passes line i commandStmt (Stands input i) := by
  refine .cursor (.takeText (hkind ▸ rfl) fun name => statementArgs_passes.bind fun args j hj => ?_)
  refine (commandNode_passes (by omega)).bind fun e k hk => stmtFrom_passes ?_
  intro span hspan hstop hcommand hargs
  have he : Lies input i k (.expr e) := hcommand (hargs.mono (Nat.le_succ i) (Nat.le_refl _))
  exact .of_row he.lt hstop hspan rfl (.single he)

end Simple

/-! ### Declarations -/

section Declarations

theorem initialValue_passes :
    Passes line i initialValue fun o j => InRow input i j (o.toList.map .expr) := by
  refine .accept rfl (fun _ => ?_) (.pure fun _ => .nil (Nat.le_refl _))
  refine .map ((expression_passes (i + 1)).imp fun value j _ _ h => ?_)
  exact (InRow.single h).mono (Nat.le_succ i) (Nat.le_refl _)

theorem varDecl_passes {scope : DeclScope} (hi : input.Declares i) :
    Passes line i (varDecl scope) fun o j => ∀ v ∈ o, Lies input i j (.var v) := by
  refine .cursor (.expect rfl (fun token htoken hkind => ?_) (.ends trivial))
  refine typeTag_runs.step fun tag j hj => initialValue_passes.bind fun value k hk => ?_
  have hname : input.NameAt i (Symbol.declared token.text tag (value.map Expr.type)).name := by
    rw [Symbol.name_declared]
    exact Input.nameAt_of_token htoken hkind
  have hdone : Passes line k (do
      return some ⟨token.text, tag, value, ← spanFrom i⟩) fun o m =>
        InRow input j k (value.toList.map .expr) → ∀ v ∈ o, Lies input i m (.var v) := by
    refine Runs.imp (item_passes (by omega) fun _ => rfl) fun o m _ _ h hvalue => h ?_
    exact fun _ => List.forall_mem_singleton.mpr (hvalue.mono (by omega) (Nat.le_refl _))
  cases scope with
  | inner => exact .define (by omega) hi hname hdone
  | global => exact .defineGlobal (by omega) hi hname hdone

theorem arrayDecl_passes (hi : input.Declares i) :
    Passes line i arrayDecl fun o j => ∀ a ∈ o, Lies input i j (.array a) := by
  refine .cursor (.expect rfl (fun token htoken hkind => ?_) (.ends trivial))
  refine typeTag_runs.step fun tag j hj => .look fun paren => ?_
  refine .ite (fun _ => ?_) fun _ => .reportExpected (.ends trivial)
  refine (parenArgs_passes expression_passes).bind fun dimensions k hk => ?_
  extract_lets plain rest
  have hname : input.NameAt i (tag.elim plain plain.withTypeName).name := by
    cases tag <;> exact Input.nameAt_of_token htoken hkind
  have hrest : Passes line k (rest ()) fun o m =>
      InRow input j k (dimensions.map .expr) → ∀ a ∈ o, Lies input i m (.array a) := by
    refine .defineGlobal (by omega) hi hname ?_
    refine Runs.imp (item_passes (by omega) fun _ => rfl) fun o m _ _ h hrow => h ?_
    exact fun _ => List.forall_mem_singleton.mpr (hrow.mono (by omega) (Nat.le_refl _))
  refine .ite (fun _ => ?_) fun _ => hrest
  exact .look fun span => .report (by simp) hrest

theorem constStmt_passes (hw : input.kind w = .keyword .const) :
    PlacesStmt input w w constStmt := by
  have hfirst : input.Declares (w + 1) := Input.declares_first (by simp [hw])
  refine .cursor (.advance (hw ▸ rfl) ?_)
  refine .expect rfl (fun token htoken hkind => ?_) (.ends trivial)
  refine .expect rfl (fun _ _ _ => ?_) (.ends trivial)
  refine (expression_passes _).bind fun value k hk => .define (by omega) hfirst ?_ ?_
  · rw [Symbol.name_declared]
    exact Input.nameAt_of_token htoken hkind
  · refine stmtFrom_passes fun span hspan hstop hvalue => .of_row (by omega) hstop hspan rfl ?_
    exact (InRow.single hvalue).mono (by omega) (Nat.le_refl _)

end Declarations

/-! ### Jumps, data and lists of objects -/

section Others

theorem returnStmt_passes (hi : i < input.stop) : PlacesStmt input i i returnStmt := by
  refine .word hi (.look fun atEnd => .look fun atElse => ?_)
  refine .ite (fun _ => stmtFrom_passes fun span hspan hstop => ?_) fun _ => ?_
  · exact .of_row (Nat.lt_succ_self i) hstop hspan rfl (.nil (Nat.le_succ i))
  · refine (expression_passes _).bind fun value j hj => stmtFrom_passes ?_
    intro span hspan hstop hvalue
    refine .of_row (by omega) hstop hspan rfl ?_
    exact (InRow.single hvalue).mono (Nat.le_succ i) (Nat.le_refl _)

theorem endStmt_passes (hi : i < input.stop) : PlacesStmt input i i endStmt := by
  have hend : PlacesStmt input i (i + 1) (stmtFrom i .end_) :=
    leafStmt_passes (Nat.lt_succ_self i) (fun _ => rfl) fun _ => rfl
  refine .word hi (.look fun kind => ?_)
  split
  · refine .ite (fun _ => .skip advance_reads fun _ j _ => ?_) fun _ => hend
    exact .look fun span => .report (by simp) (.ends trivial)
  · exact hend

/-- A statement with a label behind its word. -/
theorem labelled_passes {make : Span → String → Stmt} (hstart : start < i)
    (hspan : ∀ span label, (make span label).span = span)
    (hrows : ∀ span label, (make span label).rows = []) :
    PlacesStmt input start i (do
      let some label ← labelName | return none
      stmtFrom start (make · label)) := by
  have hname : Passes input.anywhere i labelName fun _ _ => True := by
    refine .look fun name => .look fun label => ?_
    exact .ite (fun _ => .map (.silent takeText_reads)) fun _ => .reportExpected (.ends trivial)
  refine hname.step fun label j hj => ?_
  cases label with
  | none => exact .pure fun _ => .none
  | some label => exact leafStmt_passes (by omega) (hspan · label) (hrows · label)

/-- A label is one token. -/
theorem labelStmt_passes {token : Token} (htoken : input.tokens[i]? = some token)
    (hi : i < input.stop) : PlacesStmt input i i (labelStmt token) := by
  refine .pass hi (fun _ => trivial) (.pure fun hstop => ?_)
  refine .of_leaf (Nat.lt_succ_self i) hstop ?_ rfl
  unfold Input.spanFrom
  rw [Nat.add_sub_cancel, htoken]
  dsimp only
  rw [if_pos (Nat.lt_succ_self i)]
  rfl

theorem dataValue_walks : Walks input.anywhere dataValue := by
  intro i
  refine .look fun start => .skip (accept_reads (by decide)) fun negative j _ => ?_
  refine .look fun token => ?_
  cases token with
  | none => exact .reportExpected (.ends trivial)
  | some token =>
    dsimp only
    split
    · exact .skip advance_reads fun _ k _ => .ends trivial
    · next fault hliteral =>
      refine .skip advance_reads fun _ k _ => .look fun span => ?_
      refine .report (fun name hname => ?_) (.ends trivial)
      exact absurd (dataLiteral?_error hliteral) (by simp [hname, Fault.isSemantic])
    · exact .reportExpected (.ends trivial)

theorem dataStmt_passes (hi : i < input.stop) : PlacesStmt input i i dataStmt := by
  have hvalues : ∀ rounds, Walks input.anywhere (collect dataValue rounds) := by
    intro rounds
    induction rounds with
    | zero => exact fun _ => .exhaust (.ends trivial)
    | succ rounds ih =>
      refine fun i => (dataValue_walks i).step fun value j _ => ?_
      cases value with
      | none => exact .ends trivial
      | some value =>
        exact .accept rfl (fun _ => (ih _).step fun rest k _ => .ends trivial) (.ends trivial)
  have hlist : Passes input.anywhere (i + 1) (bounded (collect dataValue)) fun _ _ => True :=
    .bounded fun rounds => hvalues rounds (i + 1)
  refine .word hi (.look fun atEnd => .ite (fun _ => ?_) fun _ => ?_)
  · exact leafStmt_passes (Nat.lt_succ_self i) (fun _ => rfl) fun _ => rfl
  · refine hlist.step fun r j hj => ?_
    obtain ⟨values, complete⟩ := r
    refine .ite (fun _ => ?_) fun _ => .pure fun _ => .none
    exact leafStmt_passes (by omega) (fun _ => rfl) fun _ => rfl

theorem readTarget_runs (i : Nat) :
    Runs line i readTarget (fun o _ => ∀ e ∈ o, TargetRead input e)
      fun o j => ∀ e ∈ o, Lies input i j (.expr e) := by
  refine target_runs.andThen fun o j _ _ ho => ?_
  cases o with
  | none => exact .gives nofun fun _ _ => nofun
  | some e =>
    obtain ⟨hlt, htarget, hread⟩ := ho e rfl
    refine .map ((declareTarget_runs hlt htarget hread).weaken ?_ ?_)
    · rintro e' k _ he' _ ⟨⟩
      exact he'
    · rintro e' k _ _ ⟨rfl, hdeclared⟩ hlies _ ⟨⟩
      exact hdeclared (hlies e rfl)

/-- The list behind `Read`. -/
theorem readTargets_runs :
    Runs line i (bounded (collect readTarget)) (fun r _ => ∀ e ∈ r.1, TargetRead input e)
      fun r j => InRow input i j (r.1.map .expr) :=
  collect_runs (P := fun _ => True) (A := fun e _ => TargetRead input e)
    (fun _ _ _ _ _ _ => trivial) (fun _ _ _ _ h => h) (fun i _ => readTarget_runs i) trivial

theorem restoreStmt_passes (hi : i < input.stop) : PlacesStmt input i i restoreStmt := by
  refine .word hi (.look fun atEnd => .ite (fun _ => ?_) fun _ => ?_)
  · exact leafStmt_passes (Nat.lt_succ_self i) (fun _ => rfl) fun _ => rfl
  · exact labelled_passes (Nat.lt_succ_self i) (fun _ _ => rfl) fun _ _ => rfl

theorem deleteStmt_passes (hi : i < input.stop) : PlacesStmt input i i deleteStmt := by
  refine .word hi (.accept rfl (fun _ => (typeName_walks _).step fun name j hj => ?_) ?_)
  · cases name with
    | none => exact .pure fun _ => .none
    | some name => exact leafStmt_passes (by omega) (fun _ => rfl) fun _ => rfl
  · refine (expression_passes _).bind fun object j hj => stmtFrom_passes ?_
    intro span hspan hstop hobject
    refine .of_row (by omega) hstop hspan rfl ?_
    exact (InRow.single hobject).mono (Nat.le_succ i) (Nat.le_refl _)

theorem insertStmt_passes (hi : i < input.stop) : PlacesStmt input i i insertStmt := by
  have hside : Walks input.anywhere side := by
    refine fun i => .accept rfl (fun _ => .ends trivial) (.accept rfl (fun _ => .ends trivial) ?_)
    exact .reportExpected (.ends trivial)
  refine .word hi ((expression_passes _).bind fun object j hj => ?_)
  refine (hside j).step fun found k hk => ?_
  cases found with
  | none => exact .pure fun _ _ => .none
  | some side =>
    refine (expression_passes _).bind fun anchor l hl => stmtFrom_passes ?_
    intro span hspan hstop hanchor hobject
    refine .of_row (by omega) hstop hspan rfl (.cons (Nat.le_succ i) hobject ?_)
    exact (InRow.single hanchor).mono hk (Nat.le_refl _)

end Others

/-! ### Blocks -/

theorem passFrom_walks : Walks input.anywhere (passFrom start) :=
  fun _ => .look fun _ =>
    .ite (fun _ => .silent advance_reads) fun _ => .ends trivial

theorem finishStatement_walks : Walks input.anywhere finishStatement := by
  intro i
  refine .of_reads finishStatement_reads fun _ new h e he => ?_
  rcases h with rfl | ⟨e', hform, rfl⟩
  · exact absurd he (List.not_mem_nil)
  · exact List.mem_singleton.mp he ▸ hform

theorem finishOrRecover_walks (complete : Bool) :
    Walks input.anywhere (finishOrRecover complete) := by
  cases complete with
  | true => exact finishStatement_walks
  | false => exact fun _ => .silent recover_reads

theorem finishInline_walks (complete : Bool) : Walks input.anywhere (finishInline complete) := by
  intro i
  have hskip : Passes input.anywhere i (skipWhile isInlineRest) fun _ _ => True :=
    .silent (skipWhile_reads rfl)
  exact .look fun rest => .ite (fun _ => .reportExpected hskip) fun _ => hskip

section Blocks

variable {opened : Span} (hstmt : PlacesIf input.anywhere .stmt stmt)
include hstmt

/-- One round of a loop over statements, and the loop from there on. -/
theorem rounds_passes {finish : Bool → Parser Unit} {rest : Parser (List Stmt)}
    (hfinish : ∀ complete, Walks input.anywhere (finish complete))
    (hrest : ∀ j, PassesRow input.anywhere .stmt j rest) :
    PassesRow input.anywhere .stmt i (do
      let first ← round finish stmt
      let rest ← rest
      return first.toList ++ rest) := by
  have hround : Passes input.anywhere i (round finish stmt) fun o j =>
      InRow input i j (o.toList.map .stmt) := by
    refine .cursor ((hstmt i).bind fun o j hj => ?_)
    refine (hfinish _ j).step fun _ k hk => (passFrom_walks k).step fun _ l hl => .pure ?_
    intro _ h
    cases o with
    | none => exact .nil (by omega)
    | some s => exact (InRow.single (h s rfl)).mono (Nat.le_refl _) (by omega)
  refine hround.bind fun first j hj => (hrest j).bind fun rest k hk => .pure ?_
  intro _ hrest hfirst
  rw [List.map_append]
  exact hfirst.append hrest

theorem blockLoop_passes {closers : List Closer} {construct : Construct} (rounds : Nat) :
    ∀ i, PassesRow input.anywhere .stmt i (blockLoop stmt closers construct opened rounds) := by
  induction rounds with
  | zero => exact fun _ => .exhaust (.ends trivial)
  | succ rounds ih =>
    refine fun i => .skip (skipWhile_reads rfl) fun _ j hj => .look fun tokens => ?_
    refine .look fun here => .ite (fun _ => .pure fun _ => .nil hj) fun _ => ?_
    refine .ite (fun _ => .report (by simp) (.ends trivial)) fun _ => ?_
    exact (rounds_passes hstmt finishOrRecover_walks ih).imp fun _ _ _ _ h =>
      h.mono hj (Nat.le_refl _)

theorem block_passes {closers : List Closer} {construct : Construct} :
    PassesRow input.anywhere .stmt i (block stmt closers construct opened) :=
  .inBlock (.bounded fun rounds => blockLoop_passes hstmt rounds i)

theorem inlineStmts_passes : PassesRow input.anywhere .stmt i (inlineStmts stmt) := by
  have hloop : ∀ rounds i, PassesRow input.anywhere .stmt i (inlineLoop stmt rounds) := by
    intro rounds
    induction rounds with
    | zero => exact fun _ => .exhaust (.ends trivial)
    | succ rounds ih =>
      refine fun i => .skip (skipWhile_reads rfl) fun _ j hj => .look fun kind => ?_
      refine .ite (fun _ => .pure fun _ => .nil hj) fun _ => ?_
      exact (rounds_passes hstmt finishInline_walks ih).imp fun _ _ _ _ h =>
        h.mono hj (Nat.le_refl _)
  exact .inBlock (.bounded fun rounds => hloop rounds i)

/-! ### Branches -/

omit hstmt in
/-- What is read only if a word stands before it, and what comes after it. -/
theorem optional_passes (nodes : Option α → List TreeNode) {f : Option α → Parser β}
    {word : Keyword} (hnone : nodes none = [])
    (hp : ∀ i, Passes line i p fun a j => InRow input i j (nodes (some a)))
    (hf : ∀ o j, i ≤ j → Passes line j (f o) fun b k => InRow input i j (nodes o) → R b k) :
    Passes line i (do
      let found ← if ← acceptWord word then some <$> p else pure none
      f found) R := by
  refine .accept rfl (fun _ => ?_) ?_
  · refine (hp (i + 1)).bind fun a j hj => (hf (some a) j (by omega)).imp fun b k _ _ h hrow => h ?_
    exact hrow.mono (Nat.le_succ i) (Nat.le_refl _)
  · refine (hf none i (Nat.le_refl _)).imp fun b k _ _ h => h ?_
    rw [hnone]
    exact .nil (Nat.le_refl _)

theorem lineIf_passes {condition : Expr} :
    Passes input.anywhere i (lineIf stmt start condition) fun o j =>
      InRow input start i [.expr condition] → start < i → Stands input start o j := by
  refine (inlineStmts_passes hstmt).bind fun thenBranch j hj => ?_
  refine optional_passes (fun o => (o.getD []).map .stmt) rfl (fun _ => inlineStmts_passes hstmt) ?_
  intro elseBranch k hk
  refine .skip (accept_reads nofun) fun _ l hl => stmtFrom_passes ?_
  intro span hspan hstop helse hthen hcondition hstart
  refine .of_row (by omega) hstop hspan rfl ?_
  have hbranches := hthen.append helse
  exact (hcondition.append (by simpa using hbranches)).mono (Nat.le_refl _) hl

theorem elseIfs_passes (rounds : Nat) : ∀ {i : Nat},
    Passes input.anywhere i (elseIfs stmt opened rounds) fun branches j =>
      InRow input i j (branches.flatMap ElseIf.nodes) := by
  have haccept : Walks input.anywhere acceptElseIf := by
    intro i
    refine .skip (accept_reads nofun) fun found j _ => .ite (fun _ => .ends trivial) fun _ => ?_
    refine .look fun atElse => .look fun next => ?_
    refine .ite (fun _ => ?_) fun _ => .ends trivial
    exact .skip advance_reads fun _ k _ => .skip advance_reads fun _ l _ => .ends trivial
  induction rounds with
  | zero => exact .exhaust (.ends trivial)
  | succ rounds ih =>
    intro i
    refine (haccept i).step fun found j hj => .ite (fun _ => ?_) fun _ => .pure fun _ => .nil hj
    refine (expression_passes j).bind fun condition k hk => ?_
    refine .skip (accept_reads nofun) fun _ l hl => (block_passes hstmt).bind fun body m hm => ?_
    refine ih.bind fun rest n hn => .pure fun _ hrest hbody hcondition => ?_
    have hfirst := (hbody.mono hl (Nat.le_refl _))
    exact (InRow.cons hj hcondition hfirst).append hrest

theorem blockIf_passes {condition : Expr} :
    Passes input.anywhere i (blockIf stmt start condition) fun o j =>
      InRow input start i [.expr condition] → start < i → Stands input start o j := by
  refine .look fun opened => (block_passes hstmt).bind fun thenBranch j hj => ?_
  refine Runs.bind (.bounded fun rounds => elseIfs_passes hstmt rounds) ?_
  intro branches k hk
  refine optional_passes (fun o => (o.getD []).map .stmt) rfl (fun _ => block_passes hstmt) ?_
  intro elseBranch l hl
  have hdone : ∀ {m}, l ≤ m → Passes input.anywhere m
      (stmtFrom start (.if_ · condition thenBranch branches elseBranch)) fun o n =>
        InRow input k l ((elseBranch.getD []).map .stmt) →
        InRow input j k (branches.flatMap ElseIf.nodes) → InRow input i j (thenBranch.map .stmt) →
        InRow input start i [.expr condition] → start < i → Stands input start o n := by
    intro m hm
    refine stmtFrom_passes fun span hspan hstop helse hbranches hthen hcondition hstart => ?_
    refine .of_row (by omega) hstop hspan rfl ?_
    have hblocks := (hthen.append hbranches).append helse
    exact (hcondition.append hblocks).mono (Nat.le_refl _) hm
  refine .skip (acceptCloser_reads _) fun closed m hm => .ite (fun _ => hdone hm) fun _ => ?_
  exact .skip (acceptCloser_reads _) fun _ n hn => hdone (Nat.le_trans hm hn)

theorem ifStmt_passes (hi : i < input.stop) : PlacesStmt input i i (ifStmt stmt) := by
  refine .word hi ((expression_passes _).bind fun condition j hj => ?_)
  refine .skip (accept_reads nofun) fun _ k hk => .look fun kind => ?_
  have hrow : Lies input (i + 1) j (.expr condition) → InRow input i k [.expr condition] :=
    fun h => (InRow.single h).mono (Nat.le_succ i) hk
  refine .ite (fun _ => ?_) fun _ => ?_
  · exact (blockIf_passes hstmt).imp fun o l _ _ h he => h (hrow he) (by omega)
  · exact (lineIf_passes hstmt).imp fun o l _ _ h he => h (hrow he) (by omega)

/-- The clauses of `Select` were read in a row; its `Default` was read among them. -/
theorem selectLoop_passes (rounds : Nat) : ∀ {i : Nat} {seen : Bool},
    Passes input.anywhere i (selectLoop stmt opened rounds seen) fun r j =>
      InRow input i j (r.1.map .clause) ∧ InRow input i j ((r.2.getD []).map .stmt) := by
  induction rounds with
  | zero => exact .exhaust (.ends trivial)
  | succ rounds ih =>
    intro i seen
    refine .skip (skipWhile_reads rfl) fun _ j hj => .cursor ?_
    refine .skip (acceptCloser_reads _) fun closed k hk => .ite (fun _ => ?_) fun _ => ?_
    · exact .pure fun _ => ⟨.nil (by omega), .nil (by omega)⟩
    refine .accept rfl (fun _ => ?_) (.accept rfl (fun _ => ?_) ?_)
    · -- a clause spans its word, its values and its statements
      refine (separated_passes expression_passes).bind fun values l hl => ?_
      refine (block_passes hstmt).bind fun body m hm => .spanFrom ?_
      refine ih.bind fun rest n hn => .pure fun hstop hrest hbody hvalues => ?_
      have hrow := (hvalues.append hbody).mono (show j ≤ k + 1 by omega) (Nat.le_refl m)
      have hclause : Lies input j m (.clause (.mk values body (input.spanFrom j m))) :=
        .of_rows (by omega) (by omega) rfl (List.forall_mem_singleton.mpr hrow)
      exact ⟨.cons hj hclause hrest.1, hrest.2.mono (by omega) (Nat.le_refl _)⟩
    · have hdefault : Passes input.anywhere (k + 1) (do
          let body ← block stmt caseClosers .select opened
          let rest ← selectLoop stmt opened rounds true
          return (rest.1, rest.2.or (some body))) fun r n =>
            InRow input i n (r.1.map .clause) ∧ InRow input i n ((r.2.getD []).map .stmt) := by
        refine (block_passes hstmt).bind fun body l hl => ih.bind fun rest n hn => .pure ?_
        intro _ hrest hbody
        refine ⟨hrest.1.mono (by omega) (Nat.le_refl _), ?_⟩
        -- a later `Default` is the one that counts
        cases hlater : rest.2 with
        | none => exact hbody.mono (by omega) hn
        | some later =>
          rw [hlater] at hrest
          exact hrest.2.mono (by omega) (Nat.le_refl _)
      rw [if_pos rfl]
      refine .ite (fun _ => ?_) fun _ => hdefault
      exact .look fun span => .report (by simp) hdefault
    · refine .look fun atEnd => .look fun atCloser => ?_
      refine .ite (fun _ => .look fun state => .ite (fun _ => ?_) fun _ => ?_)
        fun _ => ?_
      · exact .pure fun _ => ⟨.nil (by omega), .nil (by omega)⟩
      · exact .report (by simp) (.ends trivial)
      · exact .reportExpected (.skip recover_reads fun _ l _ =>
          (passFrom_walks l).step fun _ m _ => ih.walks)

theorem selectStmt_passes (hi : i < input.stop) : PlacesStmt input i i (selectStmt stmt) := by
  refine .word hi ((expression_passes _).bind fun subject j hj => ?_)
  refine .look fun opened => ?_
  refine Runs.bind (.bounded fun rounds => selectLoop_passes hstmt rounds) ?_
  intro r k hk
  refine stmtFrom_passes fun span hspan hstop hclauses hsubject => ?_
  refine .of_rows (by omega) hstop hspan (List.forall_mem_cons.mpr ⟨?_, ?_⟩)
  · exact .cons (Nat.le_succ i) hsubject hclauses.1
  · exact List.forall_mem_singleton.mpr (hclauses.2.mono (by omega) (Nat.le_refl _))

/-! ### Loops -/

theorem whileStmt_passes (hi : i < input.stop) : PlacesStmt input i i (whileStmt stmt) := by
  refine .word hi ((expression_passes _).bind fun condition j hj => ?_)
  refine .look fun opened => (block_passes hstmt).bind fun body k hk => ?_
  refine .skip (acceptCloser_reads _) fun _ l hl => stmtFrom_passes ?_
  intro span hspan hstop hbody hcondition
  refine .of_row (by omega) hstop hspan rfl (.cons (Nat.le_succ i) hcondition ?_)
  exact hbody.mono (Nat.le_refl _) hl

theorem repeatStmt_passes (hi : i < input.stop) : PlacesStmt input i i (repeatStmt stmt) := by
  refine .word hi (.look fun opened => ?_)
  refine (block_passes hstmt).bind fun body j hj => .accept rfl (fun _ => ?_) ?_
  · refine (expression_passes _).bind fun condition k hk => stmtFrom_passes ?_
    intro span hspan hstop hcondition hbody
    refine .of_row (by omega) hstop hspan rfl ?_
    have hlast := (InRow.single hcondition).mono (Nat.le_succ j) (Nat.le_refl _)
    exact (hbody.append hlast).mono (Nat.le_succ i) (Nat.le_refl _)
  · refine .skip (accept_reads nofun) fun _ k hk => stmtFrom_passes ?_
    intro span hspan hstop hbody
    refine .of_row (by omega) hstop hspan rfl ?_
    exact (hbody.append (.nil hk)).mono (Nat.le_succ i) (Nat.le_refl _)

/-- The body of `For` lies before its `Next` and the name after it. -/
theorem forBody_passes {construct : Construct} :
    PassesRow input.anywhere .stmt i (forBody stmt construct start) := by
  refine .look fun opened => (block_passes hstmt).bind fun body j hj => ?_
  have hdone : ∀ {l}, j ≤ l → Passes input.anywhere l (pure body) fun body m =>
      InRow input i j (body.map .stmt) → InRow input i m (body.map .stmt) :=
    fun hl => .pure fun _ h => h.mono (Nat.le_refl _) hl
  refine .skip (acceptCloser_reads _) fun closed k hk => .ite (fun _ => ?_) fun _ => hdone hk
  refine .look fun named => .ite (fun _ => ?_) fun _ => hdone hk
  exact .skip advance_reads fun _ l hl => hdone (by omega)

omit hstmt in
theorem declareLoopVariable_walks {name : String} {tag : Option String}
    {value : Option ValueType} :
    Walks line (declareLoopVariable name (.declared name tag value)) := by
  intro i s hs hi hline
  have hrun : (declareLoopVariable name (.declared name tag value) input s).2 =
      if (s.scopes.lookup? name).isNone then
        { s with scopes := s.scopes.define (.declared name tag value) }
      else s := by
    show ((if _ then _ else _ : Parser Unit) input s).2 = _
    split <;> rfl
  rw [hrun]
  split
  · next hnew =>
    have hunknown : s.scopes.lookup? name = none := Option.isNone_iff_eq_none.mp hnew
    have hstep : Step input s { s with scopes := s.scopes.define (.declared name tag value) } :=
      .defineNew (Symbol.name_declared ..) hunknown
    exact ⟨⟨.single hstep, hs ▸ hi, hs ▸ hline⟩, trivial, fun _ => trivial⟩
  · exact ⟨⟨.refl, hs ▸ hi, hs ▸ hline⟩, trivial, fun _ => trivial⟩

theorem forEachStmt_passes {name : String} {tag : Option String} (hstart : start < i) :
    PlacesStmt input start i (forEachStmt stmt start name tag) := by
  refine (typeName_walks i).step fun found j hj => ?_
  cases found with
  | none => exact .pure fun _ => .none
  | some type =>
    dsimp -zeta only
    extract_lets go
    have hgo : PlacesStmt input start j (go ()) := by
      refine (declareLoopVariable_walks j).step fun _ k hk => ?_
      refine (forBody_passes hstmt).bind fun body l hl => stmtFrom_passes ?_
      intro span hspan hstop hbody
      refine .of_row (by omega) hstop hspan rfl ?_
      exact hbody.mono (by omega) (Nat.le_refl _)
    refine .ite (fun _ => ?_) fun _ => hgo
    exact .look fun span => .report (by simp) hgo

theorem forRangeStmt_passes {name : String} (hstart : start < i) :
    PlacesStmt input start i (forRangeStmt stmt start name) := by
  refine (declareLoopVariable_walks i).step fun _ j hj => ?_
  refine (expression_passes j).bind fun first k hk => ?_
  refine .expect rfl (fun _ _ _ => ?_) (.ends trivial)
  refine (expression_passes _).bind fun last l hl => ?_
  refine optional_passes (fun o => o.toList.map .expr) rfl ?_ ?_
  · exact fun m => (expression_passes m).imp fun step n _ _ h => .single h
  intro step m hm
  refine (forBody_passes hstmt).bind fun body n hn => stmtFrom_passes ?_
  intro span hspan hstop hbody hstep hlast hfirst
  refine .of_row (by omega) hstop hspan rfl (.cons (by omega) hfirst ?_)
  exact .cons (Nat.le_succ k) hlast (hstep.append hbody)

theorem forStmt_passes (hi : i < input.stop) : PlacesStmt input i i (forStmt stmt) := by
  refine .word hi (.expect rfl (fun token _ _ => typeTag_runs.step fun tag j hj => ?_)
    (.ends trivial))
  refine .expect rfl (fun _ _ _ => .accept rfl (fun _ => ?_) ?_) (.ends trivial)
  · exact forEachStmt_passes hstmt (by omega)
  · exact forRangeStmt_passes hstmt (by omega)

end Blocks

/-! ### Functions and types -/

section Functions

variable {opened : Span}

theorem param_runs (hi : input.Declares i) :
    Runs line i param (fun o j => ∀ p ∈ o, input.NamedBefore j (Name.fold p.name))
      fun o j => ∀ p ∈ o, Lies input i j (.param p) := by
  refine .cursor (.expect rfl (fun token htoken hkind => ?_) (.ends nofun))
  refine typeTag_runs.step fun tag j hj => initialValue_passes.bind fun default k hk => ?_
  refine .spanFrom (.gives (fun p hp => ?_) fun hstop hvalue p hp => ?_)
  · cases hp
    exact ⟨i, by omega, hi, Input.nameAt_of_token htoken hkind⟩
  · cases hp
    refine .of_rows (by omega) hstop rfl (List.forall_mem_singleton.mpr ?_)
    exact hvalue.mono (by omega) (Nat.le_refl _)

/-- The parameters of the function at `w` are names on its line. -/
theorem params_runs (hw : input.kind w = .keyword .function) (hlt : w < i)
    (hi : input.OneLine w i) :
    Runs input.anywhere i params
      (fun found j => ∀ p ∈ found, input.NamedBefore j (Name.fold p.name))
      fun found j => InRow input i j (found.map .param) := by
  have hskip : ∀ {found : List Param} {j k : Nat}, j ≤ k →
      (∀ p ∈ found, input.NamedBefore j (Name.fold p.name)) →
      Runs input.anywhere k (do skipLine; return found)
        (fun found j => ∀ p ∈ found, input.NamedBefore j (Name.fold p.name))
        fun found l => InRow input (i + 1) j (found.map .param) →
          InRow input i l (found.map .param) := by
    intro found j k hjk hfound
    have hline : Passes input.anywhere k skipLine fun _ _ => True := .silent (skipWhile_reads rfl)
    refine hline.step fun _ l hl => .gives (fun p hp => (hfound p hp).mono (by omega)) ?_
    exact fun _ h => h.mono (Nat.le_succ i) (by omega)
  have hnothing : ∀ j, ∀ p ∈ ([] : List Param), input.NamedBefore j (Name.fold p.name) :=
    fun _ => List.forall_mem_nil _
  refine .expect rfl (fun paren htoken hkind => ?_) (hskip (Nat.le_refl i) (hnothing i))
  have hparen : input.kind i = .leftParen := (Input.kind_of_token htoken).trans hkind
  refine .accept rfl (fun _ => .gives (hnothing _) fun _ => .nil (by omega)) ?_
  have hlist : Runs (input.lineOf w) (i + 1) (bounded (collect param))
      (fun r j => ∀ p ∈ r.1, input.NamedBefore j (Name.fold p.name))
      fun r j => InRow input (i + 1) j (r.1.map .param) :=
    names_runs (by simp [hw]) (fun _ _ _ hjk hp => hp.mono hjk) (fun _ hi => param_runs hi)
      (by omega) (Input.declares_param hw hlt hi hparen)
  refine (hlist.carry ((input.lineOf w).steady i (hparen ▸ rfl) hi)).andThen fun r j _ _ h => ?_
  obtain ⟨found, complete⟩ := r
  have hfound : ∀ p ∈ found, input.NamedBefore j (Name.fold p.name) := h.2
  cases complete with
  | false => exact hskip (Nat.le_refl j) hfound
  | true =>
    refine .expect rfl (fun _ _ _ => .gives (fun p hp => ?_) fun _ h => ?_)
      (hskip (Nat.le_refl j) hfound)
    · exact (hfound p hp).mono (Nat.le_succ j)
    · exact h.mono (Nat.le_succ i) (Nat.le_succ j)

theorem functionName_runs :
    Runs line i functionName (fun o j => ∀ name ∈ o, i < j ∧ input.NameAt i (Name.fold name))
      fun _ _ => True := by
  refine .peek (.reportExpected (.ends nofun)) fun token ht => ?_
  have hpassed : token.kind ∈ [.identifier, .command] →
      ∀ name ∈ some token.text, i < i + 1 ∧ input.NameAt i (Name.fold name) := by
    intro hkind name hname
    cases hname
    exact ⟨Nat.lt_succ_self i, token, ht, hkind, rfl⟩
  have hplace := Input.kind_of_token ht
  refine .ite (fun hkind => ?_) fun _ => .ite (fun hkind => ?_) fun _ => ?_
  · exact .advance (by rw [hplace, hkind]; rfl) (.ends (hpassed (by simp [hkind])))
  · exact .advance (by rw [hplace, hkind]; rfl)
      (.report (by simp) (.ends (hpassed (by simp [hkind]))))
  · exact .reportExpected (.ends nofun)

section Body

variable (hstmt : PlacesIf input.anywhere .stmt stmt)
include hstmt

theorem functionBody_passes {found : List Param} (hlt : w < i)
    (hw : input.kind w = .keyword .function)
    (hfound : ∀ p ∈ found, input.NamedBefore i (Name.fold p.name)) :
    PassesRow input.anywhere .stmt i (functionBody stmt start found) := by
  have hparams : Passes input.anywhere i
      (found.forM fun p => define (.declared p.name p.typeName (p.default.map Expr.type)))
      fun _ _ => True := by
    induction found with
    | nil => exact .ends trivial
    | cons p rest ih =>
      obtain ⟨hp, hrest⟩ := List.forall_mem_cons.mp hfound
      obtain ⟨j, hj, hdeclares, hname⟩ := hp
      exact .define hj hdeclares ((Symbol.name_declared ..).symm ▸ hname) (ih hrest)
  refine .of_step (fun _ hs => ⟨.enter (hs ▸ hlt) hw, hs⟩) fun _ => ?_
  refine hparams.step fun _ j hj => .look fun opened => ?_
  refine (block_passes hstmt).bind fun body k _ => .of_step (fun _ hs => ⟨.exit, hs⟩) fun _ => ?_
  exact .pure fun _ h => h.mono hj (Nat.le_refl _)

theorem functionStmt_passes (hw : input.kind w = .keyword .function) :
    PlacesStmt input w w (functionStmt stmt) := by
  -- the name, its type and the parameters are followed on the line of the word
  have hhere : (input.lineOf w).Has (w + 1) :=
    (input.lineOf w).steady w (hw ▸ rfl) (Input.oneLine_self w)
  refine .cursor (.advance (hw ▸ rfl) ?_)
  refine (functionName_runs.carry hhere).known fun name j _ _ hj => ?_
  cases name with
  | none => exact .pure fun _ => .none
  | some name =>
    obtain ⟨hlt, hname⟩ := hj.2 name rfl
    refine (typeTag_runs.carry hj.1).known fun tag k hk _ hline => .look fun s => ?_
    extract_lets go
    have hgo : PlacesStmt input w k (go ()) := by
      refine (params_runs hw (by omega) hline.1).andThen fun found l hl _ hfound => ?_
      refine .defineGlobal (j := w + 1) (by omega) (Input.declares_first (by simp [hw])) ?_ ?_
      · cases tag <;> exact hname
      · refine (functionBody_passes hstmt (by omega) hw hfound).bind fun body m hm => ?_
        refine .skip (acceptCloser_reads _) fun _ n hn => stmtFrom_passes ?_
        intro span hspan hstop hbody hparams
        refine .of_row (by omega) hstop hspan rfl ?_
        exact (hparams.append hbody).mono (by omega) hn
    refine .ite (fun _ => .look fun s' => .look fun span => ?_)
      fun _ => hgo
    refine .report (fun _ => ?_) hgo
    split <;> simp

end Body

theorem fieldDecl_passes : PlacesIf line .field fieldDecl := by
  intro i
  refine .cursor (.expect rfl (fun token _ _ => typeTag_runs.step fun tag j hj => ?_)
    (.ends trivial))
  refine Runs.imp (item_passes (by omega) fun _ => rfl) fun o m _ _ h => h ?_
  exact fun _ => List.forall_mem_nil _

theorem fieldLoop_passes (rounds : Nat) : ∀ {i : Nat},
    PassesRow input.anywhere .field i (fieldLoop opened rounds) := by
  induction rounds with
  | zero => exact .exhaust (.ends trivial)
  | succ rounds ih =>
    intro i
    refine .skip (skipWhile_reads rfl) fun _ j hj => .cursor ?_
    refine .skip (acceptCloser_reads _) fun closed k hk => .ite (fun _ => ?_) fun _ => ?_
    · exact .pure fun _ => .nil (by omega)
    refine .accept rfl (fun _ => (collect_passes fieldDecl_passes).bind fun r l hl => ?_) ?_
    · refine (finishStatement_walks l).step fun _ m hm => ?_
      refine ih.bind fun rest n hn => .pure fun _ hrest hfound => ?_
      rw [List.map_append]
      exact ((hfound.mono (Nat.le_refl _) hm).append hrest).mono (by omega) (Nat.le_refl _)
    · refine .look fun atEnd => .look fun atCloser => ?_
      refine .ite (fun _ => .report (by simp) (.ends trivial)) fun _ => ?_
      exact .reportExpected (.skip recover_reads fun _ l _ =>
        (passFrom_walks l).step fun _ m _ => ih.walks)

theorem typeStmt_passes (hi : i < input.stop) : PlacesStmt input i i typeStmt := by
  refine .word hi (.expect rfl (fun token _ _ => ?_) (.ends trivial))
  refine .look fun opened => .look fun s => ?_
  extract_lets go
  have hgo : PlacesStmt input i (i + 1 + 1) (go ()) := by
    refine Runs.bind (.bounded fun rounds => fieldLoop_passes rounds) fun fields j hj => ?_
    refine .of_step (fun _ hs => ⟨.defineType, hs⟩) fun _ => stmtFrom_passes ?_
    intro span hspan hstop hfields
    refine .of_row (by omega) hstop hspan rfl ?_
    exact hfields.mono (by omega) (Nat.le_refl _)
  exact .ite (fun _ => .report (by simp) hgo) fun _ => hgo

end Functions

/-! ### Programs -/

theorem wordStmt_passes (hstmt : PlacesIf input.anywhere .stmt stmt) {token : Token}
    {word : Keyword} (hi : i < input.stop) (hword : input.kind i = .keyword word) :
    PlacesStmt input i i (wordStmt stmt token word) := by
  have hjump : ∀ {make : Span → String → Stmt}, (∀ span label, (make span label).span = span) →
      (∀ span label, (make span label).rows = []) →
      PlacesStmt input i i (jumpStmt make) :=
    fun hspan hrows => .word hi (labelled_passes (Nat.lt_succ_self i) hspan hrows)
  unfold wordStmt
  split
  · exact ifStmt_passes hstmt hi
  · exact whileStmt_passes hstmt hi
  · exact repeatStmt_passes hstmt hi
  · exact forStmt_passes hstmt hi
  · exact selectStmt_passes hstmt hi
  · exact functionStmt_passes hstmt hword
  · exact typeStmt_passes hi
  · exact namesStmt_passes (by simp [hword]) (fun _ => varDecl_passes) (fun _ _ => rfl)
      fun _ _ => rfl
  · exact namesStmt_passes (by simp [hword]) (fun _ => varDecl_passes) (fun _ _ => rfl)
      fun _ _ => rfl
  · exact namesStmt_passes (by simp [hword]) (fun _ => arrayDecl_passes) (fun _ _ => rfl)
      fun _ _ => rfl
  · exact constStmt_passes hword
  · exact returnStmt_passes hi
  · exact .word hi (leafStmt_passes (Nat.lt_succ_self i) (fun _ => rfl) fun _ => rfl)
  · exact endStmt_passes hi
  · exact hjump (fun _ _ => rfl) fun _ _ => rfl
  · exact hjump (fun _ _ => rfl) fun _ _ => rfl
  · exact dataStmt_passes hi
  · exact .word hi (listStmt_passes readTargets_runs (Nat.lt_succ_self i) (fun _ _ => rfl)
      fun _ _ => rfl)
  · exact restoreStmt_passes hi
  · exact deleteStmt_passes hi
  · exact insertStmt_passes hi
  · exact .report (by simp) (.ends trivial)

theorem statementAt_passes (nesting : Nat) :
    PlacesIf input.anywhere .stmt (statementAt nesting) := by
  -- the statements in the blocks of a statement are read with less nesting left
  induction nesting with
  | zero => exact fun _ => .exhaust (.ends trivial)
  | succ nesting ih =>
    refine fun i => .within fun hi => .peek (.reportExpected (.ends trivial)) fun token htoken => ?_
    have hlt : token.kind ≠ .eof → i < input.stop := Input.lt_stop_of_token hi htoken
    have hplace := Input.kind_of_token htoken
    dsimp only
    split
    · next hkind => exact (nameStmt_runs (hlt (by rw [hkind]; decide))).imp fun _ _ _ _ h => h
    · next hkind => exact commandStmt_passes (hplace.trans hkind)
    · next hkind => exact labelStmt_passes htoken (hlt (by rw [hkind]; decide))
    · next hkind => exact wordStmt_passes ih (hlt (by rw [hkind]; nofun)) (hplace.trans hkind)
    · exact .report (by simp) (.ends trivial)

/-- Reading a statement is a run, and it lies where it was read. -/
theorem statement_passes : PlacesIf input.anywhere .stmt statement :=
  fun i => .bounded fun nesting => statementAt_passes nesting i

theorem programLoop_passes (rounds : Nat) : ∀ i,
    PassesRow input.anywhere .stmt i (programLoop statement rounds) := by
  induction rounds with
  | zero => exact fun _ => .exhaust (.ends trivial)
  | succ rounds ih =>
    refine fun i => .skip (skipWhile_reads rfl) fun _ j hj => .look fun atEnd => ?_
    refine .ite (fun _ => .pure fun _ => .nil hj) fun _ => ?_
    exact (rounds_passes statement_passes finishOrRecover_walks ih).imp fun _ _ _ _ h =>
      h.mono hj (Nat.le_refl _)

theorem program_passes : PassesRow input.anywhere .stmt 0 (bounded (programLoop statement)) :=
  .bounded fun rounds => programLoop_passes rounds 0

/-- **Reading a program is a run.** -/
theorem readAll_run (input : Input) : Run input (.initial input) (readAll input).2 :=
  (program_passes (.initial input) rfl (Nat.zero_le _) trivial).1.1

/-- The statements of a program that is read without an error were read one after the other. -/
theorem readAll_inRow (herrors : (readAll input).2.errors = []) :
    InRow input 0 input.stop ((readAll input).1.map .stmt) := by
  obtain ⟨new, hr, -, hend⟩ := readAll_reached input
  have hrow := (program_passes (State.initial input) rfl (Nat.zero_le _) trivial).2.2
    ⟨herrors, hr.exhausted⟩
  have hcursor : (bounded (programLoop statement) input (State.initial input)).2.cursor = input.stop := hend
  rw [hcursor] at hrow
  exact hrow

end Parser

end FrameBasic
