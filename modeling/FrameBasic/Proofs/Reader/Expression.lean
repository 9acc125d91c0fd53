import FrameBasic.Proofs.Reader.Account
import FrameBasic.Tree.Parser.Expression

/-!
# Reading expressions

Expressions are read to their end whatever the tokens are, and the recorded errors account for the
tree.  Nothing but the cursor and the errors changes, so every lemma holds for both effects.

The knot of `Parser.expressionAt` is untied by induction on the bound of the nesting: the readers of
the parts call the inner reader only behind a token, where the smaller bound is enough.

## Main results

* `Parser.primary_reads`, `Parser.climb_reads` — operands and operators.
* `Parser.expression_reads` — an expression.
* `Parser.parenArgs_reads`, `Parser.bareArgs_reads` — lists of arguments.
-/

namespace FrameBasic.Parser

variable {α β : Type} {k : Effect} {input : Input} {m : Nat} {start : Nat}
variable {f : Expr → Parser β} {R : β → List ParseError → Prop}

/-! ### Nodes -/

/-- The place of a node is part of what it is made from. -/
theorem span_make {make : Info → Expr} (hmake : ∀ i j, (make i).withInfo j = make j)
    (info : Info) : (make info).span = info.span := by
  rw [← hmake info info, Expr.span, Expr.info_withInfo]

/-- The node is made so, at a place of the tokens. -/
def NodeOf (input : Input) (make : Info → Expr) (e : Expr) (new : List ParseError) : Prop :=
  new = [] ∧ ∃ i, e = make i ∧ input.Marks e.span

theorem node_reads {make : Info → Expr} (hmake : ∀ i j, (make i).withInfo j = make j) :
    Reads k input m (node start make) (NodeOf input make) := by
  refine fun s _ hs => ⟨[], .refl hs, rfl, _, hmake _ _, start, s.cursor, ?_⟩
  exact (congrArg Info.span (Expr.info_withInfo ..)).trans (span_make hmake _)

/-- A node and what comes after it. -/
theorem Reads.node {make : Info → Expr} (hmake : ∀ i j, (make i).withInfo j = make j)
    (hf : ∀ i, input.Marks (make i).span → Reads k input m (f (make i)) R) :
    Reads k input m (node start make >>= f) R := by
  refine (node_reads hmake).bind fun e new h => ?_
  obtain ⟨rfl, i, rfl, hi⟩ := h
  exact hf i hi

theorem errorHere_reads : Reads k input m errorHere (NodeOf input .error) :=
  fun _ _ hs => ⟨[], .refl hs, rfl, _, rfl, input.marks_spanAt _⟩

theorem errorFrom_reads : Reads k input m (errorFrom start) (NodeOf input .error) :=
  fun _ _ hs => ⟨[], .refl hs, rfl, _, rfl, _, _, rfl⟩

/-- An error about the form, and the node that takes the place of what was read before. -/
theorem Reads.errorNode {p : Parser Expr} {es : List Expr} {before : List ParseError}
    (h : Accounts input es before) (hbad : ∃ e ∈ before, IsSyntax e)
    (hp : Reads k input m p (NodeOf input .error)) :
    Reads k input m p fun e new => Accounts input [e] (before ++ new) := by
  refine hp.imp fun e new hnew => ?_
  obtain ⟨rfl, i, rfl, hi⟩ := hnew
  rw [List.append_nil]
  exact h.spoilt hi hbad

theorem typeTag_reads : Reads k input m typeTag fun _ new => new = [] := by
  refine .look fun tokens => .look fun i =>
    .look fun j => ?_
  split
  · extract_lets follows
    split
    · exact .silent advance_reads fun _ => .pure rfl
    · exact .pure rfl
  · exact .pure rfl

/-- The name of a type is read, or an error about the form is recorded. -/
theorem typeName_reads :
    Reads k input m typeName (Outcome input (fun _ => []) fun _ => True) := by
  refine .expect (by decide) (fun token htoken => ?_) fun e he => ?_
  · refine .look fun s => ?_
    split
    · exact .pure ⟨.nothing, trivial⟩
    · exact .report (Input.marks_token htoken.1) (.pure ⟨.fault rfl, trivial⟩)
  · exact .pure ⟨.syntaxError he, e, List.mem_singleton_self e, he⟩

/-! ### Fields -/

/-- The name of a field is the text of the token that was looked at. -/
theorem fieldName_reads {p : Parser β} {f : String → Parser β}
    (hf : ∀ name, input.Names name ∨ input.Calls name → Reads k input m (f name) R)
    (hp : Reads k input m p R) :
    Reads k input m (do
      if (← check .identifier) || (← check .command) then f (← takeText) else p) R := by
  intro s hs hstop
  have hrun : (do if (← check .identifier) || (← check .command) then f (← takeText) else p :
      Parser β) input s = (if decide (input.kind s.cursor = .identifier) ||
        decide (input.kind s.cursor = .command) then takeText >>= f else p : Parser β) input s := rfl
  rw [hrun]
  split
  · next hname =>
    have hkind : input.kind s.cursor = .identifier ∨ input.kind s.cursor = .command := by
      simpa using hname
    have heof : input.kind s.cursor ≠ .eof := by
      rcases hkind with hkind | hkind <;> simp [hkind]
    obtain ⟨token, htoken, hk⟩ := Input.token_of_kind heof
    have hmem : token ∈ input.tokens := Array.mem_of_getElem? htoken
    have htext : input.Names token.text ∨ input.Calls token.text :=
      hkind.imp (fun h => ⟨token, hmem, hk.trans h, rfl⟩) fun h => ⟨token, hmem, hk.trans h, rfl⟩
    have hrest := (hf _ htext).later (Nat.le_succ m)
    exact StartsAt.takeText htoken hrest s rfl hs (Input.lt_stop hstop heof)
  · exact hp s hs hstop

theorem fieldChain_reads (rounds : Nat) : ∀ {m : Nat} {e : Expr} {before : List ParseError},
    input.stop < m + rounds → Accounts input [e] before →
    Reads k input m (fieldChain start rounds e) fun e' new =>
      Accounts input [e'] (before ++ new) := by
  induction rounds with
  | zero => exact fun hm _ => .past_stop hm
  | succ rounds ih =>
    intro m e before hm h
    -- the point that is passed pays for the next round
    refine .ifAccept (by decide) ?_ ?_
    · refine fieldName_reads (fun name hname => .node (fun _ _ => rfl) fun i hi => ?_) ?_
      · exact ih (by omega) (.plain hi rfl rfl hname h)
      · refine .reportExpected fun fault hf => ?_
        have hbad := h.beside (.syntaxError hf)
        simp only [← List.append_assoc]
        exact .errorNode hbad ⟨fault, by simp, hf⟩ errorFrom_reads
    · exact .done h

theorem withFields_reads {e : Expr} {before : List ParseError}
    (h : Accounts input [e] before) :
    Reads k input m (withFields start e) fun e' new =>
      Accounts input [e'] (before ++ new) :=
  .bounded fun rounds _ _ hi => fieldChain_reads rounds hi h

/-! ### What cannot be read -/

theorem badExpression_reads {before : List ParseError} (h : Accounts input [] before) :
    Reads k input m (badExpression start) fun e new =>
      Accounts input [e] (before ++ new) := by
  refine .here fun span hspan => .look fun token => ?_
  extract_lets finish skip
  have hreport : ∀ fault : Fault, fault.isSemantic = false →
      Reads k input m (do report fault span; skip ()) fun e new =>
        Accounts input [e] (before ++ new) := by
    intro fault hf
    have hsyntax : IsSyntax ⟨fault, span⟩ := hf
    refine .report hspan ?_
    simp only [← List.append_assoc]
    refine .errorNode (h.beside (.syntaxError hsyntax)) ⟨_, by simp, hsyntax⟩ ?_
    refine .look fun stays => ?_
    split
    · exact errorFrom_reads
    · exact .silent advance_reads fun _ => errorFrom_reads
  cases token with
  | none => exact hreport _ rfl
  | some token =>
    dsimp only
    split
    · exact hreport _ rfl
    · exact hreport _ rfl

/-- A number, or an error that it is none. -/
theorem number_reads {ε : Type} {value : Except ε α} {make : α → Info → Expr} {fault : ε → Fault}
    (hmake : ∀ a i j, (make a i).withInfo j = make a j)
    (hleaf : ∀ a i, input.Marks (make a i).span → value = .ok a → Accounts input [make a i] [])
    (hfault : ∀ e, (fault e).isSemantic = false) :
    ReadsExpr k input m (number start value make fault) := by
  cases value with
  | ok a =>
    refine (node_reads (hmake a)).imp fun e new h => ?_
    obtain ⟨rfl, i, rfl, hi⟩ := h
    exact hleaf a i hi rfl
  | error e =>
    refine .span fun span hspan => .report hspan ?_
    have hsyntax : IsSyntax ⟨fault e, span⟩ := hfault e
    exact .errorNode (.syntaxError hsyntax) ⟨_, by simp, hsyntax⟩ (node_reads fun _ _ => rfl)

/-! ### Arguments -/

section Arguments

variable {expr : Parser Expr}

theorem separated_exprs_reads (hexpr : ReadsExpr k input m expr) :
    Reads k input m (bounded (separated expr)) (Accounts input) :=
  separated_reads hexpr (fun _ _ h => h) fun _ _ _ _ h h' => h.join h'

theorem parenArgs_reads (hexpr : ReadsExpr k input (m + 1) expr) :
    Reads k input m (parenArgs expr) (Accounts input) := by
  refine .expect (by decide) (fun _ _ => ?_) fun e he => ?_
  · refine .ifAccept (by decide) (.pure .nothing) ?_
    refine (separated_exprs_reads hexpr).bind fun args new h => ?_
    refine .expect (by decide) (fun _ _ => ?_) fun e he => ?_
    · exact .pure (h.beside .nothing)
    · exact .pure (h.beside (.syntaxError he))
  · exact .pure (.syntaxError he)

theorem bareArgs_reads (hexpr : ReadsExpr k input m expr) :
    Reads k input m (bareArgs expr) (Accounts input) := by
  refine .look fun kind => ?_
  split
  · exact separated_exprs_reads hexpr
  · exact .pure .nothing

theorem nameExpr_reads (hexpr : ReadsExpr k input (m + 1) expr) :
    ReadsExpr k input m (nameExpr expr) := by
  refine .look fun start => ?_
  refine .expect (by decide) (fun token htoken => ?_) fun e he => ?_
  · have hname : input.Names token.text := ⟨token, htoken.1, htoken.2, rfl⟩
    refine .silent typeTag_reads fun tag => ?_
    extract_lets fields
    have hvar : ∀ i tag, input.Marks (Expr.var i token.text tag).span →
        Reads k input (m + 1) (fields (.var i token.text tag)) (Accounts input [·]) :=
      fun i tag hi => withFields_reads (.leaf hi rfl rfl rfl hname)
    cases tag with
    | some typeName => exact .node (fun _ _ => rfl) fun i => hvar i _
    | none =>
      refine .look fun paren => ?_
      split
      · refine (parenArgs_reads (hexpr.later (Nat.le_succ _))).bind fun args new h => ?_
        refine .look fun s => ?_
        split
        · exact .node (fun _ _ => rfl) fun i hi => withFields_reads (.plain hi rfl rfl hname h)
        · exact .node (fun _ _ => rfl) fun i hi => withFields_reads (.plain hi rfl rfl trivial h)
      · exact .node (fun _ _ => rfl) fun i => hvar i _
  · exact .errorNode (.syntaxError he) ⟨e, by simp, he⟩ errorHere_reads

end Arguments

/-! ### Commands -/

/-- A wrong argument is recorded at its own place. -/
theorem exists_of_mem_mismatchesFrom {params : List ValueType} {args : List Expr}
    {found : Mismatch} : ∀ {position}, found ∈ mismatchesFrom position params args →
      ∃ arg ∈ args, found.span = arg.span := by
  induction params generalizing args with
  | nil => exact nofun
  | cons expected params ih =>
    intro position hfound
    cases args with
    | nil => cases hfound
    | cons arg args =>
      rcases List.mem_append.mp hfound with hhere | hrest
      · split at hhere
        · cases hhere
        · exact ⟨arg, List.mem_cons_self, by rw [List.mem_singleton.mp hhere]⟩
      · exact (ih hrest).imp fun _ h => ⟨List.mem_cons_of_mem arg h.1, h.2⟩

theorem checkArguments_reads {name : String} {args : List Expr} (info : Info)
    (hargs : ∀ arg ∈ args, input.Marks arg.span) :
    Reads k input m (checkArguments name args) fun _ new =>
      new = (Expr.command info name args).argumentErrors input.commands := by
  intro s hs hstop
  -- the table is that of the input, and the list of wrong arguments is reported one by one
  have hall : ∀ found : List Mismatch, (∀ m ∈ found, input.Marks m.span) →
      Reads k input m
        (found.forM fun m => report (.argument name m.position m.expected m.found) m.span)
        fun _ new =>
          new = found.map fun m => ⟨.argument name m.position m.expected m.found, m.span⟩ := by
    intro found hfound
    induction found with
    | nil => exact .pure rfl
    | cons first rest ih =>
      obtain ⟨hfirst, hrest⟩ := List.forall_mem_cons.mp hfound
      refine (report_reads _ hfirst).bind fun _ new h => (ih hrest).imp fun _ new' h' => ?_
      rw [h, h']
      rfl
  refine hall _ (fun found hfound => ?_) s hs hstop
  cases hd : input.commands.get? name with
  | none => rw [hd] at hfound; cases hfound
  | some d =>
    rw [hd] at hfound
    obtain ⟨arg, harg, hspan⟩ := exists_of_mem_mismatchesFrom hfound
    exact hspan ▸ hargs arg harg

theorem commandNode_reads {name : String} {args : List Expr} {before : List ParseError}
    (hname : input.Calls name) (h : Accounts input args before) :
    Reads k input m (commandNode start name args) fun e new =>
      Accounts input [e] (before ++ new) := by
  refine (checkArguments_reads default h.marks).bind fun _ new hnew => ?_
  refine (node_reads fun _ _ => rfl).imp fun e new' h' => ?_
  obtain ⟨rfl, i, rfl, hi⟩ := h'
  rw [hnew, List.append_nil]
  exact .node hi rfl hname h

theorem commandExpr_startsAt {expr : Parser Expr} {i : Nat} {token : Token}
    (htoken : input.tokens[i]? = some token) (hkind : token.kind = .command)
    (hexpr : ReadsExpr k input (m + 1) expr) :
    StartsAt k input m i (commandExpr expr) (Accounts input [·]) := by
  have hname : input.Calls token.text := ⟨token, Array.mem_of_getElem? htoken, hkind, rfl⟩
  refine .look fun start => .takeText htoken ?_
  refine .look fun paren => ?_
  extract_lets finish
  have hfinish : ∀ {args : List Expr} {before : List ParseError},
      Accounts input args before →
      Reads k input (m + 1) (finish args) fun e new =>
        Accounts input [e] (before ++ new) := by
    intro args before h
    refine (commandNode_reads hname h).bind fun e new h' => ?_
    simp only [← List.append_assoc]
    exact withFields_reads h'
  split
  · exact (parenArgs_reads (hexpr.later (Nat.le_succ _))).bind fun args new h => hfinish h
  · exact hfinish .nothing

/-! ### Operands and operators -/

section Operands

variable {inner : Precedence → Parser Expr}

theorem someNode_reads {make : Info → Expr} {before : List ParseError}
    (hmake : ∀ i j, (make i).withInfo j = make j)
    (h : ∀ i, input.Marks (make i).span → Accounts input [make i] before) :
    Reads k input m (some <$> node start make) fun o new =>
      Accounts input o.toList (before ++ new) := by
  refine .map ((node_reads hmake).imp fun e new hnew => ?_)
  obtain ⟨rfl, i, rfl, hi⟩ := hnew
  rw [List.append_nil]
  exact h i hi

/-- A type that was named makes a node; without a name there is none. -/
theorem typeNode_reads {make : Info → String → Expr}
    (hmake : ∀ name i j, (make i name).withInfo j = make j name)
    (h : ∀ {new} i name, input.Marks (make i name).span → Accounts input [] new →
      Accounts input [make i name] new) :
    Reads k input m (do
      let some name ← typeName | return none
      some <$> node start (make · name)) fun o new => Accounts input o.toList new := by
  refine typeName_reads.bind fun name new hnew => ?_
  cases name with
  | none => exact .done hnew.1
  | some name => exact someNode_reads (hmake name) fun i hi => h i name hi hnew.1

theorem wordExpr_starts {word : Keyword}
    (hinner : ∀ level, ReadsExpr k input (m + 1) (inner level)) :
    Starts k input m (wordExpr inner start word) fun o new =>
      Accounts input o.toList new := by
  cases word with
  | true_ | false_ | null =>
    exact Starts.advance (someNode_reads (fun _ _ => rfl) fun i hi => .leaf hi rfl rfl rfl (by trivial))
  | not | after | before =>
    refine Starts.advance ((hinner _).bind fun e new h => ?_)
    exact someNode_reads (fun _ _ => rfl) fun i hi => .plain hi rfl rfl trivial h
  | new | first | last =>
    exact Starts.advance (typeNode_reads (fun _ _ _ => rfl) fun i name hi h => .plain hi rfl rfl trivial h)
  | _ => exact (Reads.pure .nothing).starts

/-- An operand.  The inner reader has to be good only behind the first token. -/
theorem primary_reads
    (hinner : ∀ level, ReadsExpr k input (m + 1) (inner level)) :
    ReadsExpr k input m (primary inner) := by
  refine .look fun start => ?_
  refine .peek ?_ (fun token _ hk => ?_) fun i token htoken hk => ?_
  · refine .reportExpected fun e he => ?_
    exact .errorNode (.syntaxError he) ⟨e, by simp, he⟩ errorHere_reads
  · dsimp only
    rw [hk]
    exact badExpression_reads .nothing
  · -- from here on the token can be passed, which allows to call the inner reader
    have hnumber : ∀ {α ε : Type} {value : Except ε α} {make : α → Info → Expr}
        {fault : ε → Fault}, (∀ a i j, (make a i).withInfo j = make a j) →
        (∀ a i, input.Marks (make a i).span → value = .ok a → Accounts input [make a i] []) →
        (∀ e, (fault e).isSemantic = false) → StartsAt k input m i
          (do advance; withFields start (← number start value make fault)) (Accounts input [·]) :=
      fun hmake hleaf hfault => Starts.at (Starts.advance
        ((number_reads hmake hleaf hfault).bind fun e new h => withFields_reads h))
    dsimp only
    cases hkind : token.kind with
    | integer | hex =>
      exact hnumber (fun _ _ _ => rfl) (fun _ _ hi _ => .leaf hi rfl rfl rfl trivial) fun _ => rfl
    | float =>
      refine hnumber (fun _ _ _ => rfl) (fun _ _ hi hvalue => .leaf hi rfl rfl rfl ?_) fun _ => rfl
      exact ⟨token, Array.mem_of_getElem? htoken, hkind, hvalue⟩
    | string =>
      refine Starts.at (Starts.advance (.node (fun _ _ => rfl) fun i hi => ?_))
      exact withFields_reads (.leaf hi rfl rfl rfl (by trivial))
    | identifier => exact (nameExpr_reads (hinner .or)).starts.at
    | command => exact commandExpr_startsAt htoken hkind (hinner .or)
    | leftParen =>
      refine Starts.at (Starts.advance ((hinner .or).bind fun e new h => ?_))
      refine .expect (by decide) (fun _ _ => ?_) fun fault hf => ?_
      · exact .node (fun _ _ => rfl) fun i hi => withFields_reads (.plain hi rfl rfl trivial h)
      · simp only [← List.append_assoc]
        refine .node (fun _ _ => rfl) fun i hi => withFields_reads ?_
        exact .plain hi rfl rfl trivial (h.beside (.syntaxError hf))
    | minus | plus =>
      refine Starts.at (Starts.advance ((hinner .power).bind fun e new h => ?_))
      exact .node (fun _ _ => rfl) fun i hi => withFields_reads (.plain hi rfl rfl trivial h)
    | keyword word =>
      refine Starts.at ((wordExpr_starts hinner).bind fun o new h => ?_)
      cases o with
      | some e => exact withFields_reads h
      | none => exact badExpression_reads h
    | _ => exact (badExpression_reads .nothing).starts.at

theorem climb_reads {level : Precedence} (rounds : Nat) :
    ∀ {m : Nat} {left : Expr} {before : List ParseError}, input.stop < m + rounds →
    (∀ level, ReadsExpr k input (m + 1) (inner level)) →
    Accounts input [left] before →
    Reads k input m (climb inner level start rounds left) fun e new =>
      Accounts input [e] (before ++ new) := by
  induction rounds with
  | zero => exact fun hm _ _ => .past_stop hm
  | succ rounds ih =>
    intro m left before hm hinner h
    have hstay : Reads k input m (pure left) fun e new =>
        Accounts input [e] (before ++ new) :=
      .done h
    refine .kind hstay fun kind _ => ?_
    cases kind.binaryOp? with
    | none => exact hstay.starts
    | some op =>
      dsimp only
      split
      · exact hstay.starts
      · refine Starts.advance ((hinner op.operandLevel).bind fun right new h' => ?_)
        refine .node (fun _ _ => rfl) fun i hi => ?_
        simp only [← List.append_assoc]
        refine ih (by omega) (fun level => (hinner level).later (Nat.le_succ _)) ?_
        exact .plain hi rfl rfl trivial (h.join h')

end Operands

/-- An expression, where the bound of the nesting is at least the number of tokens left. -/
theorem expressionAt_reads (nesting : Nat) : ∀ {m : Nat} (level : Precedence),
    input.stop < m + nesting →
    ReadsExpr k input m (expressionAt nesting level) := by
  induction nesting with
  | zero => exact fun level hm => .past_stop hm
  | succ nesting ih =>
    intro m level hm
    -- inner expressions start behind `m`, so that the smaller bound is enough for them
    have hinner : ∀ level, Reads k input (m + 1) (expressionAt nesting level)
        (Accounts input [·]) := fun level => ih level (by omega)
    refine .look fun start => (primary_reads hinner).bind fun left new h => ?_
    refine .bounded fun rounds i hi hrounds => climb_reads rounds hrounds (fun level => ?_) h
    exact (hinner level).later (Nat.succ_le_succ hi)

theorem expression_reads : ReadsExpr k input m expression :=
  .bounded fun nesting _ _ hi => expressionAt_reads nesting .or hi

end FrameBasic.Parser
