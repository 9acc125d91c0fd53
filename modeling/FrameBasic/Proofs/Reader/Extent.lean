import FrameBasic.Proofs.Reader.Faithful
import FrameBasic.Proofs.Reader.Quiet
import Mathlib.Data.List.Perm.Subperm

/-!
# Where constructs are opened and closed

A construct with blocks begins with its word, and its blocks begin behind its head.  Its last block
ends where a closer of any construct stands, or the input ends; the construct is closed if the
closer is its own.  The tree does not tell this: what could not be read may have passed a closer,
and a second `Default` takes the place of the first one.  So the constructs are found by going along
with the reader, from state to state.  A trace lists them in the order in which they end.

A block that is not closed is recorded where it ends.  `Tally` says that this is done once for each
construct of a trace that is not closed, and for nothing else, and that different constructs begin
at different tokens.

## Main definitions

* `Extent` — where a construct was read; `Extent.isClosed` tells whether it is closed.
* `Parser.Trace` — the constructs that a reader reads, for each state in which it may start.
* `Parser.whileTrace`, `Parser.ifTrace`, and so on — the traces of the statements.
* `Parser.statementTrace`, `Parser.constructsOf` — those of a statement and of a program.
* `Parser.Tally` — the errors about blocks are those of the constructs that were read.
* `Parser.Covers` — the constructs of statements are among those that were read.
* `Parser.Tallies` — the judgement about readers; `Parser.Begins` is for those that start at a word.
* `Parser.Ended` — a block has ended, and is recorded if it is not closed.

## Main results

* `Parser.rounds_tally` — a loop over statements.
* `Parser.block_ended` — a block.
* `Parser.Ended.close` — a construct, when its last block has ended.
-/

namespace FrameBasic

/-! ### Extents -/

namespace Construct

/-- The word that begins a construct. -/
def word : Construct → Keyword
  | .if_ => .if_
  | .while_ => .while_
  | .repeat_ => .repeat_
  | .for_ | .forEach => .for_
  | .select => .select
  | .function => .function
  | .type => .type

/-- What closes a construct. -/
def closers : Construct → List Closer
  | .if_ => [.word .endIf, .endOf .if_]
  | .while_ => [.word .wend]
  | .repeat_ => [.word .until_, .word .forever]
  | .for_ | .forEach => [.word .next]
  | .select => [.endOf .select]
  | .function => [.endOf .function]
  | .type => [.endOf .type]

end Construct

/-- The construct that a statement is.  `If` counts if it has an `ElseIf`, because it is then not on
one line. -/
def Stmt.construct? : Stmt → Option Construct
  | .if_ _ _ _ (_ :: _) _ => some .if_
  | .while_ .. => some .while_
  | .repeat_ .. => some .repeat_
  | .for_ .. => some .for_
  | .forEach .. => some .forEach
  | .select .. => some .select
  | .function .. => some .function
  | .type .. => some .type
  | _ => none

/-- Where a construct was read. -/
structure Extent where
  /-- The construct. -/
  construct : Construct
  /-- The token that begins it. -/
  start : Nat
  /-- The token behind its head. -/
  head : Nat
  /-- The token at which its last block ended. -/
  stop : Nat
deriving DecidableEq, Repr, Inhabited

/-- Whether a block ends at a token: the input ends there, or a closer of any construct stands
there. -/
def Parser.Input.endsBlock (input : Input) (i : Nat) : Bool :=
  decide (input.kind i = .eof) || input.closesAny i

namespace Extent

/-- Whether the closer where the last block ended is the construct's own. -/
def isClosed (input : Parser.Input) (x : Extent) : Bool :=
  x.construct.closers.any (input.closesWith x.stop)

/-- The place of the head. -/
def opened (input : Parser.Input) (x : Extent) : Span :=
  input.spanFrom x.start x.head

/-- The error that says that the construct is not closed. -/
def error (input : Parser.Input) (x : Extent) : ParseError :=
  ⟨.unclosed x.construct, x.opened input⟩

/-- The construct begins with its word, has a head, and ends where a block ends. -/
structure Sound (input : Parser.Input) (x : Extent) : Prop where
  word : input.kind x.start = .keyword x.construct.word
  start_lt : x.start < x.head
  head_le : x.head ≤ x.stop
  stop_le : x.stop ≤ input.stop
  ends : input.endsBlock x.stop = true

end Extent

namespace Parser

/-! ### Traces -/

/-- The constructs that a reader reads, in the order in which they end, for each state in which it
may start. -/
abbrev Trace := Input → State → List Extent

/-- No constructs. -/
def nothing : Trace :=
  fun _ _ => []

/-- A reader without constructs and those of what comes after it. -/
def before {α : Type} (p : Parser α) (t : α → Trace) : Trace :=
  fun input s => t (p input s).1 input (p input s).2

theorem before_bind {α β : Type} (p : Parser α) (f : α → Parser β) (t : β → Trace) :
    before (p >>= f) t = before p fun a => before (f a) t :=
  rfl

/-- As `before`, if the reader gives something. -/
def beforeSome {α : Type} (p : Parser (Option α)) (t : α → Trace) : Trace :=
  before p fun o => o.elim nothing t

/-- The construct itself, when its last block has ended. -/
def ended (construct : Construct) (start head : Nat) : Trace :=
  fun _ s => [⟨construct, start, head, s.cursor⟩]

/-- The constructs of statements that are read one after the other: `skip` leads to the next one,
`ends` tells whether there is none, and `one` reads it and its end. -/
def roundsTrace (inner : Trace) (skip : Parser Unit) (ends : Input → Nat → Bool)
    (one : Parser (Option Stmt)) : Nat → Trace
  | 0 => nothing
  | rounds + 1 => before skip fun _ input s =>
    if ends input s.cursor then []
    else inner input s ++ before one (fun _ => roundsTrace inner skip ends one rounds) input s

section Statements

variable (inner : Trace) (stmt : Parser (Option Stmt))

/-- The constructs in a block. -/
def blockTrace : Trace := fun input s =>
  roundsTrace inner skipSeparators Input.endsBlock (round finishOrRecover stmt)
    (input.left s.cursor + 1) input { s with depth := s.depth + 1 }

/-- The constructs in a block and in what comes after it. -/
def blockThen (closers : List Closer) (construct : Construct) (opened : Span) (next : Trace) :
    Trace := fun input s =>
  blockTrace inner stmt input s ++
    before (block stmt closers construct opened) (fun _ => next) input s

/-- A construct with one block, behind its head. -/
def bodyTrace (construct : Construct) (start : Nat) : Trace := fun input s =>
  blockThen inner stmt construct.closers construct (input.spanFrom start s.cursor)
    (ended construct start s.cursor) input s

/-- The constructs on the line of `If`. -/
def inlineTrace : Trace := fun input s =>
  roundsTrace inner (skipWhile fun kind => kind = .colon)
    (fun input i => isInlineEnd (input.kind i)) (round finishInline stmt)
    (input.left s.cursor + 1) input { s with depth := s.depth + 1 }

/-- The constructs in `If` on one line, which is none itself. -/
def lineIfTrace : Trace := fun input s =>
  inlineTrace inner stmt input s ++
    before (inlineStmts stmt) (fun _ => before (acceptWord .else_) fun found =>
      if found then inlineTrace inner stmt else nothing) input s

/-- The constructs in the branches after the first one of `If`. -/
def elseIfsTrace (opened : Span) : Nat → Trace
  | 0 => nothing
  | rounds + 1 => before acceptElseIf fun found =>
    if found then
      before expression fun _ => before (acceptWord .then_) fun _ =>
        blockThen inner stmt branchClosers .if_ opened (elseIfsTrace opened rounds)
    else nothing

/-- `If` over several lines, behind its head. -/
def blockIfTrace (start : Nat) : Trace := fun input s =>
  let opened := input.spanFrom start s.cursor
  let last := ended .if_ start s.cursor
  blockThen inner stmt branchClosers .if_ opened (fun input s' =>
    elseIfsTrace inner stmt opened (input.left s'.cursor + 1) input s' ++
      before (bounded (elseIfs stmt opened)) (fun _ => before (acceptWord .else_) fun found =>
        if found then blockThen inner stmt ifClosers .if_ opened last else last) input s') input s

/-- `If`. -/
def ifTrace : Trace :=
  before cursor fun start => before advance fun _ => before expression fun _ =>
    before (acceptWord .then_) fun _ => before kind fun kind =>
      if kind ∈ [.newline, .eof] then blockIfTrace inner stmt start else lineIfTrace inner stmt

/-- The clauses of `Select`, and `Select` itself when they have ended. -/
def selectLoopTrace (start head : Nat) : Nat → Bool → Trace
  | 0, _ => nothing
  | rounds + 1, seen => before skipSeparators fun _ input s =>
    let clause := blockThen inner stmt caseClosers .select (input.spanFrom start head)
    if input.kind s.cursor = .keyword .case then
      before advance (fun _ => before (bounded (separated expression)) fun _ =>
        clause (selectLoopTrace start head rounds seen)) input s
    else if input.kind s.cursor = .keyword .default then
      before advance (fun _ =>
        before (do if seen then report .secondDefault (← spanFrom s.cursor)) fun _ =>
          clause (selectLoopTrace start head rounds true)) input s
    else if input.endsBlock s.cursor then ended .select start head input s
    else
      before (do reportExpected .caseOrDefault; recover; passFrom s.cursor)
        (fun _ => selectLoopTrace start head rounds seen) input s

/-- `Select`. -/
def selectTrace : Trace :=
  before cursor fun start => before advance fun _ => before expression fun _ input s =>
    selectLoopTrace inner stmt start s.cursor (input.left s.cursor + 1) false input s

/-- `While`. -/
def whileTrace : Trace :=
  before cursor fun start => before advance fun _ => before expression fun _ =>
    bodyTrace inner stmt .while_ start

/-- `Repeat`. -/
def repeatTrace : Trace :=
  before cursor fun start => before advance fun _ => bodyTrace inner stmt .repeat_ start

/-- `For` over the objects of a type, after `Each`. -/
def forEachTrace (start : Nat) (name : String) (tag : Option String) : Trace :=
  beforeSome typeName fun type =>
    before (do
      if tag.any fun tag => !Text.sameLetters tag type then
        report (.loopType type) (← spanFrom start)) fun _ =>
      before (declareLoopVariable name (.declared name (some type) none)) fun _ =>
        bodyTrace inner stmt .forEach start

/-- `For` over numbers, after the equals sign. -/
def forRangeTrace (start : Nat) (name : String) : Trace :=
  before (declareLoopVariable name (.declared name none (some .number))) fun _ =>
    before expression fun _ => beforeSome (expect (.keyword .to) (.word .to)) fun _ =>
      before expression fun _ =>
        before (do if ← acceptWord .step then some <$> expression else pure none) fun _ =>
          bodyTrace inner stmt .for_ start

/-- `For`. -/
def forTrace : Trace :=
  before cursor fun start => before advance fun _ =>
    beforeSome (expectName .loopVariable) fun token => before typeTag fun tag =>
      beforeSome (expect .equals .equals) fun _ => before (acceptWord .each) fun each =>
        if each then forEachTrace inner stmt start token.text tag
        else forRangeTrace inner stmt start token.text

/-- The body of a function, in a scope of its own that holds the parameters. -/
def functionBodyTrace (start : Nat) (found : List Param) : Trace :=
  before (modifyScopes Scopes.enter) fun _ =>
    before (found.forM fun p =>
      define (.declared p.name p.typeName (p.default.map Expr.type))) fun _ =>
      bodyTrace inner stmt .function start

/-- A function, from its parameters on. -/
def paramsTrace (start : Nat) (name : String) (tag : Option String) : Trace :=
  before params fun found =>
    let plain := Symbol.function name (returnType name tag) (found.map Param.name)
    before (defineGlobal (tag.elim plain plain.withTypeName)) fun _ =>
      functionBodyTrace inner stmt start found

/-- A function, whose head ends with its parameters. -/
def functionTrace : Trace :=
  before cursor fun start => before advance fun _ => beforeSome functionName fun name =>
    before typeTag fun tag =>
      before (do
        if 0 < (← get).depth then
          let nested :=
            if (← get).scopes.isGlobal then Fault.functionInBlock else .functionInFunction
          report nested (← spanFrom start)) fun _ =>
        paramsTrace inner stmt start name tag

/-- The fields of a user type, and the type itself when they have ended. -/
def fieldLoopTrace (start head : Nat) : Nat → Trace
  | 0 => nothing
  | rounds + 1 => before skipSeparators fun _ input s =>
    if input.endsBlock s.cursor then ended .type start head input s
    else if input.kind s.cursor = .keyword .field then
      before advance (fun _ => before (bounded (collect fieldDecl)) fun _ =>
        before finishStatement fun _ => fieldLoopTrace start head rounds) input s
    else
      before (do reportExpected .fieldOrEnd; recover; passFrom s.cursor)
        (fun _ => fieldLoopTrace start head rounds) input s

/-- A user type, whose head ends with its name. -/
def typeTrace : Trace :=
  before cursor fun start => before advance fun _ =>
    beforeSome (expectName .typeName) fun _ input s =>
      before (do if 0 < (← get).depth then report .typeInBlock (input.spanFrom start s.cursor))
        (fun _ input s' =>
          fieldLoopTrace start s.cursor (input.left s'.cursor + 1) input s') input s

/-- The constructs of a statement that begins with a word. -/
def wordTrace : Keyword → Trace
  | .if_ => ifTrace inner stmt
  | .while_ => whileTrace inner stmt
  | .repeat_ => repeatTrace inner stmt
  | .for_ => forTrace inner stmt
  | .select => selectTrace inner stmt
  | .function => functionTrace inner stmt
  | .type => typeTrace
  | _ => nothing

/-- The constructs of a statement whose first token is of a kind. -/
def kindTrace : Kind → Trace
  | .keyword word => wordTrace inner stmt word
  | _ => nothing

end Statements

/-- The constructs of a statement.  The first argument bounds the nesting. -/
def statementTraceAt : Nat → Trace
  | 0 => nothing
  | nesting + 1 => before kind (kindTrace (statementTraceAt nesting) (statementAt nesting))

/-- The constructs of a statement. -/
def statementTrace : Trace := fun input s =>
  statementTraceAt (input.left s.cursor + 1) input s

/-- The constructs of a program, in the order in which they end. -/
def constructsOf (input : Input) : List Extent :=
  roundsTrace statementTrace skipSeparators (fun input i => decide (input.kind i = .eof))
    (round finishOrRecover statement) (input.left 0 + 1) input (.initial input)

/-! ### The account of errors about blocks -/

/-- The errors that say which of the constructs are not closed. -/
def owed (input : Input) (xs : List Extent) : List ParseError :=
  (xs.filter fun x => !x.isClosed input).map (Extent.error input)

theorem owed_append (input : Input) (xs ys : List Extent) :
    owed input (xs ++ ys) = owed input xs ++ owed input ys := by
  simp [owed]

/-- Reading led from `s` to `s'` over the constructs `xs`.  Among them may be the one around what is
read, which begins at `own`. -/
structure Tally (input : Input) (own : Option Nat) (s : State) (xs : List Extent) (s' : State) :
    Prop where
  /-- It went forward. -/
  cursor_le : s.cursor ≤ s'.cursor
  /-- It stayed in the input. -/
  cursor_le_stop : s'.cursor ≤ input.stop
  /-- It recorded the constructs that are not closed, each one once. -/
  errors : unclosed s'.errors = unclosed s.errors ++ owed input xs
  sound : ∀ x ∈ xs, x.Sound input
  /-- The constructs begin between the two places, but for the one around them. -/
  le_start : ∀ x ∈ xs, s.cursor ≤ x.start ∨ own = some x.start
  start_lt : ∀ x ∈ xs, x.start < s'.cursor
  /-- Different constructs begin at different tokens. -/
  nodup : (xs.map Extent.start).Nodup

/-- Reading has passed the token at which the construct around it begins, if any, and all blocks
that were recorded as not closed were opened at other tokens that it has passed. -/
structure Behind (input : Input) (own : Option Nat) (s : State) : Prop where
  own_lt : ∀ w ∈ own, w < s.cursor
  cursor_le_stop : s.cursor ≤ input.stop
  errors : ∀ e ∈ unclosed s.errors,
    ∃ j < s.cursor, own ≠ some j ∧ ∃ t, input.tokens[j]? = some t ∧ e.span.start = t.span.start

theorem Input.start_spanFrom {input : Input} {i j : Nat} {t : Token}
    (h : input.tokens[i]? = some t) : (input.spanFrom i j).start = t.span.start := by
  unfold spanFrom
  rw [h]

variable {α β : Type} {input : Input} {own : Option Nat} {s s₁ s₂ : State} {xs ys : List Extent}

theorem Behind.of_unharmed (h : Behind input own s) (h' : Unharmed input s s₁) :
    Behind input own s₁ := by
  refine ⟨fun w hw => Nat.lt_of_lt_of_le (h.own_lt w hw) h'.cursor_le, h'.cursor_le_stop, ?_⟩
  rw [h'.errors]
  intro e he
  obtain ⟨j, hj, hrest⟩ := h.errors e he
  exact ⟨j, Nat.lt_of_lt_of_le hj h'.cursor_le, hrest⟩

/-- The construct around what is read does not matter for the statements in it. -/
theorem Behind.inside (h : Behind input own s) : Behind input none s := by
  refine ⟨nofun, h.cursor_le_stop, fun e he => ?_⟩
  obtain ⟨j, hj, -, ht⟩ := h.errors e he
  exact ⟨j, hj, nofun, ht⟩

namespace Tally

theorem of_unharmed (h : Unharmed input s s₁) : Tally input own s [] s₁ :=
  ⟨h.cursor_le, h.cursor_le_stop, by rw [h.errors]; exact (List.append_nil _).symm,
    List.forall_mem_nil _, List.forall_mem_nil _, List.forall_mem_nil _, .nil⟩

/-- Only the place and the errors matter. -/
theorem congr (h : Tally input own s xs s₁) (hcursor : s₂.cursor = s₁.cursor)
    (herrors : s₂.errors = s₁.errors) : Tally input own s xs s₂ := by
  refine ⟨?_, ?_, ?_, h.sound, h.le_start, ?_, h.nodup⟩
  · exact hcursor ▸ h.cursor_le
  · exact hcursor ▸ h.cursor_le_stop
  · exact herrors ▸ h.errors
  · exact hcursor ▸ h.start_lt

/-- The construct around what was read need not be among the constructs. -/
theorem inside (h : Tally input none s xs s₁) : Tally input own s xs s₁ := by
  have hle : ∀ x ∈ xs, s.cursor ≤ x.start := fun x hx => (h.le_start x hx).resolve_right nofun
  exact ⟨h.cursor_le, h.cursor_le_stop, h.errors, h.sound, fun x hx => .inl (hle x hx), h.start_lt,
    h.nodup⟩

/-- Constructs that were read one after the other begin at different tokens. -/
theorem append (h : Tally input none s xs s₁) (h' : Tally input own s₁ ys s₂)
    (hown : ∀ w ∈ own, w < s.cursor) : Tally input own s (xs ++ ys) s₂ where
  cursor_le := Nat.le_trans h.cursor_le h'.cursor_le
  cursor_le_stop := h'.cursor_le_stop
  errors := by rw [h'.errors, h.errors, owed_append, List.append_assoc]
  sound := List.forall_mem_append.mpr ⟨h.sound, h'.sound⟩
  le_start := by
    refine List.forall_mem_append.mpr ⟨fun x hx => ?_, fun x hx => ?_⟩
    · exact (h.le_start x hx).imp_right nofun
    · exact (h'.le_start x hx).imp_left (Nat.le_trans h.cursor_le)
  start_lt := by
    refine List.forall_mem_append.mpr ⟨fun x hx => ?_, h'.start_lt⟩
    exact Nat.lt_of_lt_of_le (h.start_lt x hx) h'.cursor_le
  nodup := by
    rw [List.map_append]
    refine List.nodup_append.mpr ⟨h.nodup, h'.nodup, ?_⟩
    intro i hi j hj hij
    obtain ⟨x, hx, rfl⟩ := List.mem_map.mp hi
    obtain ⟨y, hy, rfl⟩ := List.mem_map.mp hj
    have hlt := h.start_lt x hx
    have hle : s.cursor ≤ x.start := (h.le_start x hx).resolve_right nofun
    -- the second one begins behind the first, unless it is the construct around both
    rcases h'.le_start y hy with hy | hy
    · omega
    · have := hown _ hy
      omega

/-- Something quiet in front. -/
theorem head (h : Unharmed input s s₁) (h' : Tally input own s₁ xs s₂) :
    Tally input own s xs s₂ where
  cursor_le := Nat.le_trans h.cursor_le h'.cursor_le
  cursor_le_stop := h'.cursor_le_stop
  errors := by rw [h'.errors, h.errors]
  sound := h'.sound
  le_start x hx := (h'.le_start x hx).imp_left (Nat.le_trans h.cursor_le)
  start_lt := h'.start_lt
  nodup := h'.nodup

/-- Something quiet behind. -/
theorem tail (h : Tally input own s xs s₁) (h' : Unharmed input s₁ s₂) :
    Tally input own s xs s₂ where
  cursor_le := Nat.le_trans h.cursor_le h'.cursor_le
  cursor_le_stop := h'.cursor_le_stop
  errors := by rw [h'.errors, h.errors]
  sound := h.sound
  le_start := h.le_start
  start_lt x hx := Nat.lt_of_lt_of_le (h.start_lt x hx) h'.cursor_le
  nodup := h.nodup

/-- What was recorded was opened before the place where reading ended. -/
theorem behind (h : Tally input none s xs s₁) (hs : Behind input own s) : Behind input own s₁ := by
  refine ⟨fun w hw => Nat.lt_of_lt_of_le (hs.own_lt w hw) h.cursor_le, h.cursor_le_stop, ?_⟩
  rw [h.errors]
  refine List.forall_mem_append.mpr ⟨fun e he => ?_, fun e he => ?_⟩
  · obtain ⟨j, hj, hrest⟩ := hs.errors e he
    exact ⟨j, Nat.lt_of_lt_of_le hj h.cursor_le, hrest⟩
  · obtain ⟨x, hx, rfl⟩ := List.mem_map.mp he
    have hmem := (List.mem_filter.mp hx).1
    have hlt := h.start_lt x hmem
    have hle : s.cursor ≤ x.start := (h.le_start x hmem).resolve_right nofun
    obtain ⟨t, ht, -⟩ := Input.token_of_lt (Nat.lt_of_lt_of_le hlt h.cursor_le_stop)
    refine ⟨x.start, hlt, fun hown => ?_, t, ht, Input.start_spanFrom ht⟩
    have := hs.own_lt _ hown
    omega

end Tally

/-! ### The constructs of trees -/

/-- Which constructs stand in the statements, at any depth, and where they begin. -/
def openings (stmts : List Stmt) : List (Construct × Nat) :=
  (stmtsWithin true stmts).filterMap fun s => s.construct?.map fun c => (c, s.span.start)

/-- The constructs that stand in the statements, at any depth, are among those that were read, and
different ones are different there. -/
def Covers (input : Input) (xs : List Extent) (stmts : List Stmt) : Prop :=
  (openings stmts).Subperm (xs.map fun x => (x.construct, (x.opened input).start))

theorem openings_append (as bs : List Stmt) : openings (as ++ bs) = openings as ++ openings bs := by
  rw [openings, stmtsWithin_append, List.filterMap_append]
  rfl

theorem openings_singleton (s : Stmt) :
    openings [s] = (s.construct?.map fun c => (c, s.span.start)).toList ++ openings s.inner := by
  unfold openings
  rw [stmtsWithin_cons, stmtsWithin_nil, List.append_nil, Stmt.within_eq_inner, List.filterMap_cons]
  cases s.construct? <;> rfl

namespace Covers

variable {stmts more : List Stmt} {stmt : Stmt}

theorem nil : Covers input xs [] :=
  List.nil_subperm

theorem append (h : Covers input xs stmts) (h' : Covers input ys more) :
    Covers input (xs ++ ys) (stmts ++ more) := by
  unfold Covers
  rw [openings_append, List.map_append]
  exact List.Subperm.append h h'

theorem append_right (h : Covers input xs stmts) : Covers input (xs ++ ys) stmts := by
  have h' := h.append (@nil input ys)
  rwa [List.append_nil] at h'

/-- Some statements may be dropped. -/
theorem of_append_right (h : Covers input xs (stmts ++ more)) : Covers input xs more := by
  unfold Covers at h
  rw [openings_append] at h
  exact (List.sublist_append_right _ _).subperm.trans h

/-- The order of the statements does not matter. -/
theorem perm (h : Covers input xs stmts) (hperm : stmts.Perm more) : Covers input xs more := by
  have hopenings : (openings stmts).Perm (openings more) := by
    unfold openings
    rw [stmtsWithin_eq_flatMap, stmtsWithin_eq_flatMap]
    exact (hperm.flatMap_right _).filterMap _
  exact hopenings.symm.subperm.trans h

/-- A statement that is no construct is covered if the statements in its blocks are. -/
theorem of_inner (h : Covers input xs stmt.inner) (hself : stmt.construct? = none) :
    Covers input xs [stmt] := by
  unfold Covers
  rw [openings_singleton, hself]
  exact h

theorem of_simple {o : Option Stmt} (h : Simple o) : Covers input xs o.toList := by
  cases o with
  | none => exact .nil
  | some s =>
    have hs : s.hasBlocks = false := h s rfl
    have hplain : s.inner = [] ∧ s.construct? = none := by
      cases s with
      | if_ | while_ | repeat_ | for_ | forEach | select | function | type => cases hs
      | _ => exact ⟨rfl, rfl⟩
    exact .of_inner (hplain.1 ▸ .nil) hplain.2

/-- A statement that begins where a construct that was read does. -/
theorem of_construct {x : Extent} {j : Nat} (h : Covers input xs stmt.inner)
    (hx : x.start < input.stop) (hspan : stmt.span = input.spanFrom x.start j)
    (hself : ∀ c ∈ stmt.construct?, c = x.construct) : Covers input (xs ++ [x]) [stmt] := by
  cases hc : stmt.construct? with
  | none => exact (of_inner h hc).append_right
  | some c =>
    obtain rfl := hself c hc
    obtain ⟨t, ht, -⟩ := Input.token_of_lt hx
    have hstart : stmt.span.start = (x.opened input).start := by
      rw [hspan, Extent.opened, Input.start_spanFrom ht, Input.start_spanFrom ht]
    unfold Covers
    rw [openings_singleton, hc, List.map_append, hstart]
    exact List.perm_append_comm.subperm_right.mp (List.Subperm.append h (List.Subperm.refl _))

end Covers

/-! ### Readers -/

/-- The reader records the constructs of the trace that are not closed, and `Q` holds of its result
and the constructs.  It stands in the construct that begins at `own`, if any. -/
def Tallies {α : Type} (input : Input) (own : Option Nat) (p : Parser α) (t : Trace)
    (Q : α → List Extent → Prop) : Prop :=
  ∀ s : State, Behind input own s →
    Tally input own s (t input s) (p input s).2 ∧ Q (p input s).1 (t input s)

/-- As `Tallies`, for a reader of statements. -/
abbrev StmtTallies (input : Input) (own : Option Nat) (p : Parser (Option Stmt)) (t : Trace) :
    Prop :=
  Tallies input own p t fun o xs => Covers input xs o.toList

namespace Tallies

variable {p : Parser α} {f : α → Parser β} {t : α → Trace} {A : α → Prop}
  {Q : α → List Extent → Prop} {R : β → List Extent → Prop}

theorem of_quiet (h : Quiet input p A) (hA : ∀ a, A a → Q a []) :
    Tallies input own p nothing Q := by
  intro s hs
  obtain ⟨hu, ha⟩ := h s hs.cursor_le_stop
  exact ⟨.of_unharmed hu, hA _ ha⟩

theorem before (hp : Quiet input p A) (hf : ∀ a, Tallies input own (f a) (t a) R) :
    Tallies input own (p >>= f) (before p t) R := by
  intro s hs
  obtain ⟨hu, -⟩ := hp s hs.cursor_le_stop
  obtain ⟨h, hr⟩ := hf _ _ (hs.of_unharmed hu)
  exact ⟨.head hu h, hr⟩

theorem beforeSome {p : Parser (Option α)} {f : Option α → Parser β} {A : Option α → Prop}
    (hp : Quiet input p A) (hnone : Tallies input own (f none) nothing R)
    (hsome : ∀ a, Tallies input own (f (some a)) (t a) R) :
    Tallies input own (p >>= f) (beforeSome p t) R := by
  refine before hp fun o => ?_
  cases o with
  | none => exact hnone
  | some a => exact hsome a

/-- Something quiet behind. -/
theorem after {u : Trace} {B : α → β → Prop} (hp : Tallies input own p u Q)
    (hf : ∀ a, Quiet input (f a) (B a)) (hR : ∀ a b xs, Q a xs → B a b → R b xs) :
    Tallies input own (p >>= f) u R := by
  intro s hs
  obtain ⟨h, hq⟩ := hp s hs
  obtain ⟨hu, hb⟩ := hf (p input s).1 _ h.cursor_le_stop
  exact ⟨h.tail hu, hR _ _ _ hq hb⟩

/-- Statements in a construct. -/
theorem inside {u : Trace} (h : Tallies input none p u Q) : Tallies input own p u Q := by
  intro s hs
  obtain ⟨htally, hq⟩ := h s hs.inside
  exact ⟨htally.inside, hq⟩

/-- Statements in a construct, and what comes after them. -/
theorem append {u : Trace} (hp : Tallies input none p u Q)
    (hf : ∀ a xs, Q a xs → Tallies input own (f a) (t a) fun b ys => R b (xs ++ ys)) :
    Tallies input own (p >>= f) (fun input s => u input s ++ Parser.before p t input s) R := by
  intro s hs
  obtain ⟨h, hq⟩ := hp s hs.inside
  obtain ⟨h', hr⟩ := hf _ _ hq _ (h.behind hs)
  exact ⟨h.append h' hs.own_lt, hr⟩

end Tallies

/-- As `Tallies`, for a reader of statements that begin with a word. -/
def Begins (input : Input) (word : Keyword) (p : Parser (Option Stmt)) (t : Trace) : Prop :=
  ∀ s : State, Behind input none s → input.kind s.cursor = .keyword word →
    Tally input none s (t input s) (p input s).2 ∧ Covers input (t input s) (p input s).1.toList

/-- The word of a construct is passed; then reading goes on in the construct. -/
theorem Begins.word {f : Nat → Parser (Option Stmt)} {t : Nat → Trace} {word : Keyword}
    (hf : ∀ w, input.kind w = .keyword word → StmtTallies input (some w) (f w) (t w)) :
    Begins input word (do let start ← cursor; advance; f start)
      (before cursor fun start => before advance fun _ => t start) := by
  intro s hs hk
  let next : State := { s with cursor := input.after s.cursor }
  have hlt : s.cursor < input.stop := Input.lt_stop hs.cursor_le_stop (by rw [hk]; simp)
  have hnext : next.cursor = s.cursor + 1 := Input.after_of_lt hlt
  obtain ⟨hmove, -⟩ := advance_calm s hs.cursor_le_stop
  have hbehind : Behind input (some s.cursor) next := by
    refine ⟨fun w hw => ?_, hmove.cursor_le_stop, fun e he => ?_⟩
    · cases hw
      omega
    · obtain ⟨j, hj, -, ht⟩ := hs.errors e he
      refine ⟨j, by omega, fun heq => ?_, ht⟩
      have := Option.some.inj heq
      omega
  obtain ⟨h, hcovers⟩ := hf s.cursor hk next hbehind
  have hall : Tally input (some s.cursor) s (t s.cursor input next) (f s.cursor input next).2 :=
    .head hmove h
  -- the construct itself begins at the word, which is no longer passed
  refine ⟨⟨hall.cursor_le, hall.cursor_le_stop, hall.errors, hall.sound, fun x hx => .inl ?_,
    hall.start_lt, hall.nodup⟩, hcovers⟩
  rcases hall.le_start x hx with hle | hown
  · exact hle
  · exact Nat.le_of_eq (Option.some.inj hown)

/-! ### Loops over statements -/

/-- The reader of a list of statements goes from one to the next as a trace does, and closes the
list where it ends. -/
def Rounds (input : Input) (loop : Nat → Parser (List Stmt)) (skip : Parser Unit)
    (ends : Input → Nat → Bool) (one : Parser (Option Stmt)) (close : State → State) : Prop :=
  ∀ rounds s, loop (rounds + 1) input s =
    let here := (skip input s).2
    let first := one input here
    let rest := loop rounds input first.2
    if ends input here.cursor then ([], close here) else (first.1.toList ++ rest.1, rest.2)

variable {stmt : Parser (Option Stmt)} {inner : Trace}

/-- One statement and its end pass at least one token. -/
theorem round_tally {finish : Bool → Parser Unit} (hstmt : StmtTallies input none stmt inner)
    (hfinish : ∀ complete, Calm input (finish complete)) (hs : Behind input none s)
    (hlt : s.cursor < input.stop) :
    Tally input none s (inner input s) (round finish stmt input s).2 ∧
      Covers input (inner input s) (round finish stmt input s).1.toList ∧
      s.cursor < (round finish stmt input s).2.cursor := by
  obtain ⟨h, hcovers⟩ := hstmt s hs
  let read := (stmt input s).2
  obtain ⟨hu, -⟩ := hfinish (stmt input s).1.isSome read h.cursor_le_stop
  let finished := (finish (stmt input s).1.isSome input read).2
  have hcursor := Nat.le_trans h.cursor_le hu.cursor_le
  obtain ⟨hpass, -⟩ := passFrom_calm s.cursor finished hu.cursor_le_stop
  obtain ⟨-, hpassed⟩ :=
    @passFrom_reached .none input finished s.cursor hlt hcursor hu.cursor_le_stop
  exact ⟨(h.tail hu).tail hpass, hcovers, hpassed⟩

/-- A loop over statements ends where there is none left, and has recorded the constructs in them
that are not closed. -/
theorem rounds_tally {loop : Nat → Parser (List Stmt)} {skip : Parser Unit}
    {ends : Input → Nat → Bool} {finish : Bool → Parser Unit} {close : State → State}
    (hloop : Rounds input loop skip ends (round finish stmt) close) (hskip : Calm input skip)
    (hends : ∀ i, ends input i = false → input.kind i ≠ .eof)
    (hstmt : StmtTallies input none stmt inner) (hfinish : ∀ complete, Calm input (finish complete))
    (rounds : Nat) : ∀ {s : State}, Behind input none s → input.stop < s.cursor + rounds →
    let trace := roundsTrace inner skip ends (round finish stmt) rounds input s
    ∃ here, Tally input none s trace here ∧ ends input here.cursor = true ∧
      (loop rounds input s).2 = close here ∧ Covers input trace (loop rounds input s).1 := by
  induction rounds with
  | zero => exact fun hs hrounds => absurd hs.cursor_le_stop (by omega)
  | succ rounds ih =>
    intro s hs hrounds trace
    obtain ⟨hu, -⟩ := hskip s hs.cursor_le_stop
    have hbehind := hs.of_unharmed hu
    let here := (skip input s).2
    let first := round finish stmt input here
    let rest := roundsTrace inner skip ends (round finish stmt) rounds input first.2
    have htrace : trace = if ends input here.cursor then [] else inner input here ++ rest := rfl
    rw [hloop, htrace]
    by_cases hend : ends input here.cursor = true
    · rw [if_pos hend, if_pos hend]
      exact ⟨here, .of_unharmed hu, hend, rfl, .nil⟩
    · rw [if_neg hend, if_neg hend]
      have hlt := Input.lt_stop hu.cursor_le_stop (hends _ (Bool.eq_false_iff.mpr hend))
      -- the round passes a token, which pays for the next one
      obtain ⟨hfirst, hcovers, hpassed⟩ := round_tally hstmt hfinish hbehind hlt
      have hcursor := hu.cursor_le
      obtain ⟨last, hrest, hlast, hstate, hcovers'⟩ := ih (hfirst.behind hbehind) (by omega)
      exact ⟨last, .head hu (hfirst.append hrest nofun), hlast, hstate, hcovers.append hcovers'⟩

/-! ### Blocks -/

theorem Input.kind_of_endsBlock {input : Input} {i : Nat} (h : input.endsBlock i = false) :
    input.kind i ≠ .eof := by
  intro hk
  rw [endsBlock, hk, decide_eq_true rfl, Bool.true_or] at h
  cases h

theorem Input.endsBlock_of_closed {input : Input} {i : Nat} {closers : List Closer}
    (hclosers : closers ⊆ Closer.all) (h : closers.any (input.closesWith i) = true) :
    input.endsBlock i = true := by
  obtain ⟨closer, hmem, hc⟩ := List.any_eq_true.mp h
  have hany : input.closesAny i = true := List.any_eq_true.mpr ⟨closer, hclosers hmem, hc⟩
  rw [endsBlock, hany, Bool.or_true]

section Ending

variable {closers closers' : List Closer} {construct : Construct} {opened : Span} {i : Nat}

/-- What is recorded where a block of a construct has ended. -/
def ending (input : Input) (closers : List Closer) (construct : Construct) (opened : Span)
    (i : Nat) : List ParseError :=
  if closers.any (input.closesWith i) then [] else [⟨.unclosed construct, opened⟩]

theorem ending_of_closed (h : closers.any (input.closesWith i) = true) :
    ending input closers construct opened i = [] :=
  if_pos h

theorem ending_of_not_closed (h : ¬ closers.any (input.closesWith i) = true) :
    ending input closers construct opened i = [⟨.unclosed construct, opened⟩] :=
  if_neg h

theorem unclosed_ending : unclosed (ending input closers construct opened i) =
    ending input closers construct opened i := by
  unfold ending
  split <;> rfl

/-- A block of a construct has ended, and is recorded if none of the closers stands there. -/
def Ended (input : Input) (closers : List Closer) (construct : Construct) (opened : Span)
    (s : State) (xs : List Extent) (s' : State) : Prop :=
  ∃ here, Tally input none s xs here ∧ input.endsBlock here.cursor = true ∧
    s'.cursor = here.cursor ∧
    s'.errors = here.errors ++ ending input closers construct opened here.cursor

namespace Ended

theorem cursor_le (h : Ended input closers construct opened s xs s₁) : s.cursor ≤ s₁.cursor := by
  obtain ⟨here, htally, -, hcursor, -⟩ := h
  exact hcursor ▸ htally.cursor_le

theorem cursor_le_stop (h : Ended input closers construct opened s xs s₁) :
    s₁.cursor ≤ input.stop := by
  obtain ⟨here, htally, -, hcursor, -⟩ := h
  exact hcursor ▸ htally.cursor_le_stop

theorem endsBlock (h : Ended input closers construct opened s xs s₁) :
    input.endsBlock s₁.cursor = true := by
  obtain ⟨here, -, hends, hcursor, -⟩ := h
  exact hcursor ▸ hends

/-- Nothing is recorded where a closer stands. -/
theorem tally (h : Ended input closers construct opened s xs s₁)
    (hclosed : closers.any (input.closesWith s₁.cursor) = true) : Tally input none s xs s₁ := by
  obtain ⟨here, htally, -, hcursor, herrors⟩ := h
  rw [hcursor] at hclosed
  rw [ending_of_closed hclosed, List.append_nil] at herrors
  exact htally.congr hcursor herrors

/-- Something that was read before. -/
theorem after (h : Ended input closers construct opened s₁ ys s₂) (h' : Tally input none s xs s₁) :
    Ended input closers construct opened s (xs ++ ys) s₂ := by
  obtain ⟨here, htally, hrest⟩ := h
  exact ⟨here, h'.append htally nofun, hrest⟩

/-- Other closers that stand there if these do. -/
theorem change (h : Ended input closers construct opened s xs s₁)
    (hclosers : closers'.any (input.closesWith s₁.cursor) =
      closers.any (input.closesWith s₁.cursor)) :
    Ended input closers' construct opened s xs s₁ := by
  obtain ⟨here, htally, hends, hcursor, herrors⟩ := h
  refine ⟨here, htally, hends, hcursor, ?_⟩
  rw [hcursor] at hclosers
  unfold ending at herrors ⊢
  rwa [hclosers]

/-- The last block of a construct has ended. -/
theorem close {w head : Nat}
    (h : Ended input construct.closers construct (input.spanFrom w head) s xs s₁)
    (hk : input.kind w = .keyword construct.word) (hw : w < head) (hhead : head ≤ s.cursor) :
    Tally input (some w) s (xs ++ [⟨construct, w, head, s₁.cursor⟩]) s₁ := by
  have hle := h.cursor_le
  have hsound : Extent.Sound input ⟨construct, w, head, s₁.cursor⟩ :=
    ⟨hk, hw, Nat.le_trans hhead hle, h.cursor_le_stop, h.endsBlock⟩
  obtain ⟨here, htally, -, hcursor, herrors⟩ := h
  -- what the block recorded at its end is what the construct owes
  have howed : owed input [⟨construct, w, head, s₁.cursor⟩] =
      ending input construct.closers construct (input.spanFrom w head) here.cursor := by
    unfold owed ending
    rw [List.filter_singleton, Extent.isClosed, hcursor]
    cases construct.closers.any (input.closesWith here.cursor) <;> rfl
  have hlast : Tally input (some w) here [⟨construct, w, head, s₁.cursor⟩] s₁ := by
    refine ⟨Nat.le_of_eq hcursor.symm, hsound.stop_le, ?_, ?_, ?_, ?_, List.pairwise_singleton _ _⟩
    · rw [herrors, unclosed_append, unclosed_ending, howed]
    · exact List.forall_mem_singleton.mpr hsound
    · exact List.forall_mem_singleton.mpr (.inr rfl)
    · exact List.forall_mem_singleton.mpr (by show w < s₁.cursor; omega)
  refine htally.append hlast fun v hv => ?_
  cases hv
  omega

end Ended

theorem blockLoop_rounds (hclosers : closers ⊆ Closer.all) :
    Rounds input (blockLoop stmt closers construct opened) skipSeparators Input.endsBlock
      (round finishOrRecover stmt) fun here => { here with
        errors := here.errors ++ ending input closers construct opened here.cursor } := by
  intro rounds s
  extract_lets here first rest
  have hrun : blockLoop stmt closers construct opened (rounds + 1) input s =
      (if closers.any (input.closesWith here.cursor) then return []
        else if input.kind here.cursor = .eof ∨ input.closesAny here.cursor = true then do
          report (.unclosed construct) opened
          return []
        else do
          let first ← round finishOrRecover stmt
          let rest ← blockLoop stmt closers construct opened rounds
          return first.toList ++ rest : Parser (List Stmt)) input here := rfl
  have hends : input.endsBlock here.cursor = true ↔
      input.kind here.cursor = .eof ∨ input.closesAny here.cursor = true := by
    rw [Input.endsBlock, Bool.or_eq_true, decide_eq_true_eq]
  rw [hrun]
  by_cases hclosed : closers.any (input.closesWith here.cursor) = true
  · rw [if_pos hclosed, if_pos (Input.endsBlock_of_closed hclosers hclosed)]
    dsimp only
    rw [ending_of_closed hclosed, List.append_nil]
    rfl
  · rw [if_neg hclosed]
    by_cases hend : input.kind here.cursor = .eof ∨ input.closesAny here.cursor = true
    · rw [if_pos hend, if_pos (hends.mpr hend)]
      dsimp only
      rw [ending_of_not_closed hclosed]
      rfl
    · rw [if_neg hend, if_neg (hends.not.mpr hend)]
      rfl

/-- A block has recorded the constructs in it that are not closed, and then its own construct. -/
theorem block_ended (construct : Construct) (opened : Span) (hclosers : closers ⊆ Closer.all)
    (hstmt : StmtTallies input none stmt inner) (hs : Behind input own s) :
    let read := block stmt closers construct opened input s
    Ended input closers construct opened s (blockTrace inner stmt input s) read.2 ∧
      Covers input (blockTrace inner stmt input s) read.1 := by
  intro read
  let entered : State := { s with depth := s.depth + 1 }
  have hentered : Behind input none entered := ⟨nofun, hs.cursor_le_stop, hs.inside.errors⟩
  obtain ⟨here, h, hends, hstate, hcovers⟩ := rounds_tally
    (@blockLoop_rounds input stmt closers construct opened hclosers) (skipWhile_calm rfl)
    (fun _ => Input.kind_of_endsBlock) hstmt finishOrRecover_calm (input.left s.cursor + 1) hentered
    (Input.stop_lt_add_left s.cursor)
  have hcursor := congrArg State.cursor hstate
  have herrors := congrArg State.errors hstate
  refine ⟨⟨here, ?_, hends, hcursor, herrors⟩, hcovers⟩
  exact ⟨h.cursor_le, h.cursor_le_stop, h.errors, h.sound, h.le_start, h.start_lt, h.nodup⟩

end Ending

end Parser

end FrameBasic
