import FrameBasic.Tree.Parser.Simple

/-!
# Reading statements with blocks

The readers take the reader of inner statements as an argument.  A block ends at one of its closers,
which stays unread; the end of the input or the closer of another construct ends it too and is
recorded.

## Main definitions

* `Parser.round` — one statement and its end, passing at least one token.
* `Parser.block` — the statements of a block.
* `Parser.ifStmt`, `Parser.whileStmt`, `Parser.repeatStmt`, `Parser.forStmt`, `Parser.selectStmt` —
  branches and loops.
* `Parser.functionStmt`, `Parser.typeStmt` — functions and user types.
-/

namespace FrameBasic.Parser

/-- One statement and its end, where `finish` is told whether it could be read.  At least one token
is passed, if there is one. -/
def round (finish : Bool → Parser Unit) (stmt : Parser (Option Stmt)) : Parser (Option Stmt) := do
  let before ← cursor
  let result ← stmt
  finish result.isSome
  passFrom before
  return result

/-- The end of a statement of a block; what is left of one that could not be read is passed. -/
def finishOrRecover (complete : Bool) : Parser Unit :=
  if complete then finishStatement else recover

/-- The statements up to one of the closers. -/
def blockLoop (stmt : Parser (Option Stmt)) (closers : List Closer) (construct : Construct)
    (opened : Span) : Nat → Parser (List Stmt)
  | 0 => do
    exhaust
    return []
  | rounds + 1 => do
    skipSeparators
    let input ← read
    let i ← cursor
    if closers.any (input.closesWith i) then
      return []
    else if input.kind i = .eof ∨ input.closesAny i = true then do
      report (.unclosed construct) opened
      return []
    else do
      let first ← round finishOrRecover stmt
      let rest ← blockLoop stmt closers construct opened rounds
      return first.toList ++ rest

/-- A block with its statements up to one of the closers.  A block that is not closed is recorded at
the place where its construct was opened. -/
def block (stmt : Parser (Option Stmt)) (closers : List Closer) (construct : Construct)
    (opened : Span) : Parser (List Stmt) :=
  inBlock (bounded (blockLoop stmt closers construct opened))

/-! ### Branches -/

/-- What ends a branch of `If`. -/
def branchClosers : List Closer :=
  [.word .endIf, .endOf .if_, .word .elseIf, .word .else_]

/-- What ends `If`. -/
def ifClosers : List Closer :=
  [.word .endIf, .endOf .if_]

/-- What ends a branch of `Select`. -/
def caseClosers : List Closer :=
  [.endOf .select, .word .case, .word .default]

/-- Whether a token ends the statements of `If` on one line. -/
def isInlineEnd : Kind → Bool
  | .newline | .eof | .keyword .else_ | .keyword .endIf => true
  | _ => false

/-- Whether a token is passed after a fault in the statements of `If` on one line. -/
def isInlineRest (kind : Kind) : Bool :=
  !(kind = .colon || isInlineEnd kind)

/-- The end of a statement on the line of `If`. -/
def finishInline (complete : Bool) : Parser Unit := do
  let rest ← kind
  if complete && isInlineRest rest then
    reportExpected .statementEnd
  skipWhile isInlineRest

/-- The statements on the line of `If`. -/
def inlineLoop (stmt : Parser (Option Stmt)) : Nat → Parser (List Stmt)
  | 0 => do
    exhaust
    return []
  | rounds + 1 => do
    skipWhile fun kind => kind = .colon
    if isInlineEnd (← kind) then
      return []
    else do
      let first ← round finishInline stmt
      let rest ← inlineLoop stmt rounds
      return first.toList ++ rest

/-- The statements on the line of `If`, with colons between them. -/
def inlineStmts (stmt : Parser (Option Stmt)) : Parser (List Stmt) :=
  inBlock (bounded (inlineLoop stmt))

/-- `If` on one line, after its condition. -/
def lineIf (stmt : Parser (Option Stmt)) (start : Nat) (condition : Expr) :
    Parser (Option Stmt) := do
  let thenBranch ← inlineStmts stmt
  let elseBranch ←
    if ← acceptWord .else_ then some <$> inlineStmts stmt else pure none
  let _ ← acceptWord .endIf
  stmtFrom start (.if_ · condition thenBranch [] elseBranch)

/-- Passes `ElseIf`, in one word or two. -/
def acceptElseIf : Parser Bool := do
  if ← acceptWord .elseIf then
    return true
  else if (← checkWord .else_) && (← kindAhead 1) = .keyword .if_ then
    advance
    advance
    return true
  else
    return false

/-- The branches after the first one of `If`. -/
def elseIfs (stmt : Parser (Option Stmt)) (opened : Span) : Nat → Parser (List ElseIf)
  | 0 => do
    exhaust
    return []
  | rounds + 1 => do
    if ← acceptElseIf then
      let condition ← expression
      let _ ← acceptWord .then_
      let body ← block stmt branchClosers .if_ opened
      let rest ← elseIfs stmt opened rounds
      return .mk condition body :: rest
    else
      return []

/-- `If` over several lines, after its condition. -/
def blockIf (stmt : Parser (Option Stmt)) (start : Nat) (condition : Expr) :
    Parser (Option Stmt) := do
  let opened ← spanFrom start
  let thenBranch ← block stmt branchClosers .if_ opened
  let branches ← bounded (elseIfs stmt opened)
  let elseBranch ←
    if ← acceptWord .else_ then some <$> block stmt ifClosers .if_ opened else pure none
  unless ← acceptCloser (.word .endIf) do
    let _ ← acceptCloser (.endOf .if_)
  stmtFrom start (.if_ · condition thenBranch branches elseBranch)

/-- `If`.  A line feed after the condition makes it go over several lines. -/
def ifStmt (stmt : Parser (Option Stmt)) : Parser (Option Stmt) := do
  let start ← cursor
  advance
  let condition ← expression
  let _ ← acceptWord .then_
  if (← kind) ∈ [.newline, .eof] then
    blockIf stmt start condition
  else
    lineIf stmt start condition

/-- Whether the last recorded error says that the block opened at a place is not closed. -/
def reportedUnclosed (errors : List ParseError) (opened : Span) : Bool :=
  match errors.getLast? with
  | some ⟨.unclosed _, span⟩ => span = opened
  | _ => false

/-- The clauses of `Select`, and what its last `Default` says.  `seen` tells whether there was one
already. -/
def selectLoop (stmt : Parser (Option Stmt)) (opened : Span) :
    Nat → Bool → Parser (List CaseClause × Option (List Stmt))
  | 0, _ => do
    exhaust
    return ([], none)
  | rounds + 1, seen => do
    skipSeparators
    let start ← cursor
    if ← acceptCloser (.endOf .select) then
      return ([], none)
    else if ← acceptWord .case then
      let values ← bounded (separated expression)
      let body ← block stmt caseClosers .select opened
      let clause := CaseClause.mk values body (← spanFrom start)
      let rest ← selectLoop stmt opened rounds seen
      return (clause :: rest.1, rest.2)
    else if ← acceptWord .default then
      if seen then
        report .secondDefault (← spanFrom start)
      let body ← block stmt caseClosers .select opened
      let rest ← selectLoop stmt opened rounds true
      return (rest.1, rest.2.or (some body))
    else if (← atEnd) || (← atAnyCloser) then
      unless reportedUnclosed (← get).errors opened do
        report (.unclosed .select) opened
      return ([], none)
    else do
      reportExpected .caseOrDefault
      recover
      passFrom start
      selectLoop stmt opened rounds seen

/-- `Select` with its clauses. -/
def selectStmt (stmt : Parser (Option Stmt)) : Parser (Option Stmt) := do
  let start ← cursor
  advance
  let subject ← expression
  let opened ← spanFrom start
  let (cases, default) ← bounded fun rounds => selectLoop stmt opened rounds false
  stmtFrom start (.select · subject cases default)

/-! ### Loops -/

/-- `While` up to `Wend`. -/
def whileStmt (stmt : Parser (Option Stmt)) : Parser (Option Stmt) := do
  let start ← cursor
  advance
  let condition ← expression
  let opened ← spanFrom start
  let body ← block stmt [.word .wend] .while_ opened
  let _ ← acceptCloser (.word .wend)
  stmtFrom start (.while_ · condition body)

/-- `Repeat` up to `Until` or `Forever`. -/
def repeatStmt (stmt : Parser (Option Stmt)) : Parser (Option Stmt) := do
  let start ← cursor
  advance
  let opened ← spanFrom start
  let body ← block stmt [.word .until_, .word .forever] .repeat_ opened
  if ← acceptWord .until_ then
    let condition ← expression
    stmtFrom start (.repeat_ · body (some condition))
  else do
    let _ ← acceptWord .forever
    stmtFrom start (.repeat_ · body none)

/-- The body of `For`, up to `Next` and the name after it. -/
def forBody (stmt : Parser (Option Stmt)) (construct : Construct) (start : Nat) :
    Parser (List Stmt) := do
  let opened ← spanFrom start
  let body ← block stmt [.word .next] construct opened
  if (← acceptCloser (.word .next)) then
    if ← check .identifier then
      advance
  return body

/-- Declares a loop variable that is not known. -/
def declareLoopVariable (name : String) (symbol : Symbol) : Parser Unit := do
  if (← lookup? name).isNone then
    define symbol

/-- `For` over the objects of a type, after `Each`. -/
def forEachStmt (stmt : Parser (Option Stmt)) (start : Nat) (name : String)
    (tag : Option String) : Parser (Option Stmt) := do
  let some type ← typeName | return none
  if tag.any fun tag => !Text.sameLetters tag type then
    report (.loopType type) (← spanFrom start)
  declareLoopVariable name (.declared name (some type) none)
  let body ← forBody stmt .forEach start
  stmtFrom start (.forEach · name type body)

/-- `For` over numbers, after the equals sign. -/
def forRangeStmt (stmt : Parser (Option Stmt)) (start : Nat) (name : String) :
    Parser (Option Stmt) := do
  declareLoopVariable name (.declared name none (some .number))
  let first ← expression
  let some _ ← expect (.keyword .to) (.word .to) | return none
  let last ← expression
  let step ← if ← acceptWord .step then some <$> expression else pure none
  let body ← forBody stmt .for_ start
  stmtFrom start (.for_ · name first last step body)

/-- `For` over numbers or over the objects of a type. -/
def forStmt (stmt : Parser (Option Stmt)) : Parser (Option Stmt) := do
  let start ← cursor
  advance
  let some token ← expectName .loopVariable | return none
  let tag ← typeTag
  let some _ ← expect .equals .equals | return none
  if ← acceptWord .each then
    forEachStmt stmt start token.text tag
  else
    forRangeStmt stmt start token.text

/-! ### Functions and types -/

/-- Passes the rest of the line. -/
def skipLine : Parser Unit :=
  skipWhile fun kind => !(kind = .newline || kind = .eof)

/-- A parameter of a function. -/
def param : Parser (Option Param) := do
  let start ← cursor
  let some token ← expectName .parameterName | return none
  let typeName ← typeTag
  let default ← initialValue
  return some ⟨token.text, typeName, default, ← spanFrom start⟩

/-- The parameters of a function.  After a fault the rest of the line is passed, so that the body is
still read as a body. -/
def params : Parser (List Param) := do
  let some _ ← expect .leftParen .openingParen |
    skipLine
    return []
  if ← accept .rightParen then
    return []
  let (found, complete) ← bounded (collect param)
  let closed ← if complete then expect .rightParen .closingParen else pure none
  if closed.isNone then
    skipLine
  return found

/-- The name of a function; the name of a command is recorded. -/
def functionName : Parser (Option String) := do
  match ← peek? with
  | some token =>
    if token.kind = .identifier then do
      advance
      return some token.text
    else if token.kind = .command then do
      advance
      report (.commandName token.text) token.span
      return some token.text
    else do
      reportExpected .functionName
      return none
  | none => do
    reportExpected .functionName
    return none

/-- The type of the result of a function. -/
def returnType (name : String) (tag : Option String) : ValueType :=
  if tag.isSome then .object else (Name.markedType? name).getD .number

/-- The body of a function, in a scope of its own that holds the parameters. -/
def functionBody (stmt : Parser (Option Stmt)) (start : Nat) (found : List Param) :
    Parser (List Stmt) := do
  modifyScopes Scopes.enter
  found.forM fun p => define (.declared p.name p.typeName (p.default.map Expr.type))
  let opened ← spanFrom start
  let body ← block stmt [.endOf .function] .function opened
  modifyScopes Scopes.exit
  return body

/-- A function. -/
def functionStmt (stmt : Parser (Option Stmt)) : Parser (Option Stmt) := do
  let start ← cursor
  advance
  let some name ← functionName | return none
  let tag ← typeTag
  if 0 < (← get).depth then
    let nested := if (← get).scopes.isGlobal then Fault.functionInBlock else .functionInFunction
    report nested (← spanFrom start)
  let found ← params
  let plain := Symbol.function name (returnType name tag) (found.map Param.name)
  defineGlobal (tag.elim plain plain.withTypeName)
  let body ← functionBody stmt start found
  let _ ← acceptCloser (.endOf .function)
  stmtFrom start (.function · name tag found body)

/-- A field of a user type. -/
def fieldDecl : Parser (Option FieldDecl) := do
  let start ← cursor
  let some token ← expectName .fieldName | return none
  let typeName ← typeTag
  return some ⟨token.text, typeName, ← spanFrom start⟩

/-- The fields of a user type. -/
def fieldLoop (opened : Span) : Nat → Parser (List FieldDecl)
  | 0 => do
    exhaust
    return []
  | rounds + 1 => do
    skipSeparators
    let start ← cursor
    if ← acceptCloser (.endOf .type) then
      return []
    else if ← acceptWord .field then
      let (found, _) ← bounded (collect fieldDecl)
      finishStatement
      let rest ← fieldLoop opened rounds
      return found ++ rest
    else if (← atEnd) || (← atAnyCloser) then
      report (.unclosed .type) opened
      return []
    else do
      reportExpected .fieldOrEnd
      recover
      passFrom start
      fieldLoop opened rounds

/-- A user type. -/
def typeStmt : Parser (Option Stmt) := do
  let start ← cursor
  advance
  let some token ← expectName .typeName | return none
  let opened ← spanFrom start
  if 0 < (← get).depth then
    report .typeInBlock opened
  let fields ← bounded (fieldLoop opened)
  defineGlobal (.userType token.text (fields.map FieldDecl.name))
  stmtFrom start (.type · token.text fields)

end FrameBasic.Parser
