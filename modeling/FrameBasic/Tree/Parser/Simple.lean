import FrameBasic.Tree.Parser.Expression

/-!
# Reading simple statements

The statements without blocks: assignments and calls, declarations, jumps, the data pool and the
lists of objects.  A reader gives nothing when the statement could not be read; the fault is
recorded then.

## Main definitions

* `Parser.target`, `Parser.declareTarget` — what a value is stored in, and its declaration at the
  first assignment.
* `Parser.statementArgs` — the arguments of a call that is a statement.
* `Parser.nameStmt`, `Parser.commandStmt` — statements that begin with a name or a command.
* `Parser.dataValue` — a value of a `Data` list.
-/

namespace FrameBasic.Parser

/-- A statement that spans the tokens since `start`. -/
def stmtFrom (start : Nat) (make : Span → Stmt) : Parser (Option Stmt) := do
  return some (make (← spanFrom start))

/-! ### Assignments and calls -/

/-- The arguments of a call that is a statement, with or without parentheses.  A list in parentheses
counts only when the statement ends after it, because `Plot (a + b) * 2, c` begins with an
expression. -/
def statementArgs : Parser (List Expr) := do
  if ← check .leftParen then
    let m ← mark
    let args ← parenArgs expression
    if (← atStatementEnd) || (← checkWord .else_) then
      return args
    rewind m
  bareArgs expression

/-- What a value can be stored in. -/
def target : Parser (Option Expr) := do
  let start ← cursor
  let some token ← expectName .assignable | return none
  let e ←
    match ← typeTag with
    | some typeName => node start (.var · token.text (some typeName))
    | none => do
      if ← check .leftParen then
        let indices ← parenArgs expression
        unless (← get).scopes.isArray token.text do
          report (.notArray token.text) (← spanFrom start)
        node start (.element · token.text indices)
      else
        node start (.var · token.text none)
  some <$> withFields start e

/-- Declares a variable at its first assignment. -/
def declareTarget (e : Expr) (value : ValueType) : Parser Expr := do
  match e with
  | .var _ name typeName => do
    let scopes := (← get).scopes
    let hides := typeName.isSome && (scopes.lookupInner? name).isNone
    if (scopes.lookup? name).isNone || hides then
      define (.declared name typeName (some value))
    typed e
  | _ => return e

/-- An assignment. -/
def assignment : Parser (Option Stmt) := do
  let start ← cursor
  let some e ← target | return none
  let some _ ← expect .equals .equals | return none
  let value ← expression
  let e ← declareTarget e value.type
  stmtFrom start (.assign · e value)

/-- The call of a function that is a statement. -/
def callStmt (start : Nat) (name : String) : Parser (Option Stmt) := do
  advance
  let args ← statementArgs
  let call ← node start (.call · name args)
  stmtFrom start (.expr · call)

/-- Whether an equals sign follows the name and its list in parentheses. -/
def assignsAfterParens : Parser Bool := do
  let m ← mark
  advance
  let _ ← parenArgs expression
  let assigns ← check .equals
  rewind m
  return assigns

/-- A statement that begins with a name: an assignment or the call of a function. -/
def nameStmt : Parser (Option Stmt) := do
  let start ← cursor
  let name := ((← peek?).map Token.text).getD ""
  let next ← kindAhead 1
  let unknownList := next = .leftParen && !(← get).scopes.isArray name
  let assigns ← if unknownList then assignsAfterParens else pure true
  if !assigns then
    callStmt start name
  else if next ∈ [.equals, .label, .backslash, .leftParen] then
    assignment
  else if (← get).scopes.isFunction name then
    callStmt start name
  else do
    advance
    reportExpected (.equalsAfter name)
    return none

/-- A command that is a statement. -/
def commandStmt : Parser (Option Stmt) := do
  let start ← cursor
  let name ← takeText
  let args ← statementArgs
  let e ← commandNode start name args
  stmtFrom start (.expr · e)

/-! ### Declarations -/

/-- The value after an equals sign. -/
def initialValue : Parser (Option Expr) := do
  if ← accept .equals then some <$> expression else return none

/-- One name of a `Local` or `Global` list. -/
def varDecl (scope : DeclScope) : Parser (Option VarDecl) := do
  let start ← cursor
  let some token ← expectName .variableName | return none
  let typeName ← typeTag
  let value ← initialValue
  let symbol := Symbol.declared token.text typeName (value.map Expr.type)
  match scope with
  | .inner => define symbol
  | .global => defineGlobal symbol
  return some ⟨token.text, typeName, value, ← spanFrom start⟩

/-- `Local` or `Global` with its names. -/
def declareStmt (scope : DeclScope) : Parser (Option Stmt) := do
  let start ← cursor
  advance
  let (vars, complete) ← bounded (collect (varDecl scope))
  if complete then stmtFrom start (.declare · scope vars) else return none

/-- One array of a `Dim` list.  Arrays are always global. -/
def arrayDecl : Parser (Option ArrayDecl) := do
  let start ← cursor
  let some token ← expectName .arrayName | return none
  let typeName ← typeTag
  if ← check .leftParen then
    let dimensions ← parenArgs expression
    if dimensions.isEmpty then
      report .noDimension (← spanFrom start)
    let plain :=
      Symbol.array token.text ((Name.markedType? token.text).getD .number) dimensions.length
    defineGlobal (typeName.elim plain plain.withTypeName)
    return some ⟨token.text, typeName, dimensions, ← spanFrom start⟩
  else
    reportExpected .dimensions
    return none

/-- `Dim` with its arrays. -/
def dimStmt : Parser (Option Stmt) := do
  let start ← cursor
  advance
  let (arrays, complete) ← bounded (collect arrayDecl)
  if complete then stmtFrom start (.dim · arrays) else return none

/-- `Const` with its name and value. -/
def constStmt : Parser (Option Stmt) := do
  let start ← cursor
  advance
  let some token ← expectName .constantName | return none
  let some _ ← expect .equals .equals | return none
  let value ← expression
  define (.declared token.text none (some value.type))
  stmtFrom start (.const · token.text value)

/-! ### Jumps -/

/-- `Return` with or without a value. -/
def returnStmt : Parser (Option Stmt) := do
  let start ← cursor
  advance
  if (← atStatementEnd) || (← checkWord .else_) then
    stmtFrom start (.return_ · none)
  else do
    let value ← expression
    stmtFrom start (.return_ · (some value))

/-- `Exit`. -/
def exitStmt : Parser (Option Stmt) := do
  let start ← cursor
  advance
  stmtFrom start .exit

/-- `End`; with a word that it closes a block with, it is out of place. -/
def endStmt : Parser (Option Stmt) := do
  let start ← cursor
  advance
  match ← kind with
  | .keyword word =>
    if word ∈ [.if_, .function, .select, .type] then do
      advance
      report (.strayEnd word) (← spanFrom start)
      return none
    else stmtFrom start .end_
  | _ => stmtFrom start .end_

/-- A reference to a label, with or without the point. -/
def labelName : Parser (Option String) := do
  if (← check .identifier) || (← check .label) then
    some <$> takeText
  else
    reportExpected .labelName
    return none

/-- `Goto` or `Gosub` with its label. -/
def jumpStmt (make : Span → String → Stmt) : Parser (Option Stmt) := do
  let start ← cursor
  advance
  let some label ← labelName | return none
  stmtFrom start (make · label)

/-- A label. -/
def labelStmt (token : Token) : Parser (Option Stmt) := do
  advance
  return some (.label token.span token.text)

/-! ### The data pool -/

/-- Records a number of a `Data` list that cannot be read. -/
def badData (start : Nat) (fault : Fault) : Parser (Option DataValue) := do
  advance
  report fault (← spanFrom start)
  return none

/-- The literal of a `Data` list; `negative` says that a minus sign stands before it. -/
def dataLiteral? (negative : Bool) (token : Token) : Option (Except Fault DataValue) :=
  let whole (value : Option Int) : Option (Except Fault DataValue) :=
    match value with
    | some v => some (.ok (.integer (if negative then Decimal.negateWord v else v)))
    | none => some (.error .dataRange)
  match token.kind with
  | .hex => whole (readHex token.text)
  | .integer => whole (Decimal.readInteger token.text.toList).toOption
  | .float =>
    match Decimal.readReal token.text.toList with
    | .ok v => some (.ok (.float (if negative then v.neg else v)))
    | .error _ => some (.error .dataReal)
  | .string | .identifier | .command => if negative then none else some (.ok (.string token.text))
  | .keyword .true_ => if negative then none else some (.ok (.integer 1))
  | .keyword .false_ => if negative then none else some (.ok (.integer 0))
  | _ => none

/-- A value of a `Data` list. -/
def dataValue : Parser (Option DataValue) := do
  let start ← cursor
  let negative ← accept .minus
  let some token ← peek? |
    reportExpected .dataValue
    return none
  match dataLiteral? negative token with
  | some (.ok value) => do
    advance
    return some value
  | some (.error fault) => badData start fault
  | none => do
    reportExpected .dataLiteral
    return none

/-- `Data` with its values. -/
def dataStmt : Parser (Option Stmt) := do
  let start ← cursor
  advance
  if ← atStatementEnd then
    stmtFrom start (.data · [])
  else do
    let (values, complete) ← bounded (collect dataValue)
    if complete then stmtFrom start (.data · values) else return none

/-- A target of `Read`. -/
def readTarget : Parser (Option Expr) := do
  let some e ← target | return none
  let type :=
    match e with
    | .var _ name _ => (Name.markedType? name).getD .number
    | _ => e.type
  some <$> declareTarget e type

/-- `Read` with its targets. -/
def readStmt : Parser (Option Stmt) := do
  let start ← cursor
  advance
  let (targets, complete) ← bounded (collect readTarget)
  if complete then stmtFrom start (.read · targets) else return none

/-- `Restore` with or without a label. -/
def restoreStmt : Parser (Option Stmt) := do
  let start ← cursor
  advance
  if ← atStatementEnd then
    stmtFrom start (.restore · none)
  else do
    let some label ← labelName | return none
    stmtFrom start (.restore · (some label))

/-! ### Lists of objects -/

/-- `Delete` of one object or of all objects of a type. -/
def deleteStmt : Parser (Option Stmt) := do
  let start ← cursor
  advance
  if ← acceptWord .each then
    let some name ← typeName | return none
    stmtFrom start (.deleteEach · name)
  else do
    let object ← expression
    stmtFrom start (.delete · object)

/-- The word between the two objects of `Insert`. -/
def side : Parser (Option Side) := do
  if ← acceptWord .before then
    return some .before
  else if ← acceptWord .after then
    return some .after
  else
    reportExpected .side
    return none

/-- `Insert` of an object before or after another one. -/
def insertStmt : Parser (Option Stmt) := do
  let start ← cursor
  advance
  let object ← expression
  let some s ← side | return none
  let anchor ← expression
  stmtFrom start (.insert · object s anchor)

end FrameBasic.Parser
