import FrameBasic.Tree.Parser.State

/-!
# Reading expressions

Operators are read by precedence.  `Not` takes a comparison as its operand, so `Not a = b` negates
the comparison, and a sign takes a power.  An expression that cannot be read is recorded and becomes
an `error` node.

The readers of the parts take the reader of inner expressions as an argument.  The knot is tied by
`Parser.expressionAt`, whose first argument bounds the nesting: an inner expression always starts
after at least one token of the outer one.

## Main definitions

* `Parser.readHex` — the value of a hexadecimal numeral.
* `Parser.primary` — a literal, a name, a sign with its operand, or parentheses.
* `Parser.climb` — the operators after a first operand.
* `Parser.expression` — an expression.
* `Parser.parenArgs`, `Parser.bareArgs` — lists of arguments.
-/

namespace FrameBasic.Parser

/-- The value of a dollar sign and hexadecimal digits, read as a pattern of 32 bits. -/
def readHex (text : String) : Option Int :=
  match text.toList with
  | '$' :: digits => (Decimal.readWord 16 digits).toOption.bind Decimal.signedPattern
  | _ => none

/-- Gives a node its inferred type. -/
def typed (e : Expr) : Parser Expr := do
  return e.typed (← get).scopes (← read).commands

/-- A node that spans the tokens since `start`. -/
def node (start : Nat) (make : Info → Expr) : Parser Expr := do
  typed (make { span := ← spanFrom start })

/-- An `error` node at the current token. -/
def errorHere : Parser Expr := do
  return .error { span := ← currentSpan }

/-- An `error` node that spans the tokens since `start`. -/
def errorFrom (start : Nat) : Parser Expr := do
  return .error { span := ← spanFrom start }

/-- The name of a type after a point, when the point follows the name before it directly. -/
def typeTag : Parser (Option String) := do
  let input ← read
  match input.tokens[← cursor]?, (← cursor) with
  | some token, i + 1 =>
    let follows := input.tokens[i]?.any fun before => token.span.start = before.span.stop
    if token.kind = .label ∧ follows = true then
      advance
      return some token.text
    else
      return none
  | _, _ => return none

/-- The name of a user type; an unknown one is recorded. -/
def typeName : Parser (Option String) := do
  let some token ← expectName .typeName | return none
  unless (← get).scopes.isType token.text do
    report (.unknownType token.text) token.span
  return some token.text

/-- The fields after an expression. -/
def fieldChain (start : Nat) : Nat → Expr → Parser Expr
  | 0, e => do
    exhaust
    return e
  | rounds + 1, e => do
    if ← accept .backslash then
      if (← check .identifier) || (← check .command) then
        let name ← takeText
        fieldChain start rounds (← node start (.field · e name))
      else
        reportExpected .fieldName
        errorFrom start
    else
      return e

/-- The expression with the fields that follow it. -/
def withFields (start : Nat) (e : Expr) : Parser Expr :=
  bounded fun rounds => fieldChain start rounds e

/-- Whether a token that cannot begin an expression stays for the construct around it. -/
def staysAfterBadExpression : Parser Bool := do
  let kind ← kind
  let closes ← atAnyCloser
  return kind.isTerminator || closes ||
    kind ∈ [.rightParen, .comma, .keyword .then_, .keyword .to, .keyword .step]

/-- Records that the current token cannot begin an expression. -/
def badExpression (start : Nat) : Parser Expr := do
  let span ← currentSpan
  match ← peek? with
  | some token =>
    if token.kind = .eof then report (.endOfInput .expression) span
    else report (.badExpression token) span
  | none => report (.endOfInput .expression) span
  unless ← staysAfterBadExpression do
    advance
  errorFrom start

/-- A number that was read since `start`, or the fault that it is none. -/
def number {ε α : Type} (start : Nat) (value : Except ε α) (make : α → Info → Expr)
    (fault : ε → Fault) : Parser Expr := do
  match value with
  | .ok value => node start (make value)
  | .error e => do
    report (fault e) (← spanFrom start)
    node start .error

/-- Arguments in parentheses. -/
def parenArgs (expr : Parser Expr) : Parser (List Expr) := do
  let some _ ← expect .leftParen .openingParen | return []
  if ← accept .rightParen then
    return []
  let args ← bounded (separated expr)
  let _ ← expect .rightParen .closingParen
  return args

/-- Arguments without parentheses. -/
def bareArgs (expr : Parser Expr) : Parser (List Expr) := do
  if (← kind).startsExpression then
    bounded (separated expr)
  else
    return []

/-- A name, with its type, its indices or its arguments. -/
def nameExpr (expr : Parser Expr) : Parser Expr := do
  let start ← cursor
  let some token ← expectName .identifier | errorHere
  let e ←
    match ← typeTag with
    | some typeName => node start (.var · token.text (some typeName))
    | none => do
      if ← check .leftParen then
        let args ← parenArgs expr
        if (← get).scopes.isArray token.text then
          node start (.element · token.text args)
        else
          node start (.call · token.text args)
      else
        node start (.var · token.text none)
  withFields start e

/-- Records the arguments of a command that have a wrong type. -/
def checkArguments (name : String) (args : List Expr) : Parser Unit := do
  let found := ((← read).commands.get? name).elim [] fun d => mismatches d args
  found.forM fun m => report (.argument name m.position m.expected m.found) m.span

/-- A command with its arguments. -/
def commandNode (start : Nat) (name : String) (args : List Expr) : Parser Expr := do
  checkArguments name args
  node start (.command · name args)

/-- A command that gives a value. -/
def commandExpr (expr : Parser Expr) : Parser Expr := do
  let start ← cursor
  let name ← takeText
  let args ← if ← check .leftParen then parenArgs expr else pure []
  let e ← commandNode start name args
  withFields start e

/-- An expression that begins with a reserved word; nothing if it cannot be read. -/
def wordExpr (inner : Precedence → Parser Expr) (start : Nat) (word : Keyword) :
    Parser (Option Expr) := do
  match word with
  | .true_ => do
    advance
    some <$> node start (.boolean · true)
  | .false_ => do
    advance
    some <$> node start (.boolean · false)
  | .null => do
    advance
    some <$> node start .null
  | .not => do
    advance
    let operand ← inner .comparison
    some <$> node start (.unary · .not operand)
  | .new => do
    advance
    let some name ← typeName | return none
    some <$> node start (.new · name)
  | .first => do
    advance
    let some name ← typeName | return none
    some <$> node start (.first · name)
  | .last => do
    advance
    let some name ← typeName | return none
    some <$> node start (.last · name)
  | .after => do
    advance
    let object ← inner .unary
    some <$> node start (.after · object)
  | .before => do
    advance
    let object ← inner .unary
    some <$> node start (.before · object)
  | _ => return none

/-- A literal, a name, a sign with its operand, or an expression in parentheses. -/
def primary (inner : Precedence → Parser Expr) : Parser Expr := do
  let start ← cursor
  let some token ← peek? |
    reportExpected .expression
    errorHere
  match token.kind with
  | .integer => do
    advance
    withFields start (← number start (Decimal.readInteger token.text.toList)
      (fun value => (.integer · value)) .badWhole)
  | .float => do
    advance
    withFields start (← number start (Decimal.readReal token.text.toList)
      (fun value => (.float · value)) .badReal)
  | .hex => do
    advance
    withFields start (← number start ((readHex token.text).elim (.error ()) .ok)
      (fun value => (.integer · value)) fun _ => .hexRange)
  | .string => do
    advance
    withFields start (← node start (.string · token.text))
  | .identifier => nameExpr (inner .or)
  | .command => commandExpr (inner .or)
  | .leftParen => do
    advance
    let e ← inner .or
    let _ ← expect .rightParen .closingParen
    withFields start (← node start (.grouped · e))
  | .minus => do
    advance
    let operand ← inner .power
    withFields start (← node start (.unary · .negate operand))
  | .plus => do
    advance
    let operand ← inner .power
    withFields start (← node start (.unary · .plus operand))
  | .keyword word => do
    match ← wordExpr inner start word with
    | some e => withFields start e
    | none => badExpression start
  | _ => badExpression start

/-- The operators of at least the given level after a first operand, with their right operands. -/
def climb (inner : Precedence → Parser Expr) (level : Precedence) (start : Nat) :
    Nat → Expr → Parser Expr
  | 0, left => do
    exhaust
    return left
  | rounds + 1, left => do
    match (← kind).binaryOp? with
    | some op =>
      if op.precedence.rank < level.rank then
        return left
      else do
        advance
        let right ← inner op.operandLevel
        climb inner level start rounds (← node start (.binary · left op right))
    | none => return left

/-- An expression whose operators bind at least as tightly as the given level.  The first argument
bounds the nesting. -/
def expressionAt : Nat → Precedence → Parser Expr
  | 0, _ => do
    exhaust
    errorHere
  | nesting + 1, level => do
    let start ← cursor
    let left ← primary (expressionAt nesting)
    bounded fun rounds => climb (expressionAt nesting) level start rounds left

/-- An expression. -/
def expression : Parser Expr :=
  bounded fun nesting => expressionAt nesting .or

end FrameBasic.Parser
