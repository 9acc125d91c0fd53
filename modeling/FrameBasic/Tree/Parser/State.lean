import FrameBasic.Tree.Parser.Fault

/-!
# Reading tokens

The reader stands before one of the tokens, which do not change.  The end of the input is never
passed.  Faults are recorded and reading goes on.

## Main definitions

* `Parser.Input` — the tokens without comments, and the command table.
* `Parser.State` — the cursor, the recorded errors, the names declared so far and the number of open
  blocks.
* `Parser` — readers.
* `Parser.Input.skipWhile`, `Parser.Input.recover` — where to go on reading.
* `Parser.expect` — a token of a kind, or a recorded fault.
* `Parser.passFrom` — makes sure that a round of a loop passes a token.
* `Parser.mark`, `Parser.rewind` — take back what was read and recorded.
* `Parser.bounded`, `Parser.separated`, `Parser.collect` — loops, whose number of rounds is bounded
  by the number of tokens left.
* `Parser.exhaust` — marks the state when a bound was used up before the loop ended by itself.
-/

namespace FrameBasic

namespace Parser

/-- What is read: the tokens without comments, and the command table. -/
structure Input where
  /-- The tokens. -/
  tokens : Array Token
  /-- The builtin commands. -/
  commands : CommandTable
deriving Inhabited

/-- What changes while reading. -/
structure State where
  /-- The number of tokens that were read. -/
  cursor : Nat := 0
  /-- The recorded errors, oldest first. -/
  errors : List ParseError := []
  /-- The names declared so far. -/
  scopes : Scopes := .empty
  /-- The number of blocks around the current statement. -/
  depth : Nat := 0
  /-- Whether the bound of a loop or of the nesting was used up. -/
  exhausted : Bool := false
deriving Inhabited

namespace Input

/-- The kind of the token at an index; past the last token the input has ended. -/
def kind (input : Input) (i : Nat) : Kind :=
  match input.tokens[i]? with
  | some token => token.kind
  | none => .eof

/-- The index after a token.  The end of the input is never passed. -/
def after (input : Input) (i : Nat) : Nat :=
  if input.kind i = .eof then i else i + 1

/-- The number of tokens from an index on. -/
def left (input : Input) (i : Nat) : Nat :=
  input.tokens.size - i

/-- The first of the next `count` indices at which the condition fails. -/
def skipWhileUpTo (input : Input) (p : Kind → Bool) : Nat → Nat → Nat
  | 0, i => i
  | count + 1, i => if p (input.kind i) then input.skipWhileUpTo p count (i + 1) else i

/-- The first index from `i` on at which the condition fails, which has to fail at the end of the
input. -/
def skipWhile (input : Input) (p : Kind → Bool) (i : Nat) : Nat :=
  input.skipWhileUpTo p (input.left i) i

/-- Whether reading may go on at a token of the kind, when it is not the first one looked at. -/
def isRecoveryPoint : Kind → Bool
  | .newline | .colon | .eof => true
  | .keyword word => word.startsStatement
  | _ => false

/-- Where to go on after a statement that could not be read: past the next line feed or colon, or at
a word that begins or closes a statement.  At least one token is passed, if there is one. -/
def recover (input : Input) (i : Nat) : Nat :=
  let stop :=
    if input.kind i = .eof ∨ (input.kind i).isSeparator = true then i
    else input.skipWhile (fun kind => !isRecoveryPoint kind) (i + 1)
  if (input.kind stop).isSeparator then stop + 1 else stop

/-- The place of the token at an index, or of the last one. -/
def spanAt (input : Input) (i : Nat) : Span :=
  match input.tokens[i]?.or input.tokens.back? with
  | some token => token.span
  | none => .unknown

/-- The place from one token up to the token before `stop`. -/
def spanFrom (input : Input) (start stop : Nat) : Span :=
  match input.tokens[start]? with
  | none => input.spanAt stop
  | some first =>
    let last := if start < stop then (input.tokens[stop - 1]?).getD first else first
    { first.span with stop := last.span.stop }

/-- Whether the token at an index closes a block with the closer. -/
def closesWith (input : Input) (i : Nat) : Closer → Bool
  | .word w => input.kind i = .keyword w
  | .endOf w => input.kind i = .keyword .end_ && input.kind (i + 1) = .keyword w

/-- Whether the token at an index closes a block of any kind. -/
def closesAny (input : Input) (i : Nat) : Bool :=
  Closer.all.any (input.closesWith i)

end Input

end Parser

/-- A reader gives a result and changes the state. -/
abbrev Parser (α : Type) := ReaderT Parser.Input (StateM Parser.State) α

namespace Parser

/-- The number of tokens that were read. -/
def cursor : Parser Nat := do
  return (← get).cursor

/-- Goes to another token. -/
def moveTo (i : Nat) : Parser Unit :=
  modify fun s => { s with cursor := i }

/-- The current token. -/
def peek? : Parser (Option Token) := do
  return (← read).tokens[← cursor]?

/-- The kind of the current token. -/
def kind : Parser Kind := do
  return (← read).kind (← cursor)

/-- The kind of the token `n` places further. -/
def kindAhead (n : Nat) : Parser Kind := do
  return (← read).kind ((← cursor) + n)

/-- Whether the current token is of a kind. -/
def check (wanted : Kind) : Parser Bool := do
  return (← kind) = wanted

/-- Whether the current token is a reserved word. -/
def checkWord (word : Keyword) : Parser Bool :=
  check (.keyword word)

/-- Passes the current token. -/
def advance : Parser Unit := do
  moveTo ((← read).after (← cursor))

/-- Passes the current token if nothing was read since an index. -/
def passFrom (start : Nat) : Parser Unit := do
  if (← cursor) = start then
    advance

/-- Passes the current token and gives its text. -/
def takeText : Parser String := do
  let token ← peek?
  advance
  return (token.map Token.text).getD ""

/-- Passes the current token if it is of a kind. -/
def accept (wanted : Kind) : Parser Bool := do
  if ← check wanted then
    advance
    return true
  else
    return false

/-- Passes the current token if it is a reserved word. -/
def acceptWord (word : Keyword) : Parser Bool :=
  accept (.keyword word)

/-- Goes on while the condition holds of the current token. -/
def skipWhile (p : Kind → Bool) : Parser Unit := do
  moveTo ((← read).skipWhile p (← cursor))

/-- Passes line feeds and colons. -/
def skipSeparators : Parser Unit :=
  skipWhile Kind.isSeparator

/-- Passes what is left of a statement that could not be read. -/
def recover : Parser Unit := do
  moveTo ((← read).recover (← cursor))

/-- The place of the current token. -/
def currentSpan : Parser Span := do
  return (← read).spanAt (← cursor)

/-- The place from a token up to the last one that was read. -/
def spanFrom (start : Nat) : Parser Span := do
  return (← read).spanFrom start (← cursor)

/-- Records a fault. -/
def report (fault : Fault) (span : Span) : Parser Unit :=
  modify fun s => { s with errors := s.errors ++ [⟨fault, span⟩] }

/-- Records that something else was wanted at the current token. -/
def reportExpected (expected : Expected) : Parser Unit := do
  let span ← currentSpan
  match ← peek? with
  | some token =>
    if token.kind = .eof then report (.endOfInput expected) span
    else report (.unexpected expected token) span
  | none => report (.endOfInput expected) span

/-- Passes a token of a kind, or records that it was wanted. -/
def expect (wanted : Kind) (expected : Expected) : Parser (Option Token) := do
  match ← peek? with
  | some token =>
    if token.kind = wanted then
      advance
      return some token
    else
      reportExpected expected
      return none
  | none =>
    reportExpected expected
    return none

/-- Passes an identifier, or records that it was wanted. -/
def expectName (expected : Expected) : Parser (Option Token) :=
  expect .identifier expected

/-- Whether the current token ends a statement. -/
def atStatementEnd : Parser Bool := do
  return (← kind).isTerminator

/-- Whether the input has ended. -/
def atEnd : Parser Bool :=
  check .eof

/-- Whether the current token closes a block with the closer. -/
def atCloser (closer : Closer) : Parser Bool := do
  return (← read).closesWith (← cursor) closer

/-- Whether the current token closes a block of any kind. -/
def atAnyCloser : Parser Bool := do
  return (← read).closesAny (← cursor)

/-- Passes a closer if it stands here. -/
def acceptCloser (closer : Closer) : Parser Bool := do
  if ← atCloser closer then
    match closer with
    | .word _ => advance
    | .endOf _ => do
      advance
      advance
    return true
  else
    return false

/-- The statement that was read has to end here; otherwise the rest is recorded once and passed.  A
closer may follow directly, when an inner block was not closed. -/
def finishStatement : Parser Unit := do
  unless (← atStatementEnd) || (← atAnyCloser) do
    reportExpected .statementEnd
    recover

/-- What is needed to take back what was read and recorded. -/
structure Mark where
  /-- The number of tokens that were read. -/
  cursor : Nat
  /-- The number of recorded errors. -/
  errors : Nat

/-- Remembers where the reader stands. -/
def mark : Parser Mark := do
  let s ← get
  return ⟨s.cursor, s.errors.length⟩

/-- Takes back what was read and recorded since. -/
def rewind (m : Mark) : Parser Unit :=
  modify fun s => { s with cursor := m.cursor, errors := s.errors.take m.errors }

/-- What a name stands for. -/
def lookup? (name : String) : Parser (Option Symbol) := do
  return (← get).scopes.lookup? name

/-- Changes the declared names. -/
def modifyScopes (f : Scopes → Scopes) : Parser Unit :=
  modify fun s => { s with scopes := f s.scopes }

/-- Declares a symbol in the innermost scope. -/
def define (symbol : Symbol) : Parser Unit :=
  modifyScopes (·.define symbol)

/-- Declares a symbol in the global scope. -/
def defineGlobal (symbol : Symbol) : Parser Unit :=
  modifyScopes (·.defineGlobal symbol)

/-- Reads something inside a block. -/
def inBlock {α : Type} (p : Parser α) : Parser α := do
  modify fun s => { s with depth := s.depth + 1 }
  let result ← p
  modify fun s => { s with depth := s.depth - 1 }
  return result

/-- Marks that a bound was used up before the reader ended by itself. -/
def exhaust : Parser Unit :=
  modify fun s => { s with exhausted := true }

/-- Runs a loop that may take as many rounds as there are tokens left, and one more. -/
def bounded {α : Type} (loop : Nat → Parser α) : Parser α := do
  loop ((← read).left (← cursor) + 1)

/-- Items with commas between them. -/
def separated {α : Type} (item : Parser α) : Nat → Parser (List α)
  | 0 => do
    exhaust
    return []
  | rounds + 1 => do
    let first ← item
    if ← accept .comma then
      return first :: (← separated item rounds)
    else
      return [first]

/-- Items with commas between them, up to one that cannot be read; and whether all were read. -/
def collect {α : Type} (item : Parser (Option α)) : Nat → Parser (List α × Bool)
  | 0 => do
    exhaust
    return ([], true)
  | rounds + 1 => do
    let some first ← item | return ([], false)
    if ← accept .comma then
      let rest ← collect item rounds
      return (first :: rest.1, rest.2)
    else
      return ([first], true)

end Parser

end FrameBasic
