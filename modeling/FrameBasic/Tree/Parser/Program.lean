import FrameBasic.Tree.Parser.Block

/-!
# Reading programs

Functions and types are known before their declarations are reached, so that a call may stand above
the function.

## Main definitions

* `Parser.foretold` — the functions and types that a list of tokens declares.
* `Parser.statementAt` — a statement; the first argument bounds the nesting.
* `Parsed` — a program with the recorded errors and the names that it declares.
* `Program.parse` — the program that a list of tokens spells.
-/

namespace FrameBasic

namespace Parser

/-- The function or type that a token and those after it declare. -/
def foretoldAt (before : Option Token) (token : Token) (rest : List Token) : Option Symbol :=
  match rest with
  | [] => none
  | name :: more =>
    let closes := before.any fun b => b.kind = .keyword .end_
    if name.kind = .identifier ∧ closes = false then
      match token.kind with
      | .keyword .function =>
        let tagged := more.head?.any fun t =>
          t.kind = .label && t.span.start = name.span.stop
        let returns := if tagged then .object else (Name.markedType? name.text).getD .number
        some (.function name.text returns [])
      | .keyword .type => some (.userType name.text [])
      | _ => none
    else none

/-- The functions and types that a list of tokens declares, in order. -/
def foretold (before : Option Token) : List Token → List Symbol
  | [] => []
  | token :: rest => (foretoldAt before token rest).toList ++ foretold (some token) rest

/-- A statement that begins with a reserved word. -/
def wordStmt (stmt : Parser (Option Stmt)) (token : Token) : Keyword → Parser (Option Stmt)
  | .if_ => ifStmt stmt
  | .while_ => whileStmt stmt
  | .repeat_ => repeatStmt stmt
  | .for_ => forStmt stmt
  | .select => selectStmt stmt
  | .function => functionStmt stmt
  | .type => typeStmt
  | .local_ => declareStmt .inner
  | .global => declareStmt .global
  | .dim => dimStmt
  | .const => constStmt
  | .return_ => returnStmt
  | .exit => exitStmt
  | .end_ => endStmt
  | .goto => jumpStmt .goto
  | .gosub => jumpStmt .gosub
  | .data => dataStmt
  | .read => readStmt
  | .restore => restoreStmt
  | .delete => deleteStmt
  | .insert => insertStmt
  | _ => do
    report (.badStatement token) token.span
    return none

/-- A statement, when `stmt` reads the statements inside it. -/
def statementWith (stmt : Parser (Option Stmt)) : Parser (Option Stmt) := do
  let some token ← peek? |
    reportExpected .statement
    return none
  match token.kind with
  | .identifier => nameStmt
  | .command => commandStmt
  | .label => labelStmt token
  | .keyword word => wordStmt stmt token word
  | _ => do
    report (.badStatement token) token.span
    return none

/-- A statement.  The first argument bounds the nesting: an inner statement always starts after at
least one token of the outer one. -/
def statementAt : Nat → Parser (Option Stmt)
  | 0 => do
    exhaust
    return none
  | nesting + 1 => statementWith (statementAt nesting)

/-- A statement. -/
def statement : Parser (Option Stmt) :=
  bounded statementAt

/-- The statements up to the end of the input. -/
def programLoop (stmt : Parser (Option Stmt)) : Nat → Parser (List Stmt)
  | 0 => do
    exhaust
    return []
  | rounds + 1 => do
    skipSeparators
    if ← atEnd then
      return []
    else do
      let first ← round finishOrRecover stmt
      let rest ← programLoop stmt rounds
      return first.toList ++ rest

/-- What is read: the tokens without comments. -/
def Input.ofTokens (commands : CommandTable) (tokens : List Token) : Input :=
  ⟨(tokens.filter fun token => token.kind ≠ .comment).toArray, commands⟩

/-- The functions and types that the tokens declare. -/
def Input.foretold (input : Input) : List Symbol :=
  Parser.foretold none input.tokens.toList

/-- Nothing is read, and the functions and types of the program are known. -/
def State.initial (input : Input) : State :=
  { scopes := input.foretold.foldl Scopes.defineGlobal .empty }

/-- Reads all statements, and gives what the reader holds afterwards. -/
def readAll (input : Input) : List Stmt × State :=
  ((bounded (programLoop statement)).run input).run (.initial input)

end Parser

/-- A program with what was found while reading it. -/
structure Parsed where
  /-- The program. -/
  program : Program
  /-- The functions and types that were known beforehand. -/
  foretold : List Symbol
  /-- The recorded errors, oldest first. -/
  errors : List ParseError
  /-- The names that the program declares. -/
  scopes : Scopes
  /-- Whether all tokens were read. -/
  finished : Bool
deriving Inhabited

/-- The program that a list of tokens spells. -/
def Program.parse (commands : CommandTable) (tokens : List Token) : Parsed :=
  let input := Parser.Input.ofTokens commands tokens
  let (stmts, final) := Parser.readAll input
  { program := ⟨stmts⟩
    foretold := input.foretold
    errors := final.errors
    scopes := final.scopes
    finished := input.kind final.cursor = .eof }

end FrameBasic
