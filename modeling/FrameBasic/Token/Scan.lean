import FrameBasic.Command.Table
import FrameBasic.Source.LineIndex
import FrameBasic.Token.Lexeme

/-!
# From text to tokens

The lexemes of a text become tokens with their places.  A string without its closing quote and a
character that begins no lexeme are recorded, and reading goes on.

## Main definitions

* `LexicalFault`, `LexicalError` — what can be wrong in a text, and where.
* `classify` — kind and text of a lexeme.
* `Event` — a token or an error, in the order in which they are met; `events` lists them.
* `tokens`, `lexicalErrors` — the tokens and the errors of a text.
* `pulls` — what is known after each of a number of requests for the next token.
-/

namespace FrameBasic

/-- What can be wrong in a text. -/
inductive LexicalFault where
  /-- A string has no closing quote on its line. -/
  | unterminatedString
  /-- A character begins no lexeme. -/
  | strayCharacter (c : Char)
deriving DecidableEq, Repr, Inhabited

/-- The wording of a fault. -/
def LexicalFault.message : LexicalFault → String
  | .unterminatedString => "unterminated string literal"
  | .strayCharacter c => "unexpected character `" ++ String.singleton c ++ "`"

/-- A fault with its place. -/
structure LexicalError where
  /-- What is wrong. -/
  fault : LexicalFault
  /-- Where it is. -/
  span : Span
deriving DecidableEq, Repr, Inhabited

/-- The kind and text of a word: a keyword before a command before an identifier.  A word with a
type marker is no keyword. -/
def classifyWord (commands : CommandTable) (word : String) : Kind × String :=
  let parts := Name.split word
  let keyword := if parts.2.isNone then Keyword.find? word else none
  match keyword with
  | some keyword => (.keyword keyword, Text.lower word)
  | none =>
    let folded := Text.lower parts.1
    if commands.contains folded then (.command, folded) else (.identifier, word)

/-- Whether the lexeme of a string has its closing quote. -/
def isClosed (text : List Char) : Bool :=
  2 ≤ text.length && text.getLast? == some '"'

/-- The text inside the quotes of a string. -/
def unquote (text : List Char) : List Char :=
  if isClosed text then text.tail.dropLast else text.tail

/-- The kind and text of a lexeme; blanks have none. -/
def classify (commands : CommandTable) (shape : Shape) (text : List Char) :
    Option (Kind × String) :=
  match shape with
  | .blank => none
  | .comment => some (.comment, String.ofList text.tail)
  | .integer => some (.integer, String.ofList text)
  | .float => some (.float, String.ofList text)
  | .hex => some (.hex, String.ofList text)
  | .string => some (.string, String.ofList (unquote text))
  | .word => some (classifyWord commands (String.ofList text))
  | .label => some (.label, String.ofList text.tail)
  | .mark kind => some (kind, String.ofList text)

/-- What is met while reading a text. -/
inductive Event where
  | token (token : Token)
  | error (error : LexicalError)
deriving DecidableEq, Repr, Inhabited

/-- What a stretch of the source from one place to another gives. -/
def Stretch.events (commands : CommandTable) (first last : Position) : Stretch → List Event
  | .stray c => [.error ⟨.strayCharacter c, .between first last⟩]
  | .lexeme shape text =>
    let fault : List Event :=
      if shape = .string ∧ isClosed text = false then
        [.error ⟨.unterminatedString, .between first last⟩]
      else []
    match classify commands shape text with
    | some (kind, text) => fault ++ [.token ⟨kind, text, .between first last⟩]
    | none => fault

/-- What the stretches give from an offset on, and the end of the input. -/
def eventsFrom (commands : CommandTable) (place : Nat → Position) (offset : Nat) :
    List Stretch → List Event
  | [] => [.token ⟨.eof, "", .between (place offset) (place offset)⟩]
  | stretch :: rest =>
    let next := offset + Text.byteLength stretch.text
    stretch.events commands (place offset) (place next) ++ eventsFrom commands place next rest

/-- Everything that is met while reading a text, in order.  Lines and columns are looked up. -/
def events (commands : CommandTable) (source : String) : List Event :=
  let text := source.toList
  eventsFrom commands ((LineIndex.ofText text).place text) 0 (stretches text)

/-- The token of an event. -/
def Event.token? : Event → Option Token
  | .token t => some t
  | .error _ => none

/-- The error of an event. -/
def Event.error? : Event → Option LexicalError
  | .token _ => none
  | .error e => some e

/-- The tokens of a text. -/
def tokens (commands : CommandTable) (source : String) : List Token :=
  (events commands source).filterMap Event.token?

/-- The lexical errors of a text. -/
def lexicalErrors (commands : CommandTable) (source : String) : List LexicalError :=
  (events commands source).filterMap Event.error?

/-- The next token, the errors before it, and what is left. -/
def nextToken : List Event → Option Token × List LexicalError × List Event
  | [] => (none, [], [])
  | .token token :: rest => (some token, [], rest)
  | .error error :: rest =>
    let next := nextToken rest
    (next.1, error :: next.2.1, next.2.2)

/-- The tokens given to `count` requests, each with all errors met up to then. -/
def pulls (known : List LexicalError) (left : List Event) :
    Nat → List (Option Token × List LexicalError)
  | 0 => []
  | count + 1 =>
    let next := nextToken left
    let known := known ++ next.2.1
    (next.1, known) :: pulls known next.2.2 count

end FrameBasic
