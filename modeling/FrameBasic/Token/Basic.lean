import FrameBasic.Source.Span
import FrameBasic.Token.Keyword

/-!
# Tokens

A token is a kind, a text and the stretch of the source it was read from.  The texts of keywords and
commands are in small letters, a string's text is what stands between its quotes, and an identifier
keeps its spelling with the type marker.

## Main definitions

* `Kind` — the kinds of token, with their names and classes.
* `Token` — a token.
* `Token.describe` — a token as messages name it.
-/

namespace FrameBasic

/-- The kinds of token. -/
inductive Kind where
  /-- A line feed, which ends a statement. -/
  | newline
  /-- A colon, which separates statements on a line. -/
  | colon
  /-- A comment. -/
  | comment
  /-- Decimal digits. -/
  | integer
  /-- A number with a point or an exponent. -/
  | float
  /-- A dollar sign and hexadecimal digits. -/
  | hex
  /-- A text in quotes. -/
  | string
  /-- A name of the program. -/
  | identifier
  /-- A reserved word. -/
  | keyword (word : Keyword)
  /-- A builtin command. -/
  | command
  /-- A point and a name. -/
  | label
  | plus | minus | star | slash | caret
  | equals | notEquals | lessThan | greaterThan | lessEquals | greaterEquals
  /-- Two points. -/
  | range
  | leftParen | rightParen | comma
  /-- A backslash, which leads to a field. -/
  | backslash
  /-- The end of the input. -/
  | eof
deriving DecidableEq, Repr, Inhabited

namespace Kind

/-- Whether a token of the kind ends a statement. -/
def isTerminator : Kind → Bool
  | .newline | .colon | .eof => true
  | _ => false

/-- Whether a token of the kind separates statements. -/
def isSeparator : Kind → Bool
  | .newline | .colon => true
  | _ => false

/-- Whether the kind is one of the numbers. -/
def isNumber : Kind → Bool
  | .integer | .float | .hex => true
  | _ => false

/-- Whether the kind is an operator or a punctuation mark. -/
def isOperator : Kind → Bool
  | .plus | .minus | .star | .slash | .caret | .equals | .notEquals | .lessThan | .greaterThan
  | .lessEquals | .greaterEquals | .range | .leftParen | .rightParen | .comma | .colon
  | .backslash => true
  | _ => false

/-- What a reader calls the kind. -/
def describe : Kind → String
  | .newline => "end of line"
  | .colon => ":"
  | .comment => "comment"
  | .integer | .float | .hex => "number"
  | .string => "string"
  | .identifier => "identifier"
  | .keyword word => word.spelling
  | .command => "command"
  | .label => "label"
  | .plus => "+"
  | .minus => "-"
  | .star => "*"
  | .slash => "/"
  | .caret => "^"
  | .equals => "="
  | .notEquals => "<>"
  | .lessThan => "<"
  | .greaterThan => ">"
  | .lessEquals => "<="
  | .greaterEquals => ">="
  | .range => ".."
  | .leftParen => "("
  | .rightParen => ")"
  | .comma => ","
  | .backslash => "\\"
  | .eof => "end of input"

/-- The name of the kind in listings. -/
def name : Kind → String
  | .newline => "Newline"
  | .colon => "Colon"
  | .comment => "Comment"
  | .integer => "IntegerLiteral"
  | .float => "FloatLiteral"
  | .hex => "HexLiteral"
  | .string => "StringLiteral"
  | .identifier => "Identifier"
  | .keyword word => "Keyword(" ++ word.spelling ++ ")"
  | .command => "Command"
  | .label => "Label"
  | .plus => "Plus"
  | .minus => "Minus"
  | .star => "Star"
  | .slash => "Slash"
  | .caret => "Caret"
  | .equals => "Equals"
  | .notEquals => "NotEquals"
  | .lessThan => "LessThan"
  | .greaterThan => "GreaterThan"
  | .lessEquals => "LessEquals"
  | .greaterEquals => "GreaterEquals"
  | .range => "Range"
  | .leftParen => "LeftParen"
  | .rightParen => "RightParen"
  | .comma => "Comma"
  | .backslash => "Backslash"
  | .eof => "Eof"

/-- Every kind. -/
def all : List Kind :=
  [ .newline, .colon, .comment, .integer, .float, .hex, .string, .identifier, .command, .label,
    .plus, .minus, .star, .slash, .caret, .equals, .notEquals, .lessThan, .greaterThan,
    .lessEquals, .greaterEquals, .range, .leftParen, .rightParen, .comma, .backslash, .eof ]
    ++ Keyword.all.map .keyword

/-- The kind of a name in listings. -/
def ofName? (name : String) : Option Kind :=
  all.find? fun kind => kind.name == name

end Kind

/-- A token with its place. -/
structure Token where
  /-- The kind. -/
  kind : Kind
  /-- The text. -/
  text : String
  /-- The stretch of the source it was read from. -/
  span : Span
deriving DecidableEq, Repr, Inhabited

/-- The token as messages name it. -/
def Token.describe (token : Token) : String :=
  match token.kind with
  | .newline => "end of line"
  | .eof => "end of input"
  | .string => "string \"" ++ token.text ++ "\""
  | .keyword word => "`" ++ word.spelling ++ "`"
  | _ => "`" ++ token.text ++ "`"

end FrameBasic
