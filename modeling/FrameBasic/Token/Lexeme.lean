import FrameBasic.Text.Letters
import FrameBasic.Token.Basic

/-!
# Lexemes

Every shape of lexeme is a function that gives the length of its longest match at the start of a
text.  `longest?` compares the shapes and takes the longest match; no two shapes match the same
stretch, so their order does not matter.

## Main definitions

* `Shape` — the shapes of lexemes.
* `Shape.matchLength` — the length of a shape's longest match.
* `longest?` — the shape and length of the longest lexeme at the start of a text.
* `stretches` — a text cut into lexemes and characters that begin none.
-/

namespace FrameBasic

/-- The shapes of lexemes. -/
inductive Shape where
  /-- Spaces, tabs and carriage returns. -/
  | blank
  /-- A semicolon and the rest of the line. -/
  | comment
  /-- Decimal digits. -/
  | integer
  /-- Digits with a point or an exponent. -/
  | float
  /-- A dollar sign and hexadecimal digits. -/
  | hex
  /-- A quote, text, and a closing quote if the line has one. -/
  | string
  /-- A word with an optional type marker. -/
  | word
  /-- A point and a word. -/
  | label
  /-- A mark of one or two characters. -/
  | mark (kind : Kind)
deriving DecidableEq, Repr, Inhabited

/-- The number of characters at the start of the text that satisfy `p`. -/
def runLength (p : Char → Bool) (cs : List Char) : Nat :=
  (cs.takeWhile p).length

/-- The length of an exponent at the start of a text: a letter, an optional sign and digits. -/
def exponentLength (cs : List Char) : Nat :=
  match cs with
  | c :: rest =>
    if c = 'e' ∨ c = 'E' then
      match rest with
      | sign :: digits =>
        if sign = '+' ∨ sign = '-' then
          if runLength Char.isDigit digits = 0 then 0 else 2 + runLength Char.isDigit digits
        else
          if runLength Char.isDigit rest = 0 then 0 else 1 + runLength Char.isDigit rest
      | [] => 0
    else 0
  | [] => 0

/-- The length of a number with a point or an exponent, zero if there is none. -/
def floatLength (cs : List Char) : Nat :=
  let whole := runLength Char.isDigit cs
  match cs.drop whole with
  | '.' :: after =>
    let places := runLength Char.isDigit after
    if places = 0 then 0 else whole + 1 + places + exponentLength (after.drop places)
  | rest =>
    if whole = 0 ∨ exponentLength rest = 0 then 0 else whole + exponentLength rest

/-- The length of a string, with its closing quote if it has one. -/
def stringLength (cs : List Char) : Nat :=
  match cs with
  | '"' :: rest =>
    let inside := runLength (fun c => c != '"' && c != '\n') rest
    match rest.drop inside with
    | '"' :: _ => inside + 2
    | _ => inside + 1
  | _ => 0

/-- The length of a word with its type marker. -/
def wordLength (cs : List Char) : Nat :=
  match cs with
  | c :: rest =>
    if Text.isWordStart c then
      let inside := runLength Text.isWordPart rest
      match rest.drop inside with
      | marker :: _ => if marker = '%' ∨ marker = '#' ∨ marker = '$' then inside + 2 else inside + 1
      | [] => inside + 1
    else 0
  | [] => 0

/-- The length of a label. -/
def labelLength (cs : List Char) : Nat :=
  match cs with
  | '.' :: c :: rest => if Text.isWordStart c then 2 + runLength Text.isWordPart rest else 0
  | _ => 0

/-- The characters of a mark. -/
def markText (kind : Kind) : List Char :=
  match kind with
  | .newline => ['\n']
  | .colon => [':']
  | .notEquals => ['<', '>']
  | .lessEquals => ['<', '=']
  | .greaterEquals => ['>', '=']
  | .range => ['.', '.']
  | .plus => ['+']
  | .minus => ['-']
  | .star => ['*']
  | .slash => ['/']
  | .caret => ['^']
  | .equals => ['=']
  | .lessThan => ['<']
  | .greaterThan => ['>']
  | .leftParen => ['(']
  | .rightParen => [')']
  | .comma => [',']
  | .backslash => ['\\']
  | _ => []

/-- The kinds that are written as marks. -/
def marks : List Kind :=
  [ .newline, .colon, .notEquals, .lessEquals, .greaterEquals, .range, .plus, .minus, .star,
    .slash, .caret, .equals, .lessThan, .greaterThan, .leftParen, .rightParen, .comma, .backslash ]

namespace Shape

/-- A character between lexemes. -/
def isBlank (c : Char) : Bool :=
  c == ' ' || c == '\t' || c == '\r'

/-- The length of the longest match of a shape at the start of a text, zero if it does not match. -/
def matchLength (shape : Shape) (cs : List Char) : Nat :=
  match shape with
  | .blank => runLength isBlank cs
  | .comment =>
    match cs with
    | ';' :: rest => 1 + runLength (· != '\n') rest
    | _ => 0
  | .integer => runLength Char.isDigit cs
  | .float => floatLength cs
  | .hex =>
    match cs with
    | '$' :: rest =>
      if runLength Text.isHexDigit rest = 0 then 0 else 1 + runLength Text.isHexDigit rest
    | _ => 0
  | .string => stringLength cs
  | .word => wordLength cs
  | .label => labelLength cs
  | .mark kind =>
    if (markText kind).isPrefixOf cs then (markText kind).length else 0

/-- Every shape. -/
def all : List Shape :=
  [.blank, .comment, .integer, .float, .hex, .string, .word, .label] ++ marks.map .mark

end Shape

/-- The better of two matches: the longer one, the first if they are equally long. -/
def betterMatch (a b : Option (Shape × Nat)) : Option (Shape × Nat) :=
  match a, b with
  | none, b => b
  | a, none => a
  | some x, some y => if x.2 < y.2 then some y else some x

/-- The longest lexeme at the start of a text, as its shape and length. -/
def longest? (cs : List Char) : Option (Shape × Nat) :=
  Shape.all.foldl
    (fun best shape =>
      let n := shape.matchLength cs
      betterMatch best (if n = 0 then none else some (shape, n)))
    none

/-- A stretch of the source. -/
inductive Stretch where
  /-- A lexeme with its characters. -/
  | lexeme (shape : Shape) (text : List Char)
  /-- A character that begins no lexeme. -/
  | stray (c : Char)
deriving DecidableEq, Repr, Inhabited

/-- The characters of a stretch. -/
def Stretch.text : Stretch → List Char
  | .lexeme _ text => text
  | .stray c => [c]

/-- A text cut into lexemes and stray characters. -/
def stretches (cs : List Char) : List Stretch :=
  match cs with
  | [] => []
  | c :: rest =>
    match longest? (c :: rest) with
    | none => .stray c :: stretches rest
    | some (shape, n) => .lexeme shape (c :: rest.take (n - 1)) :: stretches (rest.drop (n - 1))
termination_by cs.length
decreasing_by
  all_goals simp; try omega

/-- The stretches of a text make up the text. -/
theorem flatMap_text_stretches (cs : List Char) : (stretches cs).flatMap Stretch.text = cs := by
  fun_induction stretches cs with
  | case1 => rfl
  | case2 c rest _ ih => simp [Stretch.text, ih]
  | case3 c rest shape n _ ih => simp [Stretch.text, ih]

end FrameBasic
