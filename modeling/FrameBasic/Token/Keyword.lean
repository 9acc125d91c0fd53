import FrameBasic.Text.Letters

/-!
# Keywords

The reserved words of the language.  A word is a keyword in any case of its letters; messages show
the canonical spelling.

## Main definitions

* `Keyword` — the fifty-one reserved words.
* `Keyword.spelling` — the canonical spelling.
* `Keyword.find?` — the keyword that a word spells.
-/

namespace FrameBasic

/-- A reserved word.  A name that the host language reserves carries an underscore. -/
inductive Keyword where
  -- control flow
  | if_ | then_ | else_ | elseIf | endIf | end_ | while_ | wend | repeat_ | until_ | forever
  | for_ | to | step | next | each | select | case | default | goto | gosub | exit | return_
  -- declarations
  | function | type | field | global | local_ | dim | const
  -- the data pool
  | data | read | restore
  -- operators
  | and | or | not | xor | mod | shl | shr | sar
  -- object lists
  | new | delete | first | last | before | after | insert
  -- constants
  | null | true_ | false_
deriving DecidableEq, Repr, Inhabited

namespace Keyword

/-- Every keyword. -/
def all : List Keyword :=
  [ .if_, .then_, .else_, .elseIf, .endIf, .end_, .while_, .wend, .repeat_, .until_, .forever,
    .for_, .to, .step, .next, .each, .select, .case, .default, .goto, .gosub, .exit, .return_,
    .function, .type, .field, .global, .local_, .dim, .const, .data, .read, .restore,
    .and, .or, .not, .xor, .mod, .shl, .shr, .sar,
    .new, .delete, .first, .last, .before, .after, .insert, .null, .true_, .false_ ]

/-- The canonical spelling. -/
def spelling : Keyword → String
  | .if_ => "If"
  | .then_ => "Then"
  | .else_ => "Else"
  | .elseIf => "ElseIf"
  | .endIf => "EndIf"
  | .end_ => "End"
  | .while_ => "While"
  | .wend => "Wend"
  | .repeat_ => "Repeat"
  | .until_ => "Until"
  | .forever => "Forever"
  | .for_ => "For"
  | .to => "To"
  | .step => "Step"
  | .next => "Next"
  | .each => "Each"
  | .select => "Select"
  | .case => "Case"
  | .default => "Default"
  | .goto => "Goto"
  | .gosub => "Gosub"
  | .exit => "Exit"
  | .return_ => "Return"
  | .function => "Function"
  | .type => "Type"
  | .field => "Field"
  | .global => "Global"
  | .local_ => "Local"
  | .dim => "Dim"
  | .const => "Const"
  | .data => "Data"
  | .read => "Read"
  | .restore => "Restore"
  | .and => "And"
  | .or => "Or"
  | .not => "Not"
  | .xor => "Xor"
  | .mod => "Mod"
  | .shl => "Shl"
  | .shr => "Shr"
  | .sar => "Sar"
  | .new => "New"
  | .delete => "Delete"
  | .first => "First"
  | .last => "Last"
  | .before => "Before"
  | .after => "After"
  | .insert => "Insert"
  | .null => "Null"
  | .true_ => "True"
  | .false_ => "False"

/-- The keyword that a word spells, in any case of its letters. -/
def find? (word : String) : Option Keyword :=
  all.find? fun keyword => Text.sameLetters keyword.spelling word

/-- Whether the keyword begins or closes a statement, so that reading can go on there after a
fault. -/
def startsStatement : Keyword → Bool
  | .if_ | .elseIf | .else_ | .endIf | .end_ | .while_ | .wend | .repeat_ | .until_ | .forever
  | .for_ | .next | .select | .case | .default | .function | .type | .field | .global | .local_
  | .dim | .const | .return_ | .exit | .goto | .gosub | .data | .read | .restore | .delete
  | .insert => true
  | _ => false

/-- The list of all keywords leaves none out. -/
theorem mem_all (keyword : Keyword) : keyword ∈ all := by
  cases keyword <;> decide

end Keyword

end FrameBasic
