import FrameBasic.Text.Letters
import FrameBasic.Text.Hidden

/-!
# Texts as they are shown

A text inside a listing stands between double quotes.  Quotes and backslashes are escaped, the
common control characters have short names, and every other hidden character is spelt by its code
point between braces.

## Main definitions

* `Text.showChar c` — one character of a shown text.
* `Text.shown s` — the whole text with its quotes.
-/

namespace FrameBasic.Text

/-- One character of a shown text. -/
def showChar (c : Char) : List Char :=
  match c with
  | '\t' => ['\\', 't']
  | '\r' => ['\\', 'r']
  | '\n' => ['\\', 'n']
  | '\\' => ['\\', '\\']
  | '"' => ['\\', '"']
  | _ =>
    if c.toNat = 0 then ['\\', '0']
    else if c.toNat < 0x7F && 0x20 ≤ c.toNat then [c]
    else if isHidden c then ['\\', 'u', '\x7b'] ++ hexDigits c.toNat ++ ['\x7d']
    else [c]

/-- The text between double quotes, with its special characters escaped. -/
def shown (s : String) : String :=
  String.ofList ('"' :: s.toList.flatMap showChar ++ ['"'])

end FrameBasic.Text
