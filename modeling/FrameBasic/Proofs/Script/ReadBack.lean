import FrameBasic.Proofs.Reader.Program
import FrameBasic.Proofs.Script.Operand
import FrameBasic.Proofs.Script.Tokens

/-!
# Reading expressions back

The language of the script reads an expression by rules of its own.  An expression that is built
from literals, variables, fields and operators is compared with what is read there: it should be the
same operators over the same operands.

This holds but for three combinations.  A whole number may be negative, because a hexadecimal
literal wraps around, and is written without parentheses: a minus before it is taken for a step, and
it cannot be raised to a power.  And a point behind the digits of a number is taken for its own.

## Main definitions

* `Expr.isPlain` — the node is a literal, a variable, a field, or an operation.
* `Expr.term` — the expression in the language of the script.
* `Expr.slips`, `Expr.signsPower` — the combinations that are not read back: a text that is cut
  otherwise, and a power of something with a sign; `Expr.clashes` is one of the two.

## Main results

* `Script.cuts_exprText`, `Script.spoils_exprText` — how the text of an expression is cut.
* `Script.operand_written`, `Script.refused_written` — how its lexemes are read.
* `Script.read_exprText_iff` — **an expression is read back as what it is, unless one of the
  combinations stands in it**.
-/

namespace FrameBasic

open Script (identifier operator sign quoted exprCode)
open Script.Grammar

namespace Expr

/-! ### Expressions and what they become -/

/-- The node is a literal, a variable, a field, or an operation. -/
def isPlain : Expr → Bool
  | .integer .. | .float .. | .string .. | .boolean .. | .null .. | .var .. | .field ..
  | .grouped .. | .unary .. | .binary .. => true
  | _ => false

/-- A whole number in the script: a sign and digits. -/
def wholeTerm (n : Int) : Term :=
  let digits := .leaf (.number (Nat.toDigits 10 n.natAbs))
  if n < 0 then .signed ['-'] digits else digits

/-- The expression in the language of the script, without parentheses.  What is not plain has no
meaning here. -/
def term : Expr → Term
  | .integer _ n => wholeTerm n
  | .float _ x => .leaf (.number (Script.float x).toList)
  | .string _ s => .leaf (.text s.toList)
  | .boolean _ b => .leaf (.word (if b then "true" else "false"))
  | .null _ => .leaf (.word "null")
  | .var _ name _ => .leaf (.word (identifier name))
  | .field _ object name => .field object.term (identifier name)
  | .grouped _ inner => inner.term
  | .unary _ op operand => .signed (sign op).toList operand.term
  | .binary _ left op right => .binary left.term (operator op).toList right.term
  | _ => .leaf (.word "")

/-- The node is written with digits only, and perhaps a sign. -/
def isNumeral : Expr → Bool
  | .integer .. => true
  | .float _ x => (Script.float x).toList.all Char.isDigit
  | _ => false

/-- The node is a number below zero. -/
def isNegative : Expr → Bool
  | .integer _ n => n < 0
  | _ => false

/-- A minus before a negative number, or a field of a number. -/
def slips : Expr → Bool
  | .unary _ .negate operand => operand.isNegative
  | .field _ object _ => object.isNumeral
  | _ => false

/-- A power of a negative number. -/
def signsPower : Expr → Bool
  | .binary _ left .power _ => left.isNegative
  | _ => false

/-- The node is not read back as what it is. -/
def clashes (e : Expr) : Bool :=
  e.slips || e.signsPower

/-- Names are words, and numbers with a fraction have no sign. -/
def Writable : Expr → Prop
  | .float _ x => x.Unsigned
  | .var _ name _ | .field _ _ name => IsWord (Name.base name).toList
  | _ => True

/-- The condition holds of an expression and of everything below it. -/
def Throughout (P : Expr → Prop) (e : Expr) : Prop :=
  ∀ sub ∈ e.subterms, P sub

theorem throughout_iff {P : Expr → Prop} {e : Expr} :
    e.Throughout P ↔ P e ∧ ∀ part ∈ e.parts, part.Throughout P := by
  unfold Throughout
  rw [subterms_eq, List.forall_mem_cons, List.forall_mem_flatMap]

theorem Throughout.imp {P Q : Expr → Prop} {e : Expr} (h : e.Throughout P)
    (hPQ : ∀ sub, P sub → Q sub) : e.Throughout Q :=
  fun sub hsub => hPQ sub (h sub hsub)

theorem Throughout.of_mem {P : Expr → Prop} {e sub : Expr} (h : e.Throughout P)
    (hsub : sub ∈ e.subterms) : sub.Throughout P := by
  induction e using induction_on_parts with
  | h e ih =>
    rw [subterms_eq] at hsub
    rcases List.mem_cons.mp hsub with rfl | hsub
    · exact h
    · obtain ⟨part, hpart, hsub⟩ := List.mem_flatMap.mp hsub
      exact ih part hpart ((throughout_iff.mp h).2 part hpart) hsub

theorem exists_part_of_not_throughout {P : Expr → Prop} {e : Expr} (h : ¬ e.Throughout P)
    (hown : P e) : ∃ part ∈ e.parts, ¬ part.Throughout P := by
  simpa [throughout_iff (e := e), hown] using h

/-- The node is plain, and it can be written. -/
def Sound (e : Expr) : Prop :=
  e.isPlain = true ∧ e.Writable

/-- The node is cut as it is meant. -/
def Straight (e : Expr) : Prop :=
  e.Sound ∧ e.slips = false

/-- The node is read as it is meant. -/
def Tidy (e : Expr) : Prop :=
  e.Straight ∧ e.signsPower = false

theorem Grounded.writable {commands : CommandTable} {source : String} {e : Expr}
    (h : e.Grounded (.ofTokens commands (tokens commands source))) :
    e.Throughout Writable := by
  have hmem : ∀ token ∈ (Parser.Input.ofTokens commands (tokens commands source)).tokens,
      token ∈ tokens commands source :=
    fun token htoken => (List.mem_filter.mp (List.mem_toArray.mp htoken)).1
  intro sub hsub
  have hown := h sub hsub
  cases sub with
  | float i x =>
    obtain ⟨token, htoken, hkind, hx⟩ := hown
    exact unsigned_of_mem_tokens (hmem token htoken) hkind hx
  | var i name typeName =>
    obtain ⟨token, htoken, hkind, rfl⟩ := hown
    exact isWord_base_of_mem_tokens (hmem token htoken) (.inl hkind)
  | field i object name =>
    rcases hown with ⟨token, htoken, hkind, rfl⟩ | ⟨token, htoken, hkind, rfl⟩
    · exact isWord_base_of_mem_tokens (hmem token htoken) (.inl hkind)
    · exact isWord_base_of_mem_tokens (hmem token htoken) (.inr hkind)
  | _ => trivial

/-- The lexemes of an operand.  Those of an exclusive or are in parentheses of their own. -/
def sideLexemes (op : BinaryOp) (ls : List Lexeme) : List Lexeme :=
  if op = .xor then .mark ['('] :: (ls ++ [.mark [')']]) else ls

/-- The lexemes of an expression, as it is written. -/
def written : Expr → List Lexeme
  | .integer _ n => (wholeTerm n).lexemes
  | .float _ x => [.number (Script.float x).toList]
  | .string _ s => [.text s.toList]
  | .boolean _ b => [.word (if b then "true" else "false")]
  | .null _ => [.word "null"]
  | .var _ name _ => [.word (identifier name)]
  | .field _ object name => object.written ++ [.mark ['.'], .word (identifier name)]
  | .grouped _ inner => .mark ['('] :: (inner.written ++ [.mark [')']])
  | .unary _ op operand =>
    .mark ['('] :: (.mark (sign op).toList :: operand.written ++ [.mark [')']])
  | .binary _ left op right =>
    .mark ['('] :: (sideLexemes op left.written ++ .mark (operator op).toList ::
      (sideLexemes op right.written ++ [.mark [')']]))
  | _ => []

end Expr

namespace Script

/-! ### The text of expressions -/

/-- The text of an expression. -/
def exprText (ctx : Context) (e : Expr) : List Char :=
  (Fragment.render (exprCode ctx e)).toList

/-- The text of an operand.  Those of an exclusive or are in parentheses of their own. -/
def sideText (op : BinaryOp) (cs : List Char) : List Char :=
  if op = .xor then '(' :: (cs ++ [')']) else cs

section Text

variable {ctx : Context} {i : Info}

theorem exprText_binary {left right : Expr} {op : BinaryOp} :
    exprText ctx (.binary i left op right) = '(' :: (sideText op (exprText ctx left) ++ ' ' ::
      ((operator op).toList ++ ' ' :: (sideText op (exprText ctx right) ++ [')']))) := by
  cases op <;>
    simp [exprText, exprCode, binaryCode, sideText, Fragment.toList_render, plain, Piece.render,
      operator]

theorem exprText_unary {operand : Expr} {op : UnaryOp} : exprText ctx (.unary i op operand) =
    '(' :: ((sign op).toList ++ (exprText ctx operand ++ [')'])) := by
  simp [exprText, exprCode, Fragment.toList_render, plain, Piece.render]

theorem exprText_grouped {inner : Expr} :
    exprText ctx (.grouped i inner) = '(' :: (exprText ctx inner ++ [')']) := by
  simp [exprText, exprCode, Fragment.toList_render, plain, Piece.render]

theorem exprText_field {object : Expr} {name : String} : exprText ctx (.field i object name) =
    exprText ctx object ++ '.' :: (identifier name).toList := by
  simp [exprText, exprCode, Fragment.toList_render, plain, Piece.render]

theorem exprText_var {name : String} {typeName : Option String} :
    exprText ctx (.var i name typeName) = (identifier name).toList := by
  simp [exprText, exprCode, Fragment.toList_render, Piece.render]

theorem exprText_integer {n : Int} : exprText ctx (.integer i n) =
    if n < 0 then '-' :: Nat.toDigits 10 n.natAbs else Nat.toDigits 10 n.natAbs := by
  have htext : exprText ctx (.integer i n) = (toString n).toList := by
    simp [exprText, exprCode, Fragment.toList_render, plain, Piece.render]
  rw [htext]
  cases n with
  | ofNat n =>
    have hpos : ¬ Int.ofNat n < 0 := Int.not_lt.mpr (Int.natCast_nonneg n)
    exact Nat.toList_repr
  | negSucc n =>
    rw [if_pos (Int.negSucc_lt_zero n)]
    have hstring : toString (Int.negSucc n) = "-" ++ Nat.repr (n + 1) := rfl
    rw [hstring, String.toList_append]
    exact congrArg _ Nat.toList_repr

theorem exprText_float {x : Binary64} : exprText ctx (.float i x) = (float x).toList := by
  simp [exprText, exprCode, Fragment.toList_render, plain, Piece.render]

theorem exprText_string {s : String} : exprText ctx (.string i s) = (quoted s).toList := by
  simp [exprText, exprCode, Fragment.toList_render, plain, Piece.render]

theorem exprText_boolean {b : Bool} :
    exprText ctx (.boolean i b) = (if b then "true" else "false").toList := by
  simp [exprText, exprCode, Fragment.toList_render, plain, Piece.render]

theorem exprText_null : exprText ctx (.null i) = "null".toList := by
  simp [exprText, exprCode, Fragment.toList_render, plain, Piece.render]

end Text

/-! ### Cutting the text -/

section Cutting

variable {ctx : Context} {e : Expr} {cs rest : List Char} {c : Char} {ls : List Lexeme}
variable {bare : Bool}

/-- What may follow on an expression that is perhaps written with digits only. -/
def Follows (bare : Bool) (rest : List Char) : Prop :=
  Stops isNamePart rest ∧ (bare = true → rest.head? ≠ some '.')

theorem follows_nil : Follows bare [] :=
  ⟨rfl, fun _ => nofun⟩

theorem follows_blank : Follows bare (' ' :: rest) :=
  ⟨rfl, fun _ => nofun⟩

theorem follows_close : Follows bare (')' :: rest) :=
  ⟨rfl, fun _ => nofun⟩

theorem follows_point (h : bare = false) : Follows bare ('.' :: rest) :=
  ⟨rfl, fun hbare => absurd (h.symm.trans hbare) Bool.false_ne_true⟩

theorem cuts_digits (n : Nat) (h : Follows true rest) :
    Cuts (Nat.toDigits 10 n ++ rest) [.number (Nat.toDigits 10 n)] rest := by
  obtain ⟨numeral, htext, -⟩ := exists_numeral_nat n
  rw [← htext]
  exact .lexeme (lexeme?_numeral numeral h.1 fun _ => h.2 rfl)

theorem cuts_float {x : Binary64} (hx : x.Unsigned)
    (h : Follows ((float x).toList.all Char.isDigit) rest) :
    Cuts ((float x).toList ++ rest) [.number (float x).toList] rest := by
  obtain ⟨numeral, htext⟩ := exists_numeral_float hx
  rw [← htext] at h ⊢
  refine .lexeme (lexeme?_numeral numeral h.1 fun hbare => h.2 ?_)
  exact (all_isDigit_text numeral).mpr hbare

theorem isNameStart_of_isWordStart (h : Text.isWordStart c = true) : isNameStart c = true := by
  rw [isNameStart, h, Bool.true_or]

theorem cuts_word {name : String} (h : IsWord name.toList) (hrest : Stops isNamePart rest) :
    Cuts (name.toList ++ rest) [.word name] rest := by
  obtain ⟨c, cs, hname, hc, hcs⟩ := h
  have hpart : ∀ d ∈ cs, isNamePart d = true := by
    intro d hd
    rw [isNamePart, hcs d hd, Bool.true_or]
  have hlexeme := lexeme?_word (isNameStart_of_isWordStart hc) hpart hrest
  rw [← hname, String.ofList_toList] at hlexeme
  exact .lexeme hlexeme

theorem isWord_boolean (b : Bool) : IsWord (if b then "true" else "false").toList := by
  cases b
  · exact ⟨'f', ['a', 'l', 's', 'e'], rfl, rfl, List.all_eq_true.mp rfl⟩
  · exact ⟨'t', ['r', 'u', 'e'], rfl, rfl, List.all_eq_true.mp rfl⟩

theorem isWord_null : IsWord "null".toList :=
  ⟨'n', ['u', 'l', 'l'], rfl, rfl, List.all_eq_true.mp rfl⟩

/-- A character that begins an expression without a sign. -/
def isOpening (c : Char) : Bool :=
  isNamePart c || c == '(' || c == '"'

theorem ne_of_isOpening (h : isOpening c = true) : c ≠ '=' ∧ c ≠ '+' ∧ c ≠ '!' ∧ c ≠ '-' := by
  refine ⟨?_, ?_, ?_, ?_⟩ <;>
  · rintro rfl
    cases h

/-- A sign before an operand, unless the operand begins with a minus too. -/
theorem cuts_sign_operand {op : UnaryOp} (hc : isOpening c = true ∨ c = '-' ∧ op ≠ .negate) :
    Cuts ((sign op).toList ++ c :: cs) [.mark (sign op).toList] (c :: cs) := by
  rcases hc with hc | ⟨rfl, hop⟩
  · obtain ⟨hequals, hplus, hnot, hminus⟩ := ne_of_isOpening hc
    refine cuts_sign op hequals fun hsame => ?_
    cases op with
    | negate => exact hminus (List.cons.inj hsame).1.symm
    | plus => exact hplus (List.cons.inj hsame).1.symm
    | not => exact hnot (List.cons.inj hsame).1.symm
  · refine cuts_sign op (by decide) fun hsame => ?_
    cases op with
    | negate => exact hop rfl
    | plus => cases hsame
    | not => cases hsame

theorem isOpening_of_isNamePart (h : isNamePart c = true) : isOpening c = true := by
  rw [isOpening, h, Bool.true_or, Bool.true_or]

theorem exists_digit (n : Nat) : ∃ c cs, Nat.toDigits 10 n = c :: cs ∧ isOpening c = true := by
  obtain ⟨c, cs, h⟩ := List.exists_cons_of_ne_nil (digits_digitText n).1
  have hdigit := (digits_digitText n).2 c (by rw [h]; exact List.mem_cons_self)
  exact ⟨c, cs, h, isOpening_of_isNamePart (isNamePart_of_isDigit hdigit)⟩

theorem cuts_minus (n : Nat) (rest : List Char) :
    Cuts ('-' :: (Nat.toDigits 10 n ++ rest)) [.mark ['-']] (Nat.toDigits 10 n ++ rest) := by
  obtain ⟨c, cs, hdigits, hc⟩ := exists_digit n
  rw [hdigits]
  show Cuts ((sign .negate).toList ++ c :: (cs ++ rest)) _ _
  exact cuts_sign_operand (.inl hc)

theorem cuts_integer {i : Info} {n : Int} (h : Follows true rest) :
    Cuts (exprText ctx (.integer i n) ++ rest) (Expr.integer i n).written rest := by
  rw [exprText_integer, Expr.written, Expr.wholeTerm]
  split
  · exact (cuts_minus _ rest).trans (cuts_digits _ h)
  · exact cuts_digits _ h

theorem exists_opening_word (h : IsWord cs) : ∃ c more, cs = c :: more ∧ isOpening c = true := by
  obtain ⟨c, more, rfl, hc, -⟩ := h
  refine ⟨c, more, rfl, isOpening_of_isNamePart ?_⟩
  exact isNamePart_of_isNameStart (isNameStart_of_isWordStart hc)

theorem exists_opening_numeral (n : Numeral) :
    ∃ c more, n.text = c :: more ∧ isOpening c = true := by
  obtain ⟨c, more, hwhole⟩ := List.exists_cons_of_ne_nil n.digits_whole.1
  have hdigit := n.digits_whole.2 c (by rw [hwhole]; exact List.mem_cons_self)
  refine ⟨c, more ++ (n.fraction ++ n.exponent), ?_, ?_⟩
  · rw [Numeral.text, hwhole, List.cons_append]
  · exact isOpening_of_isNamePart (isNamePart_of_isDigit hdigit)

/-- The first character of an expression.  It is a minus only where a negative number stands. -/
theorem exists_opening (h : e.Throughout Expr.Sound) : ∃ c cs, exprText ctx e = c :: cs ∧
    (isOpening c = true ∨ c = '-' ∧ (e.isNegative = true ∨ ¬ e.Throughout Expr.Straight)) := by
  induction e using Expr.induction_on_parts with
  | h e ih =>
    obtain ⟨⟨hplain, hwritable⟩, hparts⟩ := Expr.throughout_iff.mp h
    cases e with
    | integer i n =>
      rw [exprText_integer]
      split
      · next hn => exact ⟨'-', _, rfl, .inr ⟨rfl, .inl (decide_eq_true hn)⟩⟩
      · obtain ⟨c, cs, hdigits, hc⟩ := exists_digit n.natAbs
        exact ⟨c, cs, hdigits, .inl hc⟩
    | float i x =>
      obtain ⟨numeral, htext⟩ := exists_numeral_float hwritable
      obtain ⟨c, cs, hnumeral, hc⟩ := exists_opening_numeral numeral
      refine ⟨c, cs, ?_, .inl hc⟩
      rw [exprText_float, ← htext, hnumeral]
    | string i s =>
      have htext : (quoted s).toList = '"' :: (s.toList.flatMap escapeChar ++ ['"']) := by
        simp [quoted]
      exact ⟨'"', _, exprText_string.trans htext, .inl rfl⟩
    | boolean i b =>
      obtain ⟨c, cs, hname, hc⟩ := exists_opening_word (isWord_boolean b)
      exact ⟨c, cs, exprText_boolean.trans hname, .inl hc⟩
    | null i =>
      obtain ⟨c, cs, hname, hc⟩ := exists_opening_word isWord_null
      exact ⟨c, cs, exprText_null.trans hname, .inl hc⟩
    | var i name typeName =>
      obtain ⟨c, cs, hname, hc⟩ := exists_opening_word (isWord_identifier hwritable)
      exact ⟨c, cs, exprText_var.trans hname, .inl hc⟩
    | field i object name =>
      obtain ⟨c, cs, hobject, hc⟩ := ih object List.mem_cons_self (hparts object List.mem_cons_self)
      refine ⟨c, _, by rw [exprText_field, hobject, List.cons_append], hc.imp_right ?_⟩
      rintro ⟨rfl, hnegative⟩
      refine ⟨rfl, .inr fun hstraight => ?_⟩
      -- a negative number has no fields
      obtain ⟨⟨-, hslips⟩, hstraight⟩ := Expr.throughout_iff.mp hstraight
      rcases hnegative with hnegative | hnot
      · cases object with
        | integer => cases hslips
        | _ => cases hnegative
      · exact hnot (hstraight object List.mem_cons_self)
    | grouped i inner => exact ⟨'(', _, exprText_grouped, .inl rfl⟩
    | unary i op operand => exact ⟨'(', _, exprText_unary, .inl rfl⟩
    | binary i left op right => exact ⟨'(', _, exprText_binary, .inl rfl⟩
    | _ => cases hplain

/-- An operand in parentheses of its own, or as it is. -/
theorem cuts_side (op : BinaryOp) (h : ∀ rest, Follows bare rest → Cuts (cs ++ rest) ls rest)
    (hrest : Follows bare rest) : Cuts (sideText op cs ++ rest) (Expr.sideLexemes op ls) rest := by
  unfold sideText Expr.sideLexemes
  split
  · have hinside : Cuts (cs ++ ')' :: rest) (ls ++ [.mark [')']]) rest :=
      (h _ follows_close).trans cuts_close
    rw [List.cons_append, List.append_assoc]
    exact cuts_open.trans hinside
  · exact h rest hrest

/-- An operator and the blanks around it. -/
theorem cuts_between (op : BinaryOp) : Cuts (' ' :: ((operator op).toList ++ ' ' :: cs))
    [.mark (operator op).toList] cs :=
  Cuts.blank.trans ((cuts_operator op).trans .blank)

/-- The text of an expression is cut as it is meant. -/
theorem cuts_exprText (h : e.Throughout Expr.Straight) :
    ∀ {rest}, Follows e.isNumeral rest → Cuts (exprText ctx e ++ rest) e.written rest := by
  induction e using Expr.induction_on_parts with
  | h e ih =>
    intro rest hrest
    obtain ⟨⟨⟨hplain, hwritable⟩, hslips⟩, hparts⟩ := Expr.throughout_iff.mp h
    have hone : ∀ part ∈ e.parts, ∀ {rest}, Follows part.isNumeral rest →
        Cuts (exprText ctx part ++ rest) part.written rest :=
      fun part hpart => ih part hpart (hparts part hpart)
    cases e with
    | integer i n => exact cuts_integer hrest
    | float i x =>
      exact cuts_float hwritable hrest
    | string i s =>
      exact .lexeme (lexeme?_text s)
    | boolean i b =>
      exact cuts_word (isWord_boolean b) hrest.1
    | null i =>
      exact cuts_word isWord_null hrest.1
    | var i name typeName =>
      rw [exprText_var]
      exact cuts_word (isWord_identifier hwritable) hrest.1
    | field i object name =>
      have hname := isWord_identifier hwritable
      have hpoint : Cuts ('.' :: ((identifier name).toList ++ rest)) [.mark ['.']]
          ((identifier name).toList ++ rest) := by
        obtain ⟨c, cs, hcs, hc, -⟩ := isWord_identifier hwritable
        rw [hcs]
        exact cuts_point (isNameStart_of_isWordStart hc)
      rw [exprText_field, List.append_assoc]
      refine (hone object List.mem_cons_self (follows_point hslips)).trans ?_
      exact hpoint.trans (cuts_word hname hrest.1)
    | grouped i inner =>
      rw [exprText_grouped, List.cons_append, List.append_assoc]
      exact cuts_open.trans ((hone inner List.mem_cons_self follows_close).trans cuts_close)
    | unary i op operand =>
      have hoperand := hparts operand List.mem_cons_self
      have hsign : Cuts ((sign op).toList ++ (exprText ctx operand ++ ')' :: rest))
          [.mark (sign op).toList] (exprText ctx operand ++ ')' :: rest) := by
        obtain ⟨c, cs, htext, hc⟩ := exists_opening (hoperand.imp fun _ h => h.1)
        rw [htext]
        refine cuts_sign_operand (hc.imp_right fun ⟨hminus, hnegative⟩ => ⟨hminus, ?_⟩)
        rintro rfl
        have hnegative := hnegative.resolve_right fun hnot => hnot hoperand
        exact absurd (hslips.symm.trans hnegative) Bool.false_ne_true
      rw [exprText_unary, List.cons_append, List.append_assoc, List.append_assoc]
      refine cuts_open.trans (hsign.trans ?_)
      exact (hone operand List.mem_cons_self follows_close).trans cuts_close
    | binary i left op right =>
      rw [exprText_binary]
      simp only [List.cons_append, List.append_assoc]
      refine cuts_open.trans ?_
      refine (cuts_side op (fun _ => hone left List.mem_cons_self) follows_blank).trans ?_
      refine (cuts_between op).trans ?_
      have hright : right ∈ [left, right] := List.mem_cons_of_mem _ List.mem_cons_self
      exact (cuts_side op (fun _ => hone right hright) follows_close).trans cuts_close
    | _ => cases hplain

/-- What spoils an operand spoils it in parentheses of its own. -/
theorem spoils_side (op : BinaryOp) (h : ∀ rest, Follows bare rest → Spoils (cs ++ rest))
    (hrest : Follows bare rest) : Spoils (sideText op cs ++ rest) := by
  unfold sideText
  split
  · rw [List.cons_append, List.append_assoc]
    exact .after cuts_open (h _ follows_close)
  · exact h rest hrest

/-- A point behind digits and perhaps a sign. -/
theorem spoils_numeral (hnumeral : e.isNumeral = true) (hwritable : e.Writable)
    (hc : isNameStart c = true) : Spoils (exprText ctx e ++ '.' :: c :: cs) := by
  cases e with
  | integer i n =>
    have hdigits : Spoils (Nat.toDigits 10 n.natAbs ++ '.' :: c :: cs) :=
      spoils_point (digits_digitText n.natAbs) hc
    rw [exprText_integer]
    split
    · exact .after (cuts_minus _ _) hdigits
    · exact hdigits
  | float i x =>
    obtain ⟨numeral, htext⟩ := exists_numeral_float hwritable
    have hne : (float x).toList ≠ [] := by
      obtain ⟨d, ds, hnumeral, -⟩ := exists_opening_numeral numeral
      rw [← htext, hnumeral]
      exact List.cons_ne_nil _ _
    exact spoils_point ⟨hne, List.all_eq_true.mp hnumeral⟩ hc
  | _ => cases hnumeral

theorem exprText_of_isNegative (h : e.isNegative = true) : ∃ cs, exprText ctx e = '-' :: cs := by
  cases e with
  | integer i n =>
    rw [exprText_integer, if_pos (of_decide_eq_true h)]
    exact ⟨_, rfl⟩
  | _ => cases h

/-- The text of an expression is not cut as it is meant where a minus stands before a negative
number or a point behind digits. -/
theorem spoils_exprText (h : e.Throughout Expr.Sound) (hnot : ¬ e.Throughout Expr.Straight) :
    ∀ {rest}, Follows e.isNumeral rest → Spoils (exprText ctx e ++ rest) := by
  induction e using Expr.induction_on_parts with
  | h e ih =>
    intro rest hrest
    obtain ⟨hsound, hparts⟩ := Expr.throughout_iff.mp h
    have hone : ∀ part ∈ e.parts, ¬ part.Throughout Expr.Straight → ∀ {rest},
        Follows part.isNumeral rest → Spoils (exprText ctx part ++ rest) :=
      fun part hpart => ih part hpart (hparts part hpart)
    -- where the node itself is as it should be, one of its parts is not
    have hpart : e.slips = false → ∃ part ∈ e.parts, ¬ part.Throughout Expr.Straight :=
      fun hslips => Expr.exists_part_of_not_throughout hnot ⟨hsound, hslips⟩
    cases e with
    | grouped i inner =>
      obtain ⟨_, hmem, hinner⟩ := hpart rfl
      cases List.mem_singleton.mp hmem
      rw [exprText_grouped, List.cons_append, List.append_assoc]
      exact .after cuts_open (hone inner hmem hinner follows_close)
    | field i object name =>
      rw [exprText_field, List.append_assoc]
      by_cases hnumeral : object.isNumeral = true
      · obtain ⟨c, cs, hcs, hc, -⟩ := isWord_identifier hsound.2
        have hobject := (Expr.throughout_iff.mp (hparts object List.mem_cons_self)).1
        rw [hcs]
        exact spoils_numeral hnumeral hobject.2 (isNameStart_of_isWordStart hc)
      · have hslips := Bool.eq_false_iff.mpr hnumeral
        obtain ⟨_, hmem, hobject⟩ := hpart hslips
        cases List.mem_singleton.mp hmem
        exact hone object hmem hobject (follows_point hslips)
    | unary i op operand =>
      obtain ⟨c, cs, htext, hc⟩ := exists_opening (hparts operand List.mem_cons_self)
      rw [exprText_unary, List.cons_append, List.append_assoc, List.append_assoc]
      refine .after cuts_open ?_
      by_cases hstep : c = '-' ∧ op = .negate
      · obtain ⟨rfl, rfl⟩ := hstep
        rw [htext]
        exact spoils_step
      · have hslips : (Expr.unary i op operand).slips = false := by
          cases op with
          | negate =>
            refine Bool.eq_false_iff.mpr fun hnegative => hstep ⟨?_, rfl⟩
            obtain ⟨more, hmore⟩ := exprText_of_isNegative hnegative
            exact (List.cons.inj (htext.symm.trans hmore)).1
          | _ => rfl
        obtain ⟨_, hmem, hoperand⟩ := hpart hslips
        cases List.mem_singleton.mp hmem
        have hsign : Cuts ((sign op).toList ++ (exprText ctx operand ++ ')' :: rest))
            [.mark (sign op).toList] (exprText ctx operand ++ ')' :: rest) := by
          rw [htext]
          refine cuts_sign_operand (hc.imp_right fun hminus => ⟨hminus.1, fun hop => ?_⟩)
          exact hstep ⟨hminus.1, hop⟩
        exact .after hsign (hone operand hmem hoperand follows_close)
    | binary i left op right =>
      rw [exprText_binary]
      simp only [List.cons_append, List.append_assoc]
      refine .after cuts_open ?_
      by_cases hleft : left.Throughout Expr.Straight
      · obtain ⟨_, hmem, hright⟩ := hpart rfl
        rcases List.mem_cons.mp hmem with rfl | hmem'
        · exact absurd hleft hright
        · cases List.mem_singleton.mp hmem'
          refine .after (cuts_side op (fun _ => cuts_exprText hleft) follows_blank) ?_
          refine .after (cuts_between op) ?_
          exact spoils_side op (fun _ => hone right hmem hright) follows_close
      · exact spoils_side op (fun _ => hone left List.mem_cons_self hleft) follows_blank
    | integer | float | string | boolean | null | var =>
      obtain ⟨_, hmem, -⟩ := hpart rfl
      cases hmem
    | _ => cases hsound.1

end Cutting

/-! ### Reading the lexemes -/

section Reading

variable {e : Expr} {ls : List Lexeme} {t : Term}

theorem isOperator_operator (op : BinaryOp) : IsOperator (operator op).toList := by
  cases op <;> exact ⟨by decide, by decide, by decide⟩

theorem sign_mem_signs (op : UnaryOp) : (sign op).toList ∈ signs := by
  cases op <;> decide

theorem operand_side (op : BinaryOp) (h : Operand ls t) : Operand (Expr.sideLexemes op ls) t := by
  unfold Expr.sideLexemes
  split
  · exact h.paren.operand
  · exact h

theorem operand_integer (i : Info) (n : Int) :
    Operand (Expr.integer i n).written (Expr.integer i n).term := by
  have hdigits : Whole [.number (Nat.toDigits 10 n.natAbs)]
      (.leaf (.number (Nat.toDigits 10 n.natAbs))) :=
    .leaf nofun nofun
  unfold Expr.written Expr.term Expr.wholeTerm
  split
  · exact hdigits.operand.sign (by decide)
  · exact hdigits.operand

/-- The lexemes of an expression are read as what it is. -/
theorem operand_written (h : e.Throughout Expr.Tidy) : Operand e.written e.term ∧
    (e.isNegative = false → Whole e.written e.term) := by
  induction e using Expr.induction_on_parts with
  | h e ih =>
    obtain ⟨⟨⟨⟨hplain, hwritable⟩, hslips⟩, hpower⟩, hparts⟩ := Expr.throughout_iff.mp h
    have hone : ∀ part ∈ e.parts, Operand part.written part.term ∧
        (part.isNegative = false → Whole part.written part.term) :=
      fun part hpart => ih part hpart (hparts part hpart)
    have hwhole : Whole e.written e.term → Operand e.written e.term ∧
        (e.isNegative = false → Whole e.written e.term) :=
      fun hwhole => ⟨hwhole.operand, fun _ => hwhole⟩
    cases e with
    | integer i n =>
      refine ⟨operand_integer i n, fun hn => ?_⟩
      unfold Expr.written Expr.term Expr.wholeTerm
      rw [if_neg (of_decide_eq_false hn)]
      exact .leaf nofun nofun
    | float i x | string i s => exact hwhole (.leaf nofun nofun)
    | boolean i b =>
      refine hwhole (.leaf nofun ?_)
      rintro _ ⟨⟩
      cases b <;> decide
    | null i =>
      refine hwhole (.leaf nofun ?_)
      rintro _ ⟨⟩
      decide
    | var i name typeName =>
      refine hwhole (.leaf nofun fun word hword => ?_)
      rw [← Lexeme.word.inj hword]
      exact identifier_not_mem_keywords name
    | field i object name =>
      have hpositive : object.isNegative = false := by
        cases object with
        | integer => cases hslips
        | _ => rfl
      exact hwhole (.field ((hone object List.mem_cons_self).2 hpositive) _)
    | grouped i inner => exact hwhole (hone inner List.mem_cons_self).1.paren
    | unary i op operand =>
      have hsigned := (hone operand List.mem_cons_self).1.sign (sign_mem_signs op)
      exact hwhole hsigned.paren
    | binary i left op right =>
      have hleft := hone left List.mem_cons_self
      have hright := hone right (List.mem_cons_of_mem _ List.mem_cons_self)
      refine hwhole (.binary (operand_side op hleft.1) (operand_side op hright.1)
        (isOperator_operator op) fun hstars rest => ?_)
      -- the left operand of a power is no negative number
      cases op with
      | power => exact (hleft.2 hpower).not_beginsSigned rest
      | _ => exact absurd hstars (by decide)
    | _ => cases hplain

theorem refused_side (op : BinaryOp) (h : Refused ls) : Refused (Expr.sideLexemes op ls) := by
  unfold Expr.sideLexemes
  split
  · exact (h.append _).paren
  · exact h

theorem refused_signsPower (h : e.signsPower = true) : Refused e.written := by
  unfold Expr.signsPower at h
  split at h
  · next i left right =>
    cases left with
    | integer j n =>
      have hsigned : ∀ rest, beginsSigned ((Expr.integer j n).written ++ rest) = true := by
        intro rest
        rw [Expr.written, Expr.wholeTerm, if_pos (of_decide_eq_true h)]
        rfl
      have hpower := (refused_power (operand_integer j n) hsigned).append
        (right.written ++ [.mark [')']])
      rwa [List.cons_append, List.append_assoc] at hpower
    | _ => cases h
  · cases h

/-- The lexemes of an expression cannot be read if it holds a power of a negative number. -/
theorem refused_written (h : e.Throughout Expr.Straight) (hnot : ¬ e.Throughout Expr.Tidy) :
    Refused e.written := by
  induction e using Expr.induction_on_parts with
  | h e ih =>
    obtain ⟨hstraight, hparts⟩ := Expr.throughout_iff.mp h
    have hone : ∀ part ∈ e.parts, ¬ part.Throughout Expr.Tidy → Refused part.written :=
      fun part hpart => ih part hpart (hparts part hpart)
    have hpart : e.signsPower = false → ∃ part ∈ e.parts, ¬ part.Throughout Expr.Tidy :=
      fun hpower => Expr.exists_part_of_not_throughout hnot ⟨hstraight, hpower⟩
    cases e with
    | grouped i inner =>
      obtain ⟨_, hmem, hinner⟩ := hpart rfl
      cases List.mem_singleton.mp hmem
      exact ((hone inner hmem hinner).append _).paren
    | field i object name =>
      obtain ⟨_, hmem, hobject⟩ := hpart rfl
      cases List.mem_singleton.mp hmem
      exact (hone object hmem hobject).append _
    | unary i op operand =>
      obtain ⟨_, hmem, hoperand⟩ := hpart rfl
      cases List.mem_singleton.mp hmem
      exact (((hone operand hmem hoperand).sign (sign_mem_signs op)).append _).paren
    | binary i left op right =>
      have hsplit : (Expr.binary i left op right).written =
          .mark ['('] :: (Expr.sideLexemes op left.written ++ .mark (operator op).toList ::
            Expr.sideLexemes op right.written) ++ [.mark [')']] := by
        simp [Expr.written]
      by_cases hpower : (Expr.binary i left op right).signsPower = true
      · exact refused_signsPower hpower
      · obtain ⟨_, hmem, huntidy⟩ := hpart (Bool.eq_false_iff.mpr hpower)
        by_cases hleft : left.Throughout Expr.Tidy
        · rcases List.mem_cons.mp hmem with rfl | hmem'
          · exact absurd hleft huntidy
          · cases List.mem_singleton.mp hmem'
            have hright := refused_side op (hone right hmem huntidy)
            rw [hsplit]
            refine .append ?_ _
            exact .right (operand_side op (operand_written hleft).1) hright (isOperator_operator op)
        · have hleft := refused_side op (hone left List.mem_cons_self hleft)
          exact (hleft.append _).paren
    | integer | float | string | boolean | null | var =>
      obtain ⟨_, hmem, -⟩ := hpart rfl
      cases hmem
    | _ => cases hstraight.1.1

/-- No lexeme of an expression is odd. -/
theorem not_isOdd_term (h : e.Throughout Expr.Sound) : ∀ t ∈ e.term.lexemes, t.isOdd = false := by
  have hdigits : ∀ n, Lexeme.isOdd (.number (Nat.toDigits 10 n)) = false := by
    intro n
    obtain ⟨numeral, htext, -⟩ := exists_numeral_nat n
    rw [← htext]
    exact hasBarePoint_numeral numeral
  induction e using Expr.induction_on_parts with
  | h e ih =>
    obtain ⟨⟨hplain, hwritable⟩, hparts⟩ := Expr.throughout_iff.mp h
    have hone : ∀ part ∈ e.parts, ∀ t ∈ part.term.lexemes, t.isOdd = false :=
      fun part hpart => ih part hpart (hparts part hpart)
    cases e with
    | integer i n =>
      unfold Expr.term Expr.wholeTerm
      split
      · exact List.forall_mem_cons.mpr ⟨rfl, List.forall_mem_singleton.mpr (hdigits _)⟩
      · exact List.forall_mem_singleton.mpr (hdigits _)
    | float i x =>
      obtain ⟨numeral, htext⟩ := exists_numeral_float hwritable
      refine List.forall_mem_singleton.mpr ?_
      rw [← htext]
      exact hasBarePoint_numeral numeral
    | string | boolean | null | var => exact List.forall_mem_singleton.mpr rfl
    | field i object name =>
      refine List.forall_mem_append.mpr ⟨hone object List.mem_cons_self, ?_⟩
      exact List.forall_mem_cons.mpr ⟨rfl, List.forall_mem_singleton.mpr rfl⟩
    | grouped i inner => exact hone inner List.mem_cons_self
    | unary i op operand =>
      refine List.forall_mem_cons.mpr ⟨?_, hone operand List.mem_cons_self⟩
      cases op <;> rfl
    | binary i left op right =>
      refine List.forall_mem_append.mpr ⟨hone left List.mem_cons_self, ?_⟩
      refine List.forall_mem_cons.mpr ⟨?_, hone right (List.mem_cons_of_mem _ List.mem_cons_self)⟩
      cases op <;> rfl
    | _ => cases hplain

/-- What is read back has no odd lexeme. -/
theorem not_isOdd_of_read {cs : List Char} (h : e.Throughout Expr.Sound)
    (hread : read cs = some e.term) : ∃ ts, lex cs = some ts ∧ ∀ t ∈ ts, t.isOdd = false := by
  obtain ⟨ts, hts, hlexemes⟩ := read_lexemes hread
  refine ⟨ts, hts, fun t ht => ?_⟩
  by_cases hkept : isKept t = true
  · have hmem : t ∈ kept ts := List.mem_filter.mpr ⟨ht, hkept⟩
    rw [← hlexemes] at hmem
    exact not_isOdd_term h t hmem
  · -- a parenthesis
    have hparen : t = .mark ['('] ∨ t = .mark [')'] := by
      simpa [isKept, Classical.or_iff_not_imp_left] using hkept
    rcases hparen with rfl | rfl <;> rfl

end Reading

end Script

/-! ### The expressions of a program -/

theorem Program.parse_writable {commands : CommandTable} {source : String} {e : Expr}
    (he : e ∈ exprsWithin true (Program.parse commands (tokens commands source)).program.stmts) :
    e.Throughout Expr.Writable := by
  obtain ⟨t, ht, he⟩ := List.mem_flatMap.mp he
  obtain ⟨top, htop, he⟩ := List.mem_flatMap.mp he
  obtain ⟨s, hs, ht⟩ := mem_stmtsWithin.mp ht
  have hgrounded := (parse_grounded commands (tokens commands source) s hs t ht).2 top htop
  exact hgrounded.writable.of_mem he

namespace Script

/-- An expression of a program that is built from literals, variables, fields and operators is read
back as what it is, exactly if it holds no minus before a negative number, no field of a number that
is written with digits only, and no power of a negative number.  Then no step and no bare point of a
number is among its lexemes. -/
theorem read_exprText_iff {commands : CommandTable} {source : String} {e : Expr} (ctx : Context)
    (he : e ∈ exprsWithin true (Program.parse commands (tokens commands source)).program.stmts)
    (hplain : ∀ sub ∈ e.subterms, sub.isPlain = true) :
    let text := (Fragment.render (exprCode ctx e)).toList
    (Grammar.read text = some e.term ↔ ∀ sub ∈ e.subterms, sub.clashes = false) ∧
    (Grammar.read text = some e.term →
      ∃ ts, Grammar.lex text = some ts ∧ ∀ t ∈ ts, t.isOdd = false) := by
  intro text
  have hsound : e.Throughout Expr.Sound :=
    fun sub hsub => ⟨hplain sub hsub, Program.parse_writable he sub hsub⟩
  refine ⟨⟨fun hread sub hsub => ?_, fun hclashes => ?_⟩, not_isOdd_of_read hsound⟩
  · have hstraight : e.Throughout Expr.Straight := by
      by_contra hnot
      have hspoils : Spoils (exprText ctx e ++ []) := spoils_exprText hsound hnot follows_nil
      rw [List.append_nil] at hspoils
      obtain ⟨ts, hts, heven⟩ := not_isOdd_of_read hsound hread
      obtain ⟨t, ht, hodd⟩ := hspoils ts hts
      rw [heven t ht] at hodd
      cases hodd
    have hlex : lex text = some e.written := by
      have hcuts : Cuts (exprText ctx e ++ []) e.written [] := cuts_exprText hstraight follows_nil
      rw [List.append_nil] at hcuts
      exact hcuts.lex_eq
    have htidy : e.Throughout Expr.Tidy := by
      by_contra hnot
      rw [read_eq_none_of_refused hlex (refused_written hstraight hnot)] at hread
      cases hread
    obtain ⟨⟨-, hslips⟩, hpower⟩ := htidy sub hsub
    rw [Expr.clashes, hslips, hpower]
    rfl
  · have htidy : e.Throughout Expr.Tidy := by
      intro sub hsub
      obtain ⟨hslips, hpower⟩ := Bool.or_eq_false_iff.mp (hclashes sub hsub)
      exact ⟨⟨hsound sub hsub, hslips⟩, hpower⟩
    have hcuts : Cuts (exprText ctx e ++ []) e.written [] :=
      cuts_exprText (htidy.imp fun _ h => h.1) follows_nil
    rw [List.append_nil] at hcuts
    exact read_eq_of_operand hcuts.lex_eq (operand_written htidy).1

theorem read_exprText_wrapped :
    let source := "x = (3 - $FFFFFFFF) ^ -a\\b Xor 2"
    let parsed := Program.parse (.ofList []) (tokens (.ofList []) source)
    ∃ e ∈ exprsWithin true parsed.program.stmts,
      (∀ sub ∈ e.subterms, sub.isPlain = true) ∧ (∀ sub ∈ e.subterms, sub.clashes = false) ∧
      String.ofList (exprText default e) = "(((((3 - -1)) ** (-a.b))) ^ (2))" ∧
      Grammar.read (Fragment.render (exprCode default e)).toList = some e.term := by
  intro source parsed
  have hmem : ∃ e ∈ exprsWithin true parsed.program.stmts,
      (∀ sub ∈ e.subterms, sub.isPlain = true) ∧ (∀ sub ∈ e.subterms, sub.clashes = false) ∧
      String.ofList (exprText default e) = "(((((3 - -1)) ** (-a.b))) ^ (2))" := by
    decide +kernel
  obtain ⟨e, he, hplain, hclashes, htext⟩ := hmem
  exact ⟨e, he, hplain, hclashes, htext, (read_exprText_iff default he hplain).1.mpr hclashes⟩

/-- A minus before a hexadecimal literal that wraps around, a power of one, and a field of a number
are read without an error, and are not read back. -/
theorem not_read_back :
    let lost := fun source =>
      let parsed := Program.parse (.ofList []) (tokens (.ofList []) source)
      parsed.errors = [] ∧ ∃ e ∈ exprsWithin true parsed.program.stmts,
        (∀ sub ∈ e.subterms, sub.isPlain = true) ∧
        Grammar.read (Fragment.render (exprCode default e)).toList ≠ some e.term
    lost "x = -$FFFFFFFF" ∧ lost "x = $FFFFFFFF ^ 2" ∧ lost "x = 5\\y" := by
  -- with its cut bounded, a text can be read by evaluation
  decide +kernel

end Script

end FrameBasic
