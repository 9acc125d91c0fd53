import FrameBasic.Proofs.Script.Numeral
import FrameBasic.Proofs.Token.Word
import FrameBasic.Script.Expr

/-!
# Cutting the script

What an expression is written with is cut as it is meant: numerals, texts between quotes, names,
parentheses, operators with blanks around them, and signs that no other sign follows.

## Main definitions

* `Grammar.Cuts` — a text begins with some lexemes.
* `Grammar.Lexeme.isOdd` — a lexeme that no expression is meant to have: a step, or a number with a
  point and no digit behind it.
* `Grammar.Spoils` — a text cannot be cut, or it has an odd lexeme.

## Main results

* `Grammar.lexeme?_word`, `Grammar.lexeme?_text` — names and texts.
* `Grammar.cuts_operator`, `Grammar.cuts_sign`, `Grammar.spoils_step` — operators and signs.
-/

namespace FrameBasic.Script.Grammar

variable {c : Char} {cs rest : List Char} {t : Lexeme} {ts us : List Lexeme}

/-! ### Names and texts -/

/-- Only a digit or a point begins a number. -/
theorem numberLength_eq_zero (hdigit : c.isDigit = false) (hpoint : c ≠ '.') :
    numberLength (c :: cs) = 0 := by
  have hrun : runLength Char.isDigit (c :: cs) = 0 := by
    simp [runLength, hdigit]
  unfold numberLength
  dsimp only
  rw [hrun, List.drop_zero]
  split
  · next heq => exact absurd (List.cons.inj heq).1 hpoint
  · rfl

theorem isDigit_eq_false_of_isNameStart (h : isNameStart c = true) : c.isDigit = false := by
  rcases Bool.or_eq_true_iff.mp h with h | h
  · exact isDigit_eq_false_of_isWordStart h
  · rw [eq_of_beq h]
    rfl

theorem takeWhile_eq_nil {p : Char → Bool} (h : Stops p rest) : rest.takeWhile p = [] := by
  cases rest with
  | nil => rfl
  | cons c rest =>
    rw [List.takeWhile_cons, stops_cons.mp h]
    rfl

theorem lexeme?_word (hstart : isNameStart c = true) (hpart : ∀ d ∈ cs, isNamePart d = true)
    (hrest : Stops isNamePart rest) :
    lexeme? (c :: cs ++ rest) = some (.word (String.ofList (c :: cs)), rest) := by
  have hpoint : c ≠ '.' := by
    rintro rfl
    cases hstart
  have hall : ∀ d ∈ c :: cs, isNamePart d = true :=
    List.forall_mem_cons.mpr ⟨isNamePart_of_isNameStart hstart, hpart⟩
  have hdrop : (c :: cs ++ rest).dropWhile isNamePart = rest := by
    rw [List.dropWhile_append_of_pos hall]
    have happend := List.takeWhile_append_dropWhile (p := isNamePart) (l := rest)
    rwa [takeWhile_eq_nil hrest] at happend
  have htake : (c :: cs ++ rest).takeWhile isNamePart = c :: cs := by
    rw [List.takeWhile_append_of_pos hall, takeWhile_eq_nil hrest, List.append_nil]
  have hnumber : ¬ 0 < numberLength (c :: (cs ++ rest)) := by
    rw [numberLength_eq_zero (isDigit_eq_false_of_isNameStart hstart) hpoint]
    exact Nat.lt_irrefl 0
  rw [List.cons_append] at hdrop htake ⊢
  unfold lexeme?
  dsimp only
  rw [if_neg hnumber, if_pos hstart, hdrop, htake]

/-- The number of a control character is read back. -/
theorem numbered?_padZeros : ∀ n < 160,
    numbered? (Text.padZeros 4 (Text.hexDigits n)) = some (Char.ofNat n) ∧
      (Text.padZeros 4 (Text.hexDigits n)).length = 4 := by
  decide +kernel

theorem text?_escapeChar (c : Char) (cs : List Char) :
    text? (escapeChar c ++ cs) = (text? cs).map fun r => (c :: r.1, r.2) := by
  unfold escapeChar
  split
  · next h => subst h; rfl
  split
  · next h => subst h; rfl
  split
  · next h => subst h; rfl
  split
  · next h => subst h; rfl
  split
  · next h => subst h; rfl
  split
  · next hcontrol =>
    have hsmall : c.toNat < 160 := by
      simp only [Text.isControl, Bool.or_eq_true, Bool.and_eq_true, decide_eq_true_eq] at hcontrol
      omega
    obtain ⟨hvalue, hlength⟩ := numbered?_padZeros c.toNat hsmall
    match hdigits : Text.padZeros 4 (Text.hexDigits c.toNat), hlength with
    | [h₁, h₂, h₃, h₄], _ =>
      rw [hdigits, Char.ofNat_toNat] at hvalue
      have hread : text? ('\\' :: 'u' :: h₁ :: h₂ :: h₃ :: h₄ :: cs) =
          (numbered? [h₁, h₂, h₃, h₄]).bind fun c => (text? cs).map fun r => (c :: r.1, r.2) := rfl
      exact hread.trans (by rw [hvalue]; rfl)
  · next hquote hslash hfeed hreturn _ _ =>
    rw [List.singleton_append, text?]
    · rw [if_neg hquote, if_neg]
      rintro (h | h | h)
      · exact hslash h
      · exact hfeed h
      · exact hreturn h
    · exact fun _ _ _ _ _ h => absurd h hslash
    · exact fun _ _ h => absurd h hslash

theorem text?_quoted (s : List Char) :
    text? (s.flatMap escapeChar ++ '"' :: rest) = some (s, rest) := by
  induction s with
  | nil => rfl
  | cons c s ih =>
    rw [List.flatMap_cons, List.append_assoc, text?_escapeChar, ih]
    rfl

theorem lexeme?_text (s : String) :
    lexeme? ((quoted s).toList ++ rest) = some (.text s.toList, rest) := by
  have hquoted : (quoted s).toList ++ rest = '"' :: (s.toList.flatMap escapeChar ++ '"' :: rest) := by
    simp [quoted]
  rw [hquoted]
  unfold lexeme?
  dsimp only
  rw [numberLength_eq_zero rfl (by decide), if_neg (Nat.lt_irrefl 0), if_neg (by decide),
    if_pos rfl, text?_quoted]
  rfl

/-! ### Cutting -/

/-- What begins a lexeme is no blank. -/
theorem lexeme?_eq_none (hc : c.isWhitespace = true) : lexeme? (c :: cs) = none := by
  have hblank : c = ' ' ∨ c = '\t' ∨ c = '\r' ∨ c = '\n' := by
    simpa [Char.isWhitespace, or_assoc] using hc
  rcases hblank with rfl | rfl | rfl | rfl <;> rfl

theorem lex_lexeme (h : lexeme? cs = some (t, rest)) : lex cs = (lex rest).map (t :: ·) := by
  cases cs with
  | nil => cases h
  | cons c cs =>
    have hc : c.isWhitespace = false := by
      rw [Bool.eq_false_iff]
      intro hblank
      rw [lexeme?_eq_none hblank] at h
      cases h
    rw [lex_cons hc, h]
    rfl

/-- The text begins with the lexemes, and goes on with the rest. -/
def Cuts (cs : List Char) (ts : List Lexeme) (rest : List Char) : Prop :=
  lex cs = (lex rest).map (ts ++ ·)

namespace Cuts

theorem lexeme (h : lexeme? cs = some (t, rest)) : Cuts cs [t] rest :=
  lex_lexeme h

theorem blank : Cuts (' ' :: cs) [] cs := by
  unfold Cuts
  rw [lex_blank]
  cases lex cs <;> rfl

theorem trans {more : List Char} (h : Cuts cs ts rest) (h' : Cuts rest us more) :
    Cuts cs (ts ++ us) more := by
  unfold Cuts at *
  rw [h, h', Option.map_map]
  congr 1
  funext vs
  exact (List.append_assoc ts us vs).symm

theorem lex_eq (h : Cuts cs ts []) : lex cs = some ts := by
  rw [h, lex_nil, Option.map_some, List.append_nil]

end Cuts

/-- A lexeme that no expression is meant to have: a step, or a number with a point and no digit
behind it. -/
def Lexeme.isOdd : Lexeme → Bool
  | .number spelling => hasBarePoint spelling
  | .mark m => steps.contains m
  | _ => false

/-- The text cannot be cut, or it has an odd lexeme. -/
def Spoils (cs : List Char) : Prop :=
  ∀ ts, lex cs = some ts → ∃ t ∈ ts, t.isOdd = true

namespace Spoils

theorem first (hc : c.isWhitespace = false)
    (h : ∀ t rest, lexeme? (c :: cs) = some (t, rest) → t.isOdd = true) : Spoils (c :: cs) := by
  intro ts hts
  rw [lex_cons hc] at hts
  obtain ⟨⟨t, rest⟩, ht, hts⟩ := Option.bind_eq_some_iff.mp hts
  obtain ⟨us, -, rfl⟩ := Option.map_eq_some_iff.mp hts
  exact ⟨t, List.mem_cons_self, h t rest ht⟩

/-- What spoils the rest spoils the whole. -/
theorem after (hcuts : Cuts cs ts rest) (h : Spoils rest) : Spoils cs := by
  intro us hus
  rw [hcuts] at hus
  obtain ⟨vs, hvs, rfl⟩ := Option.map_eq_some_iff.mp hus
  obtain ⟨t, ht, hodd⟩ := h vs hvs
  exact ⟨t, List.mem_append_right ts ht, hodd⟩

end Spoils

/-! ### Marks -/

theorem cuts_open : Cuts ('(' :: cs) [.mark ['(']] cs :=
  .lexeme rfl

theorem cuts_close : Cuts (')' :: cs) [.mark [')']] cs :=
  .lexeme rfl

/-- An operator with a blank behind it. -/
theorem cuts_operator (op : BinaryOp) :
    Cuts ((operator op).toList ++ ' ' :: cs) [.mark (operator op).toList] (' ' :: cs) := by
  cases op <;> exact .lexeme rfl

theorem cuts_mark {m : List Char} (hmark : mark? (m ++ rest) = some m)
    (hnumber : numberLength (m ++ rest) = 0)
    (hfirst : m.head?.any (fun c => isNameStart c || c == '"') = false) :
    Cuts (m ++ rest) [.mark m] rest := by
  refine .lexeme ?_
  obtain ⟨c, more, rfl⟩ := List.exists_cons_of_length_pos (length_pos_of_mark? hmark)
  have hc : isNameStart c = false ∧ c ≠ '"' := by simpa using hfirst
  have hdrop : (c :: (more ++ rest)).drop (c :: more).length = rest := List.drop_left
  rw [List.cons_append] at hmark hnumber ⊢
  unfold lexeme?
  dsimp only
  rw [if_neg (Nat.not_lt_of_le (Nat.le_of_eq hnumber)),
    if_neg (by rw [hc.1]; exact Bool.false_ne_true), if_neg hc.2, hmark, Option.map_some, hdrop]

/-- A sign, if what follows does not make another mark of it. -/
theorem cuts_sign (op : UnaryOp) (hequals : c ≠ '=') (hsame : (sign op).toList ≠ [c]) :
    Cuts ((sign op).toList ++ c :: cs) [.mark (sign op).toList] (c :: cs) := by
  have hequals : ('=' == c) = false := beq_false_of_ne hequals.symm
  have hother : ∀ d, (sign op).toList = [d] → (d == c) = false := by
    intro d hd
    refine beq_false_of_ne ?_
    rintro rfl
    exact hsame hd
  cases op with
  | negate =>
    refine cuts_mark ?_ rfl rfl
    show mark? ('-' :: c :: cs) = some ['-']
    simp [mark?, marks, List.find?, List.isPrefixOf, hequals, hother '-' rfl]
  | plus =>
    refine cuts_mark ?_ rfl rfl
    show mark? ('+' :: c :: cs) = some ['+']
    simp [mark?, marks, List.find?, List.isPrefixOf, hequals, hother '+' rfl]
  | not =>
    refine cuts_mark ?_ rfl rfl
    show mark? ('!' :: c :: cs) = some ['!']
    simp [mark?, marks, List.find?, List.isPrefixOf, hequals]

/-- Two signs without a blank are a step. -/
theorem spoils_step : Spoils ('-' :: '-' :: cs) := by
  refine .first rfl fun t rest h => ?_
  have hstep : lexeme? ('-' :: '-' :: cs) = some (.mark ['-', '-'], cs) := rfl
  cases h
  rfl

/-- The point before the name of a field. -/
theorem cuts_point (hc : isNameStart c = true) : Cuts ('.' :: c :: cs) [.mark ['.']] (c :: cs) := by
  have hpoint : ('.' == c) = false := by
    refine beq_false_of_ne ?_
    rintro rfl
    cases hc
  have hnumber : numberLength ('.' :: c :: cs) = 0 := by
    simp [numberLength, runLength, isDigit_eq_false_of_isNameStart hc]
  have hmark : mark? ('.' :: c :: cs) = some ['.'] := by
    simp [mark?, marks, List.find?, List.isPrefixOf, hpoint]
  have hcuts : Cuts (['.'] ++ c :: cs) [.mark ['.']] (c :: cs) := cuts_mark hmark hnumber rfl
  exact hcuts

/-- Digits and a field. -/
theorem spoils_point (hcs : Digits cs) (hc : isNameStart c = true) :
    Spoils (cs ++ '.' :: c :: rest) := by
  obtain ⟨d, more, rfl⟩ := List.exists_cons_of_ne_nil hcs.1
  have hd : d.isWhitespace = false := by
    have hdigit := hcs.2 d List.mem_cons_self
    rw [Bool.eq_false_iff]
    intro hblank
    have hblank : d = ' ' ∨ d = '\t' ∨ d = '\r' ∨ d = '\n' := by
      simpa [Char.isWhitespace, or_assoc] using hblank
    rcases hblank with rfl | rfl | rfl | rfl <;> cases hdigit
  refine .first hd fun t rest h => ?_
  obtain ⟨text, rfl, hpoint⟩ :=
    lexeme?_point hcs hc (isDigit_eq_false_of_isNameStart hc) h
  exact hpoint

end FrameBasic.Script.Grammar
