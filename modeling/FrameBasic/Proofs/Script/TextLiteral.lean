import FrameBasic.Proofs.Script.Grammar
import FrameBasic.Script.Literal

/-!
# Texts between quotes

A text of the script is a row of units of 16 bits.  Between the quotes every character stands for
its units, and a backslash for what its escape says.  This is the whole language of such literals,
and not only the part of it that is written.

## Main definitions

* `TextLiteral.codeUnits`, `TextLiteral.units` — the units of a code point and of a text.
* `TextLiteral.escape?` — the units that an escape stands for.
* `TextLiteral.read?` — the units of the literal that a script begins with, and what follows it.

## Main results

* `TextLiteral.inside?_escapeChar` — the spelling of one character is read as this character.
* `TextLiteral.units_inj` — the units determine the text.
* `TextLiteral.read?_quoted` — **what is written is read back**, whatever follows in the script.
-/

namespace FrameBasic.Script.TextLiteral

/-! ### The language of literals -/

/-- The units of a code point: one, or a pair of surrogates. -/
def codeUnits (n : Nat) : List Nat :=
  if n < 0x10000 then [n]
  else [0xD800 + (n - 0x10000) / 0x400, 0xDC00 + (n - 0x10000) % 0x400]

/-- The units of a text. -/
def units (cs : List Char) : List Nat :=
  cs.flatMap fun c => codeUnits c.toNat

/-- A line end of the script. -/
def isLineEnd (c : Char) : Bool :=
  c == '\n' || c == '\r' || c == '\u2028' || c == '\u2029'

/-- The number that at least one hexadecimal digit spells. -/
def hexNumber? (digits : List Char) : Option Nat :=
  if digits = [] then none
  else (digits.mapM Text.hexValue?).map fun values =>
    values.foldl (fun n value => 16 * n + value) 0

/-- An escape by a number with `width` digits. -/
def numbered? (width : Nat) (cs : List Char) : Option (List Nat × Nat) :=
  if cs.length < width then none
  else (hexNumber? (cs.take width)).map fun n => (codeUnits n, 1 + width)

/-- An escape by a code point between braces, from behind the opening one. -/
def braced? (cs : List Char) : Option (List Nat × Nat) :=
  let digits := cs.takeWhile (· != '\x7d')
  if cs.length = digits.length then none
  else ((hexNumber? digits).filter (· < 0x110000)).map fun n => (codeUnits n, digits.length + 3)

/-- What the text behind a backslash stands for, and how many characters belong to the escape.  A
line end behind a backslash stands for nothing. -/
def escape? : List Char → Option (List Nat × Nat)
  | [] => none
  | c :: cs =>
    if c = 'x' then numbered? 2 cs
    else if c = 'u' then if cs.head? = some '\x7b' then braced? cs.tail else numbered? 4 cs
    else if c = '0' ∧ cs.head?.any Char.isDigit = false then some ([0], 1)
    else if c = '\r' ∧ cs.head? = some '\n' then some ([], 2)
    else if isLineEnd c then some ([], 1)
    else (Grammar.escape? c).map fun c => (codeUnits c.toNat, 1)

/-- The rest of a literal from behind its first quote: its units, and what follows it.  There is none
if the script or its line ends too soon, or if a backslash begins no escape. -/
def inside? (cs : List Char) : Option (List Nat × List Char) :=
  match cs with
  | [] => none
  | c :: cs =>
    if c = '"' then some ([], cs)
    else if c = '\n' ∨ c = '\r' then none
    else if c = '\\' then
      (escape? cs).bind fun e => (inside? (cs.drop e.2)).map fun r => (e.1 ++ r.1, r.2)
    else (inside? cs).map fun r => (codeUnits c.toNat ++ r.1, r.2)
termination_by cs.length
decreasing_by
  all_goals simp; try omega

/-- The units of the literal that a script begins with, and what follows it. -/
def read? (cs : List Char) : Option (List Nat × List Char) :=
  if cs.head? = some '"' then inside? cs.tail else none

/-! ### Reading one character -/

theorem inside?_escape {cs : List Char} {us : List Nat} {n : Nat} (h : escape? cs = some (us, n)) :
    inside? ('\\' :: cs) = (inside? (cs.drop n)).map fun r => (us ++ r.1, r.2) := by
  rw [inside?, if_neg (by decide), if_neg (by decide), if_pos rfl, h]
  rfl

theorem inside?_single {c e : Char} (h : ∀ cs, escape? (e :: cs) = some (codeUnits c.toNat, 1))
    (cs : List Char) :
    inside? (['\\', e] ++ cs) = (inside? cs).map fun r => (codeUnits c.toNat ++ r.1, r.2) :=
  inside?_escape (h cs)

/-- Control characters are written with four digits. -/
theorem hexNumber?_padZeros : ∀ n < 160,
    hexNumber? (Text.padZeros 4 (Text.hexDigits n)) = some n ∧
      (Text.padZeros 4 (Text.hexDigits n)).length = 4 ∧
      (Text.padZeros 4 (Text.hexDigits n)).head? ≠ some '\x7b' ∧
      (Text.padZeros 4 (Text.hexDigits n)).all (fun d => !Text.isControl d) = true := by
  decide +kernel

theorem toNat_lt_of_isControl {c : Char} (h : Text.isControl c = true) : c.toNat < 160 := by
  simp only [Text.isControl, Bool.or_eq_true, Bool.and_eq_true, decide_eq_true_eq] at h
  omega

/-- The escape of a control character, whatever follows. -/
theorem escape?_number {n : Nat} (h : n < 160) (cs : List Char) :
    escape? ('u' :: Text.padZeros 4 (Text.hexDigits n) ++ cs) = some ([n], 5) := by
  obtain ⟨hvalue, hlength, hhead, -⟩ := hexNumber?_padZeros n h
  generalize Text.padZeros 4 (Text.hexDigits n) = digits at hvalue hlength hhead
  have hbrace : (digits ++ cs).head? ≠ some '\x7b' := by
    cases digits with
    | nil => cases hlength
    | cons d digits => exact hhead
  have hunit : codeUnits n = [n] := if_pos (by omega)
  rw [List.cons_append, escape?, if_neg (by decide), if_pos rfl, if_neg hbrace, numbered?,
    if_neg (by simp [hlength]), List.take_append_of_le_length (by omega),
    List.take_of_length_le (by omega), hvalue, Option.map_some, hunit]

theorem inside?_escapeChar (c : Char) (cs : List Char) :
    inside? (escapeChar c ++ cs) =
      (inside? cs).map fun r => (codeUnits c.toNat ++ r.1, r.2) := by
  unfold escapeChar
  -- the characters that have an escape of their own
  iterate 5
    split
    · next h => subst h; exact inside?_single (fun _ => rfl) cs
  split
  · next hcontrol =>
    have hsmall := toNat_lt_of_isControl hcontrol
    have hunit : codeUnits c.toNat = [c.toNat] := if_pos (by omega)
    rw [List.cons_append, inside?_escape (escape?_number hsmall cs), hunit]
    congr 2
    exact List.drop_left' (by simp [(hexNumber?_padZeros _ hsmall).2.1])
  · next hquote hslash hfeed hreturn _ _ =>
    rw [List.singleton_append, inside?, if_neg hquote, if_neg (not_or.mpr ⟨hfeed, hreturn⟩),
      if_neg hslash]

theorem all_escapeChar (c : Char) : (escapeChar c).all (fun d => !Text.isControl d) = true := by
  unfold escapeChar
  iterate 5
    split
    · rfl
  split
  · next hcontrol => exact (hexNumber?_padZeros _ (toNat_lt_of_isControl hcontrol)).2.2.2
  · next hcontrol => simpa using hcontrol

/-! ### Reading a text -/

theorem inside?_quoted (cs rest : List Char) :
    inside? (cs.flatMap escapeChar ++ '"' :: rest) = some (units cs, rest) := by
  induction cs with
  | nil => rw [List.flatMap_nil, List.nil_append, inside?, if_pos rfl]; rfl
  | cons c cs ih =>
    rw [List.flatMap_cons, List.append_assoc, inside?_escapeChar, ih]
    rfl

/-- The units of a code point are no beginning of those of another one. -/
theorem codeUnits_append_inj {c d : Char} {us vs : List Nat}
    (h : codeUnits c.toNat ++ us = codeUnits d.toNat ++ vs) : c = d ∧ us = vs := by
  have hc := c.valid
  have hd := d.valid
  change c.toNat < 0xD800 ∨ 0xDFFF < c.toNat ∧ c.toNat < 0x110000 at hc
  change d.toNat < 0xD800 ∨ 0xDFFF < d.toNat ∧ d.toNat < 0x110000 at hd
  rw [← Char.toNat_inj]
  unfold codeUnits at h
  -- no character has the number of a surrogate, so a single unit is not the first of a pair
  split at h <;> split at h <;>
    simp only [List.cons_append, List.nil_append, List.cons.injEq] at h
  · exact h
  · omega
  · omega
  · exact ⟨by omega, h.2.2⟩

theorem units_inj {cs ds : List Char} (h : units cs = units ds) : cs = ds := by
  have hne : ∀ (d : Char) (ds : List Char), units (d :: ds) ≠ [] := by
    intro d ds hnil
    have hunits : codeUnits d.toNat = [] := (List.append_eq_nil_iff.mp hnil).1
    unfold codeUnits at hunits
    split at hunits <;> cases hunits
  induction cs generalizing ds with
  | nil =>
    cases ds with
    | nil => rfl
    | cons d ds => exact absurd h.symm (hne d ds)
  | cons c cs ih =>
    cases ds with
    | nil => exact absurd h (hne c cs)
    | cons d ds =>
      obtain ⟨rfl, hrest⟩ := codeUnits_append_inj h
      rw [ih hrest]

/-- **The literal of a text is read as this text and no other**, and what follows it in the script is
left as it is.  A literal has no control character. -/
theorem read?_quoted (s : String) :
    (∀ c ∈ (quoted s).toList, Text.isControl c = false) ∧
      ∀ (t : String) (rest : List Char),
        read? ((quoted s).toList ++ rest) = some (units t.toList, rest) ↔ t = s := by
  have hquoted : (quoted s).toList = '"' :: (s.toList.flatMap escapeChar ++ ['"']) := by
    simp [quoted]
  rw [hquoted]
  constructor
  · have hall : ('"' :: (s.toList.flatMap escapeChar ++ ['"'])).all
        (fun d => !Text.isControl d) = true := by
      have hquote : Text.isControl '"' = false := rfl
      simp [List.all_flatMap, all_escapeChar, hquote]
    intro c hc
    simpa using List.all_eq_true.mp hall c hc
  · intro t rest
    have hread : read? ('"' :: (s.toList.flatMap escapeChar ++ ['"']) ++ rest) =
        some (units s.toList, rest) := by
      rw [read?, List.cons_append, List.append_assoc]
      exact (if_pos rfl).trans (inside?_quoted s.toList rest)
    rw [hread]
    constructor
    · intro h
      exact String.toList_inj.mp (units_inj (congrArg Prod.fst (Option.some.inj h)).symm)
    · rintro rfl
      rfl

end FrameBasic.Script.TextLiteral
