import FrameBasic.Token.Lexeme

/-!
# How the language of the script reads expressions

A text is cut into lexemes, each the longest one that begins at its place, and the lexemes are put
together by precedence.  What is here is the part of the language that expressions without calls,
indices and assignments are written in: literals, names, fields, signs, steps and the operators
between two operands.

Two rules of this language are easily forgotten.  A point behind the digits of a number belongs to
the number, and a power does not take an operand that begins with a sign.

## Main definitions

* `Grammar.Lexeme`, `Grammar.lexeme?`, `Grammar.lex` — lexemes, the first one of a text, and all.
* `Grammar.Term` — expressions without their parentheses.
* `Grammar.unary`, `Grammar.factor`, `Grammar.expressionAt` — operands with what stands before them,
  powers, and the other operators.
* `Grammar.read` — the expression that a text is.

## Main results

* `Grammar.lex_lexeme`, `Grammar.lex_blank` — a text is cut from its start.
* `Grammar.read_lexemes` — **the expression that is read has the lexemes of the text**, besides the
  parentheses.
-/

namespace FrameBasic.Script.Grammar

/-! ### Lexemes -/

/-- A lexeme of the script. -/
inductive Lexeme where
  /-- A number, as it is written. -/
  | number (text : List Char)
  /-- A text, without its quotes and with its escapes resolved. -/
  | text (value : List Char)
  /-- A name or a reserved word. -/
  | word (name : String)
  /-- A mark. -/
  | mark (text : List Char)
deriving DecidableEq, Repr, Inhabited

/-- The marks, the longer ones first. -/
def marks : List (List Char) :=
  [ ['>', '>', '>', '='],
    ['.', '.', '.'], ['=', '=', '='], ['!', '=', '='], ['*', '*', '='], ['<', '<', '='],
    ['>', '>', '='], ['>', '>', '>'], ['&', '&', '='], ['|', '|', '='], ['?', '?', '='],
    ['<', '='], ['>', '='], ['=', '='], ['!', '='], ['*', '*'], ['+', '+'], ['-', '-'],
    ['<', '<'], ['>', '>'], ['&', '&'], ['|', '|'], ['?', '?'], ['?', '.'], ['=', '>'],
    ['+', '='], ['-', '='], ['*', '='], ['/', '='], ['%', '='], ['&', '='], ['|', '='], ['^', '='],
    ['('], [')'], ['['], [']'], ['\x7b'], ['\x7d'], ['.'], [','], [';'], [':'], ['?'], ['='],
    ['<'], ['>'], ['+'], ['-'], ['*'], ['/'], ['%'], ['&'], ['|'], ['^'], ['!'], ['~'] ]

/-- The longest mark at the start of a text. -/
def mark? (cs : List Char) : Option (List Char) :=
  marks.find? (·.isPrefixOf cs)

/-- A character that may begin a name. -/
def isNameStart (c : Char) : Bool :=
  Text.isWordStart c || c == '$'

/-- A character that may continue a name. -/
def isNamePart (c : Char) : Bool :=
  Text.isWordPart c || c == '$'

/-- The length of the longest number at the start of a text: digits, a point with or without digits
behind it, and an exponent.  Either digits or a point with digits have to be there. -/
def numberLength (cs : List Char) : Nat :=
  let whole := runLength Char.isDigit cs
  match cs.drop whole with
  | '.' :: after =>
    let places := runLength Char.isDigit after
    if whole = 0 ∧ places = 0 then 0
    else whole + 1 + places + exponentLength (after.drop places)
  | rest => if whole = 0 then 0 else whole + exponentLength rest

/-- Whether a digit follows on a zero at the start of a text. -/
def beginsOctal : List Char → Bool
  | '0' :: c :: _ => c.isDigit
  | _ => false

/-- A number, which no other digit and no name may follow directly. -/
def number? (cs : List Char) : Option (Lexeme × List Char) :=
  let rest := cs.drop (numberLength cs)
  if beginsOctal cs || rest.head?.any isNamePart then none
  else some (.number (cs.take (numberLength cs)), rest)

/-- The character that a letter behind a backslash stands for.  What has no meaning of its own stands
for itself; numbers are not among these. -/
def escape? (c : Char) : Option Char :=
  if c = 'n' then some '\n'
  else if c = 'r' then some '\r'
  else if c = 't' then some '\t'
  else if c = 'b' then some '\x08'
  else if c = 'v' then some '\x0b'
  else if c = 'f' then some '\x0c'
  else if c.isDigit ∨ c = 'x' ∨ c = 'u' ∨ c = '\n' ∨ c = '\r' then none
  else some c

/-- The character with a hexadecimal number. -/
def numbered? (digits : List Char) : Option Char :=
  (digits.mapM Text.hexValue?).map fun values =>
    Char.ofNat (values.foldl (fun n value => 16 * n + value) 0)

/-- The rest of a text from behind its first quote: what it stands for, and what follows. -/
def text? : List Char → Option (List Char × List Char)
  | [] => none
  | '\\' :: 'u' :: h₁ :: h₂ :: h₃ :: h₄ :: cs =>
    (numbered? [h₁, h₂, h₃, h₄]).bind fun c => (text? cs).map fun r => (c :: r.1, r.2)
  | '\\' :: c :: cs => (escape? c).bind fun c => (text? cs).map fun r => (c :: r.1, r.2)
  | c :: cs =>
    if c = '"' then some ([], cs)
    else if c = '\\' ∨ c = '\n' ∨ c = '\r' then none
    else (text? cs).map fun r => (c :: r.1, r.2)

/-- The first lexeme of a text that does not begin with a blank, and what follows. -/
def lexeme? (cs : List Char) : Option (Lexeme × List Char) :=
  match cs with
  | [] => none
  | c :: rest =>
    if 0 < numberLength cs then number? cs
    else if isNameStart c then
      some (.word (String.ofList (cs.takeWhile isNamePart)), cs.dropWhile isNamePart)
    else if c = '"' then (text? rest).map fun r => (.text r.1, r.2)
    else (mark? cs).map fun m => (.mark m, cs.drop m.length)

/-- The lexemes of a text of less than `n` characters. -/
def lexUpTo : Nat → List Char → Option (List Lexeme)
  | 0, _ => none
  | _ + 1, [] => some []
  | n + 1, c :: cs =>
    if c.isWhitespace then lexUpTo n cs
    else (lexeme? (c :: cs)).bind fun first => (lexUpTo n first.2).map (first.1 :: ·)

/-- The lexemes of a text, if it can be cut into such. -/
def lex (cs : List Char) : Option (List Lexeme) :=
  lexUpTo (cs.length + 1) cs

theorem length_of_text? {cs : List Char} : ∀ r : List Char × List Char,
    text? cs = some r → r.2.length < cs.length := by
  -- a character of the text and what the rest gives
  have hmap : ∀ {cs : List Char} {c : Char} {r : List Char × List Char},
      (∀ r : List Char × List Char, text? cs = some r → r.2.length < cs.length) →
      (text? cs).map (fun r => (c :: r.1, r.2)) = some r → r.2.length < cs.length := by
    intro cs c r ih h
    obtain ⟨tail, htail, rfl⟩ := Option.map_eq_some_iff.mp h
    exact ih tail htail
  fun_induction text? cs with
  | case1 => exact fun _ h => nomatch h
  | case2 h₁ h₂ h₃ h₄ cs ih | case3 c cs _ ih =>
    intro r h
    obtain ⟨c, -, h⟩ := Option.bind_eq_some_iff.mp h
    have := hmap ih h
    simp only [List.length_cons]
    omega
  | case4 cs =>
    intro r h
    cases h
    exact Nat.lt_succ_self _
  | case5 => exact fun _ h => nomatch h
  | case6 c cs _ _ _ _ ih =>
    intro r h
    exact Nat.lt_succ_of_lt (hmap ih h)

theorem length_pos_of_mark? {cs m : List Char} (h : mark? cs = some m) : 0 < m.length := by
  have hpos : ∀ m ∈ marks, 0 < m.length := by decide
  exact hpos m (List.mem_of_find?_eq_some h)

theorem isNamePart_of_isNameStart {c : Char} (h : isNameStart c = true) : isNamePart c = true := by
  simp only [isNameStart, isNamePart, Text.isWordStart, Text.isWordPart, Char.isAlphanum,
    Bool.or_eq_true] at h ⊢
  rcases h with (h | h) | h
  · exact .inl (.inl (.inl h))
  · exact .inl (.inr h)
  · exact .inr h

/-- A lexeme takes up at least one character. -/
theorem length_of_lexeme? {cs rest : List Char} {t : Lexeme} (h : lexeme? cs = some (t, rest)) :
    rest.length < cs.length := by
  cases cs with
  | nil => cases h
  | cons c cs =>
    have hlen : 0 < (c :: cs).length := Nat.succ_pos _
    unfold lexeme? at h
    dsimp only at h
    split at h
    · next hnumber =>
      unfold number? at h
      dsimp only at h
      split at h
      · cases h
      · cases h
        rw [List.length_drop]
        omega
    · split at h
      · next hname =>
        cases h
        rw [List.dropWhile_cons_of_pos (isNamePart_of_isNameStart hname), List.length_cons]
        exact Nat.lt_succ_of_le (List.dropWhile_sublist _).length_le
      · split at h
        · obtain ⟨r, hr, heq⟩ := Option.map_eq_some_iff.mp h
          cases heq
          exact Nat.lt_succ_of_lt (length_of_text? r hr)
        · obtain ⟨m, hm, heq⟩ := Option.map_eq_some_iff.mp h
          cases heq
          have hpos := length_pos_of_mark? hm
          rw [List.length_drop]
          omega

/-- A bound that is large enough does not matter. -/
theorem lexUpTo_congr (n : Nat) : ∀ (m : Nat) (cs : List Char), cs.length < n → cs.length < m →
    lexUpTo n cs = lexUpTo m cs := by
  induction n with
  | zero => exact fun m cs hn => absurd hn (Nat.not_lt_zero _)
  | succ n ih =>
    intro m cs hn hm
    cases m with
    | zero => exact absurd hm (Nat.not_lt_zero _)
    | succ m =>
      cases cs with
      | nil => rfl
      | cons c cs =>
        rw [List.length_cons] at hn hm
        unfold lexUpTo
        split
        · exact ih m cs (by omega) (by omega)
        · cases hfirst : lexeme? (c :: cs) with
          | none => rfl
          | some first =>
            have hlen := length_of_lexeme? hfirst
            rw [List.length_cons] at hlen
            simp only [Option.bind_some]
            rw [ih m first.2 (by omega) (by omega)]

theorem lex_nil : lex [] = some [] := rfl

theorem lex_blank (cs : List Char) : lex (' ' :: cs) = lex cs := rfl

theorem lex_cons {c : Char} {cs : List Char} (hc : c.isWhitespace = false) :
    lex (c :: cs) = (lexeme? (c :: cs)).bind fun first => (lex first.2).map (first.1 :: ·) := by
  unfold lex
  rw [List.length_cons, lexUpTo, hc]
  simp only [Bool.false_eq_true, if_false]
  cases hfirst : lexeme? (c :: cs) with
  | none => rfl
  | some first =>
    have hlen := length_of_lexeme? hfirst
    simp only [Option.bind_some]
    rw [lexUpTo_congr (cs.length + 1) _ _ hlen (Nat.lt_succ_self _)]

/-! ### Expressions -/

/-- An expression, without its parentheses. -/
inductive Term where
  /-- A literal or a name. -/
  | leaf (lexeme : Lexeme)
  /-- A field of an object. -/
  | field (object : Term) (name : String)
  /-- A sign before an operand. -/
  | signed (sign : List Char) (operand : Term)
  /-- A step of a variable or a field, before or behind its use. -/
  | step (before : Bool) (mark : List Char) (target : Term)
  /-- Two operands with an operator between them. -/
  | binary (left : Term) (operator : List Char) (right : Term)
deriving DecidableEq, Repr, Inhabited

namespace Term

/-- The lexemes of an expression, without parentheses. -/
def lexemes : Term → List Lexeme
  | leaf lexeme => [lexeme]
  | field object name => object.lexemes ++ [.mark ['.'], .word name]
  | signed sign operand => .mark sign :: operand.lexemes
  | step true mark target => .mark mark :: target.lexemes
  | step false mark target => target.lexemes ++ [.mark mark]
  | binary left operator right => left.lexemes ++ .mark operator :: right.lexemes

/-- The words that are values. -/
def constants : List String :=
  ["true", "false", "null", "this"]

/-- Whether a step can be made: a variable or a field. -/
def isTarget : Term → Bool
  | leaf (.word name) => !constants.contains name
  | field .. => true
  | _ => false

end Term

/-- The reserved words that begin no expression of this part of the language. -/
def keywords : List String :=
  [ "await", "break", "case", "catch", "class", "const", "continue", "debugger", "default",
    "delete", "do", "else", "enum", "export", "extends", "finally", "for", "function", "if",
    "implements", "import", "in", "instanceof", "interface", "let", "new", "package", "private",
    "protected", "public", "return", "static", "super", "switch", "throw", "try", "typeof", "var",
    "void", "while", "with", "yield" ]

/-- The signs. -/
def signs : List (List Char) :=
  [['+'], ['-'], ['!'], ['~']]

/-- The marks of steps. -/
def steps : List (List Char) :=
  [['+', '+'], ['-', '-']]

/-- The operators between two operands from the loosest to the tightest, without the power. -/
def tiers : List (List (List Char)) :=
  [ [['|', '|']],
    [['&', '&']],
    [['|']],
    [['^']],
    [['&']],
    [['=', '='], ['!', '='], ['=', '=', '='], ['!', '=', '=']],
    [['<'], ['>'], ['<', '='], ['>', '=']],
    [['<', '<'], ['>', '>'], ['>', '>', '>']],
    [['+'], ['-']],
    [['*'], ['/'], ['%']] ]

/-- The tier of an operator. -/
def tier? (m : List Char) : Option Nat :=
  tiers.findIdx? (·.contains m)

/-- A reader gives an expression and the lexemes behind it. -/
abbrev Reader := List Lexeme → Option (Term × List Lexeme)

/-- The fields behind an object. -/
def fields : Term → List Lexeme → Term × List Lexeme
  | object, .mark ['.'] :: .word name :: ts => fields (.field object name) ts
  | object, ts => (object, ts)

section Operands

variable (inner : Nat → Reader)

/-- A literal, a name, or an expression in parentheses. -/
def primary : Reader
  | .number text :: ts => some (.leaf (.number text), ts)
  | .text value :: ts => some (.leaf (.text value), ts)
  | .word name :: ts => if keywords.contains name then none else some (.leaf (.word name), ts)
  | .mark m :: ts =>
    if m = ['('] then
      (inner 0 ts).bind fun r =>
        match r.2 with
        | .mark [')'] :: rest => some (r.1, rest)
        | _ => none
    else none
  | [] => none

/-- An operand with its fields. -/
def object (ts : List Lexeme) : Option (Term × List Lexeme) :=
  (primary inner ts).map fun r => fields r.1 r.2

/-- An operand with its fields and a step behind it. -/
def stepped (ts : List Lexeme) : Option (Term × List Lexeme) :=
  (object inner ts).bind fun r =>
    match r.2 with
    | .mark m :: rest =>
      if m ∉ steps then some r
      else if r.1.isTarget then some (.step false m r.1, rest) else none
    | _ => some r

/-- An operand with what stands before it. -/
def unary : Reader
  | .mark m :: ts =>
    if m ∈ signs then (unary ts).map fun r => (.signed m r.1, r.2)
    else if m ∈ steps then
      (unary ts).bind fun r => if r.1.isTarget then some (.step true m r.1, r.2) else none
    else stepped inner (.mark m :: ts)
  | ts => stepped inner ts

/-- Whether a sign comes first. -/
def beginsSigned : List Lexeme → Bool
  | .mark m :: _ => signs.contains m
  | _ => false

/-- A power, whose right operand may be one.  Its left operand must not begin with a sign. -/
def factor (ts : List Lexeme) : Option (Term × List Lexeme) :=
  (unary inner ts).bind fun r =>
    match r.2 with
    | .mark ['*', '*'] :: rest =>
      if beginsSigned ts then none
      else (inner tiers.length rest).map fun r' => (.binary r.1 ['*', '*'] r'.1, r'.2)
    | _ => some r

/-- The operators of a tier or of tighter ones behind an operand. -/
def climb (tier : Nat) : Nat → Term → Reader
  | 0, _, _ => none
  | rounds + 1, left, ts =>
    match ts with
    | .mark m :: rest =>
      match tier? m with
      | some place =>
        if tier ≤ place then
          (inner (place + 1) rest).bind fun r => climb tier rounds (.binary left m r.1) r.2
        else some (left, ts)
      | none => some (left, ts)
    | _ => some (left, ts)

end Operands

/-- An expression with operators of a tier or of tighter ones, whose parts are nested less than `n`
deep. -/
def expressionAt : Nat → Nat → Reader
  | 0, _, _ => none
  | n + 1, tier, ts =>
    (factor (expressionAt n) ts).bind fun r =>
      climb (expressionAt n) tier (r.2.length + 1) r.1 r.2

/-- The expression that a text is. -/
def read (cs : List Char) : Option Term :=
  (lex cs).bind fun ts =>
    (expressionAt (ts.length + 1) 0 ts).bind fun r => if r.2 = [] then some r.1 else none

/-! ### Nothing is lost -/

/-- A lexeme that is no parenthesis. -/
def isKept (t : Lexeme) : Bool :=
  t ≠ .mark ['('] && t ≠ .mark [')']

/-- The lexemes besides parentheses. -/
def kept (ts : List Lexeme) : List Lexeme :=
  ts.filter isKept

theorem kept_cons {t : Lexeme} (h : isKept t = true) (ts : List Lexeme) :
    kept (t :: ts) = t :: kept ts :=
  List.filter_cons_of_pos h

theorem kept_drop {t : Lexeme} (h : isKept t = false) (ts : List Lexeme) :
    kept (t :: ts) = kept ts := by
  refine List.filter_cons_of_neg ?_
  rw [h]
  exact Bool.false_ne_true

theorem kept_mark {m : List Char} {ms : List (List Char)} (hmem : m ∈ ms)
    (h : ∀ m ∈ ms, isKept (.mark m) = true) (ts : List Lexeme) :
    kept (.mark m :: ts) = .mark m :: kept ts :=
  kept_cons (h m hmem) ts

/-- What a reader gives has the lexemes that it passed. -/
def Keeps (p : Reader) : Prop :=
  ∀ ts r, p ts = some r → kept ts = r.1.lexemes ++ kept r.2

theorem kept_fields (object : Term) (ts : List Lexeme) :
    object.lexemes ++ kept ts = (fields object ts).1.lexemes ++ kept (fields object ts).2 := by
  fun_induction fields object ts with
  | case1 object name ts ih =>
    rw [← ih, kept_cons rfl, kept_cons rfl, Term.lexemes, List.append_assoc]
    rfl
  | case2 => rfl

section Operands

variable {inner : Nat → Reader} (hinner : ∀ tier, Keeps (inner tier))
include hinner

theorem primary_keeps : Keeps (primary inner) := by
  intro ts r h
  unfold primary at h
  split at h
  · cases h
    exact kept_cons rfl _
  · cases h
    exact kept_cons rfl _
  · split at h
    · cases h
    · cases h
      exact kept_cons rfl _
  · split at h
    · next hm =>
      obtain ⟨r', hinside, h⟩ := Option.bind_eq_some_iff.mp h
      split at h
      · next rest hrest =>
        cases h
        rw [hm, kept_drop rfl, hinner 0 _ _ hinside, hrest, kept_drop rfl]
      · cases h
    · cases h
  · cases h

theorem object_keeps : Keeps (object inner) := by
  intro ts r h
  obtain ⟨r', hprimary, rfl⟩ := Option.map_eq_some_iff.mp h
  rw [primary_keeps hinner ts r' hprimary]
  exact kept_fields r'.1 r'.2

theorem stepped_keeps : Keeps (stepped inner) := by
  intro ts r h
  obtain ⟨r', hobject, h⟩ := Option.bind_eq_some_iff.mp h
  have hkept := object_keeps hinner ts r' hobject
  split at h
  · next m rest hrest =>
    split at h
    · cases h
      exact hkept
    · next hm =>
      split at h
      · cases h
        rw [hkept, hrest, kept_mark (Decidable.not_not.mp hm) (by decide),
          Term.lexemes, List.append_assoc]
        rfl
      · cases h
  · cases h
    exact hkept

theorem unary_keeps : Keeps (unary inner) := by
  intro ts
  fun_induction unary inner ts with
  | case1 m ts hm ih =>
    intro r h
    obtain ⟨r', hoperand, rfl⟩ := Option.map_eq_some_iff.mp h
    rw [kept_mark hm (by decide), ih r' hoperand, Term.lexemes, List.cons_append]
  | case2 m ts _ hm ih =>
    intro r h
    obtain ⟨r', htarget, h⟩ := Option.bind_eq_some_iff.mp h
    split at h
    · cases h
      rw [kept_mark hm (by decide), ih r' htarget, Term.lexemes, List.cons_append]
    · cases h
  | case3 m ts | case4 ts => exact stepped_keeps hinner _

theorem factor_keeps : Keeps (factor inner) := by
  intro ts r h
  obtain ⟨r', hunary, h⟩ := Option.bind_eq_some_iff.mp h
  have hkept := unary_keeps hinner ts r' hunary
  split at h
  · next rest hrest =>
    split at h
    · cases h
    · obtain ⟨right, hright, rfl⟩ := Option.map_eq_some_iff.mp h
      rw [hkept, hrest, kept_cons rfl, hinner _ _ _ hright, Term.lexemes, List.append_assoc]
      rfl
  · cases h
    exact hkept

theorem climb_keeps (tier rounds : Nat) : ∀ (left : Term) (ts : List Lexeme)
    (r : Term × List Lexeme), climb inner tier rounds left ts = some r →
    left.lexemes ++ kept ts = r.1.lexemes ++ kept r.2 := by
  have htier : ∀ {m place}, tier? m = some place → m ∈ tiers.flatten := by
    intro m place h
    obtain ⟨hlt, hmem, -⟩ := List.findIdx?_eq_some_iff_getElem.mp h
    exact List.mem_flatten.mpr ⟨_, List.getElem_mem hlt, List.contains_iff_mem.mp hmem⟩
  induction rounds with
  | zero => exact fun _ _ _ h => nomatch h
  | succ rounds ih =>
    intro left ts r h
    unfold climb at h
    split at h
    · next m rest =>
      split at h
      · next place hplace =>
        split at h
        · obtain ⟨right, hright, h⟩ := Option.bind_eq_some_iff.mp h
          rw [kept_mark (htier hplace) (by decide), hinner _ _ _ hright, ← ih _ _ _ h, Term.lexemes,
            List.append_assoc]
          rfl
        · cases h
          rfl
      · cases h
        rfl
    · cases h
      rfl

end Operands

theorem expressionAt_keeps (n : Nat) : ∀ tier, Keeps (expressionAt n tier) := by
  induction n with
  | zero => exact fun _ _ _ h => nomatch h
  | succ n ih =>
    intro tier ts r h
    obtain ⟨left, hleft, h⟩ := Option.bind_eq_some_iff.mp h
    rw [factor_keeps ih _ _ hleft]
    exact climb_keeps ih _ _ _ _ _ h

/-- The expression that is read has the lexemes of the text, besides parentheses. -/
theorem read_lexemes {cs : List Char} {t : Term} (h : read cs = some t) :
    ∃ ts, lex cs = some ts ∧ t.lexemes = kept ts := by
  obtain ⟨ts, hts, h⟩ := Option.bind_eq_some_iff.mp h
  obtain ⟨r, hr, h⟩ := Option.bind_eq_some_iff.mp h
  have hkept := expressionAt_keeps _ _ _ _ hr
  split at h
  · next hrest =>
    cases h
    rw [hrest] at hkept
    exact ⟨ts, hts, (hkept.trans (List.append_nil _)).symm⟩
  · cases h

end FrameBasic.Script.Grammar
