import FrameBasic.Proofs.Script.Grammar
import FrameBasic.Script.Literal

/-!
# How numbers are written

The numbers of a program are written as numerals of the script's language: digits without a zero in
front, a point with digits behind it, and an exponent.  The last two may be missing, and a numeral
without both is *bare*: a point that follows on it would be taken for its own.

## Main definitions

* `Grammar.Numeral` — a numeral in its three parts.
* `Grammar.Numeral.IsBare` — it has digits only.
* `Grammar.hasBarePoint` — a point stands in a text without a digit behind it.

## Main results

* `Grammar.lexeme?_numeral` — a numeral is one lexeme, if nothing follows that belongs to it.
* `Grammar.lexeme?_point` — digits and a field are no two lexemes.
* `exists_numeral_nat`, `exists_numeral_float` — the spellings of numbers are numerals.
-/

namespace FrameBasic.Script.Grammar

/-! ### Numerals -/

/-- Digits, at least one. -/
def Digits (cs : List Char) : Prop :=
  cs ≠ [] ∧ ∀ c ∈ cs, c.isDigit = true

/-- A numeral in its three parts. -/
structure Numeral where
  /-- The digits before the point. -/
  whole : List Char
  /-- The point and the digits behind it, if there are any. -/
  fraction : List Char
  /-- The exponent with its letter, if there is one. -/
  exponent : List Char
  /-- There are digits before the point. -/
  digits_whole : Digits whole
  /-- No other digit follows on a zero in front. -/
  beginsOctal_whole : beginsOctal whole = false
  /-- There are digits behind a point. -/
  fraction_eq : fraction = [] ∨ ∃ places, fraction = '.' :: places ∧ Digits places
  /-- There are digits in an exponent, and at most a sign. -/
  exponent_eq : exponent = [] ∨
    ∃ digits, (exponent = 'e' :: digits ∨ exponent = 'e' :: '-' :: digits) ∧ Digits digits

namespace Numeral

/-- The text of a numeral. -/
def text (n : Numeral) : List Char :=
  n.whole ++ (n.fraction ++ n.exponent)

/-- The numeral has digits only. -/
def IsBare (n : Numeral) : Prop :=
  n.fraction = [] ∧ n.exponent = []

end Numeral

/-- The text does not go on with a character of the kind. -/
def Stops (p : Char → Bool) (rest : List Char) : Prop :=
  rest.head?.any p = false

variable {p : Char → Bool} {c : Char} {cs rest : List Char}

theorem stops_cons : Stops p (c :: cs) ↔ p c = false := by
  simp [Stops]

theorem Stops.imp {q : Char → Bool} (h : Stops p rest) (hq : ∀ c, q c = true → p c = true) :
    Stops q rest := by
  cases rest with
  | nil => rfl
  | cons c cs =>
    rw [stops_cons, Bool.eq_false_iff] at h ⊢
    exact fun hc => h (hq c hc)

theorem isNamePart_of_isDigit (h : c.isDigit = true) : isNamePart c = true := by
  simp [isNamePart, Text.isWordPart, Char.isAlphanum, h]

/-- Names stop where digits do. -/
theorem Stops.isDigit (h : Stops isNamePart rest) : Stops Char.isDigit rest :=
  h.imp fun _ => isNamePart_of_isDigit

theorem runLength_append_of_stops (h : ∀ c ∈ cs, p c = true) (hrest : Stops p rest) :
    runLength p (cs ++ rest) = cs.length := by
  have htail : rest.takeWhile p = [] := by
    cases rest with
    | nil => rfl
    | cons c rest => rw [List.takeWhile_cons, stops_cons.mp hrest]; rfl
  unfold runLength
  rw [List.takeWhile_append_of_pos h, htail, List.append_nil]

theorem beginsOctal_append (h : beginsOctal cs = false) (hcs : cs ≠ [])
    (hrest : Stops Char.isDigit rest) : beginsOctal (cs ++ rest) = false := by
  match cs with
  | [] => exact absurd rfl hcs
  | [c] =>
    cases rest with
    | nil => exact h
    | cons d rest =>
      have hd := stops_cons.mp hrest
      unfold beginsOctal
      split
      · next heq =>
        cases heq
        exact hd
      · rfl
  | c :: d :: more =>
    unfold beginsOctal at h ⊢
    split at h
    · next heq =>
      cases heq
      exact h
    · next hne =>
      split
      · next heq =>
        cases heq
        exact absurd rfl (hne _ _)
      · rfl

/-- The rest of a numeral from its exponent on. -/
theorem exponentLength_numeral (n : Numeral) (hrest : Stops isNamePart rest) :
    exponentLength (n.exponent ++ rest) = n.exponent.length := by
  rcases n.exponent_eq with h | ⟨digits, h | h, hdigits⟩
  · rw [h]
    cases rest with
    | nil => rfl
    | cons c rest =>
      have hc := stops_cons.mp hrest
      have hletter : ¬ (c = 'e' ∨ c = 'E') := by
        rintro (rfl | rfl) <;> cases hc
      simp [exponentLength, hletter]
  · have hrun := runLength_append_of_stops hdigits.2 hrest.isDigit
    obtain ⟨d, more, rfl⟩ := List.exists_cons_of_ne_nil hdigits.1
    have hsign : ¬ (d = '+' ∨ d = '-') := by
      have hd := hdigits.2 d List.mem_cons_self
      rintro (rfl | rfl) <;> cases hd
    rw [h]
    rw [List.cons_append] at hrun
    simp [exponentLength, hsign, hrun]
    omega
  · have hrun := runLength_append_of_stops hdigits.2 hrest.isDigit
    rw [h]
    simp [exponentLength, hrun, hdigits.1]
    omega

theorem numberLength_point (hcs : Digits cs) :
    numberLength (cs ++ '.' :: rest) = cs.length + 1 + runLength Char.isDigit rest +
      exponentLength (rest.drop (runLength Char.isDigit rest)) := by
  have hstops : Stops Char.isDigit ('.' :: rest) := rfl
  have hpos := List.length_pos_iff.mpr hcs.1
  unfold numberLength
  dsimp only
  rw [runLength_append_of_stops hcs.2 hstops, List.drop_left]
  exact if_neg (by omega)

theorem numberLength_noPoint (hcs : Digits cs) (hrest : Stops Char.isDigit rest)
    (hpoint : rest.head? ≠ some '.') :
    numberLength (cs ++ rest) = cs.length + exponentLength rest := by
  have hpos := List.length_pos_iff.mpr hcs.1
  unfold numberLength
  dsimp only
  rw [runLength_append_of_stops hcs.2 hrest, List.drop_left]
  split
  · exact absurd rfl hpoint
  · exact if_neg (by omega)

theorem numberLength_numeral (n : Numeral) (hrest : Stops isNamePart rest)
    (hpoint : n.IsBare → rest.head? ≠ some '.') :
    numberLength (n.text ++ rest) = n.text.length := by
  have hexponent := exponentLength_numeral n hrest
  -- an exponent begins with a letter, which is neither a digit nor a point
  have hstops : Stops Char.isDigit (n.exponent ++ rest) ∧
      (n.fraction = [] → (n.exponent ++ rest).head? ≠ some '.') := by
    rcases n.exponent_eq with h | ⟨digits, h | h, -⟩
    · rw [h]
      exact ⟨hrest.isDigit, fun hfraction => hpoint ⟨hfraction, h⟩⟩
    · rw [h]
      exact ⟨rfl, fun _ => by simp⟩
    · rw [h]
      exact ⟨rfl, fun _ => by simp⟩
  unfold Numeral.text
  rw [List.append_assoc, List.append_assoc]
  rcases n.fraction_eq with h | ⟨places, h, hplaces⟩
  · rw [h, List.nil_append, numberLength_noPoint n.digits_whole hstops.1 (hstops.2 h), hexponent,
      List.nil_append, List.length_append]
  · rw [h, List.cons_append, numberLength_point n.digits_whole,
      runLength_append_of_stops hplaces.2 hstops.1, List.drop_left, hexponent]
    simp only [List.length_append, List.length_cons]
    omega

/-- A numeral is one lexeme, if what follows does not belong to it. -/
theorem lexeme?_numeral (n : Numeral) (hrest : Stops isNamePart rest)
    (hpoint : n.IsBare → rest.head? ≠ some '.') :
    lexeme? (n.text ++ rest) = some (.number n.text, rest) := by
  have hlength := numberLength_numeral n hrest hpoint
  obtain ⟨c, more, hwhole⟩ := List.exists_cons_of_ne_nil n.digits_whole.1
  have hpos : 0 < n.text.length := by
    unfold Numeral.text
    rw [hwhole]
    exact Nat.succ_pos _
  have hoctal : beginsOctal (n.text ++ rest) = false := by
    unfold Numeral.text
    rw [List.append_assoc]
    refine beginsOctal_append n.beginsOctal_whole n.digits_whole.1 ?_
    rcases n.fraction_eq with h | ⟨places, h, -⟩
    · rcases n.exponent_eq with h' | ⟨digits, h' | h', -⟩
      · rw [h, h']
        exact hrest.isDigit
      · rw [h, h']
        rfl
      · rw [h, h']
        rfl
    · rw [h]
      rfl
  have hnumber : number? (n.text ++ rest) = some (.number n.text, rest) := by
    unfold number?
    dsimp only
    rw [hlength, List.drop_left, List.take_left, hoctal, hrest]
    rfl
  have hcons : ∃ tail, n.text ++ rest = c :: tail := by
    unfold Numeral.text
    rw [hwhole]
    exact ⟨_, rfl⟩
  obtain ⟨tail, htail⟩ := hcons
  rw [htail] at hlength hnumber ⊢
  unfold lexeme?
  dsimp only
  rw [if_pos (by rw [hlength]; exact hpos), hnumber]

/-! ### Points without digits -/

/-- Whether a point stands in the text without a digit right behind it. -/
def hasBarePoint : List Char → Bool
  | '.' :: c :: cs => !c.isDigit || hasBarePoint (c :: cs)
  | _ :: cs => hasBarePoint cs
  | [] => false

theorem hasBarePoint_append (h : ∀ c ∈ cs, c.isDigit = true) :
    hasBarePoint (cs ++ rest) = hasBarePoint rest := by
  induction cs with
  | nil => rfl
  | cons c cs ih =>
    have hc : c ≠ '.' := by
      rintro rfl
      exact absurd (h '.' List.mem_cons_self) (by decide)
    rw [List.cons_append, hasBarePoint]
    · exact ih fun d hd => h d (List.mem_cons_of_mem _ hd)
    · exact fun _ _ hcs _ => hc hcs

theorem hasBarePoint_numeral (n : Numeral) : hasBarePoint n.text = false := by
  have hnone : ∀ {digits}, Digits digits → hasBarePoint digits = false := by
    intro digits hdigits
    rw [← List.append_nil digits, hasBarePoint_append hdigits.2]
    rfl
  have hexponent : hasBarePoint n.exponent = false := by
    rcases n.exponent_eq with h | ⟨digits, h | h, hdigits⟩
    · rw [h]
      rfl
    · rw [h, ← hnone hdigits]
      rfl
    · rw [h, ← hnone hdigits]
      rfl
  unfold Numeral.text
  rw [hasBarePoint_append n.digits_whole.2]
  rcases n.fraction_eq with h | ⟨places, h, hplaces⟩
  · rw [h]
    exact hexponent
  · obtain ⟨d, more, rfl⟩ := List.exists_cons_of_ne_nil hplaces.1
    have hpoint : hasBarePoint ('.' :: d :: more ++ n.exponent) =
        (!d.isDigit || hasBarePoint (d :: more ++ n.exponent)) := rfl
    rw [h, hpoint, hasBarePoint_append hplaces.2, hexponent, hplaces.2 d List.mem_cons_self]
    rfl

/-- Digits and a field are no two lexemes: either nothing can be read, or the point is taken for a
part of the number. -/
theorem lexeme?_point {t : Lexeme} {tail : List Char} (hcs : Digits cs) (hc : isNameStart c = true)
    (hdigit : c.isDigit = false) (h : lexeme? (cs ++ '.' :: c :: tail) = some (t, rest)) :
    ∃ text, t = .number text ∧ hasBarePoint text = true := by
  have hlength : numberLength (cs ++ '.' :: c :: tail) =
      cs.length + 1 + exponentLength (c :: tail) := by
    have hplaces : runLength Char.isDigit (c :: tail) = 0 := by
      simp [runLength, hdigit]
    rw [numberLength_point hcs, hplaces, List.drop_zero, Nat.add_zero]
  have hnumber : number? (cs ++ '.' :: c :: tail) = some (t, rest) := by
    obtain ⟨d, more, rfl⟩ := List.exists_cons_of_ne_nil hcs.1
    rw [List.cons_append] at h hlength ⊢
    unfold lexeme? at h
    dsimp only at h
    rwa [if_pos (by omega)] at h
  unfold number? at hnumber
  dsimp only at hnumber
  rw [hlength] at hnumber
  split at hnumber
  · cases hnumber
  · next hrest =>
    cases hnumber
    refine ⟨_, rfl, ?_⟩
    -- without an exponent the name follows directly
    have hexponent : exponentLength (c :: tail) ≠ 0 := by
      intro hzero
      rw [hzero, Nat.add_zero, List.drop_append, List.drop_of_length_le (Nat.le_succ _)] at hrest
      simp [isNamePart_of_isNameStart hc] at hrest
    obtain ⟨k, hk⟩ := Nat.exists_eq_succ_of_ne_zero hexponent
    rw [hk, List.take_append, List.take_of_length_le (by omega),
      show cs.length + 1 + (k + 1) - cs.length = k + 1 + 1 by omega, List.take_succ_cons,
      List.take_succ_cons, hasBarePoint_append hcs.2]
    have hpoint : hasBarePoint ('.' :: c :: tail.take k) =
        (!c.isDigit || hasBarePoint (c :: tail.take k)) := rfl
    rw [hpoint, hdigit]
    rfl

/-! ### Digits of numbers -/

theorem digits_digitText (n : Nat) : Digits (Decimal.digitText n) :=
  ⟨Nat.toDigits_ne_nil, fun _ => Nat.isDigit_of_mem_toDigits (by decide) (by decide)⟩

theorem Digits.head?_append (hcs : Digits cs) : (cs ++ rest).head? = cs.head? := by
  obtain ⟨c, more, rfl⟩ := List.exists_cons_of_ne_nil hcs.1
  rfl

theorem head?_digitText : ∀ {n : Nat}, n ≠ 0 → (Decimal.digitText n).head? ≠ some '0' := by
  intro n
  unfold Decimal.digitText
  -- the first digit of a number is the first one of its tenth
  induction n using Nat.strongRecOn with
  | ind n ih =>
    intro hn
    rw [Nat.toDigits_eq_if (by decide)]
    split
    · intro h
      exact hn (Nat.digitChar_eq_zero.mp (Option.some.inj h))
    · intro h
      refine ih (n / 10) (by omega) (by omega) ?_
      exact (digits_digitText (n / 10)).head?_append.symm.trans h

theorem beginsOctal_of_head? (h : cs.head? ≠ some '0') : beginsOctal cs = false := by
  unfold beginsOctal
  split
  · exact absurd rfl h
  · rfl

theorem beginsOctal_digitText (n : Nat) : beginsOctal (Decimal.digitText n) = false := by
  by_cases hn : n = 0
  · subst hn
    rfl
  · exact beginsOctal_of_head? (head?_digitText hn)

theorem Digits.append {more : List Char} (hcs : Digits cs) (hmore : ∀ c ∈ more, c.isDigit = true) :
    Digits (cs ++ more) :=
  ⟨List.append_ne_nil_of_left_ne_nil hcs.1 _, List.forall_mem_append.mpr ⟨hcs.2, hmore⟩⟩

theorem isDigit_of_mem_replicate {n : Nat} : ∀ c ∈ List.replicate n '0', c.isDigit = true := by
  intro c hc
  rw [List.eq_of_mem_replicate hc]
  rfl

end Grammar

open Grammar Decimal

/-- A natural number is written as a bare numeral. -/
theorem exists_numeral_nat (n : Nat) : ∃ numeral : Numeral,
    numeral.text = Nat.toDigits 10 n ∧ numeral.IsBare :=
  ⟨⟨digitText n, [], [], digits_digitText n, beginsOctal_digitText n, .inl rfl, .inl rfl⟩,
    List.append_nil _, rfl, rfl⟩

/-! ### Numbers with a fraction -/

/-- A figure without digits is not followed by zeros. -/
def Sparse (figure : Figure) : Prop :=
  figure.digits = 0 → figure.exponent ≤ 0

theorem exists_numeral_positional (pointed : Bool) {figure : Figure} (h : Sparse figure) :
    ∃ numeral : Numeral, numeral.text = positional pointed figure := by
  have hdigits := digits_digitText figure.digits
  unfold positional
  dsimp only
  split
  · -- zeros may stand behind the digits, but not behind a zero
    have hwhole : beginsOctal (digitText figure.digits ++
        List.replicate figure.exponent.toNat '0') = false := by
      by_cases hzero : figure.digits = 0
      · have hnone : figure.exponent.toNat = 0 := Int.toNat_of_nonpos (h hzero)
        rw [hnone, List.replicate_zero, List.append_nil]
        exact beginsOctal_digitText _
      · refine beginsOctal_of_head? ?_
        rw [hdigits.head?_append]
        exact head?_digitText hzero
    refine ⟨⟨_, if pointed then ['.', '0'] else [], [], hdigits.append isDigit_of_mem_replicate,
      hwhole, ?_, .inl rfl⟩, ?_⟩
    · split
      · exact .inr ⟨['0'], rfl, by decide, List.forall_mem_singleton.mpr rfl⟩
      · exact .inl rfl
    · unfold Numeral.text
      rw [List.append_nil]
  · next hnegative =>
    split
    · next hplaces =>
      have hsome : figure.digits ≠ 0 := by
        intro hzero
        rw [hzero] at hplaces
        have : (digitText 0).length = 1 := rfl
        omega
      refine ⟨⟨(digitText figure.digits).take ((digitText figure.digits).length -
          (-figure.exponent).toNat), '.' :: (digitText figure.digits).drop
          ((digitText figure.digits).length - (-figure.exponent).toNat), [], ?_, ?_,
          .inr ⟨_, rfl, ?_⟩,
          .inl rfl⟩, ?_⟩
      · refine ⟨fun hnil => ?_, fun c hc => hdigits.2 c (List.mem_of_mem_take hc)⟩
        have hlen := congrArg List.length hnil
        rw [List.length_take, List.length_nil] at hlen
        omega
      · refine beginsOctal_of_head? ?_
        rw [List.head?_take, if_neg (by omega)]
        exact head?_digitText hsome
      · refine ⟨fun hnil => ?_, fun c hc => hdigits.2 c (List.mem_of_mem_drop hc)⟩
        have hlen := congrArg List.length hnil
        rw [List.length_drop, List.length_nil] at hlen
        omega
      · unfold Numeral.text
        rw [List.append_nil]
    · refine ⟨⟨['0'], '.' :: (List.replicate ((-figure.exponent).toNat -
          (digitText figure.digits).length) '0' ++ digitText figure.digits), [],
          ⟨by decide, List.forall_mem_singleton.mpr rfl⟩, rfl, .inr ⟨_, rfl, ?_⟩, .inl rfl⟩, ?_⟩
      · refine ⟨List.append_ne_nil_of_right_ne_nil _ hdigits.1, ?_⟩
        exact List.forall_mem_append.mpr ⟨isDigit_of_mem_replicate, hdigits.2⟩
      · unfold Numeral.text
        rw [List.append_nil]
        rfl

theorem exists_numeral_scientific (figure : Figure) :
    ∃ numeral : Numeral, numeral.text = scientific figure := by
  have hdigits := digits_digitText figure.digits
  have horder : ∃ digits, ('e' :: signedText figure.order = 'e' :: digits ∨
      'e' :: signedText figure.order = 'e' :: '-' :: digits) ∧ Digits digits := by
    unfold signedText
    split
    · exact ⟨_, .inr rfl, digits_digitText _⟩
    · exact ⟨_, .inl rfl, digits_digitText _⟩
  have hone : ∀ c, beginsOctal [c] = false := by
    intro c
    unfold beginsOctal
    split
    · next heq => cases heq
    · rfl
  unfold scientific
  split
  · next hnil => exact absurd hnil hdigits.1
  · next digit hdigit =>
    rw [hdigit] at hdigits
    exact ⟨⟨[digit], [], _, hdigits, hone digit, .inl rfl, .inr horder⟩, rfl⟩
  · next digit others hothers hsome =>
    rw [hsome] at hdigits
    obtain ⟨hdigit, hmore⟩ := List.forall_mem_cons.mp hdigits.2
    have hwhole : Digits [digit] := ⟨List.cons_ne_nil _ _, List.forall_mem_singleton.mpr hdigit⟩
    exact ⟨⟨[digit], '.' :: others, _, hwhole, hone digit, .inr ⟨others, rfl, hothers, hmore⟩,
      .inr horder⟩, rfl⟩

theorem sparse_trimGo (fuel : Nat) : ∀ {digits : Nat} {exponent : Int},
    Sparse ⟨digits, exponent⟩ → Sparse (Figure.trim.go fuel digits exponent) := by
  induction fuel with
  | zero => exact fun h => h
  | succ fuel ih =>
    intro digits exponent h
    unfold Figure.trim.go
    split
    · refine ih fun hzero => ?_
      have hzero : digits / 10 = 0 := hzero
      omega
    · exact h

/-- A point inside the interval of a positive number is not zero. -/
theorem pos_of_contains {m : Nat} {q : Int} {point : Nat} (hm : 0 < m)
    (h : (Interval.of m q).contains point = true) : 0 < point := by
  have hpow : ∀ b n, 0 < b → 0 < Nat.pow b n := fun _ _ hb => Nat.pow_pos hb
  have hlow : 0 < (Interval.of m q).low := by
    refine Nat.mul_pos ?_ (Nat.mul_pos (hpow 2 _ (by decide)) (hpow 10 _ (by decide)))
    split <;> omega
  unfold Interval.contains at h
  split at h <;> simp at h <;> omega

theorem candidate_pos {m : Nat} {q : Int} {place digits : Nat} (hm : 0 < m)
    (h : (Interval.of m q).candidate place = some digits) : 0 < digits := by
  have hbelow : ∀ {below step}, (Interval.of m q).contains (below * step) = true → 0 < below :=
    fun hinside => Nat.pos_of_mul_pos_right (pos_of_contains hm hinside)
  unfold Interval.candidate at h
  dsimp only at h
  split at h
  · next hinside _ =>
    cases h
    have := hbelow hinside
    split <;> omega
  · next hinside _ =>
    cases h
    exact hbelow hinside
  · cases h
    exact Nat.succ_pos _
  · cases h

theorem sparse_search {m : Nat} {q : Int} (hm : 0 < m) (top : Nat) :
    Sparse ((Interval.of m q).search top) := by
  induction top with
  | zero => exact fun _ => (by decide : -(gridDepth : Int) ≤ 0)
  | succ place ih =>
    unfold Interval.search
    split
    · next digits hdigits =>
      intro hzero
      exact absurd hzero (Nat.ne_of_gt (candidate_pos hm hdigits))
    · exact ih

theorem sparse_trim {figure : Figure} (h : Sparse figure) : Sparse figure.trim :=
  sparse_trimGo _ h

theorem sparse_shortest {m : Nat} (hm : 0 < m) (q : Int) : Sparse (shortest m q) := by
  exact sparse_trim (sparse_search hm _)

theorem exists_numeral_magnitude (style : Style) (significand : Nat) (exponent : Int) :
    ∃ numeral : Numeral, numeral.text = writeMagnitude style significand exponent := by
  unfold writeMagnitude
  split
  · exact exists_numeral_positional _ fun _ => Int.le_refl 0
  · next hsignificand =>
    dsimp only
    split
    · exact exists_numeral_positional _ (sparse_shortest (Nat.pos_of_ne_zero hsignificand) _)
    · exact exists_numeral_scientific _

end Script

/-- The number has no sign. -/
def Binary64.Unsigned (x : Binary64) : Prop :=
  ∀ significand exponent, x ≠ .finite true significand exponent

namespace Script

open Grammar Decimal

/-- A number without a sign is written as a numeral. -/
theorem exists_numeral_float {x : Binary64} (hx : x.Unsigned) :
    ∃ numeral : Numeral, numeral.text = (float x).toList := by
  have hzero : ∃ numeral : Numeral, numeral.text = ['0'] :=
    (exists_numeral_nat 0).imp fun _ h => h.1
  unfold float write
  split
  · exact hzero
  · split <;> exact hzero
  · next negative significand exponent =>
    cases negative with
    | true => exact absurd rfl (hx significand exponent)
    | false =>
      rw [String.toList_ofList, if_neg Bool.false_ne_true]
      exact exists_numeral_magnitude _ _ _

/-- Only a bare numeral has nothing but digits. -/
theorem all_isDigit_text (n : Numeral) : n.text.all Char.isDigit = true ↔ n.IsBare := by
  unfold Numeral.text Numeral.IsBare
  rw [List.all_append, List.all_append, List.all_eq_true.mpr n.digits_whole.2]
  rcases n.fraction_eq with h | ⟨places, h, -⟩ <;>
    rcases n.exponent_eq with h' | ⟨digits, h' | h', -⟩ <;> simp [h, h']

end FrameBasic.Script
