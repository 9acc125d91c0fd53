import FrameBasic.Command.Template
import FrameBasic.Proofs.Script.OutsideRoutines

/-!
# What a template is made of

A template is read twice: to fill its slots, from left to right, and to check their numbers, by
cutting it at its opening braces.  Both find the same slots, namely every number between braces.  All
other characters are kept, and what a slot is filled with is not read again.

## Main definitions

* `Template.Part` — a character or a slot.
* `Template.Parts` — the parts that a template is made of.

## Main results

* `Template.readSlot_eq_some_iff` — a slot is a number between braces.
* `Template.exists_parts` — **every template is made of parts**.
* `Template.Parts.fill_eq`, `Template.Parts.slots_eq` — **the two ways to read a template**.
-/

namespace FrameBasic

/-- The characters of an unsigned numeral are digits and plus signs. -/
theorem Decimal.hexValue?_of_readWord {cs : List Char} {n : Nat} {c : Char}
    (h : readWord 10 cs = .ok n) (hc : c ∈ cs) : c = '+' ∨ (Text.hexValue? c).isSome = true := by
  unfold readWord at h
  split at h
  · cases h
  · rcases List.mem_cons.mp hc with rfl | hmem
    · exact .inl rfl
    · exact .inr (hexValue?_of_readNumeral (fun fault hf => by rw [hf] at h; cases h) hmem)
  · exact .inr (hexValue?_of_readNumeral (fun fault hf => by rw [hf] at h; cases h) hc)

namespace Template

/-! ### Parts -/

/-- A part of a template. -/
inductive Part where
  /-- A character that stands for itself. -/
  | char (c : Char)
  /-- A slot, by its number. -/
  | slot (index : Nat)

/-- The number of a slot. -/
def Part.index? : Part → Option Nat
  | .char _ => none
  | .slot index => some index

/-- What is put in the place of a part. -/
def Part.filling {α : Type} (char : Char → List α) (slot : Nat → List α) : Part → List α
  | .char c => char c
  | .slot index => slot index

/-- The parts of a template.  A number between braces is a slot, wherever it is. -/
inductive Parts : List Char → List Part → Prop
  | nil : Parts [] []
  | slot {inner rest : List Char} {index : Nat} {parts : List Part}
      (hinner : Decimal.readWord 10 inner = .ok index) (hrest : Parts rest parts) :
      Parts ('\x7b' :: (inner ++ '\x7d' :: rest)) (.slot index :: parts)
  | char {c : Char} {rest : List Char} {parts : List Part}
      (hc : ∀ inner after index, c :: rest = '\x7b' :: (inner ++ '\x7d' :: after) →
        Decimal.readWord 10 inner ≠ .ok index)
      (hrest : Parts rest parts) : Parts (c :: rest) (.char c :: parts)

variable {cs inner rest : List Char} {parts : List Part} {index n : Nat}

/-! ### Slots -/

theorem not_brace_of_readWord (h : Decimal.readWord 10 inner = .ok index) :
    ∀ c ∈ inner, c ≠ '\x7b' ∧ c ≠ '\x7d' := by
  intro c hc
  constructor <;> rintro rfl <;>
    rcases Decimal.hexValue?_of_readWord h hc with h | h <;> exact absurd h (by decide)

/-- The text up to a closing brace. -/
theorem takeWhile_of_readWord (h : Decimal.readWord 10 inner = .ok index) (rest : List Char) :
    (inner ++ '\x7d' :: rest).takeWhile (· != '\x7d') = inner := by
  rw [List.takeWhile_append_of_pos fun c hc => bne_iff_ne.mpr (not_brace_of_readWord h c hc).2,
    List.takeWhile_cons, if_neg (by decide), List.append_nil]

theorem readSlot_eq_some_iff :
    readSlot cs = some (index, n) ↔ ∃ inner rest, cs = inner ++ '\x7d' :: rest ∧
      Decimal.readWord 10 inner = .ok index ∧ n = inner.length + 1 := by
  constructor
  · intro h
    have happend := List.takeWhile_append_dropWhile (p := (· != '\x7d')) (l := cs)
    have hstop := List.head?_dropWhile_not (· != '\x7d') cs
    unfold readSlot at h
    extract_lets inner at h
    -- what follows the number is a closing brace, or nothing
    have hdrop : cs.drop inner.length = cs.dropWhile (· != '\x7d') :=
      (congrArg (List.drop inner.length) happend.symm).trans (List.drop_left' rfl)
    rw [hdrop] at h
    split at h
    · next brace after index hafter hword =>
      cases h
      rw [hafter] at happend hstop
      have hbrace : brace = '\x7d' := by simpa using hstop
      exact ⟨inner, after, by rw [← hbrace]; exact happend.symm, hword, rfl⟩
    · cases h
  · rintro ⟨inner, rest, rfl, hword, rfl⟩
    unfold readSlot
    dsimp only
    rw [takeWhile_of_readWord hword, List.drop_left' rfl, hword]

theorem readSlot_eq_none (hc : ∀ inner after index,
    '\x7b' :: rest = '\x7b' :: (inner ++ '\x7d' :: after) →
      Decimal.readWord 10 inner ≠ .ok index) : readSlot rest = none := by
  cases hslot : readSlot rest with
  | none => rfl
  | some found =>
    obtain ⟨inner, after, rfl, hword, -⟩ := readSlot_eq_some_iff.mp hslot
    exact absurd hword (hc inner after _ rfl)

theorem slotOf?_eq_some_iff : slotOf? cs = some index ↔
    ∃ inner rest, cs = inner ++ '\x7d' :: rest ∧ Decimal.readWord 10 inner = .ok index := by
  simp [slotOf?, readSlot_eq_some_iff]

/-- A slot has no other opening brace in it. -/
theorem slotOf?_takeWhile (cs : List Char) :
    slotOf? (cs.takeWhile (· != '\x7b')) = slotOf? cs := by
  ext index
  rw [slotOf?_eq_some_iff, slotOf?_eq_some_iff]
  constructor
  · rintro ⟨inner, rest, hcs, hword⟩
    have happend := List.takeWhile_append_dropWhile (p := (· != '\x7b')) (l := cs)
    rw [hcs, List.append_assoc] at happend
    exact ⟨inner, _, happend.symm, hword⟩
  · rintro ⟨inner, rest, rfl, hword⟩
    rw [List.takeWhile_append_of_pos fun c hc =>
      bne_iff_ne.mpr (not_brace_of_readWord hword c hc).1]
    exact ⟨inner, _, rfl, hword⟩

theorem slots_append (h : ∀ c ∈ inner, c ≠ '\x7b') : slots (inner ++ cs) = slots cs := by
  induction inner with
  | nil => rfl
  | cons c inner ih =>
    obtain ⟨hc, hinner⟩ := List.forall_mem_cons.mp h
    rw [List.cons_append, slots, if_neg hc, ih hinner]

/-! ### The two readings -/

theorem Parts.fill_eq {α : Type} {char : Char → List α} {slot : Nat → List α}
    (h : Parts cs parts) : fill char slot cs = parts.flatMap (Part.filling char slot) := by
  induction h with
  | nil => rw [fill, List.flatMap_nil]
  | @slot inner rest index parts hinner hrest ih =>
    have hslot : readSlot (inner ++ '\x7d' :: rest) = some (index, inner.length + 1) :=
      readSlot_eq_some_iff.mpr ⟨inner, rest, rfl, hinner, rfl⟩
    rw [fill, if_pos rfl, hslot]
    simp [ih, Part.filling]
  | @char c rest parts hc hrest ih =>
    rw [fill]
    split
    · next h =>
      subst h
      rw [readSlot_eq_none hc, ih]
      rfl
    · rw [ih]
      rfl

theorem Parts.slots_eq (h : Parts cs parts) : slots cs = parts.filterMap Part.index? := by
  induction h with
  | nil => rfl
  | @slot inner rest index parts hinner hrest ih =>
    have hskip : slots (inner ++ '\x7d' :: rest) = slots rest := by
      rw [slots_append fun c hc => (not_brace_of_readWord hinner c hc).1, slots, if_neg (by decide)]
    rw [slots, if_pos rfl, slotOf?_takeWhile, hskip, ih,
      slotOf?_eq_some_iff.mpr ⟨inner, rest, rfl, hinner⟩]
    rfl
  | @char c rest parts hc hrest ih =>
    rw [slots]
    split
    · next h =>
      subst h
      rw [slotOf?_takeWhile, slotOf?, readSlot_eq_none hc, ih]
      rfl
    · exact ih

theorem Parts.mem_slots_iff (h : Parts cs parts) : index ∈ slots cs ↔ .slot index ∈ parts := by
  rw [h.slots_eq, List.mem_filterMap]
  constructor
  · rintro ⟨_ | _, hmem, heq⟩
    · cases heq
    · exact Option.some.inj heq ▸ hmem
  · exact fun hmem => ⟨_, hmem, rfl⟩

theorem exists_parts (cs : List Char) : ∃ parts, Parts cs parts := by
  -- filling visits the parts from left to right
  fun_induction fill (fun c => [Part.char c]) (fun i => [Part.slot i]) cs with
  | case1 => exact ⟨[], .nil⟩
  | case2 rest index n hslot ih =>
    obtain ⟨inner, rest, rfl, hinner, rfl⟩ := readSlot_eq_some_iff.mp hslot
    have hdrop : (inner ++ '\x7d' :: rest).drop (inner.length + 1) = rest := by simp
    rw [hdrop] at ih
    obtain ⟨parts, hparts⟩ := ih
    exact ⟨_, .slot hinner hparts⟩
  | case3 rest hslot ih =>
    obtain ⟨parts, hparts⟩ := ih
    refine ⟨_, .char ?_ hparts⟩
    intro inner after index heq hword
    rw [readSlot_eq_some_iff.mpr ⟨inner, after, (List.cons.inj heq).2, hword, rfl⟩] at hslot
    cases hslot
  | case4 c rest hc ih =>
    obtain ⟨parts, hparts⟩ := ih
    exact ⟨_, .char (fun _ _ _ heq => absurd (List.cons.inj heq).1 hc) hparts⟩

end Template

end FrameBasic
