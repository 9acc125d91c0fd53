import FrameBasic.Proofs.Script.Lexemes
import FrameBasic.Proofs.Token.Tiling
import FrameBasic.Proofs.Tree.Lower
import FrameBasic.Decimal.Real

/-!
# Tokens in the script

The script takes the names of a program from tokens, drops their markers and changes what its
language reserves.  What it writes is a name of that language.  The numbers that tokens spell have no
sign.

## Main definitions

* `IsWord` — a text of letters, digits and underscores that does not begin with a digit.

## Main results

* `isWord_base_of_mem_tokens`, `Script.isWord_identifier` — names are words.
* `Script.identifier_not_mem_keywords` — and they are not reserved.
* `unsigned_of_mem_tokens` — a number with a fraction has no sign.
-/

namespace FrameBasic

variable {commands : CommandTable} {source : String} {token : Token} {cs : List Char} {c : Char}

/-! ### Words -/

/-- A text of letters, digits and underscores that does not begin with a digit. -/
def IsWord (cs : List Char) : Prop :=
  ∃ c rest, cs = c :: rest ∧ Text.isWordStart c = true ∧ ∀ d ∈ rest, Text.isWordPart d = true

theorem IsWord.isWordPart (h : IsWord cs) : ∀ d ∈ cs, Text.isWordPart d = true := by
  obtain ⟨c, rest, rfl, hc, hrest⟩ := h
  exact List.forall_mem_cons.mpr ⟨isWordPart_of_isWordStart hc, hrest⟩

/-- Small letters are letters. -/
theorem toLower_word (c : Char) : (Text.isWordStart c = true → Text.isWordStart c.toLower = true) ∧
    (Text.isWordPart c = true → Text.isWordPart c.toLower = true) := by
  rcases toLower_cases c with h | ⟨hfirst, hlast, hsmall⟩
  · rw [h]
    exact ⟨id, id⟩
  · have hstart : Text.isWordStart c.toLower = true := by
      unfold Text.isWordStart Char.isAlpha Char.isLower
      simp only [Bool.or_eq_true, Bool.and_eq_true, decide_eq_true_eq, UInt32.le_iff_toNat_le]
      have hval : c.toLower.val.toNat = c.toNat + 32 := hsmall
      have ha : 'a'.val.toNat = 97 := rfl
      have hz : 'z'.val.toNat = 122 := rfl
      left
      right
      omega
    exact ⟨fun _ => hstart, fun _ => isWordPart_of_isWordStart hstart⟩

theorem IsWord.toLower (h : IsWord cs) : IsWord (cs.map Char.toLower) := by
  obtain ⟨c, rest, rfl, hc, hrest⟩ := h
  refine ⟨_, _, rfl, (toLower_word c).1 hc, fun d hd => ?_⟩
  obtain ⟨d, hmem, rfl⟩ := List.mem_map.mp hd
  exact (toLower_word d).2 (hrest d hmem)

theorem Marker.ofChar?_of_isWordPart (h : Text.isWordPart c = true) : ofChar? c = none := by
  unfold ofChar?
  rw [if_neg, if_neg, if_neg]
  all_goals
    rintro rfl
    cases h

/-- A word has no marker. -/
theorem Name.base_of_isWord {name : String} (h : IsWord name.toList) : base name = name := by
  have hlast : name.toList.getLast?.bind Marker.ofChar? = none := by
    cases hlast : name.toList.getLast? with
    | none => rfl
    | some c => exact Marker.ofChar?_of_isWordPart (h.isWordPart c (List.mem_of_getLast? hlast))
  unfold base split
  rw [hlast]

theorem Name.base_append_marker {marker : Char} (hmarker : (Marker.ofChar? marker).isSome = true)
    (h : IsWord cs) : base (String.ofList (cs ++ [marker])) = String.ofList cs := by
  obtain ⟨m, hm⟩ := Option.isSome_iff_exists.mp hmarker
  have hlength : 1 < (cs ++ [marker]).length := by
    obtain ⟨c, rest, rfl, -⟩ := h
    simp
  unfold base split
  rw [String.toList_ofList, List.getLast?_concat, Option.bind_some, hm]
  dsimp only
  rw [if_pos hlength, List.dropLast_concat]

theorem exists_run (p : Char → Bool) (cs : List Char) : ∃ run tail, cs = run ++ tail ∧
    (∀ d ∈ run, p d = true) ∧ runLength p cs = run.length :=
  ⟨_, _, List.takeWhile_append_dropWhile.symm, List.all_eq_true.mp List.all_takeWhile, rfl⟩

/-- A lexeme that is a word, without its marker. -/
theorem isWord_base_of_mem_stretches {text : List Char} (h : .lexeme .word text ∈ stretches cs) :
    IsWord (Name.base (String.ofList text)).toList := by
  rcases eq_stray_or_lexeme h with ⟨c, hc⟩ | ⟨shape, _, rest, hpos, heq⟩
  · cases hc
  · cases heq
    cases rest with
    | nil => exact absurd hpos (Nat.lt_irrefl 0)
    | cons c rest =>
      obtain ⟨inside, tail, rfl, hinside, hrun⟩ := exists_run Text.isWordPart rest
      unfold Shape.matchLength wordLength at hpos ⊢
      dsimp only at hpos ⊢
      split at hpos
      · next hc =>
        have hword : IsWord (c :: inside) := ⟨c, inside, rfl, hc, hinside⟩
        have hplain : IsWord (Name.base (String.ofList (c :: inside))).toList := by
          rw [Name.base_of_isWord (by rwa [String.toList_ofList]), String.toList_ofList]
          exact hword
        rw [if_pos hc, hrun, List.drop_left]
        split
        · next marker more =>
          split
          · next hmarker =>
            have hsome : (Marker.ofChar? marker).isSome = true := by
              rcases hmarker with rfl | rfl | rfl <;> rfl
            have htake : (c :: (inside ++ marker :: more)).take (inside.length + 2) =
                c :: inside ++ [marker] := by
              simp [List.take_append, List.take_of_length_le]
            rw [htake, Name.base_append_marker hsome hword, String.toList_ofList]
            exact hword
          · rw [List.take_succ_cons, List.take_left]
            exact hplain
        · rw [List.take_succ_cons, List.take_left]
          exact hplain
      · exact absurd hpos (Nat.lt_irrefl 0)

/-- A token that is a name or a command, without its marker. -/
theorem isWord_base_of_mem_tokens (h : token ∈ tokens commands source)
    (hkind : token.kind = .identifier ∨ token.kind = .command) :
    IsWord (Name.base token.text).toList := by
  obtain ⟨hmem, hfound⟩ := word_of_mem_tokens h hkind
  have hword := isWord_base_of_mem_stretches hmem
  rcases classifyWord_eq hfound with ⟨_, hk⟩ | ⟨-, -, htext⟩ | ⟨-, -, htext⟩
  · rw [hk] at hkind
    rcases hkind with hkind | hkind <;> cases hkind
  · -- a command is written in small letters and without its marker
    have hfolded : IsWord token.text.toList := by
      rw [htext, Name.fold, Text.toList_lower]
      exact hword.toLower
    rw [Name.base_of_isWord hfolded]
    exact hfolded
  · rw [htext]
    exact hword

/-! ### Names of the script -/

namespace Script

theorem isWord_identifier {name : String} (h : IsWord (Name.base name).toList) :
    IsWord (identifier name).toList := by
  have hfold : IsWord (Name.fold name).toList := by
    unfold Name.fold
    rw [Text.toList_lower]
    exact h.toLower
  unfold identifier
  extract_lets folded
  split
  · obtain ⟨c, rest, hfolded, hc, hrest⟩ := hfold
    refine ⟨c, rest ++ ['_'], ?_, hc, ?_⟩
    · rw [String.toList_append, hfolded]
      rfl
    · refine List.forall_mem_append.mpr ⟨hrest, ?_⟩
      exact List.forall_mem_singleton.mpr rfl
  · exact hfold

/-- The language reserves no word that is kept, and none that ends in an underscore. -/
theorem identifier_not_mem_keywords (name : String) : identifier name ∉ Grammar.keywords := by
  have hreserved : ∀ word ∈ Grammar.keywords, word ∈ reserved := by decide
  have hlast : ∀ word ∈ Grammar.keywords, word.toList.getLast? ≠ some '_' := by decide
  unfold identifier
  extract_lets folded
  split
  · intro hmem
    refine hlast _ hmem ?_
    rw [String.toList_append]
    exact List.getLast?_concat
  · next hfree => exact fun hmem => hfree (hreserved _ hmem)

end Script

/-! ### Numbers without a sign -/

theorem Binary64.unsigned_ofRatio (n d : Nat) : (ofRatio false n d).Unsigned := by
  intro significand exponent
  unfold ofRatio
  extract_lets
  split
  · nofun
  · split <;> nofun

theorem Binary64.unsigned_ofDecimal (digits : Nat) (exponent : Int) :
    (ofDecimal false digits exponent).Unsigned := by
  unfold ofDecimal
  extract_lets
  split
  · intro _ _
    nofun
  · split
    · intro _ _
      nofun
    · split
      · intro _ _
        nofun
      · split <;> exact unsigned_ofRatio _ _

theorem Decimal.unsigned_readMagnitude {x : Binary64} (h : readMagnitude false cs = some x) :
    x.Unsigned := by
  unfold readMagnitude at h
  dsimp only at h
  split at h
  · cases h
    intro _ _
    nofun
  · split at h
    · cases h
      intro _ _
      nofun
    · unfold readPlain at h
      extract_lets whole rest part at h
      split at h
      · cases h
      · obtain ⟨scale, -, rfl⟩ := Option.map_eq_some_iff.mp h
        exact Binary64.unsigned_ofDecimal _ _

theorem Decimal.unsigned_readReal {x : Binary64} (h : readReal cs = .ok x)
    (hsign : cs.head? ≠ some '-') : x.Unsigned := by
  unfold readReal at h
  dsimp only at h
  split at h
  · cases h
  · split at h
    · next number hnumber =>
      cases h
      split at hnumber
      · exact absurd rfl hsign
      · exact unsigned_readMagnitude hnumber
      · exact unsigned_readMagnitude hnumber
    · cases h

/-- A token that is a number with a fraction has no sign. -/
theorem unsigned_of_mem_tokens {x : Binary64} (h : token ∈ tokens commands source)
    (hkind : token.kind = .float) (hx : Decimal.readReal token.text.toList = .ok x) :
    x.Unsigned := by
  refine Decimal.unsigned_readReal hx ?_
  obtain ⟨hmem, hfound⟩ := lexeme_of_mem_tokens h (by simp [hkind])
  rw [hkind] at hmem hfound
  rw [← (Prod.mk.inj (Option.some.inj hfound)).2, String.toList_ofList]
  generalize token.span.lexeme source = text at hmem
  rcases eq_stray_or_lexeme hmem with ⟨c, hc⟩ | ⟨shape, hshape, rest, hpos, heq⟩
  · cases hc
  · cases heq
    cases rest with
    | nil => exact absurd hpos (Nat.lt_irrefl 0)
    | cons c rest =>
      obtain ⟨k, hk⟩ := Nat.exists_eq_succ_of_ne_zero (Nat.ne_of_gt hpos)
      rw [hk, List.take_succ_cons]
      rintro ⟨rfl⟩
      exact Nat.lt_irrefl 0 hpos

end FrameBasic
