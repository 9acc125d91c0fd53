import FrameBasic.Proofs.Reader.Names
import FrameBasic.Proofs.Token.Tiling
import FrameBasic.Proofs.Tree.Lower

/-!
# Names of programs and names of hosts

A name of a program begins with a letter or an underscore, and so does the name that the script
gives it.  What the host and the helpers are called begins with a dollar sign, so none of these
names is ever taken for another.

A name that the script reserves gets an underscore behind it.  No reserved name ends in one, but a
name of a program may, and then two names of a program are one name of the script.

## Main definitions

* `Script.BeginsWord` — a name of the script begins as the names of programs do.

## Main results

* `isWordStart_of_identifier` — a token that is a name begins as a word does.
* `Script.beginsWord_identifier` — the name that the script gives it begins as a word does.
* `Script.identifier_eq_iff` — **which names of a program are one name of the script**.
* `Program.parse_beginsWord` — all names of a program do.
-/

namespace FrameBasic

/-! ### Tokens -/

theorem isWordStart_of_mem_stretches {cs text : List Char}
    (h : .lexeme .word text ∈ stretches cs) :
    ∃ c rest, text = c :: rest ∧ Text.isWordStart c = true := by
  rcases eq_stray_or_lexeme h with ⟨c, hc⟩ | ⟨shape, _, rest, hpos, heq⟩
  · cases hc
  · cases heq
    obtain ⟨k, hk⟩ := Nat.exists_eq_add_of_lt hpos
    rw [hk, Nat.zero_add]
    cases rest with
    | nil => exact absurd hpos (Nat.lt_irrefl 0)
    | cons c tail =>
      refine ⟨c, tail.take k, List.take_succ_cons, ?_⟩
      by_contra hc
      simp [Shape.matchLength, wordLength, hc] at hpos

/-- A token that is a name begins as a word does. -/
theorem isWordStart_of_identifier {commands : CommandTable} {source : String} {token : Token}
    (h : token ∈ tokens commands source) (hkind : token.kind = .identifier) :
    ∃ c rest, token.text.toList = c :: rest ∧ Text.isWordStart c = true := by
  obtain ⟨hmem, hfound⟩ := word_of_mem_tokens h (.inl hkind)
  rw [hkind] at hfound
  rcases classifyWord_eq hfound with ⟨_, hk⟩ | ⟨hk, -⟩ | ⟨-, -, htext⟩
  · cases hk
  · cases hk
  · rw [htext, String.toList_ofList]
    exact isWordStart_of_mem_stretches hmem

/-! ### Names of the script -/

namespace Script

/-- The name does not begin with the dollar sign. -/
def BeginsWord (name : String) : Prop :=
  name.toList.head? ≠ some '$'

theorem beginsWord_of_cons {name : String} {c : Char} {rest : List Char}
    (hname : name.toList = c :: rest) (hc : c ≠ '$') : BeginsWord name := by
  unfold BeginsWord
  rw [hname, List.head?_cons]
  exact fun h => hc (Option.some.inj h)

theorem toLower_ne_dollar {c : Char} (h : Text.isWordStart c = true) : c.toLower ≠ '$' := by
  intro heq
  rw [eq_of_toLower_eq (by decide) heq] at h
  cases h

theorem toList_fold {name : String} {c : Char} {rest : List Char}
    (hname : name.toList = c :: rest) :
    ∃ tail, (Name.fold name).toList = c.toLower :: tail := by
  have hbase : ∃ tail, (Name.base name).toList = c :: tail := by
    unfold Name.base Name.split
    split
    · split
      · next hlen =>
        rw [String.toList_ofList, hname]
        rw [hname, List.length_cons] at hlen
        cases rest with
        | nil => exact absurd hlen (Nat.lt_irrefl 1)
        | cons d more => exact ⟨_, List.dropLast_cons_cons⟩
      · exact ⟨rest, hname⟩
    · exact ⟨rest, hname⟩
  obtain ⟨tail, htail⟩ := hbase
  refine ⟨tail.map Char.toLower, ?_⟩
  rw [Name.fold, Text.toList_lower, htail, List.map_cons]

/-- The script's name of a variable begins as a word does. -/
theorem beginsWord_identifier {name : String} {c : Char} {rest : List Char}
    (hname : name.toList = c :: rest) (hc : Text.isWordStart c = true) :
    BeginsWord (identifier name) := by
  obtain ⟨tail, hfold⟩ := toList_fold hname
  unfold identifier
  extract_lets folded
  split
  · have happend : (folded ++ "_").toList = c.toLower :: (tail ++ ['_']) := by
      rw [String.toList_append, hfold]
      rfl
    exact beginsWord_of_cons happend (toLower_ne_dollar hc)
  · exact beginsWord_of_cons hfold (toLower_ne_dollar hc)

/-! ### One name for two -/

/-- No reserved word ends in an underscore. -/
theorem append_underscore_not_mem_reserved (word : String) : word ++ "_" ∉ reserved := by
  have hlast : (reserved.all fun w => w.toList.getLast? != some '_') = true := by decide +kernel
  intro h
  have hword := List.all_eq_true.mp hlast _ h
  rw [String.toList_append] at hword
  exact absurd List.getLast?_concat (bne_iff_ne.mp hword)

/-- **Only a reserved word and the same word with an underscore get one name.**  Two names that are
not equal up to case and marker are kept apart, unless one of them is reserved and the other one is
what it is replaced by.  What the script calls a variable is never reserved. -/
theorem identifier_eq_iff (a b : String) :
    (identifier a = identifier b ↔ Name.fold a = Name.fold b ∨
      (Name.fold a ∈ reserved ∧ Name.fold b = Name.fold a ++ "_") ∨
      (Name.fold b ∈ reserved ∧ Name.fold a = Name.fold b ++ "_")) ∧
    identifier a ∉ reserved := by
  unfold identifier
  generalize Name.fold a = x
  generalize Name.fold b = y
  have hout := append_underscore_not_mem_reserved
  by_cases hx : x ∈ reserved
  · have hne : x ≠ y ++ "_" := fun h => hout y (h ▸ hx)
    by_cases hy : y ∈ reserved
    · have hne' : y ≠ x ++ "_" := fun h => hout x (h ▸ hy)
      simp [hx, hy, hne, hne', hout]
    · have hne' : x ≠ y := fun h => hy (h ▸ hx)
      simp [hx, hy, hne, hne', hout, eq_comm]
  · by_cases hy : y ∈ reserved
    · have hne' : x ≠ y := fun h => hx (h ▸ hy)
      simp [hx, hy, hne']
    · simp [hx, hy]

/-- `var` is reserved, and `var_` is a name of its own. -/
theorem identifier_var_eq :
    wordLength "var".toList = 3 ∧ wordLength "var_".toList = 4 ∧
      Name.fold "var" ≠ Name.fold "var_" ∧ identifier "var" = identifier "var_" := by
  decide +kernel

end Script

/-- All names of a program begin as words do. -/
theorem Program.parse_beginsWord (commands : CommandTable) (source : String) :
    ∀ s ∈ (Program.parse commands (tokens commands source)).program.stmts,
      s.Names Script.BeginsWord := by
  refine parse_names fun token htoken hkind => ?_
  obtain ⟨c, rest, htext, hc⟩ := isWordStart_of_identifier htoken hkind
  exact Script.beginsWord_identifier htext hc

end FrameBasic
