import FrameBasic.Proofs.Token.Tiling
import FrameBasic.Proofs.Tree.Lower

/-!
# Tokens and unused commands

A word is looked up among the commands without its type marker and in small letters.  A command that
no word of a text names is never found, so storing it in the table, or storing another description
under its name, changes no token of the text.

## Main definitions

* `words` — the words of a text.

## Main results

* `CommandTable.contains_suspendingNames_insert` — what is known of the other commands stays.
* `events_insert` — a command that no word names changes nothing in what is met.
* `exists_word_of_command` — a command among the tokens is named by a word.
-/

namespace FrameBasic

variable {commands : CommandTable} {name : String} {d : Descriptor}

/-! ### The table -/

namespace CommandTable

theorem get?_insert_of_ne {other : String} (h : Text.lower other ≠ Text.lower name) :
    (commands.insert name d).get? other = commands.get? other := by
  rw [get?_insert, if_neg h.symm]

theorem mem_suspendingNames {key : String} :
    key ∈ commands.suspendingNames ↔
      key = framePrimitive ∨ ∃ d, (key, d) ∈ commands.entries ∧ d.suspends = true := by
  have hnames : ∀ key, key ∈ (commands.entries.filter fun entry => entry.2.suspends).map Prod.fst ↔
      ∃ d, (key, d) ∈ commands.entries ∧ d.suspends = true := by
    simp
  unfold suspendingNames
  extract_lets names
  split
  · next hframe =>
    rw [hnames]
    refine (or_iff_right_of_imp ?_).symm
    rintro rfl
    exact (hnames _).mp hframe
  · rw [List.mem_append, hnames, List.mem_singleton, or_comm]

end CommandTable

/-- Storing a value leaves the entries of the other keys as they are. -/
theorem Dict.mem_insert_of_ne {α : Type} {k key : String} {v value : α} {entries : Dict α}
    (h : key ≠ k) : (key, value) ∈ insert k v entries ↔ (key, value) ∈ entries := by
  induction entries with
  | nil => simp [insert, h]
  | cons entry rest ih =>
    obtain ⟨k', v'⟩ := entry
    by_cases hk : k' = k
    · subst hk
      simp [insert, h]
    · simp [insert, hk, ih]

/-- Whether another command must be awaited does not change. -/
theorem CommandTable.contains_suspendingNames_insert {key : String} (h : key ≠ Text.lower name) :
    (commands.insert name d).suspendingNames.contains key =
      commands.suspendingNames.contains key := by
  rw [Bool.eq_iff_iff, List.contains_iff_mem, List.contains_iff_mem, mem_suspendingNames,
    mem_suspendingNames]
  simp only [insert, Dict.mem_insert_of_ne h]

/-! ### Words -/

/-- The text of a stretch that is a word. -/
def Stretch.word? : Stretch → Option String
  | .lexeme .word text => some (String.ofList text)
  | _ => none

/-- The words of a text, as they are spelled. -/
def words (source : String) : List String :=
  (stretches source.toList).filterMap Stretch.word?

theorem classifyWord_insert {word : String} (h : Name.fold word ≠ Text.lower name) :
    classifyWord (commands.insert name d) word = classifyWord commands word := by
  have hcontains : (commands.insert name d).contains (Name.fold word) =
      commands.contains (Name.fold word) := by
    have hkey : Text.lower (Name.fold word) ≠ Text.lower name := by
      rwa [Name.fold, Text.lower_lower]
    rw [CommandTable.contains, CommandTable.contains, CommandTable.get?_insert_of_ne hkey]
  unfold Name.fold Name.base at hcontains
  simp only [classifyWord, hcontains]

theorem Stretch.events_insert {stretch : Stretch} {first last : Position}
    (h : ∀ word, stretch.word? = some word → Name.fold word ≠ Text.lower name) :
    stretch.events (commands.insert name d) first last = stretch.events commands first last := by
  cases stretch with
  | stray c => rfl
  | lexeme shape text =>
    have hclassify : classify (commands.insert name d) shape text =
        classify commands shape text := by
      cases shape with
      | word => exact congrArg some (classifyWord_insert (h _ rfl))
      | _ => rfl
    simp only [events, hclassify]

theorem eventsFrom_insert {stretches : List Stretch} (place : Nat → Position) (offset : Nat)
    (h : ∀ word ∈ stretches.filterMap Stretch.word?, Name.fold word ≠ Text.lower name) :
    eventsFrom (commands.insert name d) place offset stretches =
      eventsFrom commands place offset stretches := by
  induction stretches generalizing offset with
  | nil => rfl
  | cons stretch rest ih =>
    have hfirst : ∀ word, stretch.word? = some word → Name.fold word ≠ Text.lower name := by
      intro word hword
      exact h word (List.mem_filterMap.mpr ⟨stretch, List.mem_cons_self, hword⟩)
    have hrest : ∀ word ∈ rest.filterMap Stretch.word?, Name.fold word ≠ Text.lower name := by
      intro word hword
      obtain ⟨other, hother, hword⟩ := List.mem_filterMap.mp hword
      exact h word (List.mem_filterMap.mpr ⟨other, List.mem_cons_of_mem _ hother, hword⟩)
    simp only [eventsFrom, Stretch.events_insert hfirst, ih _ hrest]

/-- A command that no word names changes nothing in what is met while reading a text. -/
theorem events_insert {source : String}
    (h : ∀ word ∈ words source, Name.fold word ≠ Text.lower name) :
    events (commands.insert name d) source = events commands source :=
  eventsFrom_insert _ 0 h

/-- A command among the tokens is named by a word of the text. -/
theorem exists_word_of_command {source : String} {token : Token}
    (h : token ∈ tokens commands source) (hkind : token.kind = .command) :
    ∃ word ∈ words source, token.text = Name.fold word := by
  obtain ⟨hmem, hfound⟩ := word_of_mem_tokens h (.inr hkind)
  refine ⟨_, List.mem_filterMap.mpr ⟨_, hmem, rfl⟩, ?_⟩
  rw [hkind] at hfound
  rcases classifyWord_eq hfound with ⟨_, hk⟩ | ⟨-, -, htext⟩ | ⟨hk, -⟩
  · cases hk
  · exact htext
  · cases hk

end FrameBasic
