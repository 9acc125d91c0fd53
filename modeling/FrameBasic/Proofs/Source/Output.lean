import FrameBasic.Proofs.Source.Include

/-!
# The text with its files

No line of the result is an `Include` line, whatever files there are, and each error stands at an
empty line of its own.  So nothing is left to do when the result is expanded once more.

The lines, the number of lines before them and the errors are kept apart while files are replaced.
`Expansion.Sound` says how they agree, and one part of the result after the other agrees like its
parts.

## Main definitions

* `Expansion.Sound` — lines and errors behind a number of lines agree.

## Main results

* `Library.expandAt_sound` — they agree whatever is replaced.
* `Library.expand_output` — **the lines of the result, its errors, and a second run**.
-/

namespace FrameBasic

/-! ### Lines -/

namespace Text

theorem split_append {sep : Char} {row : List Char} (h : sep ∉ row) (rest : List Char) :
    split sep (row ++ sep :: rest) = row :: split sep rest := by
  induction row with
  | nil => simp [split]
  | cons c row ih =>
    rw [List.mem_cons, not_or] at h
    simp [split, Ne.symm h.1, ih h.2]

/-- Lines that a line feed ends are read as they were written. -/
theorem rows_flatMap {lines : List (List Char)} (h : ∀ line ∈ lines, '\n' ∉ line) :
    rows (lines.flatMap (· ++ ['\n'])) = lines ++ [[]] := by
  induction lines with
  | nil => rfl
  | cons line lines ih =>
    obtain ⟨hline, hlines⟩ := List.forall_mem_cons.mp h
    have happend : (line :: lines).flatMap (· ++ ['\n']) =
        line ++ '\n' :: lines.flatMap (· ++ ['\n']) := by simp
    rw [rows, happend, split_append hline]
    exact congrArg (line :: ·) (ih hlines)

theorem mem_of_mem_split {sep c : Char} {cs row : List Char} (h : row ∈ split sep cs)
    (hc : c ∈ row) : c ≠ sep ∧ c ∈ cs := by
  induction cs generalizing row with
  | nil => simp_all [split]
  | cons d cs ih =>
    unfold split at h
    have hrest : ∀ {row}, row ∈ split sep cs → c ∈ row → c ≠ sep ∧ c ∈ d :: cs :=
      fun hrow hmem => (ih hrow hmem).imp_right (List.mem_cons_of_mem d)
    grind

theorem mem_of_mem_lines {c : Char} {cs line : List Char} (h : line ∈ lines cs) (hc : c ∈ line) :
    c ≠ '\n' ∧ c ∈ cs := by
  obtain ⟨row, hrow, hsub⟩ : ∃ row ∈ rows cs, c ∈ row := by
    rcases List.mem_append.mp h with h | h
    · obtain ⟨row, hrow, rfl⟩ := List.mem_map.mp h
      refine ⟨row, (List.dropLast_sublist _).mem hrow, ?_⟩
      unfold dropReturn at hc
      split at hc
      · exact (List.dropLast_sublist _).mem hc
      · exact hc
    · exact ⟨line, List.mem_of_getLast? (Option.mem_toList.mp (List.mem_filter.mp h).1), hc⟩
  exact mem_of_mem_split hrow hsub

end Text

/-! ### What is no `Include` line -/

/-- What stands behind a path does not matter. -/
theorem includePath?_append {line : List Char} {path : String} (h : includePath? line = some path)
    (more : List Char) : includePath? (line ++ more) = some path := by
  obtain ⟨indent, word, gap, after, rfl, hshape⟩ := includePath?_eq_some_iff.mp h
  exact includePath?_eq_some_iff.mpr ⟨indent, word, gap, after ++ more, by simp, hshape⟩

theorem includePath?_dropReturn {line : List Char} (h : includePath? line = none) :
    includePath? (Text.dropReturn line) = none := by
  unfold Text.dropReturn
  split
  · next hlast =>
    cases hdrop : includePath? line.dropLast with
    | none => rfl
    | some path =>
      have hline := includePath?_append hdrop ['\r']
      rw [List.dropLast_append_getLast? _ hlast, h] at hline
      cases hline
  · exact h

/-! ### Lines and errors -/

/-- Lines and errors that stand behind `count` lines.  The characters of the lines have a
property, such as being taken from a file. -/
structure Expansion.Sound (P : Char → Prop) (count : Nat) (e : Expansion) : Prop where
  /-- The characters of the lines, none of which is a line feed. -/
  chars : ∀ line ∈ e.lines, ∀ c ∈ line, c ≠ '\n' ∧ P c
  /-- All files are replaced. -/
  plain : ∀ line ∈ e.lines, includePath? line = none
  /-- The errors come one line after the other. -/
  ordered : e.errors.Pairwise (·.line < ·.line)
  /-- An error stands at an empty line. -/
  blank : ∀ error ∈ e.errors, ∃ k, error.line = count + k + 1 ∧ e.lines[k]? = some []

variable {P : Char → Prop} {count : Nat}

theorem Expansion.Sound.append {a b : Expansion} (ha : a.Sound P count)
    (hb : b.Sound P (count + a.lines.length)) : (a.append b).Sound P count where
  chars := List.forall_mem_append.mpr ⟨ha.chars, hb.chars⟩
  plain := List.forall_mem_append.mpr ⟨ha.plain, hb.plain⟩
  ordered := by
    refine List.pairwise_append.mpr ⟨ha.ordered, hb.ordered, fun e he e' he' => ?_⟩
    obtain ⟨k, hk, hblank⟩ := ha.blank e he
    obtain ⟨k', hk', _⟩ := hb.blank e' he'
    have hlt := (List.getElem?_eq_some_iff.mp hblank).1
    omega
  blank := by
    refine List.forall_mem_append.mpr ⟨fun e he => ?_, fun e he => ?_⟩
    · obtain ⟨k, hk, hblank⟩ := ha.blank e he
      exact ⟨k, hk, List.getElem?_append_left (List.getElem?_eq_some_iff.mp hblank).1 ▸ hblank⟩
    · obtain ⟨k, hk, hblank⟩ := hb.blank e he
      refine ⟨a.lines.length + k, by omega, ?_⟩
      rw [Expansion.append, List.getElem?_append_right (Nat.le_add_right _ _),
        Nat.add_sub_cancel_left, hblank]

/-- An empty line stands for a file that is not had. -/
theorem sound_blank (fault : IncludeFault) :
    (⟨[[]], [⟨fault, count + 1⟩]⟩ : Expansion).Sound P count where
  chars := by simp
  plain := List.forall_mem_singleton.mpr (by decide)
  ordered := List.pairwise_singleton _ _
  blank := List.forall_mem_singleton.mpr ⟨0, rfl, rfl⟩

theorem expandLines_sound {replace : Nat → String → Expansion}
    (hreplace : ∀ count path, (replace count path).Sound P count) {lines : List (List Char)}
    (hlines : ∀ line ∈ lines, ∀ c ∈ line, c ≠ '\n' ∧ P c) : ∀ count,
    (expandLines replace count lines).Sound P count := by
  induction lines with
  | nil => exact fun count => ⟨nofun, nofun, .nil, nofun⟩
  | cons line rest ih =>
    intro count
    obtain ⟨hline, hrest⟩ := List.forall_mem_cons.mp hlines
    unfold expandLines
    extract_lets first
    refine Expansion.Sound.append ?_ (ih hrest _)
    dsimp only [first]
    split
    · exact hreplace count _
    · next hplain => exact ⟨by simpa using hline, by simpa using hplain, .nil, nofun⟩

theorem expandLines_of_plain {replace : Nat → String → Expansion} {lines : List (List Char)}
    (h : ∀ line ∈ lines, includePath? line = none) (count : Nat) :
    expandLines replace count lines = ⟨lines, []⟩ := by
  induction lines generalizing count with
  | nil => rfl
  | cons line rest ih =>
    obtain ⟨hline, hrest⟩ := List.forall_mem_cons.mp h
    simp [expandLines, hline, ih hrest, Expansion.append]

namespace Library

/-- The lines and errors of a text agree, whatever is replaced in it. -/
theorem expandAt_sound {library : Library}
    (hread : ∀ path contents, library.read path = .ok contents → ∀ c ∈ contents.toList, P c)
    (nesting : Nat) : ∀ stack count (contents : String), (∀ c ∈ contents.toList, P c) →
    (library.expandAt nesting stack count contents).Sound P count := by
  induction nesting with
  | zero => exact fun _ _ _ _ => ⟨nofun, nofun, .nil, nofun⟩
  | succ nesting ih =>
    intro stack count contents hcontents
    refine expandLines_sound (fun count path => ?_) (fun line hline c hc => ?_) count
    · unfold replacement
      extract_lets key
      split
      · exact sound_blank _
      · split
        · next contents hcontents => exact ih _ count contents (hread path contents hcontents)
        · exact sound_blank _
    · exact (Text.mem_of_mem_lines hline hc).imp_right (hcontents c)

theorem one_le_nestingBound (library : Library) (source : String) :
    1 ≤ library.nestingBound source := by
  unfold nestingBound
  generalize source :: library.texts = texts
  suffices h : ∀ bound, bound ≤ texts.foldl
      (fun bound contents => bound + (Text.lines contents.toList).length) bound from h 1
  induction texts with
  | nil => exact Nat.le_refl
  | cons text texts ih => exact fun bound => Nat.le_trans (Nat.le_add_right _ _) (ih _)

/-- A text without an `Include` line is only cut into its lines. -/
theorem expand_of_plain (library : Library) {source : String}
    (h : ∀ line ∈ Text.lines source.toList, includePath? line = none) :
    library.expand source = ⟨Text.lines source.toList, []⟩ := by
  obtain ⟨nesting, hbound⟩ := Nat.exists_eq_add_of_le' (library.one_le_nestingBound source)
  rw [expand, hbound]
  exact expandLines_of_plain h 0

theorem mem_texts_of_read {files : List (String × String)} {path contents : String}
    (h : (memory files).read path = .ok contents) : contents ∈ (memory files).texts := by
  simp only [memory] at h
  split at h
  · next hget =>
    cases h
    exact List.mem_map_of_mem (Dict.mem_of_get? hget)
  · cases h

/-- A line feed ends every line of the result, and none of its lines is an `Include` line, neither
as it was written nor as it is read again.  The errors come in the order of their lines, which are
there and empty.  So there is no error when the result is expanded with whatever files, and it is
not changed if there is no carriage return in any of the texts. -/
theorem expand_output (files : List (String × String)) (source : String) :
    let result := (memory files).expand source
    let again := Text.lines result.text.toList
    Text.rows result.text.toList = result.lines ++ [[]] ∧
    (∀ line ∈ result.lines ++ again, includePath? line = none) ∧
    result.errors.Pairwise (·.line < ·.line) ∧
    (∀ e ∈ result.errors, 0 < e.line ∧ result.lines[e.line - 1]? = some [] ∧
      again[e.line - 1]? = some []) ∧
    ∀ library : Library, (library.expand result.text).errors = [] ∧
      ((∀ text ∈ source :: (memory files).texts, '\r' ∉ text.toList) →
        (library.expand result.text).text = result.text) := by
  intro result again
  have hsound : result.Sound (fun c => ∃ text ∈ source :: (memory files).texts, c ∈ text.toList) 0 :=
    expandAt_sound (fun path contents hread c hc =>
      ⟨contents, List.mem_cons_of_mem _ (mem_texts_of_read hread), hc⟩) _ [] 0 source
      fun c hc => ⟨source, List.mem_cons_self, hc⟩
  have hrows : Text.rows result.text.toList = result.lines ++ [[]] := by
    rw [Expansion.text, String.toList_ofList]
    exact Text.rows_flatMap fun line hline hmem => (hsound.chars line hline _ hmem).1 rfl
  have hagain : again = result.lines.map Text.dropReturn := by
    simp only [again, Text.lines, hrows]
    simp
  have hplain : ∀ line ∈ again, includePath? line = none := by
    rw [hagain, List.forall_mem_map]
    exact fun line hline => includePath?_dropReturn (hsound.plain line hline)
  refine ⟨hrows, List.forall_mem_append.mpr ⟨hsound.plain, hplain⟩, hsound.ordered, fun e he => ?_,
    fun library => ?_⟩
  · obtain ⟨k, hk, hblank⟩ := hsound.blank e he
    obtain rfl : k = e.line - 1 := by omega
    refine ⟨by omega, hblank, ?_⟩
    rw [hagain, List.getElem?_map, hblank]
    rfl
  · rw [expand_of_plain library hplain]
    refine ⟨rfl, fun hreturn => ?_⟩
    have hsame : again = result.lines := by
      rw [hagain]
      refine (List.map_congr_left fun line hline => if_neg fun hlast => ?_).trans (List.map_id' _)
      obtain ⟨text, htext, hmem⟩ := (hsound.chars line hline _ (List.mem_of_getLast? hlast)).2
      exact hreturn text htext hmem
    exact congrArg (fun lines => (⟨lines, []⟩ : Expansion).text) hsame

/-- A file that includes itself, and one that is missing: two empty lines, which stay as they are. -/
theorem expand_output_cycle :
    let files := [("a.bb", "y = 1\nInclude \"A.bb\"")]
    let source := "Include \"a.bb\"\nInclude \"b.bb\""
    let result := (memory files).expand source
    result.text = "y = 1\n\n\n" ∧ result.errors.map (·.line) = [2, 3] ∧
    (∀ text ∈ source :: (memory files).texts, '\r' ∉ text.toList) ∧
      ∀ library : Library, (library.expand result.text).text = result.text := by
  intro files source result
  have hrun : result.text = "y = 1\n\n\n" ∧ result.errors.map (·.line) = [2, 3] ∧
      ∀ text ∈ source :: (memory files).texts, '\r' ∉ text.toList := by
    decide +kernel
  exact ⟨hrun.1, hrun.2.1, hrun.2.2, fun library =>
    ((expand_output files source).2.2.2.2 library).2 hrun.2.2⟩

end Library

end FrameBasic
