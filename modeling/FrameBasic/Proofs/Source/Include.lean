import FrameBasic.Source.Include
import Mathlib.Data.List.Forall2
import Mathlib.Data.List.Perm.Subperm
import Mathlib.Data.List.TakeWhile

/-!
# How included files are replaced

What stands for an `Include` line depends on the files that are being replaced at that moment: such
a file is a cycle, another one is replaced in turn, and a file that is not stored is missing.  The
rules are stated without a bound of the nesting.  The bound of `Library.expand` is never reached:
the files that are being replaced have different names, and each of them has a line.

## Main definitions

* `Library.Expands` — the rules, with the depth to which files are nested.
* `Library.busy` — the stored files that have a line.

## Main results

* `includePath?_eq_some_iff` — what an `Include` line is.
* `foldPath_eq_iff` — which paths are the same.
* `Library.Expands.unique` — the rules leave no choice.
* `Library.expands_expandAt` — the result follows the rules, if the bound is large enough.
* `Library.expands_memory_iff` — **files in memory are replaced by the rules**, and they are nested
  no deeper than there are files.
-/

namespace FrameBasic

namespace Dict

variable {α : Type} {k : String} {v : α} {d : Dict α}

theorem get?_eq_none_iff : get? k d = none ↔ k ∉ keys d := by
  induction d with
  | nil => simp [keys]
  | cons entry rest ih =>
    obtain ⟨key, value⟩ := entry
    by_cases hk : key = k
    · simp [get?, keys, hk]
    · simp [get?, keys, hk, Ne.symm hk, ih]

theorem mem_of_get? (h : get? k d = some v) : (k, v) ∈ d := by
  induction d with
  | nil => cases h
  | cons entry rest ih =>
    obtain ⟨key, value⟩ := entry
    by_cases hk : key = k
    · simp only [get?, hk, if_true, Option.some.injEq] at h
      simp [hk, h]
    · simp only [get?, hk, if_false] at h
      exact List.mem_cons_of_mem _ (ih h)

end Dict

/-! ### `Include` lines and paths -/

/-- The blank characters at the start are skipped. -/
theorem Text.exists_skipBlank (cs : List Char) :
    ∃ indent, (∀ c ∈ indent, isBlank c = true) ∧ cs = indent ++ skipBlank cs :=
  ⟨cs.takeWhile isBlank, fun _ => List.mem_takeWhile_imp, List.takeWhile_append_dropWhile.symm⟩

theorem Text.skipBlank_append {indent rest : List Char} {c : Char}
    (h : ∀ c ∈ indent, isBlank c = true) (hc : isBlank c = false) :
    skipBlank (indent ++ c :: rest) = c :: rest := by
  rw [skipBlank, List.dropWhile_append_of_pos h, List.dropWhile_cons, if_neg (by simp [hc])]

/-- A line is an `Include` line if it begins with the word, in any case, and a path in quotes.  What
stands behind the path does not matter. -/
theorem includePath?_eq_some_iff {line : List Char} {path : String} :
    includePath? line = some path ↔ ∃ indent word gap after,
      line = indent ++ (word ++ (gap ++ '"' :: (path.toList ++ '"' :: after))) ∧
      (∀ c ∈ indent, Text.isBlank c = true) ∧ word.map Char.toLower = "include".toList ∧
      (∀ c ∈ gap, Text.isBlank c = true) ∧ '"' ∉ path.toList := by
  constructor
  · intro h
    obtain ⟨indent, hindent, hline⟩ := Text.exists_skipBlank line
    obtain ⟨gap, hgap, hrest⟩ := Text.exists_skipBlank ((Text.skipBlank line).drop 7)
    unfold includePath? at h
    dsimp only at h
    split at h
    · next hword =>
      split at h
      · next rest hquote =>
        have happend := List.takeWhile_append_dropWhile (p := (· != '"')) (l := rest)
        have hstop := List.head?_dropWhile_not (· != '"') rest
        split at h
        · next hclosed =>
          cases h
          cases hafter : rest.dropWhile (· != '"') with
          | nil =>
            rw [hafter, List.append_nil] at happend
            rw [happend] at hclosed
            exact absurd hclosed (Nat.lt_irrefl _)
          | cons quote after =>
            rw [hafter] at happend hstop
            have hq : quote = '"' := by simpa using hstop
            rw [hq] at happend
            refine ⟨indent, (Text.skipBlank line).take 7, gap, after, ?_, hindent, hword, hgap, ?_⟩
            · rw [String.toList_ofList, happend, ← hquote, ← hrest, List.take_append_drop, ← hline]
            · rw [String.toList_ofList]
              exact fun hmem => Bool.false_ne_true (List.mem_takeWhile_imp hmem)
        · cases h
      · cases h
    · cases h
  · rintro ⟨indent, word, gap, after, rfl, hindent, hword, hgap, hpath⟩
    have hlength : word.length = 7 := by simpa using congrArg List.length hword
    obtain ⟨c, tail, rfl⟩ := List.exists_cons_of_length_pos (by omega : 0 < word.length)
    have hc : Text.isBlank c = false := by
      have hfirst : c.toLower = 'i' := (List.cons.inj hword).1
      rcases toLower_cases c with hsame | ⟨hlow, hhigh, -⟩
      · rw [← hsame, hfirst]
        rfl
      · simp [Text.isBlank]
        omega
    have htake : (path.toList ++ '"' :: after).takeWhile (· != '"') = path.toList := by
      rw [List.takeWhile_append_of_pos fun d hd =>
        bne_iff_ne.mpr (ne_of_mem_of_not_mem hd hpath),
        List.takeWhile_cons, if_neg (by decide), List.append_nil]
    unfold includePath?
    rw [List.cons_append, Text.skipBlank_append hindent hc, ← List.cons_append]
    dsimp only
    rw [List.take_left' hlength, List.drop_left' hlength, if_pos hword,
      Text.skipBlank_append hgap (by decide)]
    simp [htake]

/-- Paths are equal up to the case of letters and the kind of slash. -/
theorem foldPath_eq_iff {a b : String} : foldPath a = foldPath b ↔
    List.Forall₂ (fun c d => c.toLower = d.toLower ∨ c ∈ ['/', '\\'] ∧ d ∈ ['/', '\\'])
      a.toList b.toList := by
  let slash (c : Char) : Char := if c = '\\' then '/' else c
  have hfold : ∀ path, (foldPath path).toList = path.toList.map fun c => (slash c).toLower := by
    intro path
    simp [foldPath, slash, Function.comp_def]
  have hsame : ∀ c d, (slash c).toLower = (slash d).toLower ↔
      c.toLower = d.toLower ∨ c ∈ ['/', '\\'] ∧ d ∈ ['/', '\\'] := by
    intro c d
    have hslash : ∀ c : Char, c.toLower = '/' ↔ c = '/' :=
      fun c => ⟨eq_of_toLower_eq (by decide), by rintro rfl; rfl⟩
    have hback : ∀ c : Char, c.toLower = '\\' ↔ c = '\\' :=
      fun c => ⟨eq_of_toLower_eq (by decide), by rintro rfl; rfl⟩
    dsimp only [slash]
    split <;> split <;> grind
  rw [← String.toList_inj, hfold, hfold, ← List.forall₂_eq_eq_eq, List.forall₂_map_left_iff,
    List.forall₂_map_right_iff]
  simp only [hsame]

namespace Library

variable {files : List (String × String)} {stack : List String} {count depth : Nat}
variable {lines : List (List Char)} {path contents : String}

/-! ### The rules -/

/-- The lines behind `count` others become the result, while the files of `stack` are being
replaced.  Files are nested to the depth in them. -/
inductive Expands (files : List (String × String)) :
    (stack : List String) → (count : Nat) → List (List Char) → Expansion → (depth : Nat) → Prop
  | nil (stack : List String) (count : Nat) : Expands files stack count [] {} 0
  /-- Another line is kept. -/
  | plain {stack count line rest after depth} (hline : includePath? line = none)
      (hrest : Expands files stack (count + 1) rest after depth) :
      Expands files stack count (line :: rest) (.append ⟨[line], []⟩ after) depth
  /-- The file is being replaced. -/
  | cycle {stack count line rest after depth path} (hline : includePath? line = some path)
      (hstack : foldPath path ∈ stack)
      (hrest : Expands files stack (count + 1) rest after depth) :
      Expands files stack count (line :: rest)
        (.append ⟨[[]], [⟨.cycle path, count + 1⟩]⟩ after) depth
  /-- The file is not being replaced, and no file has its name. -/
  | missing {stack count line rest after depth path} (hline : includePath? line = some path)
      (hstack : foldPath path ∉ stack) (hnone : ∀ file ∈ files, foldPath file.1 ≠ foldPath path)
      (hrest : Expands files stack (count + 1) rest after depth) :
      Expands files stack count (line :: rest)
        (.append ⟨[[]], [⟨.unreadable path path, count + 1⟩]⟩ after) depth
  /-- The file is replaced in turn. -/
  | enter {stack count line rest inside after inner depth path contents}
      (hline : includePath? line = some path) (hstack : foldPath path ∉ stack)
      (hfile : Dict.get? (foldPath path) (store files) = some contents)
      (hinside : Expands files (foldPath path :: stack) count (Text.lines contents.toList) inside
        inner)
      (hrest : Expands files stack (count + inside.lines.length) rest after depth) :
      Expands files stack count (line :: rest) (.append inside after) (max (inner + 1) depth)

/-! ### Stored files -/

theorem mem_keys_foldl_insert {k : String} (stored : Dict String) :
    k ∈ (files.foldl (fun stored file => Dict.insert (foldPath file.1) file.2 stored) stored).keys ↔
      k ∈ stored.keys ∨ ∃ file ∈ files, foldPath file.1 = k := by
  induction files generalizing stored with
  | nil => simp
  | cons file files ih =>
    rw [List.foldl_cons, ih, Dict.mem_keys_insert, List.exists_mem_cons_iff]
    grind

theorem mem_keys_store {k : String} :
    k ∈ (store files).keys ↔ ∃ file ∈ files, foldPath file.1 = k :=
  (mem_keys_foldl_insert []).trans (or_iff_right List.not_mem_nil)

/-- No file has a name exactly if nothing is stored under it. -/
theorem get?_store_eq_none_iff {k : String} :
    Dict.get? k (store files) = none ↔ ∀ file ∈ files, foldPath file.1 ≠ k := by
  rw [Dict.get?_eq_none_iff, mem_keys_store]
  simp

theorem Expands.unique {result result' : Expansion} {depth' : Nat}
    (h : Expands files stack count lines result depth)
    (h' : Expands files stack count lines result' depth') : result = result' ∧ depth = depth' := by
  induction h generalizing result' depth' with
  | nil =>
    cases h'
    exact ⟨rfl, rfl⟩
  | plain hline hrest ih =>
    cases h' with
    | plain _ hrest' =>
      obtain ⟨rfl, rfl⟩ := ih hrest'
      exact ⟨rfl, rfl⟩
    | cycle hline' | missing hline' | enter hline' => cases hline.symm.trans hline'
  | cycle hline hstack hrest ih =>
    cases h' with
    | plain hline' => cases hline.symm.trans hline'
    | cycle hline' _ hrest' =>
      cases hline.symm.trans hline'
      obtain ⟨rfl, rfl⟩ := ih hrest'
      exact ⟨rfl, rfl⟩
    | missing hline' hstack' | enter hline' hstack' =>
      cases hline.symm.trans hline'
      exact absurd hstack hstack'
  | missing hline hstack hnone hrest ih =>
    cases h' with
    | plain hline' => cases hline.symm.trans hline'
    | cycle hline' hstack' =>
      cases hline.symm.trans hline'
      exact absurd hstack' hstack
    | missing hline' _ _ hrest' =>
      cases hline.symm.trans hline'
      obtain ⟨rfl, rfl⟩ := ih hrest'
      exact ⟨rfl, rfl⟩
    | enter hline' _ hfile' =>
      cases hline.symm.trans hline'
      rw [get?_store_eq_none_iff.mpr hnone] at hfile'
      cases hfile'
  | enter hline hstack hfile hinside hrest ihinside ihrest =>
    cases h' with
    | plain hline' => cases hline.symm.trans hline'
    | cycle hline' hstack' =>
      cases hline.symm.trans hline'
      exact absurd hstack' hstack
    | missing hline' _ hnone' =>
      cases hline.symm.trans hline'
      rw [get?_store_eq_none_iff.mpr hnone'] at hfile
      cases hfile
    | enter hline' _ hfile' hinside' hrest' =>
      cases hline.symm.trans hline'
      cases hfile.symm.trans hfile'
      obtain ⟨rfl, rfl⟩ := ihinside hinside'
      obtain ⟨rfl, rfl⟩ := ihrest hrest'
      exact ⟨rfl, rfl⟩

/-! ### The bound of the nesting -/

/-- The names of the stored files that have a line. -/
def busy (files : List (String × String)) : List String :=
  ((store files).filter fun file => Text.lines file.2.toList ≠ []).map Prod.fst

theorem mem_busy {k : String} (h : Dict.get? k (store files) = some contents)
    (hlines : Text.lines contents.toList ≠ []) : k ∈ busy files := by
  refine List.mem_map.mpr ⟨(k, contents), List.mem_filter.mpr ⟨Dict.mem_of_get? h, ?_⟩, rfl⟩
  simpa using hlines

/-- There are more lines than files that have one. -/
theorem length_busy_lt (files : List (String × String)) (source : String) :
    (busy files).length < (memory files).nestingBound source := by
  have hfold : ∀ (texts : List String) (bound : Nat),
      texts.foldl (fun bound text => bound + (Text.lines text.toList).length) bound =
        bound + (texts.map fun text => (Text.lines text.toList).length).sum := by
    intro texts
    induction texts with
    | nil => simp
    | cons text texts ih =>
      intro bound
      rw [List.foldl_cons, ih, List.map_cons, List.sum_cons, Nat.add_assoc]
  have hlength : ∀ stored : Dict String,
      (stored.filter fun file => Text.lines file.2.toList ≠ []).length ≤
        ((stored.map Prod.snd).map fun text => (Text.lines text.toList).length).sum := by
    intro stored
    induction stored with
    | nil => simp
    | cons file stored ih =>
      by_cases hlines : Text.lines file.2.toList = []
      · simpa [hlines] using ih
      · have hpos := List.length_pos_iff.mpr hlines
        simp only [ne_eq, hlines, not_false_eq_true, decide_true, List.filter_cons_of_pos,
          List.length_cons, List.map_cons, List.sum_cons]
        simp only [ne_eq] at ih
        omega
  have hstored := hlength (store files)
  unfold nestingBound
  rw [hfold]
  simp only [busy, memory, List.length_map, List.map_cons, List.sum_cons] at hstored ⊢
  omega

/-- One line after the other, where files that are entered follow the rules. -/
theorem expands_expandLines {enter : List String → Nat → String → Expansion}
    (hstack : stack.length ≤ (store files).length)
    (henter : ∀ path contents count, foldPath path ∉ stack →
      Dict.get? (foldPath path) (store files) = some contents →
      ∃ depth, depth + 1 + stack.length ≤ (store files).length ∧
        Expands files (foldPath path :: stack) count (Text.lines contents.toList)
          (enter (foldPath path :: stack) count contents) depth) :
    ∀ count, ∃ depth, depth + stack.length ≤ (store files).length ∧
      Expands files stack count lines
        (expandLines ((memory files).replacement enter stack) count lines) depth := by
  induction lines with
  | nil => exact fun count => ⟨0, by simpa using hstack, .nil stack count⟩
  | cons line rest ih =>
    intro count
    unfold expandLines
    extract_lets first
    obtain ⟨depth, hdepth, hrest⟩ := ih (count + first.lines.length)
    cases hline : includePath? line with
    | none =>
      have hfirst : first = ⟨[line], []⟩ := by simp only [first, hline]
      rw [hfirst] at hrest ⊢
      exact ⟨depth, hdepth, .plain hline hrest⟩
    | some path =>
      have hfirst : first = (memory files).replacement enter stack count path := by
        simp only [first, hline]
      unfold replacement at hfirst
      by_cases hcycle : foldPath path ∈ stack
      · rw [if_pos hcycle] at hfirst
        rw [hfirst] at hrest ⊢
        exact ⟨depth, hdepth, .cycle hline hcycle hrest⟩
      · rw [if_neg hcycle] at hfirst
        cases hfile : Dict.get? (foldPath path) (store files) with
        | none =>
          simp only [memory, hfile] at hfirst
          rw [hfirst] at hrest ⊢
          exact ⟨depth, hdepth, .missing hline hcycle (get?_store_eq_none_iff.mp hfile) hrest⟩
        | some contents =>
          simp only [memory, hfile] at hfirst
          obtain ⟨inner, hinner, hinside⟩ := henter path contents count hcycle hfile
          rw [hfirst] at hrest ⊢
          refine ⟨max (inner + 1) depth, ?_, .enter hline hcycle hfile hinside hrest⟩
          omega

/-- The result follows the rules.  Files without a line need no nesting, and the others that are
being replaced are among the busy ones. -/
theorem expands_expandAt (nesting : Nat) :
    ∀ {stack : List String} (count : Nat) (contents : String),
    stack.Nodup → stack ⊆ (store files).keys →
    (Text.lines contents.toList ≠ [] →
      stack ⊆ busy files ∧ (busy files).length < nesting + stack.length) →
    ∃ depth, depth + stack.length ≤ (store files).length ∧
      Expands files stack count (Text.lines contents.toList)
        ((memory files).expandAt nesting stack count contents) depth := by
  have hkeys : (store files).keys.length = (store files).length := List.length_map _
  induction nesting with
  | zero =>
    intro stack count contents hnodup hstored hbusy
    have hlength := hkeys ▸ (List.subperm_of_subset hnodup hstored).length_le
    have hlines : Text.lines contents.toList = [] := by
      by_contra hlines
      obtain ⟨hsubset, hlt⟩ := hbusy hlines
      have hle := (List.subperm_of_subset hnodup hsubset).length_le
      omega
    rw [hlines]
    exact ⟨0, by simpa using hlength, .nil stack count⟩
  | succ nesting ih =>
    intro stack count contents hnodup hstored hbusy
    have hlength := hkeys ▸ (List.subperm_of_subset hnodup hstored).length_le
    by_cases hlines : Text.lines contents.toList = []
    · unfold expandAt
      rw [hlines]
      exact ⟨0, by simpa using hlength, .nil stack count⟩
    · obtain ⟨hsubset, hlt⟩ := hbusy hlines
      refine expands_expandLines hlength (fun path contents count hpath hfile => ?_) count
      have hmem : foldPath path ∈ (store files).keys := by
        by_contra hnot
        rw [← Dict.get?_eq_none_iff, hfile] at hnot
        cases hnot
      obtain ⟨depth, hdepth, hinside⟩ := ih count contents (List.nodup_cons.mpr ⟨hpath, hnodup⟩)
        (List.cons_subset.mpr ⟨hmem, hstored⟩) fun hlines =>
          ⟨List.cons_subset.mpr ⟨mem_busy hfile hlines, hsubset⟩, by rw [List.length_cons]; omega⟩
      rw [List.length_cons] at hdepth
      exact ⟨depth, by omega, hinside⟩

/-- A text is replaced exactly as the rules say, whatever files are stored and however they include
each other.  Files are nested no deeper than there are stored ones. -/
theorem expands_memory_iff (files : List (String × String)) (source : String) :
    ∃ depth ≤ (store files).length, ∀ result depth',
      Expands files [] 0 (Text.lines source.toList) result depth' ↔
        result = (memory files).expand source ∧ depth' = depth := by
  have hbound : Text.lines source.toList ≠ [] → [] ⊆ busy files ∧
      (busy files).length < (memory files).nestingBound source + ([] : List String).length :=
    fun _ => ⟨List.nil_subset _, length_busy_lt files source⟩
  obtain ⟨depth, hdepth, hexpands⟩ := expands_expandAt ((memory files).nestingBound source) 0 source
    List.nodup_nil (List.nil_subset _) hbound
  refine ⟨depth, hdepth, fun result depth' => ⟨fun h => h.unique hexpands, ?_⟩⟩
  rintro ⟨rfl, rfl⟩
  exact hexpands

end Library

end FrameBasic
