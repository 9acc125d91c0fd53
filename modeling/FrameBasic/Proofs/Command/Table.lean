import FrameBasic.Proofs.Command.Template
import FrameBasic.Proofs.Scope

/-!
# What is wrong with a table

A table is built by storing descriptions one after the other, and the last one under a name in small
letters is the one that counts.  What is reported about the table is what is wrong with these
descriptions, by increasing name, however the table came about.  The templates of a table without
faults can be filled.

## Main definitions

* `Transform.indices` — the argument positions that an adjustment names.
* `Descriptor.Consistent` — a description has nothing wrong under a name.
* `CommandTable.latest?` — the description that was stored last.

## Main results

* `Dict.sorted_congr` — the order of the keys is lost by sorting.
* `Descriptor.faults_eq_nil_iff` — one description is reported if it is not consistent.
* `CommandTable.faults_ofList` — **a table has faults if one of its descriptions is not consistent**,
  and they do not depend on how it was built.
* `Descriptor.filled_parts` — **the slots are filled and nothing else changes**; in a table without
  faults no slot stays empty.
-/

namespace FrameBasic

/-! ### Sorted entries -/

namespace Dict

variable {α : Type} {d e : Dict α}

theorem mem_sorted {entry : String × α} : entry ∈ sorted d ↔ entry ∈ d :=
  (List.mergeSort_perm d _).mem_iff

theorem pairwise_sorted (d : Dict α) : (sorted d).Pairwise fun a b => a.1 ≤ b.1 := by
  have htrans : ∀ a b c : String × α, decide (a.1 ≤ b.1) = true → decide (b.1 ≤ c.1) = true →
      decide (a.1 ≤ c.1) = true := by
    intro a b c hab hbc
    exact decide_eq_true (String.le_trans (of_decide_eq_true hab) (of_decide_eq_true hbc))
  have htotal : ∀ a b : String × α, (decide (a.1 ≤ b.1) || decide (b.1 ≤ a.1)) = true := by
    intro a b
    simpa using String.le_total a.1 b.1
  exact (List.pairwise_mergeSort htrans htotal d).imp of_decide_eq_true

theorem nodup_of_keys (h : d.keys.Nodup) : d.Nodup :=
  List.Pairwise.of_map Prod.fst (fun _ _ hne heq => hne (congrArg Prod.fst heq)) h

theorem sorted_congr (hd : d.keys.Nodup) (he : e.keys.Nodup) (h : ∀ k, d.get? k = e.get? k) :
    sorted d = sorted e := by
  have hmem : ∀ entry, entry ∈ d ↔ entry ∈ e := by
    rintro ⟨k, v⟩
    constructor
    · intro hin
      exact mem_of_get? ((h k).symm.trans (get?_of_mem hd hin))
    · intro hin
      exact mem_of_get? ((h k).trans (get?_of_mem he hin))
  have hperm : d.Perm e :=
    (List.perm_ext_iff_of_nodup (nodup_of_keys hd) (nodup_of_keys he)).mpr hmem
  refine List.Perm.eq_of_pairwise ?_ (pairwise_sorted d) (pairwise_sorted e)
    ((List.mergeSort_perm d _).trans (hperm.trans (List.mergeSort_perm e _).symm))
  -- entries that neither comes before the other have one key, and there is one entry for it
  rintro ⟨k, v⟩ ⟨k', v'⟩ hv hv' hle hge
  obtain rfl := String.le_antisymm hle hge
  have hget := get?_of_mem hd (mem_sorted.mp hv)
  rw [get?_of_mem hd ((hmem _).mpr (mem_sorted.mp hv'))] at hget
  rw [Option.some.inj hget]

end Dict

/-! ### One description -/

/-- The argument positions that an adjustment names. -/
def Transform.indices : Transform → List Nat
  | .default index _ | .flag index | .code index _ => [index]
  | .reorder order => order

/-- A reorder is checked by its highest position only, which is enough. -/
theorem Transform.maxIndex?_lt_iff {t : Transform} {n : Nat} :
    (∀ m, t.maxIndex? = some m → m < n) ↔ ∀ i ∈ t.indices, i < n := by
  cases t with
  | default | flag | code => simp [maxIndex?, indices]
  | reorder order =>
    constructor
    · intro h i hi
      cases hmax : order.max? with
      | none =>
        rw [List.max?_eq_none_iff.mp hmax] at hi
        cases hi
      | some m => exact Nat.lt_of_le_of_lt ((List.max?_eq_some_iff.mp hmax).2 i hi) (h m hmax)
    · intro h m hm
      exact h m (List.max?_mem hm)

theorem Text.trim_eq_nil_iff {cs : List Char} :
    trim cs = [] ↔ ∀ c ∈ cs, isBlank c = true := by
  constructor
  · intro h c hc
    by_cases hblank : isBlank c = true
    · exact hblank
    · have hmem := mem_trim (Bool.eq_false_iff.mpr hblank) hc
      rw [h] at hmem
      cases hmem
  · intro h
    have hskip : skipBlank cs = [] := by
      induction cs with
      | nil => rfl
      | cons c cs ih =>
        obtain ⟨hc, hcs⟩ := List.forall_mem_cons.mp h
        rw [skipBlank, List.dropWhile_cons, if_pos hc]
        exact ih hcs
    rw [trim, hskip]
    rfl

/-- The name that an inconsistency is about. -/
def TableFault.name : TableFault → String
  | .shadowed name | .emptyTarget name | .transformRange name _ _ | .slotRange name _ _ => name

namespace Descriptor

/-- A description has nothing wrong under a name. -/
structure Consistent (name : String) (d : Descriptor) : Prop where
  /-- The name is no reserved word. -/
  word : ∀ keyword : Keyword, Text.lower keyword.spelling ≠ Text.lower name
  /-- There is a target that is not blank. -/
  target : d.category = .unsupported ∨ ∃ c ∈ d.target.toList, Text.isBlank c = false
  /-- The adjustments are about parameters. -/
  transforms : ∀ t ∈ d.transforms, ∀ i ∈ t.indices, i < d.params.length
  /-- The slots of the template are parameters. -/
  slots : d.category = .inline → ∀ parts, Template.Parts d.target.toList parts →
    ∀ i, .slot i ∈ parts → i < d.params.length

theorem name_of_mem_faults {name : String} {d : Descriptor} {fault : TableFault}
    (h : fault ∈ d.faults name) : fault.name = name := by
  simp only [faults, List.mem_append, List.mem_map, List.mem_ite_nil_right, List.mem_singleton] at h
  rcases h with ((⟨-, rfl⟩ | ⟨-, rfl⟩) | ⟨_, -, rfl⟩) | ⟨-, _, -, rfl⟩ <;> rfl

theorem faults_eq_nil_iff {name : String} {d : Descriptor} :
    d.faults name = [] ↔ d.Consistent name := by
  have hword : Keyword.find? name = none ↔
      ∀ keyword : Keyword, Text.lower keyword.spelling ≠ Text.lower name := by
    simp [Keyword.find?, Text.sameLetters, Keyword.mem_all]
  have htransforms : (d.transformIndices.filter (d.params.length ≤ ·)) = [] ↔
      ∀ t ∈ d.transforms, ∀ i ∈ t.indices, i < d.params.length := by
    simp only [← Transform.maxIndex?_lt_iff, transformIndices, List.filter_eq_nil_iff,
      List.mem_filterMap, decide_eq_true_eq, Nat.not_le]
    grind
  have htarget : ¬ (d.category ≠ .unsupported ∧ Text.trim d.target.toList = []) ↔
      d.category = .unsupported ∨ ∃ c ∈ d.target.toList, Text.isBlank c = false := by
    rw [Text.trim_eq_nil_iff]
    grind
  have hslots : (Template.slots d.target.toList).filter (d.params.length ≤ ·) = [] ↔
      ∀ parts, Template.Parts d.target.toList parts → ∀ i, .slot i ∈ parts → i < d.params.length := by
    simp only [List.filter_eq_nil_iff, decide_eq_true_eq, Nat.not_le]
    constructor
    · exact fun h parts hparts i hi => h i (hparts.mem_slots_iff.mpr hi)
    · intro h i hi
      obtain ⟨parts, hparts⟩ := Template.exists_parts d.target.toList
      exact h parts hparts i (hparts.mem_slots_iff.mp hi)
  simp only [faults, List.append_eq_nil_iff, List.map_eq_nil_iff, htransforms, ite_eq_right_iff,
    List.cons_ne_nil, imp_false, htarget, hslots, Option.isSome_iff_ne_none, not_not, hword]
  -- what is left is to put the four conditions into their fields
  constructor
  · rintro ⟨⟨⟨hname, htarget⟩, htransforms⟩, hslots⟩
    exact ⟨hname, htarget, htransforms, hslots⟩
  · rintro ⟨hname, htarget, htransforms, hslots⟩
    exact ⟨⟨⟨hname, htarget⟩, htransforms⟩, hslots⟩

end Descriptor

/-! ### Tables -/

namespace CommandTable

/-- The description that was stored last under a name in small letters. -/
def latest? (key : String) (inserts : List (String × Descriptor)) : Option Descriptor :=
  (inserts.reverse.find? fun entry => Text.lower entry.1 = key).map Prod.snd

theorem get?_foldl_insert (key : String) (inserts : List (String × Descriptor))
    (table : CommandTable) :
    Dict.get? key (inserts.foldl (fun table entry => table.insert entry.1 entry.2) table).entries =
      (latest? key inserts).or (Dict.get? key table.entries) := by
  induction inserts generalizing table with
  | nil => rfl
  | cons entry rest ih =>
    rw [List.foldl_cons, ih, insert, Dict.get?_insert]
    by_cases hkey : Text.lower entry.1 = key <;> simp [latest?, hkey]

theorem nodup_keys_foldl_insert (inserts : List (String × Descriptor)) (table : CommandTable)
    (h : table.entries.keys.Nodup) :
    (inserts.foldl (fun table entry => table.insert entry.1 entry.2) table).entries.keys.Nodup := by
  induction inserts generalizing table with
  | nil => exact h
  | cons entry rest ih => exact ih _ (Dict.nodup_keys_insert h _ _)

theorem get?_ofList (key : String) (inserts : List (String × Descriptor)) :
    Dict.get? key (ofList inserts).entries = latest? key inserts :=
  (get?_foldl_insert key inserts empty).trans (by simp [empty])

theorem nodup_keys_ofList (inserts : List (String × Descriptor)) :
    (ofList inserts).entries.keys.Nodup :=
  nodup_keys_foldl_insert inserts empty List.nodup_nil

theorem mem_ofList {key : String} {d : Descriptor} {inserts : List (String × Descriptor)} :
    (key, d) ∈ (ofList inserts).entries ↔ latest? key inserts = some d := by
  rw [← get?_ofList]
  exact ⟨Dict.get?_of_mem (nodup_keys_ofList inserts), Dict.mem_of_get?⟩

theorem faults_eq_nil_iff {table : CommandTable} :
    table.faults = [] ↔ ∀ entry ∈ table.entries, entry.2.Consistent entry.1 := by
  simp only [faults, List.flatMap_eq_nil_iff, Dict.mem_sorted, Descriptor.faults_eq_nil_iff]

theorem pairwise_faults (table : CommandTable) :
    table.faults.Pairwise fun a b => a.name ≤ b.name := by
  refine List.pairwise_flatMap.mpr ⟨?_, (Dict.pairwise_sorted table.entries).imp ?_⟩
  · -- all faults of one entry have its name
    intro entry _
    have hall : (entry.2.faults entry.1).Pairwise fun _ _ => True :=
      List.pairwise_of_forall fun _ _ => trivial
    refine hall.imp_of_mem fun hx hy _ => ?_
    rw [Descriptor.name_of_mem_faults hx, Descriptor.name_of_mem_faults hy]
  · intro a b hle x hx y hy
    rwa [Descriptor.name_of_mem_faults hx, Descriptor.name_of_mem_faults hy]

/-- **What is reported about a table is what is wrong with the descriptions that were stored last**,
by increasing name, and nothing else about the order in which they were stored. -/
theorem faults_ofList (inserts : List (String × Descriptor)) :
    ((ofList inserts).faults = [] ↔
        ∀ name d, latest? name inserts = some d → d.Consistent name) ∧
      (ofList inserts).faults.Pairwise (fun a b => a.name ≤ b.name) ∧
      (∀ fault, fault ∈ (ofList inserts).faults ↔
        ∃ d, latest? fault.name inserts = some d ∧ fault ∈ d.faults fault.name) ∧
      ∀ others, (∀ name, latest? name others = latest? name inserts) →
        (ofList others).faults = (ofList inserts).faults := by
  refine ⟨faults_eq_nil_iff.trans ?_, pairwise_faults _, fun fault => ?_, fun others h => ?_⟩
  · constructor
    · intro h name d hd
      exact h _ (mem_ofList.mpr hd)
    · rintro h ⟨name, d⟩ hd
      exact h name d (mem_ofList.mp hd)
  · constructor
    · intro h
      obtain ⟨⟨name, d⟩, hentry, hfault⟩ := List.mem_flatMap.mp h
      obtain rfl := Descriptor.name_of_mem_faults hfault
      exact ⟨d, mem_ofList.mp (Dict.mem_sorted.mp hentry), hfault⟩
    · rintro ⟨d, hd, hfault⟩
      exact List.mem_flatMap.mpr ⟨_, Dict.mem_sorted.mpr (mem_ofList.mpr hd), hfault⟩
  · have hget : ∀ key, Dict.get? key (ofList others).entries =
        Dict.get? key (ofList inserts).entries := by
      intro key
      rw [get?_ofList, get?_ofList, h]
    rw [faults, faults,
      Dict.sorted_congr (nodup_keys_ofList others) (nodup_keys_ofList inserts) hget]

end CommandTable

/-! ### Filling -/

open Template Script

/-- **Filling a template replaces its slots and keeps all other characters**: the slots that are
looked up are those that are checked, a missing argument is written as such, and an argument is
written as it is.  If the table has no faults and there is an argument for each parameter, none is
missing. -/
theorem Descriptor.filled_parts (d : Descriptor) (args : List Fragment) :
    ∃ parts, Parts d.target.toList parts ∧
      slots d.target.toList = parts.filterMap Part.index? ∧
      fill (fun _ => []) (fun i => [i]) d.target.toList = slots d.target.toList ∧
      (d.filled args).render.toList = parts.flatMap (Part.filling (fun c => [c]) fun i =>
        ((args[i]?).elim "undefined" Fragment.render).toList) ∧
      ∀ (table : CommandTable) (name : String), table.get? name = some d → table.faults = [] →
        d.category = .inline → d.params.length ≤ args.length →
        ∀ i, Part.slot i ∈ parts → ∃ arg, args[i]? = some arg := by
  obtain ⟨parts, hparts⟩ := exists_parts d.target.toList
  refine ⟨parts, hparts, hparts.slots_eq, ?_, ?_, ?_⟩
  · rw [hparts.fill_eq, hparts.slots_eq, List.filterMap_eq_flatMap_toList]
    refine List.flatMap_congr fun part _ => ?_
    cases part <;> rfl
  · rw [Fragment.toList_render, Descriptor.filled, hparts.fill_eq, List.flatMap_assoc]
    refine List.flatMap_congr fun part _ => ?_
    cases part with
    | char c => simp [Part.filling, plain, Piece.render]
    | slot i =>
      show ((args[i]?).getD missing).flatMap _ =
        ((args[i]?).elim "undefined" Fragment.render).toList
      rw [← Fragment.toList_render]
      cases args[i]? <;> rfl
  · intro table name hget hfaults hinline hargs i hi
    have hmem := Dict.mem_of_get? hget
    have hconsistent := CommandTable.faults_eq_nil_iff.mp hfaults _ hmem
    have hlt := Nat.lt_of_lt_of_le (hconsistent.slots hinline parts hparts i hi) hargs
    exact ⟨_, List.getElem?_eq_getElem hlt⟩

end FrameBasic
