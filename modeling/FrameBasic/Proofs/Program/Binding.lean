import FrameBasic.Proofs.Tree.Walk

/-!
# What is bound

The bindings of the script and of its functions are collected by walks that enter functions or do
not, and that leave out constants, parameters or globals.  Here it is said which names each of them
ends up with, without the order and the first values of the uses.

A function that is declared inside of another statement is not part of the script.  As long as there
is none, what functions see as global is bound for the whole script.

## Main definitions

* `Schedule.names` — the names that are bound for the whole script.
* `Program.FunctionsOnTop` — all functions of a program are declared at its top level.

## Main results

* `mem_keys_scriptBindings`, `mem_keys_localBindings` — the names that are bound.
* `mem_within_true` — a statement is met outside of functions or in one of them.
* `namesIn_subset_names` — what is used at the top level is bound for the whole script.
* `globalNames_subset_names` — and so is what functions see as global.
-/

namespace FrameBasic

open Script (identifier)

/-! ### The keys of dictionaries -/

namespace Dict

variable {α : Type}

theorem mem_keys_of_get? {k : String} {v : α} {d : Dict α} (h : get? k d = some v) :
    k ∈ keys d := by
  induction d with
  | nil => cases h
  | cons entry rest ih =>
    obtain ⟨key, value⟩ := entry
    by_cases hk : key = k
    · exact List.mem_map.mpr ⟨_, List.mem_cons_self, hk⟩
    · rw [get?, if_neg hk] at h
      exact List.mem_cons_of_mem _ (ih h)

theorem keys_sorted_perm (d : Dict α) : (keys (sorted d)).Perm (keys d) :=
  (List.mergeSort_perm d _).map Prod.fst

theorem mem_keys_sorted {k : String} {d : Dict α} : k ∈ keys (sorted d) ↔ k ∈ keys d :=
  (keys_sorted_perm d).mem_iff

theorem mem_keys_filter {k : String} {p : String → Bool} {d : Dict α} :
    k ∈ keys (d.filter fun entry => p entry.1) ↔ k ∈ keys d ∧ p k = true := by
  constructor
  · intro h
    obtain ⟨entry, hentry, rfl⟩ := List.mem_map.mp h
    obtain ⟨hmem, hp⟩ := List.mem_filter.mp hentry
    exact ⟨List.mem_map_of_mem hmem, hp⟩
  · rintro ⟨h, hp⟩
    obtain ⟨entry, hentry, rfl⟩ := List.mem_map.mp h
    exact List.mem_map_of_mem (List.mem_filter.mpr ⟨hentry, hp⟩)

end Dict

open Dict (keys)

theorem mem_keys_addUse {k : String} {bound : Dict Initial} {use : Use} :
    k ∈ keys (addUse bound use) ↔ k = use.1 ∨ k ∈ keys bound := by
  unfold addUse
  split
  · next known hknown =>
    have hmem := Dict.mem_keys_of_get? hknown
    split
    · exact Dict.mem_keys_insert
    · refine ⟨.inr, ?_⟩
      rintro (rfl | h)
      · exact hmem
      · exact h
  · exact Dict.mem_keys_insert

theorem mem_keys_foldl_addUse {k : String} {uses : List Use} {bound : Dict Initial} :
    k ∈ keys (uses.foldl addUse bound) ↔ k ∈ uses.map Prod.fst ∨ k ∈ keys bound := by
  induction uses generalizing bound with
  | nil => simp
  | cons use rest ih =>
    rw [List.foldl_cons, ih, mem_keys_addUse, List.map_cons, List.mem_cons,
      or_left_comm, or_assoc]

/-! ### Bindings -/

/-- The variables of a function are those that its body uses, without the parameters and without the
globals that the body does not declare itself. -/
theorem mem_keys_localBindings {params globals : List String} {body : List Stmt} {n : String} :
    n ∈ keys (localBindings params globals body) ↔
      n ∈ namesIn body ∧ n ∉ params ∧
        (n ∈ ((stmtsWithin false body).flatMap Stmt.localUses).map Prod.fst ∨ n ∉ globals) := by
  unfold localBindings
  extract_lets declared
  rw [Dict.mem_keys_sorted, Dict.mem_keys_filter
    (p := fun k => !params.contains k && (declared.contains k || !globals.contains k)),
    mem_keys_foldl_addUse]
  simp [namesIn, keys, declared]

/-- The variables of the script are those that are used at the top level or that functions declare
as global, without the constants. -/
theorem mem_keys_scriptBindings {s : Schedule} {n : String} :
    n ∈ keys (scriptBindings s) ↔
      ((∃ stmt ∈ s.ordinary, n ∈ namesIn [stmt]) ∨
        n ∈ ((stmtsWithin true s.functions).flatMap Stmt.globalUses).map Prod.fst) ∧
      n ∉ s.constants.map fun c => identifier c.name := by
  unfold scriptBindings
  extract_lets outside inside constants
  rw [Dict.mem_keys_sorted, Dict.mem_keys_filter (p := fun k => !constants.contains k),
    mem_keys_foldl_addUse, List.map_append, List.mem_append]
  have houtside : n ∈ outside.map Prod.fst ↔ ∃ stmt ∈ s.ordinary, n ∈ namesIn [stmt] := by
    simp only [outside, List.map_flatMap, List.mem_flatMap, namesIn]
  rw [houtside]
  simp [keys, inside, constants]

/-! ### Functions inside of statements -/

namespace Stmt

/-- What a statement at the top level holds besides its blocks: the body of a function. -/
def routines : Stmt → List (List Stmt)
  | .function _ _ _ _ body => [body]
  | _ => []

theorem within_true_eq (s : Stmt) :
    s.within true = s :: (s.blocks ++ s.routines).flatMap (stmtsWithin true) := by
  cases s with
  | if_ _ _ _ _ elseBranch =>
    cases elseBranch <;> simp [within, blocks, routines, elseIfsWithin_eq_flatMap]
  | select _ _ _ default =>
    cases default <;> simp [within, blocks, routines, casesWithin_eq_flatMap]
  | _ => simp [within, blocks, routines]

/-- From the blocks of statements and the bodies of functions to the whole. -/
theorem induction_on_inner {motive : Stmt → Prop}
    (h : ∀ s, (∀ block ∈ s.blocks ++ s.routines, ∀ inner ∈ block, motive inner) → motive s)
    (s : Stmt) : motive s :=
  h s fun block _ inner _ => induction_on_inner h inner
termination_by (s.within true).length
decreasing_by
  have hwithin : (inner.within true).Sublist (stmtsWithin true block) := by
    rw [stmtsWithin_eq_flatMap]
    exact List.sublist_flatten_of_mem (List.mem_map_of_mem ‹_›)
  have hblock : (stmtsWithin true block).Sublist
      ((s.blocks ++ s.routines).flatMap (stmtsWithin true)) :=
    List.sublist_flatten_of_mem (List.mem_map_of_mem ‹_›)
  rw [within_true_eq s]
  exact Nat.lt_succ_of_le (hwithin.trans hblock).length_le

theorem routines_eq_nil {s : Stmt} (h : s.isFunction = false) : s.routines = [] := by
  cases s with
  | function => cases h
  | _ => rfl

end Stmt

theorem mem_stmtsWithin {into : Bool} {s : Stmt} {stmts : List Stmt} :
    s ∈ stmtsWithin into stmts ↔ ∃ t ∈ stmts, s ∈ t.within into := by
  rw [stmtsWithin_eq_flatMap, List.mem_flatMap]

theorem Stmt.mem_within_false {s t : Stmt} :
    s ∈ t.within false ↔ s = t ∨ ∃ block ∈ t.blocks, ∃ inner ∈ block, s ∈ inner.within false := by
  rw [within_false_eq, List.mem_cons, List.mem_flatMap]
  simp only [mem_stmtsWithin]

/-- What stands in a statement of a statement stands in the latter. -/
theorem within_subset_of_mem {s t : Stmt} (h : s ∈ t.within false) :
    s.within false ⊆ t.within false := by
  induction t using Stmt.induction_on_blocks with
  | h t ih =>
    rcases Stmt.mem_within_false.mp h with rfl | ⟨block, hblock, inner, hinner, hmem⟩
    · exact List.Subset.refl _
    · intro u hu
      refine Stmt.mem_within_false.mpr (.inr ⟨block, hblock, inner, hinner, ?_⟩)
      exact ih block hblock inner hinner hmem hu

theorem namesIn_subset_of_within {s t : Stmt} (h : s ∈ t.within false) :
    namesIn [s] ⊆ namesIn [t] := by
  refine namesIn_subset ?_
  simpa [stmtsWithin] using within_subset_of_mem h

theorem within_false_subset (t : Stmt) : t.within false ⊆ t.within true := by
  induction t using Stmt.induction_on_blocks with
  | h t ih =>
    intro s hs
    rw [Stmt.within_true_eq]
    rcases Stmt.mem_within_false.mp hs with rfl | ⟨block, hblock, inner, hinner, hmem⟩
    · exact List.mem_cons_self
    · refine List.mem_cons_of_mem _ (List.mem_flatMap.mpr ⟨block, ?_, ?_⟩)
      · exact List.mem_append_left _ hblock
      · exact mem_stmtsWithin.mpr ⟨inner, hinner, ih block hblock inner hinner hmem⟩

/-- A statement is met outside of functions or in one of them. -/
theorem mem_within_true {s t : Stmt} (h : s ∈ t.within true) :
    s ∈ t.within false ∨ ∃ f ∈ t.within false, f.isFunction = true ∧ s ∈ f.within true := by
  induction t using Stmt.induction_on_blocks with
  | h t ih =>
    cases hfunction : t.isFunction with
    | true => exact .inr ⟨t, Stmt.mem_within_false.mpr (.inl rfl), hfunction, h⟩
    | false =>
      rw [Stmt.within_true_eq, Stmt.routines_eq_nil hfunction, List.append_nil] at h
      rcases List.mem_cons.mp h with rfl | h
      · exact .inl (Stmt.mem_within_false.mpr (.inl rfl))
      · obtain ⟨block, hblock, hmem⟩ := List.mem_flatMap.mp h
        obtain ⟨inner, hinner, hmem⟩ := mem_stmtsWithin.mp hmem
        have hsub : inner.within false ⊆ t.within false := fun u hu =>
          Stmt.mem_within_false.mpr (.inr ⟨block, hblock, inner, hinner, hu⟩)
        rcases ih block hblock inner hinner hmem with hs | ⟨f, hf, hrest⟩
        · exact .inl (hsub hs)
        · exact .inr ⟨f, hsub hf, hrest⟩

/-- All functions of the program are declared at its top level. -/
def Program.FunctionsOnTop (p : Program) : Prop :=
  ∀ s ∈ stmtsWithin true p.stmts, s.isFunction = true → s ∈ p.stmts

/-! ### The names of the script -/

namespace Schedule

/-- The names that are bound for the whole script: the constants and the variables. -/
def names (s : Schedule) : List String :=
  (s.constants.map fun c => identifier c.name) ++ keys (scriptBindings s)

theorem mem_names {s : Schedule} {n : String}
    (h : (∃ stmt ∈ s.ordinary, n ∈ namesIn [stmt]) ∨
      n ∈ ((stmtsWithin true s.functions).flatMap Stmt.globalUses).map Prod.fst) :
    n ∈ s.names := by
  by_cases hconst : n ∈ s.constants.map fun c => identifier c.name
  · exact List.mem_append_left _ hconst
  · exact List.mem_append_right _ (mem_keys_scriptBindings.mpr ⟨h, hconst⟩)

section Pass

variable {frameFunctions : List String} {stmts types functions init shutdown : List Stmt}
variable {constants : List Constant} {loop : Stmt}

/-- A statement is a type, a function, or neither of them. -/
theorem role_cases (s : Stmt) : (s.isType = true ∧ s.isFunction = false) ∨
    (s.isType = false ∧ s.isFunction = true) ∨ s.isType = false ∧ s.isFunction = false := by
  cases s with
  | type => exact .inl ⟨rfl, rfl⟩
  | function => exact .inr (.inl ⟨rfl, rfl⟩)
  | _ => exact .inr (.inr ⟨rfl, rfl⟩)

/-- Behind the main loop, what is neither a type nor a function runs at the end. -/
theorem foldl_add_of_some :
    stmts.foldl (add frameFunctions) ⟨types, functions, constants, init, some loop, shutdown⟩ =
      ⟨types ++ stmts.filter Stmt.isType, functions ++ stmts.filter Stmt.isFunction, constants, init,
        some loop, shutdown ++ stmts.filter fun s => !(s.isType || s.isFunction)⟩ := by
  induction stmts generalizing types functions shutdown with
  | nil => simp
  | cons s rest ih =>
    rcases role_cases s with ⟨ht, hf⟩ | ⟨ht, hf⟩ | ⟨ht, hf⟩ <;> simp [add, ht, hf, ih]

/-- The first loop that presents a frame cuts what is neither a type nor a function. -/
theorem foldl_add_of_none :
    let ordinary := stmts.filter fun s => !(s.isType || s.isFunction)
    let rest := ordinary.dropWhile fun s => !s.isFrameLoop frameFunctions
    stmts.foldl (add frameFunctions) ⟨types, functions, constants, init, none, []⟩ =
      ⟨types ++ stmts.filter Stmt.isType, functions ++ stmts.filter Stmt.isFunction, constants,
        init ++ ordinary.takeWhile fun s => !s.isFrameLoop frameFunctions, rest.head?, rest.tail⟩ := by
  induction stmts generalizing types functions init with
  | nil => simp
  | cons s rest ih =>
    rcases role_cases s with ⟨ht, hf⟩ | ⟨ht, hf⟩ | ⟨ht, hf⟩
    · simp [add, ht, hf, ih]
    · simp [add, ht, hf, ih]
    · -- the first loop that presents a frame ends this part of the pass
      cases hloop : s.isFrameLoop frameFunctions with
      | true => simp [add, ht, hf, hloop, foldl_add_of_some]
      | false => simp [add, ht, hf, hloop, ih]

end Pass

/-- The parts that one pass over the statements of a program makes. -/
theorem ofProgram_eq (frameFunctions : List String) (p : Program) :
    let ordinary := p.stmts.filter fun s => !(s.isType || s.isFunction)
    let before (s : Stmt) : Bool := !s.isFrameLoop frameFunctions
    ofProgram frameFunctions p =
      { types := p.stmts.filter Stmt.isType
        functions := p.functions
        constants := (stmtsWithin false p.stmts).filterMap Stmt.constant?
        init := ordinary.takeWhile before
        mainLoop := (ordinary.dropWhile before).head?
        shutdown := (ordinary.dropWhile before).tail } :=
  foldl_add_of_none

@[simp] theorem types_ofProgram (frameFunctions : List String) (p : Program) :
    (ofProgram frameFunctions p).types = p.stmts.filter Stmt.isType := by
  rw [ofProgram_eq]

@[simp] theorem functions_ofProgram (frameFunctions : List String) (p : Program) :
    (ofProgram frameFunctions p).functions = p.functions := by
  rw [ofProgram_eq]

@[simp] theorem constants_ofProgram (frameFunctions : List String) (p : Program) :
    (ofProgram frameFunctions p).constants =
      (stmtsWithin false p.stmts).filterMap Stmt.constant? := by
  rw [ofProgram_eq]

theorem ordinary_ofProgram (frameFunctions : List String) (p : Program) :
    (ofProgram frameFunctions p).ordinary =
      p.stmts.filter fun s => !(s.isType || s.isFunction) := by
  have hrest : ∀ stmts : List Stmt, stmts.head?.toList ++ stmts.tail = stmts := by
    intro stmts
    cases stmts <;> rfl
  simp only [ordinary, ofProgram_eq, List.append_assoc, hrest, List.takeWhile_append_dropWhile]

end Schedule

theorem mem_namesIn {n : String} {stmts : List Stmt} :
    n ∈ namesIn stmts ↔ ∃ s ∈ stmts, n ∈ namesIn [s] := by
  constructor
  · intro h
    obtain ⟨use, huse, rfl⟩ := List.mem_map.mp h
    rcases List.mem_append.mp huse with huse | huse
    · obtain ⟨t, ht, hmem⟩ := List.mem_flatMap.mp huse
      obtain ⟨s, hs, hts⟩ := mem_stmtsWithin.mp ht
      exact ⟨s, hs, namesIn_subset_of_within hts (mem_namesIn_of_uses hmem)⟩
    · obtain ⟨sub, hsub, hmem⟩ := List.mem_flatMap.mp huse
      obtain ⟨t, ht, he⟩ := List.mem_flatMap.mp hsub
      obtain ⟨s, hs, hts⟩ := mem_stmtsWithin.mp ht
      obtain ⟨e, he, hsub⟩ := List.mem_flatMap.mp he
      have hname : use.1 ∈ e.names :=
        List.mem_map_of_mem (List.mem_flatMap.mpr ⟨sub, hsub, hmem⟩)
      exact ⟨s, hs, namesIn_subset_of_within hts (Expr.names_subset_namesIn he hname)⟩
  · rintro ⟨s, hs, h⟩
    exact namesIn_subset (stmtsWithin_subset_of_mem hs) h

/-- What is used at the top level is bound for the whole script. -/
theorem namesIn_subset_names {s : Schedule} {stmts : List Stmt} (h : stmts ⊆ s.ordinary) :
    namesIn stmts ⊆ s.names := by
  intro n hn
  obtain ⟨stmt, hstmt, hmem⟩ := mem_namesIn.mp hn
  exact Schedule.mem_names (.inl ⟨stmt, h hstmt, hmem⟩)

section Program

variable {frameFunctions : List String} {p : Program}

/-- A statement with other statements in it is neither a type nor a function. -/
theorem mem_ordinary_of_within {s t : Stmt} (ht : t ∈ p.stmts) (hs : s ∈ t.within false)
    (hplain : (s.isType || s.isFunction) = false) :
    t ∈ (Schedule.ofProgram frameFunctions p).ordinary := by
  rw [Schedule.ordinary_ofProgram, List.mem_filter]
  refine ⟨ht, ?_⟩
  rcases Stmt.mem_within_false.mp hs with rfl | ⟨block, hblock, -⟩
  · rw [hplain]
    rfl
  · cases t with
    | type | function => exact absurd hblock List.not_mem_nil
    | _ => rfl

/-- The value of a constant uses names that are bound for the whole script. -/
theorem names_subset_of_constant {c : Constant}
    (h : c ∈ (Schedule.ofProgram frameFunctions p).constants) :
    c.value.names ⊆ (Schedule.ofProgram frameFunctions p).names := by
  rw [Schedule.constants_ofProgram] at h
  obtain ⟨s, hs, hc⟩ := List.mem_filterMap.mp h
  obtain ⟨t, ht, hst⟩ := mem_stmtsWithin.mp hs
  cases s with
  | const span name value =>
    cases hc
    intro n hn
    have hmem := Expr.names_subset_namesIn (s := .const span name value) List.mem_cons_self hn
    refine Schedule.mem_names (.inl ⟨t, mem_ordinary_of_within ht hst rfl, ?_⟩)
    exact namesIn_subset_of_within hst hmem
  | _ => cases hc

theorem mem_uses_of_globalUses {s : Stmt} {use : Use} (h : use ∈ s.globalUses) :
    use ∈ s.uses ∧ (s.isType || s.isFunction) = false := by
  unfold Stmt.globalUses at h
  split at h
  · exact ⟨h, rfl⟩
  · exact ⟨h, rfl⟩
  · exact absurd h List.not_mem_nil

/-- What functions see as global is bound for the whole script, if no function is declared inside
of another statement. -/
theorem globalNames_subset_names (htop : p.FunctionsOnTop) :
    globalNames p ⊆ (Schedule.ofProgram frameFunctions p).names := by
  intro n hn
  rcases List.mem_append.mp hn with hn | hn
  · obtain ⟨use, huse, rfl⟩ := List.mem_map.mp hn
    obtain ⟨s, hs, hmem⟩ := List.mem_flatMap.mp huse
    obtain ⟨t, ht, hst⟩ := mem_stmtsWithin.mp hs
    obtain ⟨huses, hplain⟩ := mem_uses_of_globalUses hmem
    rcases mem_within_true hst with hst | ⟨f, hf, hfunction, hsf⟩
    · refine Schedule.mem_names (.inl ⟨t, mem_ordinary_of_within ht hst hplain, ?_⟩)
      exact namesIn_subset_of_within hst (mem_namesIn_of_uses huses)
    · -- the function stands at the top level itself
      have hin : f ∈ stmtsWithin true p.stmts :=
        mem_stmtsWithin.mpr ⟨t, ht, within_false_subset t hf⟩
      have hfunctions : f ∈ (Schedule.ofProgram frameFunctions p).functions := by
        rw [Schedule.functions_ofProgram]
        exact List.mem_filter.mpr ⟨htop f hin hfunction, hfunction⟩
      refine Schedule.mem_names (.inr (List.mem_map_of_mem (List.mem_flatMap.mpr ⟨s, ?_, hmem⟩)))
      exact mem_stmtsWithin.mpr ⟨f, hfunctions, hsf⟩
  · rw [Schedule.names, Schedule.constants_ofProgram]
    exact List.mem_append_left _ hn

end Program

end FrameBasic
