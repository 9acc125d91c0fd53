import FrameBasic.Script.Arguments

/-!
# Adjusted arguments

The adjustments of a command work one after the other on a list that grows while they do.  Without a
reorder, what was given stays in its place, a default value is found where it belongs, and the gaps
before it are filled.

## Main definitions

* `Descriptor.defaults` — the default values, with their positions.
* `Descriptor.Spares` — no adjustment changes the argument at a position.

## Main results

* `Transform.getElem?_apply_of_lt`, `Transform.getElem?_apply_of_ge` — what one adjustment does to
  the arguments that are there, and what it adds.
* `Descriptor.arguments_of_defaults` — **what all adjustments do**.
-/

namespace FrameBasic

open Script

/-! ### One adjustment -/

namespace Transform

/-- The position and the value of a default. -/
def default? : Transform → Option (Nat × String)
  | .default index value => some (index, value)
  | _ => none

/-- The adjustment changes no argument at a position. -/
def Spares (i : Nat) (t : Transform) : Prop :=
  t ≠ .flag i ∧ ∀ device, t ≠ .code i device

variable {t : Transform} {args : List Fragment} {i : Nat}

theorem apply_default (index : Nat) (value : String) (args : List Fragment) :
    apply args (.default index value) = if index < args.length then args else
      args ++ List.replicate (index - args.length) missing ++ [plain value] := by
  unfold apply
  dsimp only
  by_cases h : index < args.length
  · have hnone : index - args.length = 0 := by omega
    rw [if_pos h, if_neg (by simp; omega), hnone, List.replicate_zero, List.append_nil]
  · rw [if_neg h, if_pos (by simp; omega)]

theorem length_apply (h : ∀ order, t ≠ .reorder order) :
    (t.apply args).length = t.default?.elim args.length fun e => max args.length (1 + e.1) := by
  cases t with
  | default index value =>
    rw [apply_default, default?, Option.elim_some]
    split
    · omega
    · simp only [List.length_append, List.length_replicate, List.length_singleton]
      omega
  | reorder order => exact absurd rfl (h order)
  | flag index | code index device => exact List.length_modify ..

theorem getElem?_apply_of_lt (h : ∀ order, t ≠ .reorder order) (hspares : t.Spares i)
    (hi : i < args.length) : (t.apply args)[i]? = args[i]? := by
  cases t with
  | default index value =>
    rw [apply_default]
    split
    · rfl
    · rw [List.append_assoc, List.getElem?_append_left hi]
  | reorder order => exact absurd rfl (h order)
  | flag index =>
    have hne : index ≠ i := fun heq => hspares.1 (congrArg _ heq)
    exact List.getElem?_modify_ne _ _ hne
  | code index device =>
    have hne : index ≠ i := fun heq => hspares.2 device (by rw [heq])
    exact List.getElem?_modify_ne _ _ hne

/-- What is added is a default and the gap before it. -/
theorem getElem?_apply_of_ge {index : Nat} {value : String} (hi : args.length ≤ i)
    (hindex : i ≤ index) : (apply args (.default index value))[i]? =
      some (if i = index then plain value else missing) := by
  rw [apply_default, if_neg (by omega), List.append_assoc, List.getElem?_append_right hi,
    List.getElem?_append, List.length_replicate]
  split
  · rw [List.getElem?_replicate, if_pos (by omega), if_neg (by omega)]
  · have hlast : i = index := by omega
    rw [if_pos hlast, hlast, Nat.sub_self]
    rfl

/-! ### All adjustments -/

variable {ts : List Transform}

theorem length_foldl_apply (h : ∀ t ∈ ts, ∀ order, t ≠ .reorder order) :
    (ts.foldl apply args).length = ((ts.filterMap default?).map Prod.fst).max?.elim args.length
      fun largest => max args.length (1 + largest) := by
  induction ts generalizing args with
  | nil => rfl
  | cons t rest ih =>
    obtain ⟨ht, hrest⟩ := List.forall_mem_cons.mp h
    rw [List.foldl_cons, ih hrest, length_apply ht, List.filterMap_cons]
    cases t.default? with
    | none => rfl
    | some e =>
      rw [List.map_cons, List.max?_cons]
      cases ((rest.filterMap default?).map Prod.fst).max? <;> simp [Nat.max_assoc]

theorem getElem?_foldl_apply_of_lt (h : ∀ t ∈ ts, ∀ order, t ≠ .reorder order)
    (hspares : ∀ t ∈ ts, t.Spares i) (hi : i < args.length) :
    (ts.foldl apply args)[i]? = args[i]? := by
  induction ts generalizing args with
  | nil => rfl
  | cons t rest ih =>
    obtain ⟨ht, hrest⟩ := List.forall_mem_cons.mp h
    obtain ⟨hone, hmore⟩ := List.forall_mem_cons.mp hspares
    have hlength : args.length ≤ (t.apply args).length := by
      rw [length_apply ht]
      cases t.default? with
      | none => exact Nat.le_refl _
      | some e => exact Nat.le_max_left ..
    rw [List.foldl_cons, ih hrest hmore (by omega), getElem?_apply_of_lt ht hone hi]

/-- Defaults with increasing positions do not get into each other's way. -/
theorem getElem?_foldl_apply_of_ge (h : ∀ t ∈ ts, ∀ order, t ≠ .reorder order)
    (hspares : ∀ t ∈ ts, t.Spares i)
    (hincreasing : ((ts.filterMap default?).map Prod.fst).Pairwise (· < ·))
    (hi : args.length ≤ i) :
    (∀ value, (i, value) ∈ ts.filterMap default? →
        (ts.foldl apply args)[i]? = some (plain value)) ∧
      (i < (ts.foldl apply args).length → (∀ value, (i, value) ∉ ts.filterMap default?) →
        (ts.foldl apply args)[i]? = some missing) := by
  induction ts generalizing args with
  | nil => exact ⟨fun _ h => absurd h List.not_mem_nil, fun hlt => absurd hlt (Nat.not_lt.mpr hi)⟩
  | cons t rest ih =>
    obtain ⟨ht, hrest⟩ := List.forall_mem_cons.mp h
    obtain ⟨hone, hmore⟩ := List.forall_mem_cons.mp hspares
    rw [List.filterMap_cons] at hincreasing ⊢
    rw [List.foldl_cons]
    cases hdefault : t.default? with
    | none =>
      have hlength : (t.apply args).length = args.length := by
        rw [length_apply ht, hdefault, Option.elim_none]
      rw [hdefault] at hincreasing
      exact ih hrest hmore hincreasing (Nat.le_trans (Nat.le_of_eq hlength) hi)
    | some e =>
      obtain ⟨index, value⟩ := e
      obtain rfl : t = .default index value := by
        cases t <;> cases hdefault
        rfl
      have hlength : (apply args (.default index value)).length = max args.length (1 + index) :=
        length_apply ht
      obtain ⟨hfirst, hincreasing⟩ := List.pairwise_cons.mp hincreasing
      -- this default reaches the position, or the list still ends before it
      by_cases hindex : i ≤ index
      · have hlt : i < (apply args (.default index value)).length := by omega
        rw [getElem?_foldl_apply_of_lt hrest hmore hlt, getElem?_apply_of_ge hi hindex]
        constructor
        · intro found hfound
          rcases List.mem_cons.mp hfound with heq | hlater
          · cases heq
            rw [if_pos rfl]
          · have hless : index < i := hfirst i (List.mem_map_of_mem hlater)
            omega
        · intro _ hnone
          rw [if_neg]
          rintro rfl
          exact hnone value List.mem_cons_self
      · have hge : (apply args (.default index value)).length ≤ i := by omega
        obtain ⟨hvalue, hgap⟩ := ih hrest hmore hincreasing hge
        constructor
        · intro found hfound
          rcases List.mem_cons.mp hfound with heq | hlater
          · cases heq
            exact absurd (Nat.le_refl _) hindex
          · exact hvalue found hlater
        · intro hlt hnone
          exact hgap hlt fun found hfound => hnone found (List.mem_cons_of_mem _ hfound)

end Transform

namespace Descriptor

/-- The default values, with their positions. -/
def defaults (d : Descriptor) : List (Nat × String) :=
  d.transforms.filterMap Transform.default?

/-- No adjustment changes the argument at a position. -/
def Spares (d : Descriptor) (i : Nat) : Prop :=
  ∀ t ∈ d.transforms, t.Spares i

/-- **Without a reorder, arguments that are given stay where they are, and defaults are found at
their positions**, with nothing missing before the last of them. -/
theorem arguments_of_defaults (d : Descriptor) (args : List Fragment)
    (hreorder : ∀ t ∈ d.transforms, ∀ order, t ≠ .reorder order) :
    (d.arguments args).length = (d.defaults.map Prod.fst).max?.elim args.length
        (fun largest => max args.length (1 + largest)) ∧
      (∀ i < args.length, d.Spares i → (d.arguments args)[i]? = args[i]?) ∧
      ((d.defaults.map Prod.fst).Pairwise (· < ·) → ∀ i, args.length ≤ i → d.Spares i →
        (∀ value, (i, value) ∈ d.defaults → (d.arguments args)[i]? = some (plain value)) ∧
        (i < (d.arguments args).length → (∀ value, (i, value) ∉ d.defaults) →
          (d.arguments args)[i]? = some (plain "undefined"))) :=
  ⟨Transform.length_foldl_apply hreorder,
    fun _ hi hspares => Transform.getElem?_foldl_apply_of_lt hreorder hspares hi,
    fun hincreasing _ hi hspares =>
      Transform.getElem?_foldl_apply_of_ge hreorder hspares hincreasing hi⟩

theorem arguments_of_defaults_gap :
    let d : Descriptor :=
      { category := .call, transforms := [.default 2 "a", .flag 0, .default 4 "b"] }
    (d.arguments [plain "x"]).length = 5 ∧ (d.arguments [plain "x"])[2]? = some (plain "a") ∧
      (d.arguments [plain "x"])[3]? = some (plain "undefined") := by
  intro d
  have hreorder : ∀ t ∈ d.transforms, ∀ order, t ≠ .reorder order := by simp [d]
  have hspares : ∀ i, 0 < i → d.Spares i := by
    intro i hi
    simp [d, Spares, Transform.Spares]
    omega
  obtain ⟨hlength, -, hadded⟩ := d.arguments_of_defaults [plain "x"] hreorder
  have hincreasing : (d.defaults.map Prod.fst).Pairwise (· < ·) := by decide
  refine ⟨hlength, (hadded hincreasing 2 (by decide) (hspares 2 (by decide))).1 "a" (by decide), ?_⟩
  exact (hadded hincreasing 3 (by decide) (hspares 3 (by decide))).2 (by rw [hlength]; decide)
    fun value => by simp [d, defaults, Transform.default?]

end Descriptor

end FrameBasic
