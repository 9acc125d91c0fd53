/-!
# Dictionaries

A dictionary is a list of keys and values in the order in which the keys first came.  Storing under
a key that is present replaces the value in its place.

## Main definitions

* `Dict.get? k d` — the value under `k`.
* `Dict.insert k v d` — the dictionary with `v` under `k`.
* `Dict.keys d` — the keys in order.

## Main results

* `Dict.get?_insert` — what is found after storing a value.
* `Dict.nodup_keys_insert` — storing keeps the keys distinct.
-/

namespace FrameBasic

/-- A list of keys and values, in the order in which the keys first came. -/
abbrev Dict (α : Type) := List (String × α)

namespace Dict

variable {α : Type}

/-- The value under a key. -/
def get? (k : String) : Dict α → Option α
  | [] => none
  | (k', v) :: rest => if k' = k then some v else get? k rest

/-- Whether a key is present. -/
def contains (k : String) (d : Dict α) : Bool :=
  (d.get? k).isSome

/-- The dictionary with a value stored under a key. -/
def insert (k : String) (v : α) : Dict α → Dict α
  | [] => [(k, v)]
  | (k', v') :: rest => if k' = k then (k, v) :: rest else (k', v') :: insert k v rest

/-- The keys in order. -/
def keys (d : Dict α) : List String :=
  d.map Prod.fst

/-- The entries in increasing order of their keys. -/
def sorted (d : Dict α) : List (String × α) :=
  d.mergeSort fun a b => decide (a.1 ≤ b.1)

@[simp] theorem get?_nil (k : String) : get? k ([] : Dict α) = none := rfl

theorem get?_insert (k k' : String) (v : α) (d : Dict α) :
    get? k' (d.insert k v) = if k = k' then some v else get? k' d := by
  induction d with
  | nil => simp [insert, get?]
  | cons entry rest ih =>
    obtain ⟨key, value⟩ := entry
    by_cases hk : key = k
    · subst hk
      by_cases hk' : key = k' <;> simp [insert, get?, hk']
    · by_cases hk' : key = k'
      · subst hk'
        simp [insert, get?, hk, Ne.symm hk]
      · simp [insert, get?, hk, hk', ih]

@[simp] theorem get?_insert_self (k : String) (v : α) (d : Dict α) :
    get? k (d.insert k v) = some v := by
  simp [get?_insert]

theorem get?_insert_of_ne {k k' : String} (h : k ≠ k') (v : α) (d : Dict α) :
    get? k' (d.insert k v) = get? k' d := by
  simp [get?_insert, h]

theorem mem_keys_insert {k k' : String} {v : α} {d : Dict α} :
    k' ∈ (d.insert k v).keys ↔ k' = k ∨ k' ∈ d.keys := by
  induction d with
  | nil => simp [insert, keys]
  | cons entry rest ih =>
    obtain ⟨key, value⟩ := entry
    simp only [keys] at ih
    by_cases hk : key = k
    · subst hk
      simp [insert, keys]
    · simp only [insert, keys, hk, if_false, List.map_cons, List.mem_cons, ih]
      constructor
      · rintro (h | h | h) <;> simp [h]
      · rintro (h | h | h) <;> simp [h]

theorem nodup_keys_insert {d : Dict α} (h : d.keys.Nodup) (k : String) (v : α) :
    (d.insert k v).keys.Nodup := by
  induction d with
  | nil => simp [insert, keys]
  | cons entry rest ih =>
    obtain ⟨key, value⟩ := entry
    have hrest : (keys rest).Nodup := (List.nodup_cons.mp h).2
    by_cases hk : key = k
    · subst hk
      simpa [insert, keys] using h
    · have hmem : key ∉ keys (insert k v rest) := by
        rw [mem_keys_insert]
        rintro (rfl | hin)
        · exact hk rfl
        · exact (List.nodup_cons.mp h).1 hin
      simpa [insert, keys, hk] using And.intro (by simpa [keys] using hmem) (ih hrest)

end Dict

end FrameBasic
