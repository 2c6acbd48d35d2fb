/-
  NoJs.Lib.StdMap

  `std::map` over the association lists of Mathlib, whose keys are distinct by
  construction.  The order of the keys is not kept: what is read of a map is
  which keys it has, what they map to and how many there are.
-/

import Mathlib.Data.List.AList

abbrev StdMap (κ ν : Type _) := AList fun _ : κ => ν

namespace StdMap

variable {κ ν : Type _}

/-- `map::size`. -/
def size (m : StdMap κ ν) : Nat := (AList.keys m).length

/-- The mapped values. -/
def values (m : StdMap κ ν) : List ν := (AList.entries m).map (·.2)

variable [DecidableEq κ]

/-- `map::find`, `none` for `end()`. -/
def find (m : StdMap κ ν) (k : κ) : Option ν := AList.lookup k m

/-- `map::insert`: an entry that exists stays what it is. -/
def insert (m : StdMap κ ν) (k : κ) (v : ν) : StdMap κ ν :=
  if k ∈ m then m else AList.insert k v m

/-- A store through the iterator of an entry. -/
def update (m : StdMap κ ν) (k : κ) (v : ν) : StdMap κ ν :=
  if k ∈ m then AList.insert k v m else m

/-- `map::erase` by key. -/
def erase (m : StdMap κ ν) (k : κ) : StdMap κ ν := AList.erase k m

variable {m : StdMap κ ν} {k q : κ} {v : ν}

@[simp] theorem find_empty (q : κ) : find (∅ : StdMap κ ν) q = none := AList.lookup_empty q

theorem find_eq_none : find m k = none ↔ k ∉ m := AList.lookup_eq_none

theorem mem_of_find (h : find m k = some v) : k ∈ m := by
  rw [← AList.lookup_isSome]
  exact Option.isSome_iff_exists.mpr ⟨v, h⟩

theorem mem_values_of_find (h : find m k = some v) : v ∈ values m :=
  List.mem_map.mpr ⟨⟨k, v⟩, AList.mem_lookup_iff.mp h, rfl⟩

theorem mem_values : v ∈ values m ↔ ∃ k, find m k = some v := by
  constructor
  · intro h
    obtain ⟨⟨k, w⟩, hmem, rfl⟩ := List.mem_map.mp h
    exact ⟨k, AList.mem_lookup_iff.mpr hmem⟩
  · rintro ⟨k, h⟩
    exact mem_values_of_find h

theorem find_insert (h : find m k = none) :
    find (insert m k v) q = if q = k then some v else find m q := by
  rw [find, insert, if_neg (find_eq_none.mp h)]
  split
  · next hqk => rw [hqk, AList.lookup_insert]
  · next hqk => exact AList.lookup_insert_ne hqk

theorem size_insert (h : find m k = none) : size (insert m k v) = size m + 1 := by
  have hk : k ∉ AList.keys m := find_eq_none.mp h
  rw [size, insert, if_neg (find_eq_none.mp h), AList.keys_insert, List.length_cons,
    List.erase_of_not_mem hk, size]

theorem find_update (h : (find m k).isSome) :
    find (update m k v) q = if q = k then some v else find m q := by
  rw [find, update, if_pos (AList.lookup_isSome.mp h)]
  split
  · next hqk => rw [hqk, AList.lookup_insert]
  · next hqk => exact AList.lookup_insert_ne hqk

@[simp] theorem size_update : size (update m k v) = size m := by
  rw [update]
  split
  · next hmem =>
    have hpos := List.length_pos_of_mem (AList.mem_keys.mp hmem)
    rw [size, AList.keys_insert, List.length_cons,
      List.length_erase_of_mem (AList.mem_keys.mp hmem), size]
    omega
  · rfl

theorem find_erase : find (erase m k) q = if q = k then none else find m q := by
  rw [find, erase]
  split
  · next hqk => rw [hqk, AList.lookup_erase]
  · next hqk => exact AList.lookup_erase_ne hqk

/-- What is found after an erase was there before it, under another key. -/
theorem of_find_erase (h : find (erase m k) q = some v) : q ≠ k ∧ find m q = some v := by
  rw [find_erase] at h
  split at h
  · exact absurd h (by simp)
  · next hqk => exact ⟨hqk, h⟩

/-- Erasing an entry takes one away from the size. -/
theorem size_erase (h : find m k = some v) : size (erase m k) + 1 = size m := by
  have hmem : k ∈ AList.keys m := mem_of_find h
  rw [size, erase, AList.keys_erase, List.length_erase_of_mem hmem, size]
  have hpos := List.length_pos_of_mem hmem
  omega

theorem size_erase_le : size (erase m k) ≤ size m := by
  rw [size, erase, AList.keys_erase, size]
  exact List.length_erase_le

theorem size_eq_zero : size m = 0 ↔ ∀ k, find m k = none := by
  constructor
  · intro h k
    rw [find_eq_none, AList.mem_keys, List.eq_nil_of_length_eq_zero h]
    exact List.not_mem_nil
  · intro h
    rw [size, List.length_eq_zero_iff, List.eq_nil_iff_forall_not_mem]
    exact fun k hk => find_eq_none.mp (h k) hk

end StdMap
