/-
  NoJs.Lib.Multimap

  Multimaps that remember the order in which their entries were added.

  What is asked of one is the list of the values of a key, oldest first.  Every
  operation has one lemma that says what it does to these lists.
-/

import Mathlib.Data.List.Nodup

structure Multimap (κ ν : Type _) where
  /-- The entries, oldest first. -/
  entries : List (κ × ν)

namespace Multimap

variable {κ ν : Type _} [DecidableEq κ]

def empty : Multimap κ ν := ⟨[]⟩

/-- The values of a key, oldest first. -/
def get (m : Multimap κ ν) (k : κ) : List ν :=
  m.entries.filterMap fun e => if e.1 = k then some e.2 else none

def add (m : Multimap κ ν) (k : κ) (v : ν) : Multimap κ ν := ⟨m.entries ++ [(k, v)]⟩

/-- Remove the oldest entry `(k, v)`, if there is one. -/
def remove [DecidableEq ν] (m : Multimap κ ν) (k : κ) (v : ν) : Multimap κ ν :=
  ⟨m.entries.erase (k, v)⟩

/-- Remove all entries of a key. -/
def removeAll (m : Multimap κ ν) (k : κ) : Multimap κ ν :=
  ⟨m.entries.filter fun e => e.1 ≠ k⟩

variable {m : Multimap κ ν} {k q : κ} {v : ν}

@[simp] theorem get_empty (k : κ) : (empty : Multimap κ ν).get k = [] := rfl

theorem mem_get : v ∈ m.get k ↔ (k, v) ∈ m.entries := by
  rw [get, List.mem_filterMap]
  constructor
  · rintro ⟨⟨k', v'⟩, hin, hv⟩
    split at hv
    · next hk =>
      obtain rfl := Option.some.inj hv
      exact hk ▸ hin
    · exact absurd hv (by simp)
  · intro hin
    exact ⟨(k, v), hin, if_pos rfl⟩

theorem get_add : (m.add k v).get q = if q = k then m.get q ++ [v] else m.get q := by
  simp only [get, add, List.filterMap_append, List.filterMap_cons, List.filterMap_nil]
  by_cases hq : k = q
  · simp [hq]
  · simp [hq, Ne.symm hq]

theorem get_remove [DecidableEq ν] :
    (m.remove k v).get q = if q = k then (m.get q).erase v else m.get q := by
  obtain ⟨entries⟩ := m
  simp only [get, remove]
  induction entries with
  | nil => simp
  | cons e entries ih =>
      obtain ⟨k', v'⟩ := e
      by_cases he : (k', v') = (k, v)
      · obtain ⟨rfl, rfl⟩ := Prod.mk.inj he
        rw [List.erase_cons_head, List.filterMap_cons]
        by_cases hq : k' = q
        · simp [hq]
        · simp [hq, Ne.symm hq]
      · rw [List.erase_cons_tail (by simpa using he), List.filterMap_cons, List.filterMap_cons, ih]
        by_cases hq : k' = q
        · subst hq
          by_cases hk : k' = k
          · -- another value of the key
            have hv : ¬ v' = v := fun hv => he (by rw [hk, hv])
            simp [hk, hv]
          · simp [hk]
        · simp [hq]

theorem get_removeAll : (m.removeAll k).get q = if q = k then [] else m.get q := by
  rw [get, removeAll, List.filterMap_filter, get]
  split
  · next hq =>
    subst hq
    rw [List.filterMap_eq_nil_iff]
    intro e _
    by_cases he : e.1 = q
    · simp [he]
    · simp [he]
  · next hq =>
    congr 1
    funext e
    by_cases he : e.1 = q
    · simp [he, hq]
    · simp [he]

theorem nodup_get (h : m.entries.Nodup) : (m.get k).Nodup := by
  apply h.filterMap
  rintro ⟨k₁, v₁⟩ ⟨k₂, v₂⟩ v h₁ h₂
  simp only [Option.mem_def, Option.ite_none_right_eq_some, Option.some.injEq] at h₁ h₂
  rw [h₁.1, h₁.2, h₂.1, h₂.2]

end Multimap
