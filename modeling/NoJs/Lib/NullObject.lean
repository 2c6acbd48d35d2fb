/-
  NoJs.Lib.NullObject

  A JavaScript object without a prototype, `Object.create(null)`, used as a table
  whose keys are strings and symbols.

  Its properties stand in the order of their creation: an assignment to a property
  that exists leaves its place, `delete` gives the place up.  The keys are read
  in another order: first the array indices, by their number, then the other
  strings and last the symbols, each as they were created.
-/

import Mathlib.Data.List.Basic
import Mathlib.Data.List.Sort
import NoJs.Lib.PlainObject

open Utf16

/-- The name of a property. -/
inductive PropertyKey where
  | string (s : Str)
  | symbol (id : Nat)
  deriving DecidableEq, Repr

namespace PropertyKey

/-- The number of a key that is an array index. -/
def index? : PropertyKey → Option Nat
  | string s => PlainObject.arrayIndex s
  | symbol _ => none

def isIndex (k : PropertyKey) : Bool := k.index?.isSome

def isSymbol : PropertyKey → Bool
  | string _ => false
  | symbol _ => true

/-- A string that is no array index. -/
def isName (k : PropertyKey) : Bool := !k.isIndex && !k.isSymbol

end PropertyKey

/-- The properties, the oldest first; no key stands twice. -/
structure NullObject (V : Type _) where
  entries : List (PropertyKey × V)
  nodup : (entries.map Prod.fst).Nodup

namespace NullObject

variable {V : Type _}

/-- The value of a key in a list of properties. -/
def find : List (PropertyKey × V) → PropertyKey → Option V
  | [], _ => none
  | (q, v) :: entries, k => if q = k then some v else find entries k

/-- Assign to a key in place, or behind the others if it is new. -/
def assign : List (PropertyKey × V) → PropertyKey → V → List (PropertyKey × V)
  | [], k, v => [(k, v)]
  | (q, w) :: entries, k, v =>
      if q = k then (q, v) :: entries else (q, w) :: assign entries k v

theorem fst_assign (entries : List (PropertyKey × V)) (k : PropertyKey) (v : V) :
    (assign entries k v).map Prod.fst =
      if k ∈ entries.map Prod.fst then entries.map Prod.fst
      else entries.map Prod.fst ++ [k] := by
  induction entries with
  | nil => simp [assign]
  | cons entry entries ih =>
      obtain ⟨q, w⟩ := entry
      rw [assign]
      by_cases hqk : q = k
      · rw [if_pos hqk, if_pos (by simp [hqk])]
        rfl
      · rw [if_neg hqk, List.map_cons, List.map_cons, ih]
        have hiff : k ∈ q :: entries.map Prod.fst ↔ k ∈ entries.map Prod.fst := by
          rw [List.mem_cons, or_iff_right (Ne.symm hqk)]
        by_cases hk : k ∈ entries.map Prod.fst
        · rw [if_pos hk, if_pos (hiff.mpr hk)]
        · rw [if_neg hk, if_neg (fun h => hk (hiff.mp h)), List.cons_append]

theorem nodup_assign {entries : List (PropertyKey × V)} (h : (entries.map Prod.fst).Nodup)
    (k : PropertyKey) (v : V) : ((assign entries k v).map Prod.fst).Nodup := by
  rw [fst_assign]
  split
  · exact h
  · next hk =>
    rw [List.nodup_append]
    refine ⟨h, List.nodup_singleton k, ?_⟩
    rintro a ha b hb rfl
    exact hk (List.mem_singleton.mp hb ▸ ha)

/-- `Object.create(null)`. -/
def empty : NullObject V := ⟨[], List.nodup_nil⟩

/-- `object[k]`, `none` for `undefined`. -/
def get (o : NullObject V) (k : PropertyKey) : Option V := find o.entries k

/-- `object[k] = v`. -/
def set (o : NullObject V) (k : PropertyKey) (v : V) : NullObject V :=
  ⟨assign o.entries k v, nodup_assign o.nodup k v⟩

/-- `delete object[k]`. -/
def delete (o : NullObject V) (k : PropertyKey) : NullObject V :=
  ⟨o.entries.filter fun entry => !decide (entry.1 = k),
    o.nodup.sublist (List.filter_sublist.map Prod.fst)⟩

/-- The keys in the order of their creation. -/
def keys (o : NullObject V) : List PropertyKey := o.entries.map Prod.fst

def size (o : NullObject V) : Nat := o.entries.length

/-- `Object.keys(object)`: the strings, array indices first. -/
def stringKeys (o : NullObject V) : List PropertyKey :=
  (o.keys.filter PropertyKey.isIndex).insertionSort (fun a b => a.index?.getD 0 ≤ b.index?.getD 0)
    ++ o.keys.filter PropertyKey.isName

/-- `Reflect.ownKeys(object)`. -/
def ownKeys (o : NullObject V) : List PropertyKey :=
  o.stringKeys ++ o.keys.filter PropertyKey.isSymbol

variable {o : NullObject V} {k q : PropertyKey} {v : V}

theorem find_assign (entries : List (PropertyKey × V)) (k q : PropertyKey) (v : V) :
    find (assign entries k v) q = if q = k then some v else find entries q := by
  induction entries with
  | nil => simp only [assign, find, eq_comm]
  | cons entry entries ih =>
      obtain ⟨p, w⟩ := entry
      rw [assign]
      by_cases hpk : p = k
      · subst hpk
        rw [if_pos rfl, find, find]
        by_cases hq : q = p
        · rw [if_pos hq.symm, if_pos hq]
        · rw [if_neg (Ne.symm hq), if_neg hq, if_neg (Ne.symm hq)]
      · rw [if_neg hpk, find, find, ih]
        by_cases hpq : p = q
        · rw [if_pos hpq, if_pos hpq, if_neg (hpq ▸ hpk)]
        · rw [if_neg hpq, if_neg hpq]

theorem find_filter (entries : List (PropertyKey × V)) (k q : PropertyKey) :
    find (entries.filter fun entry => !decide (entry.1 = k)) q =
      if q = k then none else find entries q := by
  induction entries with
  | nil => simp [find]
  | cons entry entries ih =>
      obtain ⟨p, w⟩ := entry
      by_cases hpk : p = k
      · rw [List.filter_cons_of_neg (by simp [hpk]), ih]
        by_cases hq : q = k
        · rw [if_pos hq, if_pos hq]
        · rw [if_neg hq, if_neg hq, find, if_neg (by rw [hpk]; exact Ne.symm hq)]
      · rw [List.filter_cons_of_pos (by simp [hpk]), find, find, ih]
        by_cases hpq : p = q
        · rw [if_pos hpq, if_pos hpq, if_neg (hpq ▸ hpk)]
        · rw [if_neg hpq, if_neg hpq]

@[simp] theorem get_empty (k : PropertyKey) : (empty : NullObject V).get k = none := rfl

theorem get_set (o : NullObject V) (k q : PropertyKey) (v : V) :
    (o.set k v).get q = if q = k then some v else o.get q :=
  find_assign o.entries k q v

theorem get_delete (o : NullObject V) (k q : PropertyKey) :
    (o.delete k).get q = if q = k then none else o.get q :=
  find_filter o.entries k q

theorem find_isSome (entries : List (PropertyKey × V)) (k : PropertyKey) :
    (find entries k).isSome ↔ k ∈ entries.map Prod.fst := by
  induction entries with
  | nil => simp [find]
  | cons entry entries ih =>
      obtain ⟨p, w⟩ := entry
      rw [find, List.map_cons, List.mem_cons]
      by_cases hpk : p = k
      · simp [hpk]
      · rw [if_neg hpk, ih, or_iff_right (Ne.symm hpk)]

theorem mem_keys : k ∈ o.keys ↔ (o.get k).isSome := (find_isSome o.entries k).symm

theorem nodup_keys (o : NullObject V) : o.keys.Nodup := o.nodup

theorem length_keys (o : NullObject V) : o.keys.length = o.size := List.length_map _

/-- A property more, if the key is new. -/
theorem keys_set (o : NullObject V) (k : PropertyKey) (v : V) :
    (o.set k v).keys = if (o.get k).isSome then o.keys else o.keys ++ [k] := by
  rw [show (o.set k v).keys = (assign o.entries k v).map Prod.fst from rfl, fst_assign]
  by_cases hk : k ∈ o.entries.map Prod.fst
  · rw [if_pos hk, if_pos (mem_keys.mp hk)]
    rfl
  · rw [if_neg hk, if_neg (fun h => hk (mem_keys.mpr h))]
    rfl

theorem keys_delete (o : NullObject V) (k : PropertyKey) :
    (o.delete k).keys = o.keys.erase k := by
  rw [o.nodup_keys.erase_eq_filter, keys, keys, delete, List.filter_map]
  congr 1

@[simp] theorem size_empty : (empty : NullObject V).size = 0 := rfl

theorem size_set (o : NullObject V) (k : PropertyKey) (v : V) :
    (o.set k v).size = if (o.get k).isSome then o.size else o.size + 1 := by
  rw [← length_keys, keys_set, ← length_keys]
  split
  · rfl
  · rw [List.length_append, List.length_singleton]

theorem size_delete_of_some (h : o.get k = some v) : (o.delete k).size + 1 = o.size := by
  have hk : k ∈ o.keys := mem_keys.mpr (by rw [h]; rfl)
  have hpos : 0 < o.keys.length := List.length_pos_of_mem hk
  rw [← length_keys, keys_delete, ← length_keys, List.length_erase_of_mem hk]
  omega

theorem size_pos_of_get (h : o.get k = some v) : 0 < o.size := by
  rw [← length_keys]
  exact List.length_pos_of_mem (mem_keys.mpr (by rw [h]; rfl))

/-- The object of size 0 has no properties. -/
theorem get_of_size_eq_zero (h : o.size = 0) (k : PropertyKey) : o.get k = none := by
  cases hk : o.get k with
  | none => rfl
  | some v => have := size_pos_of_get hk; omega

/-! ## The order of the keys -/

theorem stringKeys_perm (o : NullObject V) :
    o.stringKeys.Perm (o.keys.filter fun k => !k.isSymbol) := by
  have hsorted := List.perm_insertionSort (fun a b : PropertyKey =>
    a.index?.getD 0 ≤ b.index?.getD 0) (o.keys.filter PropertyKey.isIndex)
  refine (hsorted.append_right _).trans ?_
  have hsplit := List.filter_append_perm PropertyKey.isIndex (o.keys.filter fun k => !k.isSymbol)
  refine List.Perm.trans ?_ hsplit
  rw [List.filter_filter, List.filter_filter]
  apply List.Perm.of_eq
  congr 1
  apply List.filter_congr
  intro k _
  cases k with
  | string s => simp [PropertyKey.isSymbol]
  | symbol id => rfl

/-- The keys are read in another order, each once. -/
theorem ownKeys_perm (o : NullObject V) : o.ownKeys.Perm o.keys := by
  refine (o.stringKeys_perm.append_right _).trans ?_
  have hsplit := List.filter_append_perm PropertyKey.isSymbol o.keys
  exact List.perm_append_comm.trans hsplit

theorem mem_ownKeys : k ∈ o.ownKeys ↔ (o.get k).isSome := by
  rw [o.ownKeys_perm.mem_iff, mem_keys]

theorem nodup_ownKeys (o : NullObject V) : o.ownKeys.Nodup :=
  o.ownKeys_perm.nodup_iff.mpr o.nodup_keys

end NullObject
