/-
  NoJs.Lib.PlainObject

  A JavaScript object literal used as a table: `map[key]`, `map[key] = value`
  and `delete map[key]` on an object that starts as `{}`.

  A key that is not an own property is looked up in Object.prototype, whose
  properties are found on every object; all of them are functions but
  `__proto__`, which is Object.prototype itself.  An assignment makes an own
  property for every key but `__proto__`, which has a setter.
-/

import NoJs.Lib.StdMap
import NoJs.Lib.Utf16

open Utf16

structure PlainObject (V : Type _) where
  /-- The own properties. -/
  own : StdMap Str V

namespace PlainObject

variable {V : Type _}

def protoKey : Str := ofChars "__proto__".toList

/-- The names of the properties of Object.prototype. -/
def prototypeKeys : List Str :=
  protoKey :: ["constructor", "hasOwnProperty", "isPrototypeOf", "propertyIsEnumerable",
    "toLocaleString", "toString", "valueOf", "__defineGetter__", "__defineSetter__",
    "__lookupGetter__", "__lookupSetter__"].map fun name => ofChars name.toList

/-- Whether `{}` has the property without owning it. -/
def Inherited (key : Str) : Prop := key ∈ prototypeKeys

instance (key : Str) : Decidable (Inherited key) := inferInstanceAs (Decidable (_ ∈ _))

/-- The array index that a property name is, if it is one. -/
def arrayIndex (key : Str) : Option Nat :=
  let n := key.foldl (fun n u => 10 * n + (u.toNat - 48)) 0
  if key = (Nat.toDigits 10 n).map (fun c => UInt16.ofNat c.toNat) ∧ n < 4294967295 then some n
  else none

/-- The object `{}`. -/
def empty : PlainObject V := ⟨∅⟩

/-- What `map[key]` finds. -/
inductive Lookup (V : Type _) where
  | own (v : V)
  | inherited
  | absent
  deriving DecidableEq, Repr

def get (o : PlainObject V) (key : Str) : Lookup V :=
  match o.own.find key with
  | some v => .own v
  | none => if Inherited key then .inherited else .absent

/-- `map[key] = value`; the setter of `__proto__` makes no property. -/
def set (o : PlainObject V) (key : Str) (v : V) : PlainObject V :=
  if key = protoKey then o
  else if key ∈ o.own then ⟨o.own.update key v⟩ else ⟨o.own.insert key v⟩

/-- `delete map[key]`. -/
def delete (o : PlainObject V) (key : Str) : PlainObject V := ⟨o.own.erase key⟩

variable {o : PlainObject V} {k q : Str} {v : V}

@[simp] theorem find_empty (k : Str) : (empty : PlainObject V).own.find k = none :=
  StdMap.find_empty k

theorem set_proto : o.set protoKey v = o := if_pos rfl

theorem find_set_of_ne (hk : k ≠ protoKey) :
    (o.set k v).own.find q = if q = k then some v else o.own.find q := by
  rw [set, if_neg hk]
  split
  · next hmem =>
    apply StdMap.find_update
    obtain ⟨w, hw⟩ := Option.isSome_iff_exists.mp (AList.lookup_isSome.mpr hmem)
    exact Option.isSome_iff_exists.mpr ⟨w, hw⟩
  · next hmem => exact StdMap.find_insert (StdMap.find_eq_none.mpr hmem)

theorem find_set (hk : ¬ Inherited k) :
    (o.set k v).own.find q = if q = k then some v else o.own.find q :=
  find_set_of_ne fun heq => hk (heq ▸ List.mem_cons_self ..)

theorem find_delete : (o.delete k).own.find q = if q = k then none else o.own.find q :=
  StdMap.find_erase

theorem get_of_find (h : o.own.find k = some v) : o.get k = .own v := by
  rw [get, h]

theorem find_of_get (h : o.get k = .own v) : o.own.find k = some v := by
  rw [get] at h
  cases hfind : o.own.find k with
  | none =>
      simp only [hfind] at h
      split at h
      · exact absurd h (by simp)
      · exact absurd h (by simp)
  | some w =>
      simp only [hfind] at h
      obtain rfl := Lookup.own.inj h
      rfl

theorem not_inherited_of_get (h : o.get k = .absent) : ¬ Inherited k := by
  intro hk
  rw [get] at h
  cases hfind : o.own.find k with
  | none =>
      simp only [hfind, if_pos hk] at h
      exact absurd h (by simp)
  | some w =>
      simp only [hfind] at h
      exact absurd h (by simp)

theorem get_of_not_inherited (hk : ¬ Inherited k) :
    o.get k = match o.own.find k with
      | some v => .own v
      | none => .absent := by
  rw [get]
  cases o.own.find k with
  | none => exact if_neg hk
  | some v => rfl

end PlainObject
