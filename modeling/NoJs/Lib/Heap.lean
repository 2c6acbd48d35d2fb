/-
  NoJs.Lib.Heap

  A heap of blocks in the manner of a C memory model: an allocation returns a
  block that was never handed out before, a freed block is never handed out
  again, so a pointer identifies one allocated object for good and every use of
  a freed block is visible as a failed lookup.

  `fresh` is part of the structure, so an allocation can never meet a live block.
-/

import Mathlib.Data.List.Basic

structure Heap (α : Type _) where
  /-- The block the next allocation returns. -/
  top : Nat
  cells : Nat → Option α
  fresh : ∀ p, top ≤ p → cells p = none

namespace Heap

variable {α : Type _}

/-- The heap before the first allocation. -/
def empty : Heap α := ⟨0, fun _ => none, fun _ _ => rfl⟩

/-- The object of a live block. -/
def get? (h : Heap α) (p : Nat) : Option α := h.cells p

/-- Allocate a block that holds `v`; its pointer is `h.top`. -/
def alloc (h : Heap α) (v : α) : Heap α where
  top := h.top + 1
  cells := fun q => if q = h.top then some v else h.cells q
  fresh := by
    intro p hp
    rw [if_neg (by omega)]
    exact h.fresh p (by omega)

/-- Update the object of a block, if the block is live. -/
def modify (h : Heap α) (p : Nat) (f : α → α) : Heap α where
  top := h.top
  cells := fun q => if q = p then (h.cells q).map f else h.cells q
  fresh := by
    intro q hq
    rw [h.fresh q hq]
    split <;> rfl

/-- Give a block back. -/
def free (h : Heap α) (p : Nat) : Heap α where
  top := h.top
  cells := fun q => if q = p then none else h.cells q
  fresh := by
    intro q hq
    rw [h.fresh q hq]
    split <;> rfl

@[simp] theorem top_empty : (empty : Heap α).top = 0 := rfl

@[simp] theorem top_alloc (h : Heap α) (v : α) : (h.alloc v).top = h.top + 1 := rfl

@[simp] theorem top_modify (h : Heap α) (p : Nat) (f : α → α) : (h.modify p f).top = h.top := rfl

@[simp] theorem top_free (h : Heap α) (p : Nat) : (h.free p).top = h.top := rfl

@[simp] theorem get?_empty (p : Nat) : (empty : Heap α).get? p = none := rfl

theorem get?_alloc (h : Heap α) (v : α) (q : Nat) :
    (h.alloc v).get? q = if q = h.top then some v else h.get? q := rfl

theorem get?_modify (h : Heap α) (p : Nat) (f : α → α) (q : Nat) :
    (h.modify p f).get? q = if q = p then (h.get? q).map f else h.get? q := rfl

theorem get?_free (h : Heap α) (p q : Nat) :
    (h.free p).get? q = if q = p then none else h.get? q := rfl

/-- A live block was handed out by an earlier allocation. -/
theorem lt_top_of_get? {h : Heap α} {p : Nat} {v : α} (hp : h.get? p = some v) : p < h.top := by
  by_contra hle
  have hnone : h.get? p = none := h.fresh p (by omega)
  rw [hnone] at hp
  exact absurd hp (by simp)

@[simp] theorem get?_alloc_top (h : Heap α) (v : α) : (h.alloc v).get? h.top = some v := by
  rw [get?_alloc, if_pos rfl]

/-- An allocation leaves every live block as it was. -/
theorem get?_alloc_of_some {h : Heap α} {p : Nat} {v w : α} (hp : h.get? p = some v) :
    (h.alloc w).get? p = some v := by
  have hlt := lt_top_of_get? hp
  rw [get?_alloc, if_neg (by omega), hp]

theorem get?_modify_self {h : Heap α} {p : Nat} {v : α} {f : α → α} (hp : h.get? p = some v) :
    (h.modify p f).get? p = some (f v) := by
  rw [get?_modify, if_pos rfl, hp]
  rfl

theorem get?_modify_ne {h : Heap α} {p q : Nat} {f : α → α} (hqp : q ≠ p) :
    (h.modify p f).get? q = h.get? q := by
  rw [get?_modify, if_neg hqp]

theorem get?_free_ne {h : Heap α} {p q : Nat} (hqp : q ≠ p) : (h.free p).get? q = h.get? q := by
  rw [get?_free, if_neg hqp]

/-- Giving a block back ends one block. -/
theorem isSome_get?_free (h : Heap α) (p q : Nat) :
    ((h.free p).get? q).isSome ↔ q ≠ p ∧ (h.get? q).isSome := by
  rw [get?_free]
  split
  · next heq => simp [heq]
  · next hne => simp [hne]

/-- A store ends none. -/
theorem isSome_get?_modify (h : Heap α) (p : Nat) (f : α → α) (q : Nat) :
    ((h.modify p f).get? q).isSome ↔ (h.get? q).isSome := by
  rw [get?_modify]
  split
  · rw [Option.isSome_map]
  · exact Iff.rfl

/-! ## What every object satisfies -/

/-- Every live object satisfies `P`. -/
def All (P : α → Prop) (h : Heap α) : Prop := ∀ p v, h.get? p = some v → P v

variable {P Q : α → Prop} {h : Heap α}

theorem all_empty : (empty : Heap α).All P := fun p v hv => absurd hv (by simp)

theorem All.imp (hall : h.All P) (hPQ : ∀ v, P v → Q v) : h.All Q :=
  fun p v hv => hPQ v (hall p v hv)

theorem All.alloc (hall : h.All P) {v : α} (hv : P v) : (h.alloc v).All P := by
  intro p w hw
  rw [get?_alloc] at hw
  split at hw
  · exact Option.some.inj hw ▸ hv
  · exact hall p w hw

theorem All.modify (hall : h.All P) {p : Nat} {f : α → α} (hf : ∀ v, P v → P (f v)) :
    (h.modify p f).All P := by
  intro q w hw
  rw [get?_modify] at hw
  split at hw
  · obtain ⟨v, hv, rfl⟩ := Option.map_eq_some_iff.mp hw
    exact hf v (hall q v hv)
  · exact hall q w hw

theorem All.free (hall : h.All P) (p : Nat) : (h.free p).All P := by
  intro q w hw
  rw [get?_free] at hw
  split at hw
  · exact absurd hw (by simp)
  · exact hall q w hw

end Heap
