/-
  NoJs.Lib.Region

  Half-open byte ranges within blocks, and what storing into a list of them
  changes: nothing outside them.
-/

import Mathlib.Data.List.Basic
import Mathlib.Data.Set.Basic

/-- The bytes `[start, start + length)` of a block. -/
structure Region (β : Type _) where
  block : β
  start : Nat
  length : Nat
  deriving DecidableEq, Repr

namespace Region

variable {β : Type _}

/-- The bytes of a region: a block and an index in it. -/
def bytes (r : Region β) : Set (β × Nat) :=
  {b | b.1 = r.block ∧ r.start ≤ b.2 ∧ b.2 < r.start + r.length}

/-- The bytes of a list of regions. -/
def allBytes (rs : List (Region β)) : Set (β × Nat) := {b | ∃ r ∈ rs, b ∈ r.bytes}

@[simp] theorem allBytes_singleton (r : Region β) : allBytes [r] = r.bytes := by
  ext b
  simp [allBytes]

/-- A region that starts at zero covers a region within its bounds exactly when
    the two are one. -/
theorem bytes_eq_iff {p : β} {start length total : Nat} (h : start + length ≤ total) :
    (⟨p, 0, total⟩ : Region β).bytes = (⟨p, start, length⟩ : Region β).bytes ↔
      start = 0 ∧ length = total := by
  constructor
  · intro heq
    have hmem : ∀ i, i < total → start ≤ i ∧ i < start + length := by
      intro i hi
      have hbyte : (p, i) ∈ (⟨p, 0, total⟩ : Region β).bytes :=
        ⟨rfl, Nat.zero_le i, by simpa using hi⟩
      rw [heq] at hbyte
      exact hbyte.2
    rcases Nat.eq_zero_or_pos total with hzero | hpos
    · omega
    · -- the first byte of the block and its last are in the range
      have hfirst := hmem 0 hpos
      have hlast := hmem (total - 1) (by omega)
      omega
  · rintro ⟨rfl, rfl⟩
    rfl

variable [DecidableEq β] {α : Type _}

/-- Store `data` from the start of the region on. -/
def fill (r : Region β) (data : List α) (m : β × Nat → α) : β × Nat → α := fun b =>
  if b.1 = r.block ∧ r.start ≤ b.2 then (data[b.2 - r.start]?).getD (m b) else m b

/-- Store `data` into the regions, one after the other. -/
def scatter : List (Region β) → List α → (β × Nat → α) → β × Nat → α
  | [], _, m => m
  | r :: rs, data, m => scatter rs (data.drop r.length) (r.fill (data.take r.length) m)

theorem fill_of_notMem {r : Region β} {data : List α} {m : β × Nat → α} {b : β × Nat}
    (hlen : data.length ≤ r.length) (hb : b ∉ r.bytes) : r.fill data m b = m b := by
  rw [fill]
  split
  · next hin =>
    have hover : r.start + r.length ≤ b.2 := by
      by_contra hlt
      exact hb ⟨hin.1, hin.2, by omega⟩
    rw [List.getElem?_eq_none (by omega), Option.getD_none]
  · rfl

/-- Bytes outside the regions stay what they are. -/
theorem scatter_of_notMem {rs : List (Region β)} {data : List α} {m : β × Nat → α} {b : β × Nat}
    (hb : b ∉ allBytes rs) : scatter rs data m b = m b := by
  induction rs generalizing data m with
  | nil => rfl
  | cons r rs ih =>
      have hhead : b ∉ r.bytes := fun hr => hb ⟨r, List.mem_cons_self, hr⟩
      have htail : b ∉ allBytes rs := by
        rintro ⟨r', hr', hmem⟩
        exact hb ⟨r', List.mem_cons_of_mem r hr', hmem⟩
      rw [scatter, ih htail, fill_of_notMem (by rw [List.length_take]; omega) hhead]

end Region
