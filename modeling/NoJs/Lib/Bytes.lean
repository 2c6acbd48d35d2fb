/-
  NoJs.Lib.Bytes

  Numbers in little-endian byte order, and reading one at an offset of a buffer.

  The value of a list of bytes is Mathlib's `Nat.ofDigits` in base 256.  A read
  that goes past the end of the buffer has no value.
-/

import Mathlib.Data.Nat.Digits.Defs

namespace Bytes

/-- The `w` low bytes of `n`, least significant first. -/
def le : Nat → Nat → List UInt8
  | 0, _ => []
  | w + 1, n => UInt8.ofNat n :: le w (n / 256)

/-- The number the bytes stand for. -/
def value (bs : List UInt8) : Nat := Nat.ofDigits 256 (bs.map (·.toNat))

/-- The `w` bytes at `off`, as a number. -/
def readLE (buf : List UInt8) (off w : Nat) : Option Nat :=
  if off + w ≤ buf.length then some (value ((buf.drop off).take w)) else none

@[simp] theorem length_le (w n : Nat) : (le w n).length = w := by
  induction w generalizing n with
  | zero => rfl
  | succ w ih => rw [le, List.length_cons, ih]

theorem value_le (w n : Nat) : value (le w n) = n % 256 ^ w := by
  induction w generalizing n with
  | zero => rw [Nat.pow_zero, Nat.mod_one]; rfl
  | succ w ih =>
      have hhead : (UInt8.ofNat n).toNat = n % 256 := UInt8.toNat_ofNat'
      show Nat.ofDigits 256 ((UInt8.ofNat n).toNat :: (le w (n / 256)).map (·.toNat)) = _
      rw [Nat.ofDigits_cons, ← value, ih, hhead, Nat.pow_succ', Nat.mod_mul]

/-- Reading back what was written at the offset. -/
theorem readLE_append (pre post : List UInt8) {w n : Nat} (hn : n < 256 ^ w) :
    readLE (pre ++ (le w n ++ post)) pre.length w = some n := by
  have hfits : pre.length + w ≤ (pre ++ (le w n ++ post)).length := by
    simp only [List.length_append, length_le]
    omega
  rw [readLE, if_pos hfits, List.drop_left, List.take_left' (length_le w n), value_le,
    Nat.mod_eq_of_lt hn]

end Bytes
