/-
  NoJs.Util.Strings

  Strings between C++ and JavaScript: `newStringToLcal` of `core/util.cc`, and
  what V8 does for it and for `String::Utf8Value`.

  `newStringToLcal` is handed a C string and measures it with `strlen`, so what
  stands behind a zero byte is not converted, and the string differs from that
  of all the bytes as soon as there is one (`newStringToLcal_eq_iff`).
-/

import Mathlib.Data.List.TakeWhile
import NoJs.Lib.Utf8

namespace NoJs.Util

open Utf16

/-- `String::NewFromUtf8(isolate, data, type, length)`, on the bytes of that
length. -/
def newFromUtf8 (bytes : List UInt8) : Str := ofChars (Utf8.decode bytes)

/-- What `strlen` measures of the bytes that `c_str()` points to. -/
def cStr (bytes : List UInt8) : List UInt8 := bytes.takeWhile (· ≠ 0)

theorem zero_notMem_cStr (bytes : List UInt8) : 0 ∉ cStr bytes := by
  intro hmem
  have hne := List.mem_takeWhile_imp hmem
  exact absurd hne (by simp)

/-- `newStringToLcal(isolate, bytes.c_str())`. -/
def newStringToLcal (bytes : List UInt8) : Str := newFromUtf8 (cStr bytes)

/-- `String::Utf8Value`; an unpaired surrogate has three bytes like its neighbours. -/
def utf8Value (str : Str) : List UInt8 := Utf8.encodeCodes (codePoints str)

/-! ## Conversions and their inverses -/

theorem cStr_eq_self {bytes : List UInt8} (h : 0 ∉ bytes) : cStr bytes = bytes := by
  rw [cStr, List.takeWhile_eq_self_iff]
  intro b hb
  rw [decide_eq_true_eq]
  exact fun heq => h (heq ▸ hb)

theorem newFromUtf8_encode (cs : List Char) : newFromUtf8 (Utf8.encode cs) = ofChars cs := by
  rw [newFromUtf8, Utf8.decode_encode]

theorem utf8Value_ofChars (cs : List Char) : utf8Value (ofChars cs) = Utf8.encode cs := by
  rw [utf8Value, codePoints_ofChars, Utf8.encodeCodes_map_toNat]

theorem newFromUtf8_utf8Value {str : Str} (h : WellFormed str) :
    newFromUtf8 (utf8Value str) = str := by
  obtain ⟨cs, rfl⟩ := h
  rw [utf8Value_ofChars, newFromUtf8_encode]

theorem codePoints_lt (str : Str) : ∀ c ∈ codePoints str, c < 0x110000 := fun c hc =>
  Nat.lt_succ_of_le (codePoints_le str c hc)

/-- No two strings have the same bytes, unpaired surrogates or not. -/
theorem utf8Value_inj {str str' : Str} (h : utf8Value str = utf8Value str') : str = str' := by
  have hcodes := Utf8.encodeCodes_inj (codePoints_lt str) (codePoints_lt str') h
  rw [← ofCodePoints_codePoints str, hcodes, ofCodePoints_codePoints]

/-- An ASCII byte of the encoding is a character of the string. -/
theorem mem_of_mem_utf8Value {str : Str} {b : UInt8} (hb : b ∈ utf8Value str)
    (hlt : b.toNat < 0x80) : UInt16.ofNat b.toNat ∈ str :=
  mem_of_mem_codePoints (Utf8.mem_of_mem_encodeCodes (codePoints_lt str) hb hlt) (by omega)

theorem newStringToLcal_utf8Value {str : Str} (h : WellFormed str) (hnul : 0 ∉ str) :
    newStringToLcal (utf8Value str) = str := by
  have hbytes : 0 ∉ utf8Value str := fun hmem => hnul (mem_of_mem_utf8Value hmem (by decide))
  rw [newStringToLcal, cStr_eq_self hbytes, newFromUtf8_utf8Value h]

/-- The text behind a zero byte is lost. -/
theorem newStringToLcal_eq_iff (bytes : List UInt8) :
    newStringToLcal bytes = newFromUtf8 bytes ↔ 0 ∉ bytes := by
  constructor
  · intro h hmem
    obtain ⟨front, back, rfl, hfront⟩ := List.eq_append_cons_of_mem hmem
    have hcut : cStr (front ++ 0 :: back) = front := by
      rw [cStr, List.takeWhile_append_of_pos]
      · simp
      · intro b hb
        rw [decide_eq_true_eq]
        exact fun heq => hfront (heq ▸ hb)
    -- the zero byte itself is a character of the whole text
    have hwhole := Utf8.decode_append_ascii front (b := 0) (by decide) back
    rw [newStringToLcal, hcut, newFromUtf8, newFromUtf8, ofChars_inj, hwhole] at h
    have hlength := congrArg List.length h
    rw [List.length_append, List.length_cons] at hlength
    omega
  · intro h
    rw [newStringToLcal, cStr_eq_self h]

end NoJs.Util
