/-
  NoJs.Buffer.Encode

  The encoder of `libs/buffer/index.js` and the buffers made with it.

  `toUTF8` is a ladder of strict range tests, and the first and last code point
  of each range falls through all of them into the six-byte form.  On every
  other scalar value the bytes are those of RFC 3629, which is what
  `String.utf8EncodeChar` of the core library computes.
-/

import NoJs.Lib.Utf16
import Mathlib.Algebra.Ring.Nat

namespace NoJs.Buffer

open Utf16

/-- The contents of a `Buffer`, which is a `Uint8Array`. -/
abbrev Bytes := List UInt8

/-! ## toUTF8 -/

/-- The bytes `toUTF8` pushes for the code point `code`. -/
def codeBytes (code : Nat) : List Nat :=
  if code > 0 ∧ code < 0x7F then [code]
  else if code > 0x80 ∧ code < 0x7FF then
    [code >>> 6 &&& 0x1f ||| 0xC0,
      code &&& 0x3f ||| 0x80]
  else if code > 0x800 ∧ code < 0xFFFF ∨ code > 0xE000 ∧ code < 0xFFFF then
    [code >>> 12 &&& 0x0f ||| 0xE0,
      code >>> 6 &&& 0x3f ||| 0x80,
      code &&& 0x3f ||| 0x80]
  else if code > 0x10000 ∧ code < 0x10FFFF then
    [code >>> 18 &&& 0x07 ||| 0xF0,
      code >>> 12 &&& 0x3f ||| 0x80,
      code >>> 6 &&& 0x3f ||| 0x80,
      code &&& 0x3f ||| 0x80]
  else if code > 0x200000 ∧ code < 0x3FFFFFF then
    [code >>> 24 &&& 0x03 ||| 0xF8,
      code >>> 18 &&& 0x3f ||| 0x80,
      code >>> 12 &&& 0x3f ||| 0x80,
      code >>> 6 &&& 0x3f ||| 0x80,
      code &&& 0x3f ||| 0x80]
  else
    [code >>> 30 &&& 0x01 ||| 0xFC,
      code >>> 24 &&& 0x3f ||| 0x80,
      code >>> 18 &&& 0x3f ||| 0x80,
      code >>> 12 &&& 0x3f ||| 0x80,
      code >>> 6 &&& 0x3f ||| 0x80,
      code &&& 0x3f ||| 0x80]

/-- `toUTF8(str)`; `[...str]` cuts a string into its code points. -/
def toUTF8 (str : Str) : List Nat := (codePoints str).flatMap codeBytes

/-! ## Buffers -/

/-- `Buffer.alloc(length)`. -/
def alloc (length : Nat) : Bytes := List.replicate length 0

/-- `buffer[index] = x`, `buffer[index + 1] = …`: stores reduce modulo 256. -/
def store (buffer : Bytes) (index : Nat) : List Nat → Bytes
  | [] => buffer
  | x :: xs => store (buffer.set index (UInt8.ofNat x)) (index + 1) xs

/-- `Buffer.strlen(str)`. -/
def strlen (str : Str) : Nat := (toUTF8 str).length

/-- `Buffer.from(str)`. -/
def from' (str : Str) : Bytes :=
  let chars := toUTF8 str
  store (alloc chars.length) 0 chars

/-- The copying loops of `Buffer.concat(arr)`. -/
def copyAll (newBuffer : Bytes) (index : Nat) : List Bytes → Bytes
  | [] => newBuffer
  | buffer :: arr =>
      copyAll (store newBuffer index (buffer.map UInt8.toNat)) (index + buffer.length) arr

/-- `Buffer.concat(arr)`. -/
def concat (arr : List Bytes) : Bytes := copyAll (alloc (arr.map List.length).sum) 0 arr

theorem alloc_add (m n : Nat) : alloc (m + n) = alloc m ++ alloc n := List.replicate_add m n 0

/-- Stores over a zeroed region fill it in order. -/
theorem store_zeros (front : Bytes) (xs : List Nat) (back : Bytes) :
    store (front ++ alloc xs.length ++ back) front.length xs
      = front ++ xs.map UInt8.ofNat ++ back := by
  induction xs generalizing front with
  | nil => simp [store, alloc]
  | cons x xs ih =>
      -- each store moves one zero of the region into the part already written
      have hset : (front ++ alloc (x :: xs).length ++ back).set front.length (UInt8.ofNat x)
          = (front ++ [UInt8.ofNat x]) ++ alloc xs.length ++ back := by
        simp [alloc, List.replicate_succ]
      have hfront : front.length + 1 = (front ++ [UInt8.ofNat x]).length := by simp
      rw [store, hset, hfront, ih]
      simp

theorem from'_eq (str : Str) : from' str = (toUTF8 str).map UInt8.ofNat := by
  have hstore := store_zeros [] (toUTF8 str) []
  rw [List.nil_append, List.append_nil, List.nil_append, List.append_nil] at hstore
  exact hstore

theorem copyAll_zeros (front : Bytes) (arr : List Bytes) :
    copyAll (front ++ alloc (arr.map List.length).sum) front.length arr = front ++ arr.flatten := by
  induction arr generalizing front with
  | nil => simp [copyAll, alloc]
  | cons buffer arr ih =>
      have hstore := store_zeros front (buffer.map UInt8.toNat) (alloc (arr.map List.length).sum)
      have hbytes : (buffer.map UInt8.toNat).map UInt8.ofNat = buffer := by
        simp [List.map_map, Function.comp_def]
      have hlength : front.length + buffer.length = (front ++ buffer).length := by simp
      rw [List.length_map, hbytes] at hstore
      rw [copyAll, List.map_cons, List.sum_cons, alloc_add, ← List.append_assoc, hstore, hlength, ih,
        List.flatten_cons, List.append_assoc]

/-- `Buffer.concat` is concatenation. -/
theorem concat_eq (arr : List Bytes) : concat arr = arr.flatten := copyAll_zeros [] arr

/-! ## The bytes against RFC 3629 -/

/-- Masking `k` bits and setting higher ones is arithmetic. -/
theorem and_or_eq_mod_add (x k m : Nat) :
    x &&& (2 ^ k - 1) ||| 2 ^ k * m = x % 2 ^ k + 2 ^ k * m := by
  have hlt : x % 2 ^ k < 2 ^ k := Nat.mod_lt _ (Nat.two_pow_pos k)
  rw [Nat.and_two_pow_sub_one_eq_mod, Nat.or_comm, ← Nat.two_pow_add_eq_or_of_lt hlt, Nat.add_comm]

theorem tail_byte (x : Nat) : x &&& 0x3f ||| 0x80 = x % 64 + 0x80 := and_or_eq_mod_add x 6 2

theorem lead_byte_two (x : Nat) : x &&& 0x1f ||| 0xC0 = x % 32 + 0xC0 := and_or_eq_mod_add x 5 6

theorem lead_byte_three (x : Nat) : x &&& 0x0f ||| 0xE0 = x % 16 + 0xE0 := and_or_eq_mod_add x 4 14

theorem lead_byte_four (x : Nat) : x &&& 0x07 ||| 0xF0 = x % 8 + 0xF0 := and_or_eq_mod_add x 3 30

/-! The five forms a Unicode code point can take. -/

theorem codeBytes_one {c : Nat} (h : 0 < c ∧ c < 0x7F) : codeBytes c = [c] := if_pos h

theorem codeBytes_two {c : Nat} (h : 0x80 < c ∧ c < 0x7FF) :
    codeBytes c = [c / 64 % 32 + 0xC0, c % 64 + 0x80] := by
  rw [codeBytes, if_neg (by omega), if_pos h, lead_byte_two, tail_byte, Nat.shiftRight_eq_div_pow]

theorem codeBytes_three {c : Nat} (h : 0x800 < c ∧ c < 0xFFFF) :
    codeBytes c = [c / 4096 % 16 + 0xE0, c / 64 % 64 + 0x80, c % 64 + 0x80] := by
  rw [codeBytes, if_neg (by omega), if_neg (by omega), if_pos (Or.inl h), lead_byte_three,
    tail_byte, tail_byte, Nat.shiftRight_eq_div_pow, Nat.shiftRight_eq_div_pow]

theorem codeBytes_four {c : Nat} (h : 0x10000 < c ∧ c < 0x10FFFF) :
    codeBytes c
      = [c / 262144 % 8 + 0xF0, c / 4096 % 64 + 0x80, c / 64 % 64 + 0x80, c % 64 + 0x80] := by
  rw [codeBytes, if_neg (by omega), if_neg (by omega), if_neg (by omega), if_pos h,
    lead_byte_four, tail_byte, tail_byte, tail_byte]
  simp only [Nat.shiftRight_eq_div_pow]

/-- The code points no range test of `toUTF8` accepts. -/
def boundaries : List Nat := [0, 0x7F, 0x80, 0x7FF, 0x800, 0xFFFF, 0x10000, 0x10FFFF]

theorem codeBytes_six {c : Nat} (h : c ∈ boundaries) :
    codeBytes c = [0xFC, 0x80, c / 262144 % 64 + 0x80, c / 4096 % 64 + 0x80, c / 64 % 64 + 0x80,
      c % 64 + 0x80] := by
  simp only [boundaries, List.mem_cons, List.not_mem_nil, or_false] at h
  rcases h with rfl | rfl | rfl | rfl | rfl | rfl | rfl | rfl <;> rfl

/-- Every Unicode code point is in one of the ranges or between two of them; the
five-byte range is beyond them all. -/
theorem range_cases {c : Nat} (h : c ≤ 0x10FFFF) :
    (0 < c ∧ c < 0x7F) ∨ (0x80 < c ∧ c < 0x7FF) ∨ (0x800 < c ∧ c < 0xFFFF) ∨
      (0x10000 < c ∧ c < 0x10FFFF) ∨ c ∈ boundaries := by
  simp only [boundaries, List.mem_cons, List.not_mem_nil, or_false]
  omega

/-- The RFC 3629 encoding of a sequence of scalar values. -/
def rfc3629 (cs : List Char) : Bytes := cs.flatMap String.utf8EncodeChar

/-- A byte of an encoding is the code point itself, in the one-byte form, or it
has its top bit set. -/
theorem mem_codeBytes {c x : Nat} (h : c ≤ 0x10FFFF) (hx : x ∈ codeBytes c) :
    (x = c ∧ 0 < c ∧ c < 0x7F) ∨ (128 ≤ x ∧ x < 256) := by
  rcases range_cases h with hc | hc | hc | hc | hc
  · rw [codeBytes_one hc, List.mem_singleton] at hx
    exact Or.inl ⟨hx, hc⟩
  -- in the longer forms the leading bits are those of 0xC0 or above, or of 0x80
  · simp only [codeBytes_two hc, List.mem_cons, List.not_mem_nil, or_false] at hx
    omega
  · simp only [codeBytes_three hc, List.mem_cons, List.not_mem_nil, or_false] at hx
    omega
  · simp only [codeBytes_four hc, List.mem_cons, List.not_mem_nil, or_false] at hx
    omega
  · simp only [codeBytes_six hc, List.mem_cons, List.not_mem_nil, or_false] at hx
    omega

theorem codeBytes_lt {c : Nat} (h : c ≤ 0x10FFFF) : ∀ x ∈ codeBytes c, x < 256 := by
  intro x hx
  rcases mem_codeBytes h hx with hx | hx <;> omega

/-- Away from the boundaries the ladder computes the RFC's form. -/
theorem utf8EncodeChar_eq (c : Char) (h : c.toNat ∉ boundaries) :
    String.utf8EncodeChar c = (codeBytes c.toNat).map UInt8.ofNat := by
  have hvalid : c.toNat < 0xD800 ∨ 0xDFFF < c.toNat ∧ c.toNat < 0x110000 := c.valid
  have hval : c.val.toNat = c.toNat := rfl
  rcases range_cases (show c.toNat ≤ 0x10FFFF by omega) with hc | hc | hc | hc | hc
  · rw [codeBytes_one hc, String.utf8EncodeChar, hval, if_pos (by omega)]
    rfl
  · rw [codeBytes_two hc, String.utf8EncodeChar, hval, if_neg (by omega), if_pos (by omega)]
    rfl
  · rw [codeBytes_three hc, String.utf8EncodeChar, hval, if_neg (by omega), if_neg (by omega),
      if_pos (by omega)]
    rfl
  · rw [codeBytes_four hc, String.utf8EncodeChar, hval, if_neg (by omega), if_neg (by omega),
      if_neg (by omega)]
    rfl
  · exact absurd hc h

/-- At a boundary the form is two bytes or more too long. -/
theorem utf8EncodeChar_length_lt (c : Char) (h : c.toNat ∈ boundaries) :
    (String.utf8EncodeChar c).length < (codeBytes c.toNat).length := by
  have hsize := c.utf8Size_le_four
  rw [codeBytes_six h, String.length_utf8EncodeChar]
  show c.utf8Size < 6
  omega

theorem utf8EncodeChar_length_le (c : Char) :
    (String.utf8EncodeChar c).length ≤ (codeBytes c.toNat).length := by
  by_cases h : c.toNat ∈ boundaries
  · exact Nat.le_of_lt (utf8EncodeChar_length_lt c h)
  · have heq : (String.utf8EncodeChar c).length = (codeBytes c.toNat).length := by
      rw [utf8EncodeChar_eq c h, List.length_map]
    exact Nat.le_of_eq heq

/-! ## The encoder -/

theorem toUTF8_ofChars (cs : List Char) :
    toUTF8 (ofChars cs) = cs.flatMap fun c => codeBytes c.toNat := by
  rw [toUTF8, codePoints_ofChars, List.flatMap_map]

theorem toUTF8_lt (str : Str) : ∀ x ∈ toUTF8 str, x < 256 := by
  intro x hx
  obtain ⟨c, hc, hx⟩ := List.mem_flatMap.mp hx
  exact codeBytes_lt (codePoints_le str c hc) x hx

/-- The stores into a `Uint8Array` lose nothing. -/
theorem map_toNat_from' (str : Str) : (from' str).map UInt8.toNat = toUTF8 str := by
  rw [from'_eq, List.map_map]
  refine (List.map_congr_left fun x hx => ?_).trans (List.map_id _)
  exact UInt8.toNat_ofNat_of_lt (toUTF8_lt str x hx)

theorem length_from' (str : Str) : (from' str).length = strlen str := by
  rw [from'_eq, List.length_map, strlen]

/-! Where a string may be cut: where the seam joins no pair. -/

theorem toUTF8_append {s t : Str} (h : ¬ joins s t) : toUTF8 (s ++ t) = toUTF8 s ++ toUTF8 t := by
  rw [toUTF8, codePoints_append_of_not_joins (Bool.not_eq_true _ ▸ h), List.flatMap_append]
  rfl

theorem strlen_append {s t : Str} (h : ¬ joins s t) : strlen (s ++ t) = strlen s + strlen t := by
  rw [strlen, toUTF8_append h, List.length_append]
  rfl

theorem from'_append_of_not_joins {s t : Str} (h : ¬ joins s t) :
    from' (s ++ t) = from' s ++ from' t := by
  rw [from'_eq, from'_eq, from'_eq, toUTF8_append h, List.map_append]

theorem from'_append (s : Str) {u : UInt16} (hu : isLow u = false) (t : Str) :
    from' (s ++ u :: t) = from' s ++ from' (u :: t) :=
  from'_append_of_not_joins (by simp [joins, hu])

theorem from'_cons {u : UInt16} (hu : isHigh u = false) (s : Str) :
    from' (u :: s) = (codeBytes u.toNat).map UInt8.ofNat ++ from' s := by
  rw [from'_eq, from'_eq, toUTF8, codePoints_cons hu, List.flatMap_cons, List.map_append]
  rfl

/-! And where not: the form of a pair is not made of the forms of its halves. -/

theorem codeBytes_pair_ne {hi lo : UInt16} (hhi : isHigh hi) (hlo : isLow lo) :
    codeBytes (pair hi lo) ≠ codeBytes hi.toNat ++ codeBytes lo.toNat := by
  simp only [isHigh, isLow, decide_eq_true_eq] at hhi hlo
  have hrange : 0x10000 ≤ pair hi lo ∧ pair hi lo ≤ 0x10FFFF := by
    unfold pair
    omega
  rw [codeBytes_three (c := hi.toNat) (by omega), codeBytes_three (c := lo.toNat) (by omega)]
  intro heq
  rcases range_cases hrange.2 with hc | hc | hc | hc | hc
  · omega
  · omega
  · omega
  · -- four bytes against six
    rw [codeBytes_four hc] at heq
    exact absurd (congrArg List.length heq) (by simp)
  · -- the first and the last pair have six, behind another lead byte
    rw [codeBytes_six hc] at heq
    have hlead : 0xFC = hi.toNat / 4096 % 16 + 0xE0 := (List.cons.inj heq).1
    omega

/-- The encoder is a homomorphism but for a pair at the seam. -/
theorem toUTF8_append_iff (s t : Str) :
    toUTF8 (s ++ t) = toUTF8 s ++ toUTF8 t ↔ ¬ joins s t := by
  refine ⟨fun heq h => ?_, toUTF8_append⟩
  obtain ⟨cs, hi, lo, ds, hhi, hlo, hs, ht, hst⟩ := codePoints_append_of_joins h
  simp only [toUTF8, hs, ht, hst, List.flatMap_append, List.flatMap_cons, List.flatMap_nil,
    List.append_nil, List.append_assoc] at heq
  -- what stands before the pair and behind it is the same on both sides
  have hbehind := List.append_cancel_left heq
  rw [← List.append_assoc] at hbehind
  exact codeBytes_pair_ne hhi hlo (List.append_cancel_right hbehind)

/-- ASCII text is its own encoding. -/
theorem from'_ascii {str : Str} (h : ∀ u ∈ str, 0 < u.toNat ∧ u.toNat < 0x7F) :
    from' str = str.map fun u => UInt8.ofNat u.toNat := by
  induction str with
  | nil => rfl
  | cons u str ih =>
      obtain ⟨hu, hrest⟩ := List.forall_mem_cons.mp h
      have hhigh : isHigh u = false := by
        rw [isHigh, decide_eq_false_iff_not]
        omega
      rw [from'_cons hhigh, codeBytes_one hu, ih hrest]
      rfl

theorem codeBytes_ne_nil {c : Nat} (h : c ≤ 0x10FFFF) : codeBytes c ≠ [] := by
  rcases range_cases h with hc | hc | hc | hc | hc
  · exact codeBytes_one hc ▸ List.cons_ne_nil _ _
  · exact codeBytes_two hc ▸ List.cons_ne_nil _ _
  · exact codeBytes_three hc ▸ List.cons_ne_nil _ _
  · exact codeBytes_four hc ▸ List.cons_ne_nil _ _
  · exact codeBytes_six hc ▸ List.cons_ne_nil _ _

/-- Only the one-byte form has a byte below 128. -/
theorem ascii_of_mem_codeBytes {c x : Nat} (h : c ≤ 0x10FFFF) (hx : x ∈ codeBytes c)
    (hlt : x < 128) : x = c ∧ 0 < c ∧ c < 0x7F := by
  rcases mem_codeBytes h hx with hx | hx
  · exact hx
  · omega

/-- An ASCII byte of an encoding is a character of the string. -/
theorem mem_of_mem_from' {str : Str} {b : UInt8} (h : b ∈ from' str) (hlt : b.toNat < 128) :
    UInt16.ofNat b.toNat ∈ str := by
  -- a byte below 128 is the one-byte form of its code point
  rw [from'_eq] at h
  obtain ⟨x, hx, rfl⟩ := List.mem_map.mp h
  have hbyte : (UInt8.ofNat x).toNat = x := UInt8.toNat_ofNat_of_lt (toUTF8_lt str x hx)
  rw [hbyte] at hlt ⊢
  obtain ⟨c, hc, hx⟩ := List.mem_flatMap.mp hx
  obtain ⟨rfl, -⟩ := ascii_of_mem_codeBytes (codePoints_le str c hc) hx hlt
  exact mem_of_mem_codePoints hc (by omega)

/-- A string whose encoding is all ASCII is ASCII text. -/
theorem ascii_of_from' {str : Str} (h : ∀ b ∈ from' str, b.toNat < 128) :
    ∀ u ∈ str, 0 < u.toNat ∧ u.toNat < 0x7F := by
  have hcodes : ∀ c ∈ codePoints str, 0 < c ∧ c < 0x7F := by
    intro c hc
    have hle := codePoints_le str c hc
    obtain ⟨x, hx⟩ := List.exists_mem_of_ne_nil _ (codeBytes_ne_nil hle)
    have hmem : x ∈ toUTF8 str := List.mem_flatMap.mpr ⟨c, hc, hx⟩
    rw [← map_toNat_from'] at hmem
    obtain ⟨b, hb, rfl⟩ := List.mem_map.mp hmem
    exact (ascii_of_mem_codeBytes hle hx (h b hb)).2
  intro u hu
  rw [← ofCodePoints_codePoints str] at hu
  obtain ⟨c, hc, hu⟩ := List.mem_flatMap.mp hu
  have hbounds := hcodes c hc
  have hunit : (UInt16.ofNat c).toNat = c := UInt16.toNat_ofNat_of_lt (by rw [UInt16.size]; omega)
  rw [ofCodePoint, if_pos (by omega), List.mem_singleton] at hu
  rw [hu, hunit]
  exact hbounds

/-- What the encoder owes on the string of the scalar values `cs`. -/
structure EncodesUTF8 (cs : List Char) : Prop where
  toUTF8_eq : toUTF8 (ofChars cs) = (rfc3629 cs).map UInt8.toNat
  from_eq : from' (ofChars cs) = rfc3629 cs
  strlen_eq : strlen (ofChars cs) = (rfc3629 cs).length

theorem from'_ofChars {cs : List Char} (h : ∀ c ∈ cs, c.toNat ∉ boundaries) :
    from' (ofChars cs) = rfc3629 cs := by
  rw [from'_eq, toUTF8_ofChars, List.map_flatMap, rfc3629]
  exact List.flatMap_congr fun c hc => (utf8EncodeChar_eq c (h c hc)).symm

/-- The lengths tell a string with a boundary code point. -/
theorem length_rfc3629_le (cs : List Char) : (rfc3629 cs).length ≤ strlen (ofChars cs) := by
  rw [strlen, toUTF8_ofChars, rfc3629]
  induction cs with
  | nil => exact Nat.le_refl 0
  | cons c cs ih =>
      have hle := utf8EncodeChar_length_le c
      rw [List.flatMap_cons, List.flatMap_cons, List.length_append, List.length_append]
      omega

theorem length_rfc3629_lt {cs : List Char} {c : Char} (hc : c ∈ cs) (h : c.toNat ∈ boundaries) :
    (rfc3629 cs).length < strlen (ofChars cs) := by
  obtain ⟨front, back, rfl⟩ := List.append_of_mem hc
  have hfront := length_rfc3629_le front
  have hback := length_rfc3629_le back
  have hlt := utf8EncodeChar_length_lt c h
  simp only [strlen, toUTF8_ofChars, rfc3629, List.flatMap_append, List.flatMap_cons,
    List.length_append] at hfront hback ⊢
  omega

/-- The encoder produces UTF-8 on exactly the strings that avoid the boundary
code points of its ladder. -/
theorem encodes_utf8_iff (cs : List Char) :
    EncodesUTF8 cs ↔ ∀ c ∈ cs, c.toNat ∉ boundaries := by
  constructor
  · intro h c hc hboundary
    have hlt := length_rfc3629_lt hc hboundary
    rw [h.strlen_eq] at hlt
    exact absurd hlt (Nat.lt_irrefl _)
  · intro h
    have hbytes := from'_ofChars h
    exact {
      toUTF8_eq := by rw [← map_toNat_from', hbytes]
      from_eq := hbytes
      strlen_eq := by rw [← length_from', hbytes] }

/-- The string of the repository's buffer test. -/
example : from' [0x4F60, 0x31, 0x61] = [0xE4, 0xBD, 0xA0, 0x31, 0x61] := by decide

/-- U+007F, one byte in UTF-8, is encoded as six. -/
theorem encodes_utf8_delete : ¬ ∀ cs : List Char, EncodesUTF8 cs := by
  intro h
  have hstrlen := (h [Char.ofNat 0x7F]).strlen_eq
  exact absurd hstrlen (by decide)

end NoJs.Buffer
