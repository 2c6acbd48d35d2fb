/-
  NoJs.Buffer.RoundTrip

  The decoder of `libs/buffer/index.js`, and what it makes of encoded strings.

  The number of leading ones of a byte selects the form to read, the five- and
  six-byte forms included, so that `fromUTF8` follows `toUTF8` at the boundary
  code points too: decoding the encoding of a code point gives back its code
  units, whatever bytes come after it.
-/

import NoJs.Buffer.Encode
import NoJs.Lib.Utf8
import Mathlib.Data.Nat.Bitwise

namespace NoJs.Buffer

open Utf16

/-! ## countByte -/

theorem top_bit (byte : UInt8) : byte &&& 0x80 ≠ 0 ↔ 128 ≤ byte.toNat := by
  have hlt := byte.toNat_lt
  -- the mask is read off bit 7 of the number
  have hnat : (byte &&& 0x80).toNat = (byte.toNat.testBit 7).toNat * 128 :=
    Nat.and_two_pow byte.toNat 7
  have hbit : byte.toNat.testBit 7 = decide (byte.toNat / 128 % 2 = 1) :=
    Nat.testBit_eq_decide_div_mod_eq
  rw [Ne, ← UInt8.toNat_inj, hnat, hbit]
  by_cases h : byte.toNat / 128 % 2 = 1
  · rw [decide_eq_true h]
    show 1 * 128 ≠ 0 ↔ 128 ≤ byte.toNat
    omega
  · rw [decide_eq_false h]
    show 0 * 128 ≠ 0 ↔ 128 ≤ byte.toNat
    omega

theorem toNat_shiftLeft_one (byte : UInt8) : (byte <<< 1).toNat = byte.toNat * 2 % 256 := by
  rw [UInt8.toNat_shiftLeft, Nat.shiftLeft_eq]
  rfl

/-- The loop of `countByte`; the `& 0xFF` is the width of the type. -/
def countLoop (byte : UInt8) (bytelen : Nat) : Nat :=
  if byte &&& 0x80 ≠ 0 then countLoop (byte <<< 1) (bytelen + 1) else bytelen
termination_by byte.toNat
decreasing_by
  -- a byte with its top bit set loses more than it doubles
  have hlt := byte.toNat_lt
  have hge := (top_bit byte).mp ‹_›
  rw [toNat_shiftLeft_one]
  omega

/-- `countByte(byte)`. -/
def countByte (byte : UInt8) : Nat :=
  let bytelen := countLoop byte 0
  if bytelen = 0 then 1 else bytelen

theorem countLoop_next {byte : UInt8} (h : 128 ≤ byte.toNat) (bytelen : Nat) :
    countLoop byte bytelen = countLoop (byte <<< 1) (bytelen + 1) := by
  rw [countLoop, if_pos ((top_bit byte).mpr h)]

theorem countLoop_stop {byte : UInt8} (h : byte.toNat < 128) (bytelen : Nat) :
    countLoop byte bytelen = bytelen := by
  rw [countLoop, if_neg (fun hbit => absurd ((top_bit byte).mp hbit) (by omega))]

/-- A byte with `n` leading ones and then a zero counts `n`: shifting takes one
of them off. -/
theorem countLoop_ones {n : Nat} (hn : n ≤ 7) {byte : UInt8} (bytelen : Nat)
    (hlow : 256 - 2 ^ (8 - n) ≤ byte.toNat) (hhigh : byte.toNat < 256 - 2 ^ (7 - n)) :
    countLoop byte bytelen = bytelen + n := by
  induction n generalizing byte bytelen with
  | zero => exact countLoop_stop (by omega) bytelen
  | succ n ih =>
      -- doubling modulo 256 maps the bytes with `n + 1` leading ones to those with `n`
      have h8 : 2 ^ (8 - n) = 2 * 2 ^ (7 - n) := by
        rw [← Nat.pow_succ', show (7 - n).succ = 8 - n by omega]
      have h7 : 2 ^ (7 - n) = 2 * 2 ^ (6 - n) := by
        rw [← Nat.pow_succ', show (6 - n).succ = 7 - n by omega]
      have hle : 2 ^ (7 - n) ≤ 2 ^ 7 := Nat.pow_le_pow_right (by omega) (by omega)
      rw [show 8 - (n + 1) = 7 - n by omega] at hlow
      rw [show 7 - (n + 1) = 6 - n by omega] at hhigh
      have hlt := byte.toNat_lt
      have hshift := toNat_shiftLeft_one byte
      rw [countLoop_next (by omega), ih (by omega) _ (by omega) (by omega)]
      omega

theorem countByte_ascii {byte : UInt8} (h : byte.toNat < 128) : countByte byte = 1 := by
  simp only [countByte, countLoop_stop h, if_true]

theorem countByte_ones {n : Nat} (hn : 0 < n ∧ n ≤ 7) {byte : UInt8}
    (hlow : 256 - 2 ^ (8 - n) ≤ byte.toNat) (hhigh : byte.toNat < 256 - 2 ^ (7 - n)) :
    countByte byte = n := by
  simp only [countByte, countLoop_ones hn.2 0 hlow hhigh, Nat.zero_add]
  exact if_neg (by omega)

theorem countByte_pos (byte : UInt8) : 0 < countByte byte := by
  simp only [countByte]
  split <;> omega

/-! ## fromUTF8 -/

/-- What `fromUTF8` can throw. -/
inductive Thrown where
  | Error (message : String)
  /-- from `String.fromCodePoint` -/
  | RangeError (code : Nat)
  deriving DecidableEq, Repr

/-- `bytes[i]`; past the end it is `undefined`, which the masks take for 0. -/
def byteAt (bytes : Bytes) (i : Nat) : Nat := (bytes.getD i 0).toNat

/-- `String.fromCodePoint(code)`. -/
def fromCodePoint (code : Nat) : Except Thrown Str :=
  if code ≤ 0x10FFFF then .ok (ofCodePoint code) else .error (.RangeError code)

/-- The code point the `switch` reads at the front of `bytes`. -/
def readCode (bytes : Bytes) (byteLen : Nat) : Except Thrown Nat :=
  match byteLen with
  | 1 => .ok (byteAt bytes 0)
  | 2 => .ok ((byteAt bytes 0 &&& 0x1F) <<< 6 ||| (byteAt bytes 1 &&& 0x3F))
  | 3 => .ok ((byteAt bytes 0 &&& 0x0F) <<< 12 ||| (byteAt bytes 1 &&& 0x3F) <<< 6
      ||| (byteAt bytes 2 &&& 0x3F))
  | 4 => .ok ((byteAt bytes 0 &&& 0x07) <<< 18 ||| (byteAt bytes 1 &&& 0x3F) <<< 12
      ||| (byteAt bytes 2 &&& 0x3F) <<< 6 ||| (byteAt bytes 3 &&& 0x3F))
  | 5 => .ok ((byteAt bytes 0 &&& 0x03) <<< 24 ||| (byteAt bytes 1 &&& 0x3F) <<< 18
      ||| (byteAt bytes 2 &&& 0x3F) <<< 12 ||| (byteAt bytes 3 &&& 0x3F) <<< 6
      ||| (byteAt bytes 4 &&& 0x3F))
  | 6 => .ok ((byteAt bytes 0 &&& 0x01) <<< 30 ||| (byteAt bytes 1 &&& 0x3F) <<< 24
      ||| (byteAt bytes 2 &&& 0x3F) <<< 18 ||| (byteAt bytes 3 &&& 0x3F) <<< 12
      ||| (byteAt bytes 4 &&& 0x3F) <<< 6 ||| (byteAt bytes 5 &&& 0x3F))
  | _ => .error (.Error "invalid byte")

/-- `fromUTF8(bytes)`, from the byte the loop has reached. -/
def fromUTF8 : Bytes → Except Thrown Str
  | [] => .ok []
  | byte :: bytes => do
      let byteLen := countByte byte
      let code ← readCode (byte :: bytes) byteLen
      let char ← fromCodePoint code
      let chars ← fromUTF8 ((byte :: bytes).drop byteLen)
      return char ++ chars
termination_by bytes => bytes.length
decreasing_by
  have hpos := countByte_pos byte
  rw [List.length_drop, List.length_cons]
  omega

/-- `Buffer.prototype.toString()`. -/
def toString (buffer : Bytes) : Except Thrown Str := fromUTF8 buffer

@[simp] theorem ok_bind {α β : Type} (a : α) (f : α → Except Thrown β) :
    (Except.ok a >>= f) = f a := rfl

/-- One turn of the loop. -/
theorem fromUTF8_turn {byte : UInt8} {bytes rest : Bytes} {byteLen code : Nat}
    (hcount : countByte byte = byteLen) (hcode : readCode (byte :: bytes) byteLen = .ok code)
    (hrange : code ≤ 0x10FFFF) (hdrop : (byte :: bytes).drop byteLen = rest) :
    fromUTF8 (byte :: bytes) = (fromUTF8 rest).map (ofCodePoint code ++ ·) := by
  have hchar : fromCodePoint code = .ok (ofCodePoint code) := if_pos hrange
  rw [fromUTF8]
  simp only [hcount, hcode, ok_bind, hchar, hdrop]
  cases fromUTF8 rest <;> rfl

/-! ## Reading back the bytes of a code point -/

/-- Disjoint bits add up. -/
theorem or_eq_add (i : Nat) {a b : Nat} (ha : 2 ^ i ∣ a) (hb : b < 2 ^ i) : a ||| b = a + b := by
  obtain ⟨k, rfl⟩ := ha
  exact (Nat.two_pow_add_eq_or_of_lt hb k).symm

theorem tail_bits (x : Nat) : x &&& 0x3F = x % 64 := Nat.and_two_pow_sub_one_eq_mod x 6

theorem join_two (x y : Nat) : (x &&& 0x1F) <<< 6 ||| (y &&& 0x3F) = x % 32 * 64 + y % 64 := by
  have hlead : x &&& 0x1F = x % 32 := Nat.and_two_pow_sub_one_eq_mod x 5
  rw [hlead, tail_bits, Nat.shiftLeft_eq, or_eq_add 6 (by omega) (by omega)]

theorem join_three (x y z : Nat) :
    (x &&& 0x0F) <<< 12 ||| (y &&& 0x3F) <<< 6 ||| (z &&& 0x3F)
      = x % 16 * 4096 + y % 64 * 64 + z % 64 := by
  have hlead : x &&& 0x0F = x % 16 := Nat.and_two_pow_sub_one_eq_mod x 4
  have h12 : x % 16 * 4096 ||| y % 64 * 64 = x % 16 * 4096 + y % 64 * 64 :=
    or_eq_add 12 (by omega) (by omega)
  simp only [hlead, tail_bits, Nat.shiftLeft_eq, Nat.reducePow]
  rw [h12, or_eq_add 6 (by omega) (by omega)]

theorem join_four (x y z w : Nat) :
    (x &&& 0x07) <<< 18 ||| (y &&& 0x3F) <<< 12 ||| (z &&& 0x3F) <<< 6 ||| (w &&& 0x3F)
      = x % 8 * 262144 + y % 64 * 4096 + z % 64 * 64 + w % 64 := by
  have hlead : x &&& 0x07 = x % 8 := Nat.and_two_pow_sub_one_eq_mod x 3
  have h18 : x % 8 * 262144 ||| y % 64 * 4096 = x % 8 * 262144 + y % 64 * 4096 :=
    or_eq_add 18 (by omega) (by omega)
  have h12 : x % 8 * 262144 + y % 64 * 4096 ||| z % 64 * 64
      = x % 8 * 262144 + y % 64 * 4096 + z % 64 * 64 := or_eq_add 12 (by omega) (by omega)
  simp only [hlead, tail_bits, Nat.shiftLeft_eq, Nat.reducePow]
  rw [h18, h12, or_eq_add 6 (by omega) (by omega)]

theorem join_five (x y z w u : Nat) :
    (x &&& 0x03) <<< 24 ||| (y &&& 0x3F) <<< 18 ||| (z &&& 0x3F) <<< 12 ||| (w &&& 0x3F) <<< 6
        ||| (u &&& 0x3F)
      = x % 4 * 16777216 + y % 64 * 262144 + z % 64 * 4096 + w % 64 * 64 + u % 64 := by
  have hlead : x &&& 0x03 = x % 4 := Nat.and_two_pow_sub_one_eq_mod x 2
  have h24 : x % 4 * 16777216 ||| y % 64 * 262144 = x % 4 * 16777216 + y % 64 * 262144 :=
    or_eq_add 24 (by omega) (by omega)
  have h18 : x % 4 * 16777216 + y % 64 * 262144 ||| z % 64 * 4096
      = x % 4 * 16777216 + y % 64 * 262144 + z % 64 * 4096 := or_eq_add 18 (by omega) (by omega)
  have h12 : x % 4 * 16777216 + y % 64 * 262144 + z % 64 * 4096 ||| w % 64 * 64
      = x % 4 * 16777216 + y % 64 * 262144 + z % 64 * 4096 + w % 64 * 64 :=
    or_eq_add 12 (by omega) (by omega)
  simp only [hlead, tail_bits, Nat.shiftLeft_eq, Nat.reducePow]
  rw [h24, h18, h12, or_eq_add 6 (by omega) (by omega)]

theorem join_six (x y z w u v : Nat) :
    (x &&& 0x01) <<< 30 ||| (y &&& 0x3F) <<< 24 ||| (z &&& 0x3F) <<< 18 ||| (w &&& 0x3F) <<< 12
        ||| (u &&& 0x3F) <<< 6 ||| (v &&& 0x3F)
      = x % 2 * 1073741824 + y % 64 * 16777216 + z % 64 * 262144 + w % 64 * 4096 + u % 64 * 64
        + v % 64 := by
  have hlead : x &&& 0x01 = x % 2 := Nat.and_two_pow_sub_one_eq_mod x 1
  have h30 : x % 2 * 1073741824 ||| y % 64 * 16777216
      = x % 2 * 1073741824 + y % 64 * 16777216 := or_eq_add 30 (by omega) (by omega)
  have h24 : x % 2 * 1073741824 + y % 64 * 16777216 ||| z % 64 * 262144
      = x % 2 * 1073741824 + y % 64 * 16777216 + z % 64 * 262144 :=
    or_eq_add 24 (by omega) (by omega)
  have h18 : x % 2 * 1073741824 + y % 64 * 16777216 + z % 64 * 262144 ||| w % 64 * 4096
      = x % 2 * 1073741824 + y % 64 * 16777216 + z % 64 * 262144 + w % 64 * 4096 :=
    or_eq_add 18 (by omega) (by omega)
  have h12 : x % 2 * 1073741824 + y % 64 * 16777216 + z % 64 * 262144 + w % 64 * 4096
        ||| u % 64 * 64
      = x % 2 * 1073741824 + y % 64 * 16777216 + z % 64 * 262144 + w % 64 * 4096 + u % 64 * 64 :=
    or_eq_add 12 (by omega) (by omega)
  simp only [hlead, tail_bits, Nat.shiftLeft_eq, Nat.reducePow]
  rw [h30, h24, h18, h12, or_eq_add 6 (by omega) (by omega)]

@[simp] theorem byteAt_zero (byte : UInt8) (bytes : Bytes) :
    byteAt (byte :: bytes) 0 = byte.toNat := rfl

@[simp] theorem byteAt_succ (byte : UInt8) (bytes : Bytes) (i : Nat) :
    byteAt (byte :: bytes) (i + 1) = byteAt bytes i := rfl

theorem toNat_byte {x : Nat} (h : x < 256) : (UInt8.ofNat x).toNat = x :=
  UInt8.toNat_ofNat_of_lt h

/-- A lead byte counts the bytes of its form. -/
theorem countByte_tagged {code : Nat} {byte : UInt8} {tail : Bytes}
    (h : Utf8.Tagged code (byte :: tail)) : countByte byte = tail.length + 1 := by
  cases h with
  | ascii a h => exact countByte_ascii h
  | multi a tail hlength hlead htail =>
      refine countByte_ones (by omega) ?_ ?_
      · rw [show 8 - (tail.length + 1) = 7 - tail.length by omega]
        exact hlead.1
      · rw [show 7 - (tail.length + 1) = 6 - tail.length by omega]
        exact hlead.2

/-- The masks and shifts put the code point of a form together. -/
theorem readCode_tagged {code : Nat} {bytes : Bytes} (h : Utf8.Tagged code bytes) (rest : Bytes) :
    readCode (bytes ++ rest) bytes.length = .ok code := by
  cases h with
  | ascii a h => rfl
  | multi a tail hlength hlead htail =>
      rcases tail with _ | ⟨b, _ | ⟨c, _ | ⟨d, _ | ⟨e, _ | ⟨f, _ | ⟨g, tail⟩⟩⟩⟩⟩⟩
      · exact absurd hlength.1 (by simp)
      · show readCode (a :: b :: rest) 2 = .ok (Utf8.joinTail (a.toNat % 32) [b])
        simp only [readCode, join_two, byteAt_zero, byteAt_succ, Utf8.joinTail, List.foldl_cons,
          List.foldl_nil]
      · show readCode (a :: b :: c :: rest) 3 = .ok (Utf8.joinTail (a.toNat % 16) [b, c])
        simp only [readCode, join_three, byteAt_zero, byteAt_succ, Utf8.joinTail, List.foldl_cons,
          List.foldl_nil]
        exact congrArg Except.ok (by omega)
      · show readCode (a :: b :: c :: d :: rest) 4 = .ok (Utf8.joinTail (a.toNat % 8) [b, c, d])
        simp only [readCode, join_four, byteAt_zero, byteAt_succ, Utf8.joinTail, List.foldl_cons,
          List.foldl_nil]
        exact congrArg Except.ok (by omega)
      · show readCode (a :: b :: c :: d :: e :: rest) 5
          = .ok (Utf8.joinTail (a.toNat % 4) [b, c, d, e])
        simp only [readCode, join_five, byteAt_zero, byteAt_succ, Utf8.joinTail, List.foldl_cons,
          List.foldl_nil]
        exact congrArg Except.ok (by omega)
      · show readCode (a :: b :: c :: d :: e :: f :: rest) 6
          = .ok (Utf8.joinTail (a.toNat % 2) [b, c, d, e, f])
        simp only [readCode, join_six, byteAt_zero, byteAt_succ, Utf8.joinTail, List.foldl_cons,
          List.foldl_nil]
        exact congrArg Except.ok (by omega)
      · exact absurd hlength.2 (by simp)

theorem fromUTF8_tagged {code : Nat} {bytes : Bytes} (h : Utf8.Tagged code bytes)
    (hrange : code ≤ 0x10FFFF) (rest : Bytes) :
    fromUTF8 (bytes ++ rest) = (fromUTF8 rest).map (ofCodePoint code ++ ·) := by
  obtain ⟨byte, tail, rfl⟩ := List.exists_cons_of_ne_nil h.ne_nil
  refine fromUTF8_turn (countByte_tagged h) (readCode_tagged h rest) hrange ?_
  exact List.drop_left

/-- In every form the encoder writes the tags are right. -/
theorem tagged_codeBytes {c : Nat} (h : c ≤ 0x10FFFF) :
    Utf8.Tagged c ((codeBytes c).map UInt8.ofNat) := by
  rcases range_cases h with hc | hc | hc | hc | hc
  · have hbyte : (UInt8.ofNat c).toNat = c := toNat_byte (by omega)
    have hascii := Utf8.Tagged.ascii (UInt8.ofNat c) (by omega)
    rw [hbyte] at hascii
    rw [codeBytes_one hc]
    exact hascii
  · have hform := Utf8.tagged_tailOf (c := c) (n := 1) (by omega) (by omega)
    rw [codeBytes_two hc, Nat.mod_eq_of_lt (show c / 64 < 32 by omega)]
    simpa [Utf8.tailOf] using hform
  · have hform := Utf8.tagged_tailOf (c := c) (n := 2) (by omega) (by omega)
    rw [codeBytes_three hc, Nat.mod_eq_of_lt (show c / 4096 < 16 by omega)]
    simpa [Utf8.tailOf] using hform
  · have hform := Utf8.tagged_tailOf (c := c) (n := 3) (by omega) (by omega)
    rw [codeBytes_four hc, Nat.mod_eq_of_lt (show c / 262144 < 8 by omega)]
    simpa [Utf8.tailOf] using hform
  · -- the six-byte form, whose two leading bytes carry nothing
    have hform := Utf8.tagged_tailOf (c := c) (n := 5) (by omega) (by omega)
    rw [codeBytes_six hc]
    simpa [Utf8.tailOf, Nat.div_eq_of_lt (show c < 1073741824 by omega),
      Nat.div_eq_of_lt (show c < 16777216 by omega)] using hform

/-- The decoder reads back every code point the encoder writes, whatever
follows. -/
theorem fromUTF8_codeBytes {c : Nat} (h : c ≤ 0x10FFFF) (rest : Bytes) :
    fromUTF8 ((codeBytes c).map UInt8.ofNat ++ rest)
      = (fromUTF8 rest).map (ofCodePoint c ++ ·) :=
  fromUTF8_tagged (tagged_codeBytes h) h rest

/-! ## The round trip -/

theorem fromUTF8_encoded (cs : List Nat) (hcs : ∀ c ∈ cs, c ≤ 0x10FFFF) (rest : Bytes) :
    fromUTF8 ((cs.flatMap codeBytes).map UInt8.ofNat ++ rest)
      = (fromUTF8 rest).map (ofCodePoints cs ++ ·) := by
  induction cs with
  | nil =>
      rw [List.flatMap_nil, List.map_nil, List.nil_append]
      cases fromUTF8 rest <;> rfl
  | cons c cs ih =>
      have hc := hcs c List.mem_cons_self
      have hrest := ih fun d hd => hcs d (List.mem_cons_of_mem c hd)
      rw [List.flatMap_cons, List.map_append, List.append_assoc, fromUTF8_codeBytes hc, hrest]
      cases fromUTF8 rest with
      | error e => rfl
      | ok str => exact congrArg Except.ok (List.append_assoc _ _ _).symm

theorem fromUTF8_from'_append (str : Str) (rest : Bytes) :
    fromUTF8 (from' str ++ rest) = (fromUTF8 rest).map (str ++ ·) := by
  rw [from'_eq, toUTF8, fromUTF8_encoded (codePoints str) (codePoints_le str),
    ofCodePoints_codePoints]

/-- Encoding strings, concatenating the buffers and decoding the result throws
nothing and gives the concatenation of the strings. -/
theorem toString_concat (strs : List Str) :
    toString (concat (strs.map from')) = .ok strs.flatten := by
  rw [toString, concat_eq]
  induction strs with
  | nil => rw [List.map_nil, List.flatten_nil, List.flatten_nil, fromUTF8]
  | cons str strs ih =>
      rw [List.map_cons, List.flatten_cons, fromUTF8_from'_append, ih, List.flatten_cons]
      rfl

end NoJs.Buffer
