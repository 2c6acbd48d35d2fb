/-
  NoJs.Buffer.Decode

  The decoder of `libs/buffer/index.js` on UTF-8 that it did not encode itself.

  `toUTF8` and `fromUTF8` agree on forms that are no UTF-8, so that their round
  trip says nothing about the bytes of others.  `turns` is the loop of `fromUTF8`
  with what each turn reads and how far it goes: on the encoding of a sequence of
  scalar values there is one turn for each, as long as its form.
-/

import NoJs.Buffer.RoundTrip

namespace NoJs.Buffer

open Utf16

/-- The turns of the loop from the byte it has reached: the code point each reads,
and what it adds to `i`. -/
def turns : Bytes → List (Except Thrown Nat × Nat)
  | [] => []
  | byte :: bytes =>
      let byteLen := countByte byte
      (readCode (byte :: bytes) byteLen, byteLen) :: turns ((byte :: bytes).drop byteLen)
termination_by bytes => bytes.length
decreasing_by
  have hpos := countByte_pos byte
  rw [List.length_drop, List.length_cons]
  omega

/-- What a turn adds to `chars`, in front of what the later ones do. -/
def pushTurn (turn : Except Thrown Nat × Nat) (rest : Except Thrown Str) : Except Thrown Str := do
  let code ← turn.1
  let char ← fromCodePoint code
  let chars ← rest
  return char ++ chars

/-- `fromUTF8` is its turns. -/
theorem fromUTF8_eq_turns (bytes : Bytes) :
    fromUTF8 bytes = (turns bytes).foldr pushTurn (.ok []) := by
  fun_induction turns bytes with
  | case1 => rw [fromUTF8, List.foldr_nil]
  | case2 byte bytes byteLen ih =>
      rw [fromUTF8, List.foldr_cons, ← ih]
      rfl

theorem turns_cons {byte : UInt8} {bytes rest : Bytes} {byteLen code : Nat}
    (hcount : countByte byte = byteLen) (hcode : readCode (byte :: bytes) byteLen = .ok code)
    (hdrop : (byte :: bytes).drop byteLen = rest) :
    turns (byte :: bytes) = (.ok code, byteLen) :: turns rest := by
  rw [turns, hcount, hcode, hdrop]

/-- A complete form is one turn. -/
theorem turns_tagged {code : Nat} {bytes : Bytes} (h : Utf8.Tagged code bytes) (rest : Bytes) :
    turns (bytes ++ rest) = (.ok code, bytes.length) :: turns rest := by
  obtain ⟨byte, tail, rfl⟩ := List.exists_cons_of_ne_nil h.ne_nil
  exact turns_cons (countByte_tagged h) (readCode_tagged h rest) List.drop_left

theorem turns_rfc3629 (cs : List Char) :
    turns (rfc3629 cs) = cs.map fun c => (.ok c.toNat, (String.utf8EncodeChar c).length) := by
  induction cs with
  | nil => rw [rfc3629, List.flatMap_nil, turns, List.map_nil]
  | cons c cs ih =>
      have hcons : rfc3629 (c :: cs) = String.utf8EncodeChar c ++ rfc3629 cs := rfl
      rw [hcons, turns_tagged (Utf8.form c).tagged, ih, List.map_cons]

/-- A form beyond Unicode throws, whatever follows. -/
theorem fromUTF8_tagged_error {code : Nat} {bytes : Bytes} (h : Utf8.Tagged code bytes)
    (hrange : 0x10FFFF < code) (rest : Bytes) :
    fromUTF8 (bytes ++ rest) = .error (.RangeError code) := by
  have hchar : fromCodePoint code = .error (.RangeError code) := if_neg (by omega)
  rw [fromUTF8_eq_turns, turns_tagged h, List.foldr_cons, pushTurn, ok_bind, hchar]
  rfl

/-- The result on a complete form and what follows. -/
theorem fromUTF8_tagged_iff {code : Nat} {bytes : Bytes} (h : Utf8.Tagged code bytes) (rest : Bytes)
    (str : Str) :
    fromUTF8 (bytes ++ rest) = .ok str ↔
      code ≤ 0x10FFFF ∧ ∃ chars, fromUTF8 rest = .ok chars ∧ str = ofCodePoint code ++ chars := by
  by_cases hrange : code ≤ 0x10FFFF
  · rw [fromUTF8_tagged h hrange]
    cases fromUTF8 rest with
    | error e => simp [Except.map]
    | ok chars => simp [Except.map, hrange, eq_comm]
  · rw [fromUTF8_tagged_error h (by omega)]
    simp [hrange]

/-- The result on complete forms. -/
theorem fromUTF8_taggedSeq {codes : List Nat} {bytes : Bytes} (h : Utf8.TaggedSeq codes bytes)
    (str : Str) :
    fromUTF8 bytes = .ok str ↔ (∀ c ∈ codes, c ≤ 0x10FFFF) ∧ str = ofCodePoints codes := by
  induction h generalizing str with
  | nil => simp [fromUTF8, ofCodePoints, eq_comm]
  | @cons code codes bytes rest h hrest ih =>
      rw [fromUTF8_tagged_iff h, List.forall_mem_cons, ofCodePoints_cons]
      constructor
      · rintro ⟨hrange, chars, hchars, rfl⟩
        obtain ⟨hcodes, rfl⟩ := (ih chars).mp hchars
        exact ⟨⟨hrange, hcodes⟩, rfl⟩
      · rintro ⟨⟨hrange, hcodes⟩, rfl⟩
        exact ⟨hrange, _, (ih _).mpr ⟨hcodes, rfl⟩, rfl⟩

theorem fromUTF8_rfc3629 (cs : List Char) : fromUTF8 (rfc3629 cs) = .ok (ofChars cs) := by
  refine (fromUTF8_taggedSeq (Utf8.taggedSeq_encode cs) _).mpr ⟨fun code hcode => ?_, rfl⟩
  -- `String.fromCodePoint` throws for no scalar value
  obtain ⟨c, -, rfl⟩ := List.mem_map.mp hcode
  have hvalid : c.toNat < 0xD800 ∨ 0xDFFF < c.toNat ∧ c.toNat < 0x110000 := c.valid
  omega

/-- Where the standard decoder replaces nothing, `fromUTF8` agrees with it. -/
theorem fromUTF8_wellFormed {bytes : Bytes} (h : Utf8.WellFormed bytes) :
    fromUTF8 bytes = .ok (ofChars (Utf8.decode bytes)) := by
  obtain ⟨cs, rfl⟩ := h
  rw [Utf8.decode_encode]
  exact fromUTF8_rfc3629 cs

/-- What the decoder owes on the encoding of the scalar values `cs`. -/
structure DecodesUTF8 (cs : List Char) : Prop where
  fromUTF8_eq : fromUTF8 (rfc3629 cs) = .ok (ofChars cs)
  /-- Every turn reads a character and advances by the length of its form. -/
  turns_eq : turns (rfc3629 cs)
    = cs.map fun c => (.ok c.toNat, (String.utf8EncodeChar c).length)

/-- **The decoder is right on all well-formed input.** -/
theorem decodes_utf8 (cs : List Char) : DecodesUTF8 cs where
  fromUTF8_eq := fromUTF8_rfc3629 cs
  turns_eq := turns_rfc3629 cs

end NoJs.Buffer
