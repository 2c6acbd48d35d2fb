/-
  NoJs.Buffer.Strictness

  What the decoder of `libs/buffer/index.js` accepts.

  `fromUTF8` looks at the leading ones of a lead byte and leaves the range of the
  code point to `String.fromCodePoint`; nothing looks at the bytes behind a lead
  byte.  So the forms it reads are the tagged ones, up to six bytes long and with
  the overlong forms and the surrogates, and `toUTF8` relies on that: its own
  six-byte forms are overlong, and a lone surrogate has a form like any other.

  Where the array is made of complete forms the decoder is exact about them, and
  on well-formed UTF-8 it is injective.  Behind the last complete form there may
  be a stray continuation byte or an unfinished form, of which nothing is said.
-/

import NoJs.Buffer.Decode

namespace NoJs.Buffer

open Utf16 Utf8

/-! ## Indices -/

/-- The indices that turns from `i` on read, if none of them throws. -/
def readsFrom (i : Nat) : List (Except Thrown Nat × Nat) → List Nat
  | [] => []
  | (_, byteLen) :: rest => (List.range byteLen).map (i + ·) ++ readsFrom (i + byteLen) rest

/-- The indices `fromUTF8` reads on its way to a result. -/
def reads (bytes : Bytes) : List Nat := readsFrom 0 (turns bytes)

theorem readsFrom_taggedSeq {codes : List Nat} {bytes : Bytes} (h : TaggedSeq codes bytes) :
    ∀ start, ∀ i ∈ readsFrom start (turns bytes), i < start + bytes.length := by
  induction h with
  | nil => simp [turns, readsFrom]
  | @cons code codes bytes rest h hrest ih =>
      intro start i hi
      rw [turns_tagged h, readsFrom, List.mem_append] at hi
      rw [List.length_append]
      rcases hi with hi | hi
      · obtain ⟨k, hk, rfl⟩ := List.mem_map.mp hi
        have hlt := List.mem_range.mp hk
        omega
      · have hlt := ih _ i hi
        omega

/-! ## What is accepted -/

/-- Seven and eight leading ones are counted as such. -/
theorem countByte_invalid {byte : UInt8} (h : 0xFE ≤ byte.toNat) : 7 ≤ countByte byte := by
  have hlt := byte.toNat_lt
  by_cases hseven : byte.toNat < 255
  · have hcount : countByte byte = 7 :=
      countByte_ones (by omega) (show 254 ≤ byte.toNat by omega) (show byte.toNat < 255 by omega)
    omega
  · have hshift := toNat_shiftLeft_one byte
    have hloop : countLoop byte 0 = 8 := by
      rw [countLoop_next (by omega)]
      exact countLoop_ones (n := 7) (by omega) 1 (show 254 ≤ (byte <<< 1).toNat by omega)
        (show (byte <<< 1).toNat < 255 by omega)
    simp only [countByte, hloop]
    decide

/-- No form begins with them. -/
theorem fromUTF8_invalid {byte : UInt8} (h : 0xFE ≤ byte.toNat) (bytes : Bytes) :
    fromUTF8 (byte :: bytes) = .error (.Error "invalid byte") := by
  have hcount := countByte_invalid h
  have hcode : readCode (byte :: bytes) (countByte byte) = .error (.Error "invalid byte") := by
    rw [readCode.eq_def]
    split <;> first | rfl | omega
  rw [fromUTF8]
  simp only [hcode]
  rfl

/-- What may follow the last complete form. -/
structure Unfinished (bytes : Bytes) : Prop where
  lead : ∃ byte ∈ bytes.head?, byte.toNat < 0xFE
  incomplete : ∀ code front, Tagged code front → ¬ front <+: bytes

/-- What holds of the decoder on the array `bytes`. -/
structure Decodes (bytes : Bytes) : Prop where
  /-- A string is returned only for complete forms of code points and what may follow
  them, and it is that of the code points as far as they go. -/
  accepted : ∀ str, fromUTF8 bytes = .ok str → ∃ codes front back, bytes = front ++ back ∧
    TaggedSeq codes front ∧ (∀ c ∈ codes, c ≤ 0x10FFFF) ∧ ofCodePoints codes <+: str ∧
    (back = [] ∨ Unfinished back)
  complete : ∀ codes, TaggedSeq codes bytes → ∀ str,
    fromUTF8 bytes = .ok str ↔ (∀ c ∈ codes, c ≤ 0x10FFFF) ∧ str = ofCodePoints codes
  /-- No index past the end is read on complete forms. -/
  inside : ∀ codes, TaggedSeq codes bytes → ∀ i ∈ reads bytes, i < bytes.length
  injective : Utf8.WellFormed bytes → ∀ other, Utf8.WellFormed other →
    fromUTF8 other = fromUTF8 bytes → other = bytes

theorem accepted {bytes : Bytes} {str : Str} (h : fromUTF8 bytes = .ok str) :
    ∃ codes front back, bytes = front ++ back ∧ TaggedSeq codes front ∧
      (∀ c ∈ codes, c ≤ 0x10FFFF) ∧ ofCodePoints codes <+: str ∧ (back = [] ∨ Unfinished back) := by
  induction hlength : bytes.length using Nat.strongRecOn generalizing bytes str with
  | _ n ih =>
    cases bytes with
    | nil => exact ⟨[], [], [], rfl, .nil, by simp, List.nil_prefix, Or.inl rfl⟩
    | cons byte bytes =>
        by_cases hform : ∃ code front rest, Tagged code front ∧ byte :: bytes = front ++ rest
        · -- a complete form, and on from there
          obtain ⟨code, front, rest, htagged, heq⟩ := hform
          have hpos := List.length_pos_iff.mpr htagged.ne_nil
          have hsum := congrArg List.length heq
          rw [List.length_append] at hsum
          rw [heq, fromUTF8_tagged_iff htagged] at h
          obtain ⟨hrange, chars, hchars, rfl⟩ := h
          obtain ⟨codes, front', back, rfl, hfront, hcodes, hprefix, hback⟩ :=
            ih rest.length (by omega) hchars rfl
          refine ⟨code :: codes, front ++ front', back, ?_, .cons htagged hfront,
            List.forall_mem_cons.mpr ⟨hrange, hcodes⟩, ?_, hback⟩
          · rw [heq, List.append_assoc]
          · rw [ofCodePoints_cons]
            exact (List.prefix_append_right_inj _).mpr hprefix
        · refine ⟨[], [], byte :: bytes, rfl, .nil, by simp, List.nil_prefix, Or.inr ⟨?_, ?_⟩⟩
          · refine ⟨byte, rfl, ?_⟩
            by_contra hinvalid
            rw [fromUTF8_invalid (by omega)] at h
            exact absurd h (by simp)
          · rintro code front htagged ⟨rest, heq⟩
            exact hform ⟨code, front, rest, htagged, heq.symm⟩

/-- **The decoder accepts complete forms** of code points, and is exact on them. -/
theorem decodes_forms (bytes : Bytes) : Decodes bytes where
  accepted _ := accepted
  complete _ h := fromUTF8_taggedSeq h
  inside codes h i hi := Nat.zero_add bytes.length ▸ readsFrom_taggedSeq h 0 i hi
  injective := by
    rintro ⟨cs, rfl⟩ other ⟨ds, rfl⟩ heq
    have hcs : fromUTF8 (encode cs) = .ok (ofChars cs) := fromUTF8_rfc3629 cs
    have hds : fromUTF8 (encode ds) = .ok (ofChars ds) := fromUTF8_rfc3629 ds
    rw [hcs, hds] at heq
    rw [ofChars_inj.mp (Except.ok.inj heq)]

/-- U+007F as `toUTF8` encodes it. -/
def encodedDelete : Bytes := [0xFC, 0x80, 0x80, 0x80, 0x81, 0xBF]

/-- Its six bytes are accepted, they are no UTF-8, and its UTF-8 decodes to the same
string. -/
theorem delete_accepted :
    fromUTF8 encodedDelete = .ok [0x7F] ∧ ¬ Utf8.WellFormed encodedDelete ∧
      fromUTF8 [0x7F] = .ok [0x7F] := by
  refine ⟨?_, ?_, ?_⟩
  · have hform : Tagged 0x7F encodedDelete := tagged_codeBytes (by decide)
    exact (fromUTF8_taggedSeq (.cons hform .nil) _).mpr ⟨by decide, rfl⟩
  · rintro ⟨cs, hcs⟩
    have hdecode := decode_encode cs
    rw [← hcs] at hdecode
    rw [← hdecode] at hcs
    exact absurd hcs (by decide)
  · have hform : Tagged 0x7F [0x7F] := .ascii 0x7F (by decide)
    exact (fromUTF8_taggedSeq (.cons hform .nil) _).mpr ⟨by decide, rfl⟩

end NoJs.Buffer
