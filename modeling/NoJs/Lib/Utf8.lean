/-
  NoJs.Lib.Utf8

  UTF-8 and its decoder with replacement: an ill-formed sequence gives one
  U+FFFD for each of its maximal subparts, and one where the input ends inside a
  sequence.

  The decoder is a machine that keeps the unfinished sequence it is in.  Cutting
  an input and decoding its parts can only add characters (`length_run_le`), and
  it adds one wherever a character is cut, so the parts of a well-formed input
  decode to its characters exactly when each is well-formed
  (`decode_fragments_iff`).
-/

import NoJs.Lib.Utf16
import Mathlib.Tactic.Ring

namespace Utf8

open Utf16

/-! ## Encoding -/

/-- The encoding of a sequence of scalar values. -/
def encode (cs : List Char) : List UInt8 := cs.flatMap String.utf8EncodeChar

def WellFormed (bytes : List UInt8) : Prop := ∃ cs, bytes = encode cs

@[simp] theorem encode_nil : encode [] = [] := rfl

@[simp] theorem encode_cons (c : Char) (cs : List Char) :
    encode (c :: cs) = String.utf8EncodeChar c ++ encode cs := rfl

/-- The bytes of a character, by the length of its form. -/
inductive Form (c : Char) : List UInt8 → Prop where
  | one (a : UInt8) (h : c.toNat ≤ 0x7F) (ha : a.toNat = c.toNat) : Form c [a]
  | two (a b : UInt8) (h : 0x80 ≤ c.toNat ∧ c.toNat ≤ 0x7FF)
      (ha : a.toNat = c.toNat / 64 + 0xC0) (hb : b.toNat = c.toNat % 64 + 0x80) : Form c [a, b]
  | three (a b d : UInt8)
      (h : 0x800 ≤ c.toNat ∧ c.toNat ≤ 0xFFFF ∧ (c.toNat < 0xD800 ∨ 0xDFFF < c.toNat))
      (ha : a.toNat = c.toNat / 4096 + 0xE0) (hb : b.toNat = c.toNat / 64 % 64 + 0x80)
      (hd : d.toNat = c.toNat % 64 + 0x80) : Form c [a, b, d]
  | four (a b d e : UInt8) (h : 0x10000 ≤ c.toNat ∧ c.toNat < 0x110000)
      (ha : a.toNat = c.toNat / 262144 + 0xF0) (hb : b.toNat = c.toNat / 4096 % 64 + 0x80)
      (hd : d.toNat = c.toNat / 64 % 64 + 0x80) (he : e.toNat = c.toNat % 64 + 0x80) :
      Form c [a, b, d, e]

theorem toNat_byte {n : Nat} (h : n < 256) : (UInt8.ofNat n).toNat = n :=
  UInt8.toNat_ofNat_of_lt h

theorem form (c : Char) : Form c (String.utf8EncodeChar c) := by
  have hvalid : c.toNat < 0xD800 ∨ 0xDFFF < c.toNat ∧ c.toNat < 0x110000 := c.valid
  have hval : c.val.toNat = c.toNat := rfl
  rw [String.utf8EncodeChar, hval]
  split
  · next h => exact .one _ h (toNat_byte (by omega))
  split
  · next h => exact .two _ _ (by omega) ((toNat_byte (by omega)).trans (by omega)) (toNat_byte (by omega))
  split
  · next h =>
    exact .three _ _ _ (by omega) ((toNat_byte (by omega)).trans (by omega)) (toNat_byte (by omega))
      (toNat_byte (by omega))
  · exact .four _ _ _ _ (by omega) ((toNat_byte (by omega)).trans (by omega)) (toNat_byte (by omega))
      (toNat_byte (by omega)) (toNat_byte (by omega))

/-- Behind its first byte a character has continuation bytes only. -/
theorem Form.tail {c : Char} {bytes : List UInt8} (h : Form c bytes) :
    ∀ b ∈ bytes.tail, 0x80 ≤ b.toNat ∧ b.toNat ≤ 0xBF := by
  cases h <;> simp <;> omega

/-! ## Sequences by their tags -/

/-- The bits of continuation bytes behind those of a lead byte. -/
def joinTail (lead : Nat) (tail : List UInt8) : Nat :=
  tail.foldl (fun code b => code * 64 + b.toNat % 64) lead

/-- A code point in a form of up to six bytes: a lead byte, and as many continuation
bytes as its leading ones announce.  Overlong forms and surrogates are among these. -/
inductive Tagged : Nat → List UInt8 → Prop where
  | ascii (a : UInt8) (h : a.toNat < 0x80) : Tagged a.toNat [a]
  | multi (a : UInt8) (tail : List UInt8) (hlength : 0 < tail.length ∧ tail.length ≤ 5)
      (hlead : 256 - 2 ^ (7 - tail.length) ≤ a.toNat ∧ a.toNat < 256 - 2 ^ (6 - tail.length))
      (htail : ∀ b ∈ tail, 0x80 ≤ b.toNat ∧ b.toNat ≤ 0xBF) :
      Tagged (joinTail (a.toNat % 2 ^ (6 - tail.length)) tail) (a :: tail)

/-- Complete forms one behind the other, with their code points. -/
inductive TaggedSeq : List Nat → List UInt8 → Prop where
  | nil : TaggedSeq [] []
  | cons {code : Nat} {codes : List Nat} {bytes rest : List UInt8} (h : Tagged code bytes)
      (hrest : TaggedSeq codes rest) : TaggedSeq (code :: codes) (bytes ++ rest)

theorem Tagged.of_join {code : Nat} {a : UInt8} {tail : List UInt8}
    (hlength : 0 < tail.length ∧ tail.length ≤ 5)
    (hlead : 256 - 2 ^ (7 - tail.length) ≤ a.toNat ∧ a.toNat < 256 - 2 ^ (6 - tail.length))
    (htail : ∀ b ∈ tail, 0x80 ≤ b.toNat ∧ b.toNat ≤ 0xBF)
    (hcode : joinTail (a.toNat % 2 ^ (6 - tail.length)) tail = code) : Tagged code (a :: tail) :=
  hcode ▸ .multi a tail hlength hlead htail

theorem Tagged.ne_nil {code : Nat} {bytes : List UInt8} (h : Tagged code bytes) : bytes ≠ [] := by
  cases h <;> simp

/-- The continuation bytes of the low `6 * n` bits. -/
def tailOf (c : Nat) : Nat → List UInt8
  | 0 => []
  | n + 1 => UInt8.ofNat (c / 64 ^ n % 64 + 0x80) :: tailOf c n

theorem length_tailOf (c n : Nat) : (tailOf c n).length = n := by
  induction n with
  | zero => rfl
  | succ n ih => rw [tailOf, List.length_cons, ih]

theorem mem_tailOf {c n : Nat} {b : UInt8} (hb : b ∈ tailOf c n) :
    0x80 ≤ b.toNat ∧ b.toNat ≤ 0xBF := by
  induction n with
  | zero => exact absurd hb List.not_mem_nil
  | succ n ih =>
      rcases List.mem_cons.mp hb with rfl | hb
      · rw [toNat_byte (by omega)]
        omega
      · exact ih hb

theorem joinTail_tailOf (lead c n : Nat) :
    joinTail lead (tailOf c n) = lead * 64 ^ n + c % 64 ^ n := by
  induction n generalizing lead with
  | zero => simp [joinTail, tailOf, Nat.mod_one]
  | succ n ih =>
      have hbyte : (UInt8.ofNat (c / 64 ^ n % 64 + 0x80)).toNat % 64 = c / 64 ^ n % 64 := by
        rw [toNat_byte (by omega)]
        omega
      have hcons : joinTail lead (tailOf c (n + 1))
          = joinTail (lead * 64 + (UInt8.ofNat (c / 64 ^ n % 64 + 0x80)).toNat % 64) (tailOf c n) :=
        rfl
      rw [hcons, ih, hbyte, Nat.mod_pow_succ, Nat.pow_succ]
      ring

/-- The form of `n + 1` bytes of a code point. -/
theorem tagged_tailOf {c n : Nat} (hn : 0 < n ∧ n ≤ 5) (hc : c < 2 ^ (6 - n) * 64 ^ n) :
    Tagged c (UInt8.ofNat (c / 64 ^ n + (256 - 2 ^ (7 - n))) :: tailOf c n) := by
  have hparts : c / 64 ^ n * 64 ^ n + c % 64 ^ n = c := Nat.div_add_mod' c (64 ^ n)
  have hbits : c / 64 ^ n < 2 ^ (6 - n) := Nat.div_lt_of_lt_mul (by rwa [Nat.mul_comm])
  have hlength := length_tailOf c n
  have hjoin := joinTail_tailOf (c / 64 ^ n) c n
  rw [hparts] at hjoin
  generalize c / 64 ^ n = top at hbits hjoin
  -- the tag of the lead byte is a multiple of what its bits can hold
  obtain ⟨tag, htag⟩ : 2 ^ (6 - n) ∣ 256 - 2 ^ (7 - n) := by
    refine Nat.dvd_sub (Nat.pow_dvd_pow 2 (show 6 - n ≤ 8 by omega)) ?_
    exact Nat.pow_dvd_pow 2 (by omega)
  have hseven : 2 ^ (7 - n) = 2 * 2 ^ (6 - n) := by
    rw [← Nat.pow_succ', show (6 - n).succ = 7 - n by omega]
  have hle : 2 ^ (6 - n) ≤ 2 ^ 5 := Nat.pow_le_pow_right (by omega) (by omega)
  have hlead : (UInt8.ofNat (top + (256 - 2 ^ (7 - n)))).toNat = top + (256 - 2 ^ (7 - n)) :=
    toNat_byte (by omega)
  refine .of_join (by omega) ?_ (fun b => mem_tailOf) ?_
  · rw [hlength, hlead]
    omega
  · rw [hlength, hlead, htag, Nat.add_mul_mod_self_left, Nat.mod_eq_of_lt hbits]
    exact hjoin

/-- The four forms of UTF-8 are tagged. -/
theorem Form.tagged {c : Char} {bytes : List UInt8} (h : Form c bytes) : Tagged c.toNat bytes := by
  have htail := h.tail
  cases h with
  | one a h ha => exact ha ▸ .ascii a (by omega)
  | two a b h ha hb =>
      refine .of_join (by simp) (by simp; omega) htail ?_
      show a.toNat % 32 * 64 + b.toNat % 64 = c.toNat
      omega
  | three a b d h ha hb hd =>
      refine .of_join (by simp) (by simp; omega) htail ?_
      show (a.toNat % 16 * 64 + b.toNat % 64) * 64 + d.toNat % 64 = c.toNat
      omega
  | four a b d e h ha hb hd he =>
      refine .of_join (by simp) (by simp; omega) htail ?_
      show ((a.toNat % 8 * 64 + b.toNat % 64) * 64 + d.toNat % 64) * 64 + e.toNat % 64 = c.toNat
      omega

theorem taggedSeq_encode (cs : List Char) : TaggedSeq (cs.map Char.toNat) (encode cs) := by
  induction cs with
  | nil => exact .nil
  | cons c cs ih => exact .cons (form c).tagged ih

/-- No form begins another, and none has two readings. -/
theorem Tagged.unique {c d : Nat} {front front' back back' : List UInt8} (h : Tagged c front)
    (h' : Tagged d front') (heq : front ++ back = front' ++ back') :
    c = d ∧ front = front' ∧ back = back' := by
  cases h with
  | ascii a ha =>
      cases h' with
      | ascii a' ha' =>
          obtain ⟨rfl, hback⟩ := List.cons_eq_cons.mp heq
          exact ⟨rfl, rfl, hback⟩
      | multi a' tail hlength hlead =>
          -- the lead byte of a longer form has its top bit set
          obtain ⟨rfl, -⟩ := List.cons_eq_cons.mp heq
          have hpow : 2 ^ (7 - tail.length) ≤ 2 ^ 6 := Nat.pow_le_pow_right (by omega) (by omega)
          omega
  | multi a tail hlength hlead =>
      cases h' with
      | ascii a' ha' =>
          obtain ⟨rfl, -⟩ := List.cons_eq_cons.mp heq
          have hpow : 2 ^ (7 - tail.length) ≤ 2 ^ 6 := Nat.pow_le_pow_right (by omega) (by omega)
          omega
      | multi a' tail' hlength' hlead' =>
          obtain ⟨rfl, hrest⟩ := List.cons_eq_cons.mp heq
          -- the lead byte tells how many bytes follow
          have hsame : tail.length = tail'.length := by
            rcases Nat.lt_trichotomy tail.length tail'.length with hlt | heq | hlt
            · have hpow : 2 ^ (7 - tail'.length) ≤ 2 ^ (6 - tail.length) :=
                Nat.pow_le_pow_right (by omega) (by omega)
              omega
            · exact heq
            · have hpow : 2 ^ (7 - tail.length) ≤ 2 ^ (6 - tail'.length) :=
                Nat.pow_le_pow_right (by omega) (by omega)
              omega
          obtain ⟨rfl, hback⟩ := List.append_inj hrest hsame
          exact ⟨rfl, rfl, hback⟩

/-- A sequence of forms has one reading. -/
theorem TaggedSeq.unique {codes codes' : List Nat} {bytes : List UInt8} (h : TaggedSeq codes bytes)
    (h' : TaggedSeq codes' bytes) : codes = codes' := by
  induction h generalizing codes' with
  | nil =>
      generalize hnil : ([] : List UInt8) = bytes at h'
      cases h' with
      | nil => rfl
      | cons hform hrest => exact absurd (List.append_eq_nil_iff.mp hnil.symm).1 hform.ne_nil
  | @cons code codes front rest hform hrest ih =>
      generalize hbytes : front ++ rest = bytes at h'
      cases h' with
      | nil => exact absurd (List.append_eq_nil_iff.mp hbytes).1 hform.ne_nil
      | cons hform' hrest' =>
          obtain ⟨rfl, rfl, rfl⟩ := hform.unique hform' hbytes
          rw [ih hrest']

/-! ## Code points that may be surrogates -/

/-- The bytes of a code point: those of UTF-8, and three for a surrogate. -/
def encodeCode (c : Nat) : List UInt8 :=
  if c < 0x80 then [UInt8.ofNat c]
  else if c < 0x800 then UInt8.ofNat (c / 64 + 0xC0) :: tailOf c 1
  else if c < 0x10000 then UInt8.ofNat (c / 4096 + 0xE0) :: tailOf c 2
  else UInt8.ofNat (c / 262144 + 0xF0) :: tailOf c 3

def encodeCodes (cs : List Nat) : List UInt8 := cs.flatMap encodeCode

theorem tagged_encodeCode {c : Nat} (h : c < 0x110000) : Tagged c (encodeCode c) := by
  rw [encodeCode]
  split
  · next hlt =>
    have hbyte : (UInt8.ofNat c).toNat = c := toNat_byte (by omega)
    have hascii := Tagged.ascii (UInt8.ofNat c) (by omega)
    rwa [hbyte] at hascii
  split
  · exact tagged_tailOf (n := 1) (by omega) (by omega)
  split
  · exact tagged_tailOf (n := 2) (by omega) (by omega)
  · exact tagged_tailOf (n := 3) (by omega) (by omega)

theorem taggedSeq_encodeCodes {cs : List Nat} (h : ∀ c ∈ cs, c < 0x110000) :
    TaggedSeq cs (encodeCodes cs) := by
  induction cs with
  | nil => exact .nil
  | cons c cs ih =>
      obtain ⟨hc, hcs⟩ := List.forall_mem_cons.mp h
      exact .cons (tagged_encodeCode hc) (ih hcs)

theorem encodeCodes_inj {cs ds : List Nat} (hcs : ∀ c ∈ cs, c < 0x110000)
    (hds : ∀ d ∈ ds, d < 0x110000) (h : encodeCodes cs = encodeCodes ds) : cs = ds :=
  (taggedSeq_encodeCodes hcs).unique (h ▸ taggedSeq_encodeCodes hds)

/-- A byte of a form that is below 128 is the code point itself. -/
theorem Tagged.ascii_of_mem {c : Nat} {bytes : List UInt8} (h : Tagged c bytes) {b : UInt8}
    (hb : b ∈ bytes) (hlt : b.toNat < 0x80) : c = b.toNat := by
  cases h with
  | ascii a ha => rw [List.mem_singleton.mp hb]
  | multi a tail hlength hlead htail =>
      rcases List.mem_cons.mp hb with rfl | hb
      · have hpow : 2 ^ (7 - tail.length) ≤ 2 ^ 6 := Nat.pow_le_pow_right (by omega) (by omega)
        omega
      · have hrange := htail b hb
        omega

theorem mem_of_mem_encodeCodes {cs : List Nat} (h : ∀ c ∈ cs, c < 0x110000) {b : UInt8}
    (hb : b ∈ encodeCodes cs) (hlt : b.toNat < 0x80) : b.toNat ∈ cs := by
  obtain ⟨c, hc, hmem⟩ := List.mem_flatMap.mp hb
  exact (tagged_encodeCode (h c hc)).ascii_of_mem hmem hlt ▸ hc

theorem encodeCode_toNat (c : Char) : encodeCode c.toNat = String.utf8EncodeChar c := by
  have hform := form c
  generalize String.utf8EncodeChar c = bytes at hform
  have hbyte : ∀ {n : Nat} {b : UInt8}, b.toNat = n → UInt8.ofNat n = b := fun h => by
    rw [← h, UInt8.ofNat_toNat]
  cases hform with
  | one a h ha => rw [encodeCode, if_pos (by omega), hbyte ha]
  | two a b h ha hb =>
      rw [encodeCode, if_neg (by omega), if_pos (by omega), hbyte ha]
      simp [tailOf, hbyte hb]
  | three a b d h ha hb hd =>
      rw [encodeCode, if_neg (by omega), if_neg (by omega), if_pos (by omega), hbyte ha]
      simp [tailOf, hbyte hb, hbyte hd]
  | four a b d e h ha hb hd he =>
      rw [encodeCode, if_neg (by omega), if_neg (by omega), if_neg (by omega), hbyte ha]
      simp [tailOf, hbyte hb, hbyte hd, hbyte he]

/-- On scalar values this is UTF-8. -/
theorem encodeCodes_map_toNat (cs : List Char) : encodeCodes (cs.map Char.toNat) = encode cs := by
  rw [encodeCodes, List.flatMap_map, encode]
  exact congrArg (cs.flatMap ·) (funext encodeCode_toNat)

/-! ## Decoding -/

/-- An unfinished sequence: its bits so far, the number of bytes that are missing,
and the range of the next one. -/
structure Pending where
  code : Nat
  needed : Nat
  lower : Nat
  upper : Nat
  continuation : 0x80 ≤ lower ∧ upper ≤ 0xBF
  deriving DecidableEq, Repr

/-- A byte between two sequences. -/
def lead (b : UInt8) : List Char × Option Pending :=
  let n := b.toNat
  if n ≤ 0x7F then ([Char.ofNat n], none)
  else if 0xC2 ≤ n ∧ n ≤ 0xDF then
    ([], some { code := n - 0xC0, needed := 1, lower := 0x80, upper := 0xBF
                continuation := by omega })
  else if 0xE0 ≤ n ∧ n ≤ 0xEF then
    ([], some { code := n - 0xE0, needed := 2
                lower := if n = 0xE0 then 0xA0 else 0x80
                upper := if n = 0xED then 0x9F else 0xBF
                continuation := by constructor <;> split <;> omega })
  else if 0xF0 ≤ n ∧ n ≤ 0xF4 then
    ([], some { code := n - 0xF0, needed := 3
                lower := if n = 0xF0 then 0x90 else 0x80
                upper := if n = 0xF4 then 0x8F else 0xBF
                continuation := by constructor <;> split <;> omega })
  else ([replacement], none)

/-- The next byte, and the characters it completes.  One that cannot go on with the
sequence ends it and is read again. -/
def next : Option Pending → UInt8 → List Char × Option Pending
  | none, b => lead b
  | some p, b =>
      if p.lower ≤ b.toNat ∧ b.toNat ≤ p.upper then
        let code := p.code * 64 + (b.toNat - 0x80)
        if p.needed = 1 then ([Char.ofNat code], none)
        else ([], some { code, needed := p.needed - 1, lower := 0x80, upper := 0xBF
                         continuation := by omega })
      else (replacement :: (lead b).1, (lead b).2)

/-- The end of the input. -/
def flush : Option Pending → List Char
  | none => []
  | some _ => [replacement]

def run : Option Pending → List UInt8 → List Char
  | q, [] => flush q
  | q, b :: bytes => (next q b).1 ++ run (next q b).2 bytes

/-- The characters of a byte sequence. -/
def decode (bytes : List UInt8) : List Char := run none bytes

theorem lead_ascii {b : UInt8} (h : b.toNat ≤ 0x7F) : lead b = ([Char.ofNat b.toNat], none) :=
  if_pos h

theorem lead_continuation {b : UInt8} (h : 0x80 ≤ b.toNat ∧ b.toNat ≤ 0xBF) :
    lead b = ([replacement], none) := by
  simp only [lead]
  rw [if_neg (by omega), if_neg (by omega), if_neg (by omega), if_neg (by omega)]

/-- A byte below 128 ends what was begun. -/
theorem next_ascii (q : Option Pending) {b : UInt8} (h : b.toNat ≤ 0x7F) :
    next q b = (flush q ++ [Char.ofNat b.toNat], none) := by
  cases q with
  | none => exact lead_ascii h
  | some p =>
      have hlower := p.continuation.1
      rw [next, if_neg (by omega), lead_ascii h]
      rfl

/-- Decoding goes on from an ASCII byte as from the beginning. -/
theorem decode_append_ascii (front : List UInt8) {b : UInt8} (h : b.toNat ≤ 0x7F)
    (back : List UInt8) :
    decode (front ++ b :: back) = decode front ++ Char.ofNat b.toNat :: decode back := by
  have hrun : ∀ q, run q (front ++ b :: back) = run q front ++ Char.ofNat b.toNat :: decode back := by
    induction front with
    | nil =>
        intro q
        rw [List.nil_append, run, run, next_ascii q h, List.append_assoc]
        rfl
    | cons a front ih =>
        intro q
        rw [List.cons_append, run, ih, run, List.append_assoc]
  exact hrun none

/-! ## Decoding what was encoded -/

/-- A sequence goes on. -/
theorem next_more {p : Pending} {b : UInt8} (hb : p.lower ≤ b.toNat ∧ b.toNat ≤ p.upper)
    (hneeded : p.needed ≠ 1) :
    next (some p) b
      = ([], some ⟨p.code * 64 + (b.toNat - 0x80), p.needed - 1, 0x80, 0xBF, by omega⟩) := by
  rw [next, if_pos hb]
  exact if_neg hneeded

/-- A sequence is complete. -/
theorem next_last {p : Pending} {b : UInt8} (hb : p.lower ≤ b.toNat ∧ b.toNat ≤ p.upper)
    (hneeded : p.needed = 1) :
    next (some p) b = ([Char.ofNat (p.code * 64 + (b.toNat - 0x80))], none) := by
  rw [next, if_pos hb]
  exact if_pos hneeded

theorem run_form {c : Char} {bytes : List UInt8} (h : Form c bytes) (rest : List UInt8) :
    run none (bytes ++ rest) = c :: run none rest := by
  have hchar : Char.ofNat c.toNat = c := Char.ofNat_toNat c
  cases h with
  | one a h ha =>
      rw [List.singleton_append, run, next_ascii none (by omega), ha, hchar]
      rfl
  | two a b h ha hb =>
      have hlead : lead a = ([], some ⟨a.toNat - 0xC0, 1, 0x80, 0xBF, by omega⟩) := by
        simp only [lead]
        rw [if_neg (by omega), if_pos (by omega)]
      have hcode : (a.toNat - 0xC0) * 64 + (b.toNat - 0x80) = c.toNat := by omega
      rw [List.cons_append, List.singleton_append, run, next, hlead, run,
        next_last (by simp only; omega) rfl, hcode, hchar]
      rfl
  | three a b d h ha hb hd =>
      have hlead : lead a = ([], some ⟨a.toNat - 0xE0, 2, if a.toNat = 0xE0 then 0xA0 else 0x80,
          if a.toNat = 0xED then 0x9F else 0xBF, by constructor <;> split <;> omega⟩) := by
        simp only [lead]
        rw [if_neg (by omega), if_neg (by omega), if_pos (by omega)]
      -- the narrower ranges leave out the overlong forms and the surrogates
      have hrange : (if a.toNat = 0xE0 then 0xA0 else 0x80) ≤ b.toNat
          ∧ b.toNat ≤ if a.toNat = 0xED then 0x9F else 0xBF := by
        constructor <;> split <;> omega
      have hcode : ((a.toNat - 0xE0) * 64 + (b.toNat - 0x80)) * 64 + (d.toNat - 0x80) = c.toNat := by
        omega
      rw [List.cons_append, List.cons_append, List.singleton_append, run, next, hlead, run,
        next_more hrange (by simp), run, next_last (by simp only; omega) rfl, hcode, hchar]
      rfl
  | four a b d e h ha hb hd he =>
      have hlead : lead a = ([], some ⟨a.toNat - 0xF0, 3, if a.toNat = 0xF0 then 0x90 else 0x80,
          if a.toNat = 0xF4 then 0x8F else 0xBF, by constructor <;> split <;> omega⟩) := by
        simp only [lead]
        rw [if_neg (by omega), if_neg (by omega), if_neg (by omega), if_pos (by omega)]
      have hrange : (if a.toNat = 0xF0 then 0x90 else 0x80) ≤ b.toNat
          ∧ b.toNat ≤ if a.toNat = 0xF4 then 0x8F else 0xBF := by
        constructor <;> split <;> omega
      have hcode : (((a.toNat - 0xF0) * 64 + (b.toNat - 0x80)) * 64 + (d.toNat - 0x80)) * 64
          + (e.toNat - 0x80) = c.toNat := by
        omega
      rw [List.cons_append, List.cons_append, List.cons_append, List.singleton_append, run, next,
        hlead, run, next_more hrange (by simp), run, next_more (by simp only; omega) (by simp), run,
        next_last (by simp only; omega) rfl, hcode, hchar]
      rfl

theorem run_encode_append (cs : List Char) (rest : List UInt8) :
    run none (encode cs ++ rest) = cs ++ run none rest := by
  induction cs with
  | nil => rfl
  | cons c cs ih => rw [encode_cons, List.append_assoc, run_form (form c), ih, List.cons_append]

/-- Every sequence of scalar values is read back from its encoding. -/
theorem decode_encode (cs : List Char) : decode (encode cs) = cs := by
  have h := run_encode_append cs []
  rw [List.append_nil] at h
  exact h.trans (List.append_nil cs)

theorem decode_append {bytes : List UInt8} (h : WellFormed bytes) (rest : List UInt8) :
    decode (bytes ++ rest) = decode bytes ++ decode rest := by
  obtain ⟨cs, rfl⟩ := h
  rw [decode_encode, decode, run_encode_append]
  rfl

/-! ## Decoding in parts -/

/-- A byte completes a character or is inside a sequence. -/
theorem next_ne_nil (q : Option Pending) (b : UInt8) : (next q b).1 ++ flush (next q b).2 ≠ [] := by
  have hlead : (lead b).1 ++ flush (lead b).2 ≠ [] := by
    simp only [lead]
    split_ifs <;> simp [flush]
  cases q with
  | none => exact hlead
  | some p =>
      rw [next]
      split
      · split <;> simp [flush]
      · simp

theorem decode_ne_nil {bytes : List UInt8} (h : bytes ≠ []) : decode bytes ≠ [] := by
  have hrun : ∀ (b : UInt8) (bytes : List UInt8) (q : Option Pending), run q (b :: bytes) ≠ [] := by
    intro b bytes
    induction bytes generalizing b with
    | nil => exact fun q => next_ne_nil q b
    | cons a bytes ih =>
        intro q hnil
        rw [run, List.append_eq_nil_iff] at hnil
        exact ih a (next q b).2 hnil.2
  cases bytes with
  | nil => exact absurd rfl h
  | cons b bytes => exact hrun b bytes none

theorem decode_continuation {b : UInt8} (h : 0x80 ≤ b.toNat ∧ b.toNat ≤ 0xBF)
    (bytes : List UInt8) : decode (b :: bytes) = replacement :: decode bytes := by
  rw [decode, run, next, lead_continuation h]
  rfl

/-- From the inside of a sequence there is at most one character more to come than
from the beginning. -/
theorem length_run_le (q : Option Pending) (bytes : List UInt8) :
    (run q bytes).length ≤ (flush q).length + (decode bytes).length := by
  induction bytes generalizing q with
  | nil => exact Nat.le_add_right _ _
  | cons b bytes ih =>
      cases q with
      | none => exact Nat.le_add_left _ _
      | some p =>
          obtain ⟨hlower, hupper⟩ := p.continuation
          by_cases hb : p.lower ≤ b.toNat ∧ b.toNat ≤ p.upper
          · have hmore := ih (next (some p) b).2
            -- the byte would be replaced at the beginning
            rw [decode_continuation (by omega), run, List.length_append, List.length_cons]
            by_cases hneeded : p.needed = 1
            · rw [next_last hb hneeded] at hmore ⊢
              simp only [flush, List.length_cons, List.length_nil] at hmore ⊢
              omega
            · rw [next_more hb hneeded] at hmore ⊢
              simp only [flush, List.length_cons, List.length_nil] at hmore ⊢
              omega
          · have hagain : run (some p) (b :: bytes) = replacement :: decode (b :: bytes) := by
              rw [run, next, if_neg hb]
              rfl
            rw [hagain, List.length_cons, flush, List.length_singleton]
            omega

theorem length_decode_append_le (front back : List UInt8) :
    (decode (front ++ back)).length ≤ (decode front).length + (decode back).length := by
  have hrun : ∀ q, (run q (front ++ back)).length ≤ (run q front).length + (decode back).length := by
    induction front with
    | nil => exact fun q => length_run_le q back
    | cons b front ih =>
        intro q
        have hfront := ih (next q b).2
        rw [List.cons_append, run, run, List.length_append, List.length_append]
        omega
  exact hrun none

theorem length_decode_flatten_le (parts : List (List UInt8)) :
    (decode parts.flatten).length ≤ (parts.flatMap decode).length := by
  induction parts with
  | nil => exact Nat.le_refl 0
  | cons part parts ih =>
      have happend := length_decode_append_le part parts.flatten
      rw [List.flatten_cons, List.flatMap_cons, List.length_append]
      omega

/-- A cut of an encoding lies between two characters or inside of one. -/
theorem encode_cut {cs : List Char} {front back : List UInt8} (h : encode cs = front ++ back) :
    (∃ ds es, cs = ds ++ es ∧ front = encode ds ∧ back = encode es) ∨
      ∃ ds c es p q, cs = ds ++ c :: es ∧ String.utf8EncodeChar c = p ++ q ∧ p ≠ [] ∧ q ≠ [] ∧
        front = encode ds ++ p ∧ back = q ++ encode es := by
  induction cs generalizing front with
  | nil =>
      obtain ⟨rfl, rfl⟩ := List.append_eq_nil_iff.mp h.symm
      exact Or.inl ⟨[], [], rfl, rfl, rfl⟩
  | cons c cs ih =>
      rw [encode_cons, List.append_eq_append_iff] at h
      rcases h with ⟨p, rfl, hrest⟩ | ⟨q, hchar, rfl⟩
      · -- behind this character
        rcases ih hrest with ⟨ds, es, rfl, rfl, rfl⟩ | ⟨ds, d, es, p', q, rfl, hd, hp, hq, rfl, rfl⟩
        · exact Or.inl ⟨c :: ds, es, rfl, rfl, rfl⟩
        · refine Or.inr ⟨c :: ds, d, es, p', q, rfl, hd, hp, hq, ?_, rfl⟩
          rw [encode_cons, List.append_assoc]
      · by_cases hq : q = []
        · subst hq
          rw [List.append_nil] at hchar
          exact Or.inl ⟨[c], cs, rfl, by rw [← hchar]; simp, rfl⟩
        by_cases hfront : front = []
        · subst hfront
          rw [List.nil_append] at hchar
          exact Or.inl ⟨[], c :: cs, rfl, rfl, by rw [encode_cons, hchar]⟩
        · exact Or.inr ⟨[], c, cs, front, q, rfl, hchar, hfront, hq, rfl, rfl⟩

/-- What follows a cut inside a character begins with a continuation byte. -/
theorem length_decode_cut {c : Char} {p q : List UInt8} (hchar : String.utf8EncodeChar c = p ++ q)
    (hp : p ≠ []) (hq : q ≠ []) (rest : List UInt8) :
    (decode rest).length < (decode (q ++ rest)).length := by
  obtain ⟨a, p, rfl⟩ := List.exists_cons_of_ne_nil hp
  have htail : ∀ b ∈ q, 0x80 ≤ b.toNat ∧ b.toNat ≤ 0xBF := by
    intro b hb
    apply (form c).tail
    rw [hchar, List.cons_append, List.tail_cons]
    exact List.mem_append_right p hb
  have hrest : ∀ bytes : List UInt8, (∀ b ∈ bytes, 0x80 ≤ b.toNat ∧ b.toNat ≤ 0xBF) →
      (decode (bytes ++ rest)).length = bytes.length + (decode rest).length := by
    intro bytes hbytes
    induction bytes with
    | nil => exact (Nat.zero_add _).symm
    | cons b bytes ih =>
        obtain ⟨hb, hbytes⟩ := List.forall_mem_cons.mp hbytes
        rw [List.cons_append, decode_continuation hb, List.length_cons, ih hbytes, List.length_cons]
        omega
  have hpos := List.length_pos_iff.mpr hq
  rw [hrest q htail]
  omega

/-- The parts of an encoding decode to its characters exactly when no character is
cut. -/
theorem decode_fragments_iff {cs : List Char} {parts : List (List UInt8)}
    (h : parts.flatten = encode cs) :
    parts.flatMap decode = cs ↔ ∀ part ∈ parts, WellFormed part := by
  constructor
  · intro heq
    induction parts generalizing cs with
    | nil => exact fun part hpart => absurd hpart List.not_mem_nil
    | cons part parts ih =>
        rw [List.flatten_cons] at h
        rw [List.flatMap_cons] at heq
        rcases encode_cut h.symm with ⟨ds, es, rfl, rfl, hback⟩ | hcut
        · rw [decode_encode, List.append_cancel_left_eq] at heq
          exact List.forall_mem_cons.mpr ⟨⟨ds, rfl⟩, ih hback heq⟩
        · -- the character that is cut counts twice
          obtain ⟨ds, c, es, p, q, rfl, hchar, hp, hq, rfl, hback⟩ := hcut
          have hfront : (decode (encode ds ++ p)).length = ds.length + (decode p).length := by
            rw [decode_append ⟨ds, rfl⟩, decode_encode, List.length_append]
          have hpos := List.length_pos_iff.mpr (decode_ne_nil hp)
          have hrest := length_decode_flatten_le parts
          have hmore := length_decode_cut hchar hp hq (encode es)
          have hlength := congrArg List.length heq
          rw [hback] at hrest
          rw [decode_encode] at hmore
          rw [List.length_append, hfront, List.length_append, List.length_cons] at hlength
          omega
  · intro hparts
    have hall : ∀ parts : List (List UInt8), (∀ part ∈ parts, WellFormed part) →
        parts.flatMap decode = decode parts.flatten := by
      intro parts hparts
      induction parts with
      | nil => rfl
      | cons part parts ih =>
          obtain ⟨hpart, hparts⟩ := List.forall_mem_cons.mp hparts
          rw [List.flatMap_cons, List.flatten_cons, decode_append hpart, ih hparts]
    rw [hall parts hparts, h, decode_encode]

end Utf8
