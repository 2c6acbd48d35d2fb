/-
  NoJs.Http.Response

  What `HTTPResponse.end` of `libs/http/index.js` puts on the wire, against a
  reader that frames responses by their Content-length.

  The template separates the header block from the body by one CRLF too many and
  closes with two more.  A reader that accepts nothing but renderings has no place
  for these six bytes, so no connection that carries a response is read back
  (`framing_iff`).
-/

import NoJs.Lib.Http1
import NoJs.Buffer.Encode

namespace NoJs.Http

open Utf16 NoJs.Buffer

/-! ## HTTPResponse -/

/-- The string of an ASCII literal. -/
def lit (text : String) : Str := text.toList.map fun c => UInt16.ofNat c.toNat

/-- `${n}` -/
def number (n : Nat) : Str := (Nat.toDigits 10 n).map fun c => UInt16.ofNat c.toNat

/-- `\\r\\n` -/
def CRLF : Str := [13, 10]

/-- The own properties of an object, in the order of `Object.entries`. -/
abbrev Entries := List (Str × Str)

/-- `{ ...entries, [k]: v }`, for a `k` that is no array index. -/
def spread (entries : Entries) (k v : Str) : Entries :=
  if entries.any (·.1 = k) then entries.map fun entry => if entry.1 = k then (k, v) else entry
  else entries ++ [(k, v)]

/-- `class HTTPResponse`, with the header values as the strings they are printed
as. -/
structure HTTPResponse where
  statusCode : Nat := 200
  headers : Entries := [(lit "Server", lit "No.js")]
  deriving DecidableEq, Repr

namespace HTTPResponse

/-- `buildHeaders(headers)`. -/
def buildHeaders (headers : Entries) : Str :=
  headers.flatMap fun (k, v) => k ++ lit ":" ++ v ++ CRLF

def responseLine (res : HTTPResponse) : Str :=
  lit "HTTP/1.1 " ++ number res.statusCode ++ lit " OK"

/-- The `headers` of `end(data)`. -/
def endHeaders (res : HTTPResponse) (data : Str) : Entries :=
  spread res.headers (lit "Content-length") (number (strlen data))

/-- The text `end(data)` writes to the socket. -/
def end' (res : HTTPResponse) (data : Str) : Str :=
  let responseHeaders := buildHeaders (res.endHeaders data)
  res.responseLine ++ CRLF ++ responseHeaders ++ CRLF ++ CRLF ++ data ++ CRLF ++ CRLF

/-- `Socket.write` of that text: the bytes handed to `tcp.write`. -/
def written (res : HTTPResponse) (data : Str) : Bytes := from' (res.end' data)

/-! ## The message it stands for -/

def encodeEntry (entry : Str × Str) : Bytes × Bytes := (from' entry.1, from' entry.2)

/-- The response as a reader should obtain it. -/
def message (res : HTTPResponse) (data : Str) : Http1.Message where
  startLine := from' res.responseLine
  headers := (res.endHeaders data).map encodeEntry
  body := from' data

theorem from'_append_CRLF (s t : Str) : from' (s ++ CRLF ++ t) = from' s ++ Http1.crlf ++ from' t := by
  have hcut : s ++ CRLF ++ t = s ++ 13 :: 10 :: t := by simp [CRLF]
  rw [hcut, from'_append s (by decide), from'_cons (by decide), from'_cons (by decide),
    List.append_assoc]
  rfl

theorem from'_append_colon (s t : Str) : from' (s ++ lit ":" ++ t) = from' s ++ 58 :: from' t := by
  have hcut : s ++ lit ":" ++ t = s ++ 58 :: t := by
    rw [List.append_assoc]
    rfl
  rw [hcut, from'_append s (by decide), from'_cons (by decide)]
  rfl

theorem from'_buildHeaders_append (headers : Entries) (t : Str) :
    from' (buildHeaders headers ++ t)
      = Http1.headerLines (headers.map encodeEntry) ++ from' t := by
  induction headers with
  | nil => rfl
  | cons header headers ih =>
      obtain ⟨k, v⟩ := header
      have hcut : buildHeaders ((k, v) :: headers) ++ t
          = k ++ lit ":" ++ (v ++ CRLF ++ (buildHeaders headers ++ t)) := by
        simp [buildHeaders]
      rw [hcut, from'_append_colon, from'_append_CRLF, ih, List.map_cons, Http1.headerLines_cons,
        Http1.headerLine]
      simp [encodeEntry]

/-- The bytes of a response: the head, then the body between surplus line ends. -/
theorem written_eq (res : HTTPResponse) (data : Str) :
    res.written data
      = (res.message data).head ++ Http1.crlf ++ (res.message data).body ++ Http1.crlf
        ++ Http1.crlf := by
  -- each CRLF is a place where the text may be cut before it is encoded
  have hcut : res.end' data = res.responseLine ++ CRLF ++ (buildHeaders (res.endHeaders data)
      ++ ([] ++ CRLF ++ ([] ++ CRLF ++ (data ++ CRLF ++ ([] ++ CRLF ++ []))))) := by
    simp [end']
  have hnil : from' [] = [] := rfl
  rw [written, hcut, from'_append_CRLF, from'_buildHeaders_append, from'_append_CRLF,
    from'_append_CRLF, from'_append_CRLF, from'_append_CRLF, hnil]
  simp [Http1.Message.head, message]

/-- Six bytes too many. -/
theorem length_written (res : HTTPResponse) (data : Str) :
    (res.written data).length = (res.message data).render.length + 6 := by
  rw [written_eq, Http1.Message.render]
  simp [Http1.crlf]
  omega

/-! ## Headers and numbers -/

/-- An ASCII letter in lower case. -/
def lowerUnit (u : UInt16) : UInt16 := if 65 ≤ u.toNat ∧ u.toNat ≤ 90 then u + 32 else u

/-- The responses framing is about: a status with a body, names and values that
keep to their line, and no framing header of their own. -/
structure Allowed (res : HTTPResponse) : Prop where
  status : ¬ (100 ≤ res.statusCode ∧ res.statusCode < 200) ∧ res.statusCode ≠ 204
    ∧ res.statusCode ≠ 304
  name : ∀ entry ∈ res.headers, 58 ∉ entry.1 ∧ 13 ∉ entry.1 ∧ 10 ∉ entry.1
  value : ∀ entry ∈ res.headers, 13 ∉ entry.2 ∧ 10 ∉ entry.2
  unframed : ∀ entry ∈ res.headers, entry.1.map lowerUnit ≠ lit "content-length"
    ∧ entry.1.map lowerUnit ≠ lit "transfer-encoding"

theorem lowerUnit_eq {u : UInt16} (h : u.toNat < 128) :
    lowerUnit u = (Http1.lower (UInt8.ofNat u.toNat)).toUInt16 := by
  have hbyte : (UInt8.ofNat u.toNat).toNat = u.toNat :=
    UInt8.toNat_ofNat_of_lt (by rw [UInt8.size]; omega)
  rw [lowerUnit, Http1.lower, hbyte]
  split
  · rw [← UInt16.toNat_inj, UInt8.toNat_toUInt16, UInt16.toNat_add, UInt8.toNat_add, hbyte]
    show (u.toNat + 32) % 65536 = (u.toNat + 32) % 256
    omega
  · rw [← UInt16.toNat_inj, UInt8.toNat_toUInt16, hbyte]

/-- The name of a header is only that of Content-length if the entry's is. -/
theorem lower_from' {name : Str} (h : (from' name).map Http1.lower = Http1.contentLengthName) :
    name.map lowerUnit = lit "content-length" := by
  -- `lower` keeps a byte at or above 128, and the name of the header has none
  have hbytes : ∀ b ∈ from' name, b.toNat < 128 := by
    intro b hb
    have hmem : Http1.lower b ∈ Http1.contentLengthName := h ▸ List.mem_map_of_mem hb
    have hname : Http1.contentLengthName.all fun x => x.toNat < 128 := by decide
    have hlower := of_decide_eq_true (List.all_eq_true.mp hname _ hmem)
    rw [Http1.lower] at hlower
    split at hlower <;> omega
  have hascii := ascii_of_from' hbytes
  have hunits : name.map lowerUnit = ((from' name).map Http1.lower).map UInt8.toUInt16 := by
    rw [from'_ascii hascii, List.map_map, List.map_map]
    apply List.map_congr_left
    intro u hu
    obtain ⟨-, hlt⟩ := hascii u hu
    exact lowerUnit_eq (by omega)
  rw [hunits, h]
  decide

theorem toNat_digit {n : Nat} {c : Char} (h : c ∈ Nat.toDigits 10 n) :
    (UInt16.ofNat c.toNat).toNat = c.toNat := by
  have hbounds := Http1.digit_bounds h
  exact UInt16.toNat_ofNat_of_lt (by rw [UInt16.size]; omega)

theorem number_digits (n : Nat) : ∀ u ∈ number n, 48 ≤ u.toNat ∧ u.toNat ≤ 57 := by
  intro u hu
  obtain ⟨c, hc, rfl⟩ := List.mem_map.mp hu
  rw [toNat_digit hc]
  exact Http1.digit_bounds hc

theorem from'_number (n : Nat) : from' (number n) = Http1.decimal n := by
  have hascii : ∀ u ∈ number n, 0 < u.toNat ∧ u.toNat < 0x7F := by
    intro u hu
    have hdigit := number_digits n u hu
    omega
  rw [from'_ascii hascii, number, List.map_map, Http1.decimal]
  exact List.map_congr_left fun c hc => congrArg UInt8.ofNat (toNat_digit hc)

theorem cr_not_mem_from' {str : Str} (h : 13 ∉ str) : 13 ∉ from' str :=
  fun hmem => h (mem_of_mem_from' (b := 13) hmem (by decide))

theorem colon_not_mem_from' {str : Str} (h : 58 ∉ str) : 58 ∉ from' str :=
  fun hmem => h (mem_of_mem_from' (b := 58) hmem (by decide))

theorem cr_not_mem_number (n : Nat) : 13 ∉ number n :=
  fun hmem => absurd (number_digits n 13 hmem).1 (by decide)

theorem cr_not_mem_responseLine (res : HTTPResponse) : 13 ∉ res.responseLine := by
  intro hmem
  rcases List.mem_append.mp hmem with hmem | hmem
  · rcases List.mem_append.mp hmem with hmem | hmem
    · exact absurd hmem (by decide)
    · exact cr_not_mem_number res.statusCode hmem
  · exact absurd hmem (by decide)

/-! ## The round trip -/

/-- The reader obtains exactly the responses that were ended on the socket. -/
def RoundTrips (responses : List (HTTPResponse × Str)) : Prop :=
  Http1.read (responses.flatMap fun (res, data) => res.written data)
    = some (responses.map fun (res, data) => res.message data)

theorem length_written_all (responses : List (HTTPResponse × Str)) :
    (responses.flatMap fun (res, data) => res.written data).length
      = ((responses.map fun (res, data) => res.message data).flatMap Http1.Message.render).length
        + 6 * responses.length := by
  induction responses with
  | nil => rfl
  | cons response responses ih =>
      obtain ⟨res, data⟩ := response
      have hlength := length_written res data
      simp only [List.flatMap_cons, List.map_cons, List.length_append, List.length_cons, ih,
        hlength]
      omega

/-- The six bytes of a response have no place in any message. -/
theorem RoundTrips.length_eq_zero {responses : List (HTTPResponse × Str)}
    (h : RoundTrips responses) : responses.length = 0 := by
  have hsound := congrArg List.length (Http1.read_sound h)
  -- what is read in full has the length of its rendering
  rw [length_written_all] at hsound
  omega

/-- The framing round-trips on no connection that carries a response. -/
theorem framing_iff (responses : List (HTTPResponse × Str)) :
    RoundTrips responses ↔ responses = [] := by
  constructor
  · intro h
    exact List.eq_nil_of_length_eq_zero h.length_eq_zero
  · intro h
    rw [h, RoundTrips, List.flatMap_nil, Http1.read, if_pos rfl]
    rfl

/-- A default response with a one-character body. -/
theorem framing_single :
    Allowed {} ∧ ¬ RoundTrips [({}, lit "a")] := by
  constructor
  · exact { status := by decide, name := by decide, value := by decide, unframed := by decide }
  · intro h
    exact absurd h.length_eq_zero (by decide)

end HTTPResponse

end NoJs.Http
