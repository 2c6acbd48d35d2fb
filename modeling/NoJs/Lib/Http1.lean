/-
  NoJs.Lib.Http1

  The framing of HTTP/1.1 messages with a `Content-length`: a start line, header
  lines, an empty line, a body of the announced length.

  `read` takes a byte stream apart into messages and accepts nothing but
  renderings (`read_sound`).  Lines and header blocks are read back from theirs
  (`readLine_line`, `readHeaders_lines`).
-/

import Mathlib.Data.List.Basic
import Mathlib.Tactic.Common

namespace Http1

abbrev Bytes := List UInt8

def crlf : Bytes := [13, 10]

/-- A message: start line, header fields and body. -/
structure Message where
  startLine : Bytes
  headers : List (Bytes × Bytes)
  body : Bytes
  deriving DecidableEq, Repr

/-! ## Rendering -/

def headerLine (header : Bytes × Bytes) : Bytes := header.1 ++ 58 :: header.2 ++ crlf

def headerLines (headers : List (Bytes × Bytes)) : Bytes := headers.flatMap headerLine

/-- Everything before the body. -/
def Message.head (m : Message) : Bytes :=
  m.startLine ++ crlf ++ headerLines m.headers ++ crlf

def Message.render (m : Message) : Bytes := m.head ++ m.body

@[simp] theorem headerLines_cons (header : Bytes × Bytes) (headers : List (Bytes × Bytes)) :
    headerLines (header :: headers) = headerLine header ++ headerLines headers := rfl

/-! ## Decimal numbers -/

/-- The decimal digits of a number. -/
def decimal (n : Nat) : Bytes := (Nat.toDigits 10 n).map fun c => UInt8.ofNat c.toNat

def isDigit (b : UInt8) : Bool := decide (48 ≤ b.toNat ∧ b.toNat ≤ 57)

/-- The number a string of digits denotes. -/
def parseDecimal (bytes : Bytes) : Option Nat :=
  if bytes ≠ [] ∧ bytes.all isDigit then
    some (Nat.ofDigitChars 10 (bytes.map fun b => Char.ofNat b.toNat) 0)
  else none

theorem digit_bounds {n : Nat} {c : Char} (h : c ∈ Nat.toDigits 10 n) :
    48 ≤ c.toNat ∧ c.toNat ≤ 57 :=
  Char.isDigit_iff_toNat.mp (Nat.isDigit_of_mem_toDigits (by decide) (by decide) h)

/-! ## Reading -/

/-- The bytes up to the first CRLF, and what follows it. -/
def readLine : Bytes → Option (Bytes × Bytes)
  | [] => none
  | b :: input =>
      if b = 13 ∧ input.head? = some 10 then some ([], input.tail)
      else (readLine input).map fun (line, rest) => (b :: line, rest)

/-- A header line, cut at its first colon. -/
def splitHeader : Bytes → Option (Bytes × Bytes)
  | [] => none
  | b :: line =>
      if b = 58 then some ([], line)
      else (splitHeader line).map fun (name, value) => (b :: name, value)

theorem readLine_sound {input line rest : Bytes} (h : readLine input = some (line, rest)) :
    input = line ++ crlf ++ rest := by
  induction input generalizing line with
  | nil => cases h
  | cons b input ih =>
      rw [readLine] at h
      split at h
      · next hcrlf =>
        obtain ⟨rfl, hlf⟩ := hcrlf
        cases h
        cases input with
        | nil => cases hlf
        | cons c input =>
            cases hlf
            rfl
      · obtain ⟨⟨line', rest'⟩, hread, heq⟩ := Option.map_eq_some_iff.mp h
        cases heq
        rw [ih hread]
        rfl

theorem splitHeader_sound {line : Bytes} {header : Bytes × Bytes}
    (h : splitHeader line = some header) : line = header.1 ++ 58 :: header.2 := by
  induction line generalizing header with
  | nil => cases h
  | cons b line ih =>
      rw [splitHeader] at h
      split at h
      · next hcolon =>
        cases h
        rw [hcolon]
        rfl
      · obtain ⟨header', hsplit, heq⟩ := Option.map_eq_some_iff.mp h
        cases heq
        rw [ih hsplit]
        rfl

theorem readLine_length {input line rest : Bytes} (h : readLine input = some (line, rest)) :
    rest.length < input.length := by
  rw [readLine_sound h]
  simp [crlf]
  omega

/-- The header lines up to the first empty line, and what follows it. -/
def readHeaders (input : Bytes) : Option (List (Bytes × Bytes) × Bytes) :=
  match _h : readLine input with
  | none => none
  | some (line, rest) =>
      if line = [] then some ([], rest)
      else
        match splitHeader line with
        | none => none
        | some header => (readHeaders rest).map fun (headers, rest) => (header :: headers, rest)
termination_by input.length
decreasing_by exact readLine_length ‹_›

theorem readHeaders_sound {input rest : Bytes} {headers : List (Bytes × Bytes)}
    (h : readHeaders input = some (headers, rest)) :
    input = headerLines headers ++ crlf ++ rest := by
  fun_induction readHeaders input generalizing headers with
  | case1 input hline => cases h
  | case2 input rest' hline =>
      cases h
      exact readLine_sound hline
  | case3 input line rest' hline hempty hsplit => cases h
  | case4 input line rest' hline hempty header hsplit ih =>
      obtain ⟨⟨headers', rest''⟩, hread, heq⟩ := Option.map_eq_some_iff.mp h
      cases heq
      rw [readLine_sound hline, splitHeader_sound hsplit, ih hread]
      simp [headerLine]

/-- ASCII letters in lower case. -/
def lower (b : UInt8) : UInt8 := if 65 ≤ b.toNat ∧ b.toNat ≤ 90 then b + 32 else b

/-- `content-length` -/
def contentLengthName : Bytes := [99, 111, 110, 116, 101, 110, 116, 45, 108, 101, 110, 103, 116, 104]

/-- The value of the first header field named Content-length, in any case. -/
def contentLength (headers : List (Bytes × Bytes)) : Option Nat :=
  (headers.find? fun header => header.1.map lower = contentLengthName).bind fun header =>
    parseDecimal header.2

/-- The first message of a stream, and what follows it. -/
def readMessage (input : Bytes) : Option (Message × Bytes) := do
  let (startLine, input) ← readLine input
  let (headers, input) ← readHeaders input
  let length ← contentLength headers
  if length ≤ input.length then
    some ({ startLine, headers, body := input.take length }, input.drop length)
  else none

theorem readMessage_sound {input rest : Bytes} {m : Message}
    (h : readMessage input = some (m, rest)) :
    input = m.render ++ rest ∧ contentLength m.headers = some m.body.length := by
  simp only [readMessage, Option.bind_eq_bind, Option.bind_eq_some_iff, Prod.exists] at h
  obtain ⟨startLine, input1, hstart, headers, input2, hheaders, length, hlength, hbody⟩ := h
  split at hbody
  · next hle =>
    cases hbody
    constructor
    · rw [readLine_sound hstart, readHeaders_sound hheaders]
      simp [Message.render, Message.head]
    · rw [List.length_take_of_le hle]
      exact hlength
  · cases hbody

theorem Message.length_render_pos (m : Message) : 0 < m.render.length := by
  simp only [Message.render, Message.head, crlf, List.length_append, List.length_cons]
  omega

/-- All messages of a stream; `none` where a message is malformed or cut short. -/
def read (input : Bytes) : Option (List Message) :=
  if input = [] then some []
  else
    match _h : readMessage input with
    | none => none
    | some (m, rest) => (read rest).map (m :: ·)
termination_by input.length
decreasing_by
  have hsound := (readMessage_sound ‹_›).1
  have hpos := m.length_render_pos
  rw [hsound, List.length_append]
  omega

/-- What `read` accepts is the rendering of what it returns: no byte is dropped,
added or left over. -/
theorem read_sound {input : Bytes} {ms : List Message} (h : read input = some ms) :
    input = ms.flatMap Message.render := by
  fun_induction read input generalizing ms with
  | case1 => cases h; rfl
  | case2 input hne hread => cases h
  | case3 input hne m rest hread ih =>
      obtain ⟨ms', hrest, rfl⟩ := Option.map_eq_some_iff.mp h
      rw [(readMessage_sound hread).1, ih hrest]
      rfl

/-! ## Reading what was rendered -/

theorem readLine_line {line : Bytes} (h : 13 ∉ line) (rest : Bytes) :
    readLine (line ++ crlf ++ rest) = some (line, rest) := by
  induction line with
  | nil => rfl
  | cons b line ih =>
      have hb : ¬ (b = 13 ∧ (line ++ crlf ++ rest).head? = some 10) :=
        fun hcr => h (hcr.1 ▸ List.mem_cons_self)
      have hline := ih fun hmem => h (List.mem_cons_of_mem b hmem)
      rw [List.cons_append, List.cons_append, readLine, if_neg hb, hline]
      rfl

theorem splitHeader_line {name : Bytes} (h : 58 ∉ name) (value : Bytes) :
    splitHeader (name ++ 58 :: value) = some (name, value) := by
  induction name with
  | nil => rfl
  | cons b name ih =>
      have hb : b ≠ 58 := fun heq => h (heq ▸ List.mem_cons_self)
      have hname := ih fun hmem => h (List.mem_cons_of_mem b hmem)
      rw [List.cons_append, splitHeader, if_neg hb, hname]
      rfl

theorem readHeaders_stop {input rest : Bytes} (h : readLine input = some ([], rest)) :
    readHeaders input = some ([], rest) := by
  rw [readHeaders]
  split
  · next hline => rw [hline] at h; cases h
  · next line rest' hline =>
    rw [hline] at h
    cases h
    rw [if_pos rfl]

theorem readHeaders_next {input line rest : Bytes} {header : Bytes × Bytes}
    (h : readLine input = some (line, rest)) (hne : line ≠ [])
    (hsplit : splitHeader line = some header) :
    readHeaders input
      = (readHeaders rest).map fun (headers, rest) => (header :: headers, rest) := by
  rw [readHeaders]
  split
  · next hline => rw [hline] at h; cases h
  · next line' rest' hline =>
    rw [hline] at h
    cases h
    rw [if_neg hne, hsplit]

theorem readHeaders_lines {headers : List (Bytes × Bytes)}
    (hname : ∀ header ∈ headers, 13 ∉ header.1 ∧ 58 ∉ header.1)
    (hvalue : ∀ header ∈ headers, 13 ∉ header.2) (rest : Bytes) :
    readHeaders (headerLines headers ++ crlf ++ rest) = some (headers, rest) := by
  induction headers with
  | nil => exact readHeaders_stop (readLine_line List.not_mem_nil rest)
  | cons header headers ih =>
      obtain ⟨⟨hcr, hcolon⟩, hnames⟩ := List.forall_mem_cons.mp hname
      obtain ⟨hvaluecr, hvalues⟩ := List.forall_mem_cons.mp hvalue
      have hline : 13 ∉ header.1 ++ 58 :: header.2 := by
        simp [hcr, hvaluecr]
      have hread := readLine_line hline (headerLines headers ++ crlf ++ rest)
      have hne : header.1 ++ 58 :: header.2 ≠ [] := by simp
      have hassoc : headerLines (header :: headers) ++ crlf ++ rest
          = header.1 ++ 58 :: header.2 ++ crlf ++ (headerLines headers ++ crlf ++ rest) := by
        simp [headerLine]
      rw [hassoc, readHeaders_next hread hne (splitHeader_line hcolon header.2),
        ih hnames hvalues]
      rfl

end Http1
