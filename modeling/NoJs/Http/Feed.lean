/-
  NoJs.Http.Feed

  The way of the received bytes: `ServerSocket.read` of `libs/tcp/index.js`, the
  `data` listener of `HTTPRequest` and `Parser::Parse` of `core/http.cc`.

  The number of bytes read is not passed on.  `Parse` looks for it with `strlen`
  in a buffer that was zeroed before the read, so what llhttp gets of a read ends
  at its first zero byte, and a read that fills the buffer has no end at all.
-/

import NoJs.Buffer.Encode

namespace NoJs.Http.Feed

open NoJs.Buffer (Bytes alloc store)

/-! ## From the socket to llhttp -/

/-- The bytes of a read with a positive result. -/
structure Received where
  bytes : Bytes
  some_byte : 0 < bytes.length
  in_buffer : bytes.length ≤ 1024
  deriving DecidableEq, Repr

/-- How a `tcp.read` completes, by the sign of its `status`. -/
inductive Completion where
  | received (r : Received)
  | closed
  | failed
  deriving DecidableEq, Repr

/-- What a `ServerSocket` emits. -/
inductive SocketEvent where
  | data (buffer : Bytes)
  | end'
  | error
  deriving DecidableEq, Repr

/-- The buffer of `read`, allocated for it, after the kernel has written to it. -/
def Received.buffer (r : Received) : Bytes := store (alloc 1024) 0 (r.bytes.map UInt8.toNat)

/-- `ServerSocket.read`, which calls itself after every read that got bytes. -/
def serverSocketRead : List Completion → List SocketEvent
  | [] => []
  | .received r :: completions => .data r.buffer :: serverSocketRead completions
  | .closed :: _ => [.end']
  | .failed :: _ => [.error]

/-- `strlen(data)`; `none` when it runs past the end of the buffer. -/
def strlen : Bytes → Option Nat
  | [] => none
  | b :: bytes => if b = 0 then some 0 else (strlen bytes).map (· + 1)

/-- `Parser::Parse`: the range handed to `llhttp_execute`. -/
def parse (buffer : Bytes) : Option Bytes := (strlen buffer).map buffer.take

/-- The listeners of `HTTPRequest`: all ranges handed to `llhttp_execute`. -/
def httpRequest : List SocketEvent → Option (List Bytes)
  | [] => some []
  | .data buffer :: events => do
      let range ← parse buffer
      let ranges ← httpRequest events
      return range :: ranges
  | .end' :: events => httpRequest events
  | .error :: events => httpRequest events

/-- The reads of a connection, up to its end. -/
def reads : List Completion → List Received
  | [] => []
  | .received r :: completions => r :: reads completions
  | .closed :: _ => []
  | .failed :: _ => []

/-! ## What arrives -/

theorem strlen_zero (front back : Bytes) (h : 0 ∉ front) :
    strlen (front ++ 0 :: back) = some front.length := by
  induction front with
  | nil => rfl
  | cons b front ih =>
      have hb : b ≠ 0 := fun heq => h (heq ▸ List.mem_cons_self)
      have hfront := ih fun hmem => h (List.mem_cons_of_mem b hmem)
      rw [List.cons_append, strlen, if_neg hb, hfront]
      rfl

theorem strlen_eq_none {bytes : Bytes} (h : 0 ∉ bytes) : strlen bytes = none := by
  induction bytes with
  | nil => rfl
  | cons b bytes ih =>
      have hb : b ≠ 0 := fun heq => h (heq ▸ List.mem_cons_self)
      rw [strlen, if_neg hb, ih fun hmem => h (List.mem_cons_of_mem b hmem)]
      rfl

namespace Received

/-- The read fills a prefix of the zeroed buffer. -/
theorem buffer_eq (r : Received) : r.buffer = r.bytes ++ alloc (1024 - r.bytes.length) := by
  have hbytes : (r.bytes.map UInt8.toNat).map UInt8.ofNat = r.bytes := by
    simp [List.map_map, Function.comp_def]
  -- the kernel overwrites the front; the rest keeps the zeros of `alloc`
  have hsplit : alloc 1024 = alloc r.bytes.length ++ alloc (1024 - r.bytes.length) := by
    have hfits := r.in_buffer
    rw [← NoJs.Buffer.alloc_add, Nat.add_sub_cancel' hfits]
  have hstore := NoJs.Buffer.store_zeros [] (r.bytes.map UInt8.toNat)
    (alloc (1024 - r.bytes.length))
  rw [List.length_map, hbytes, List.nil_append, List.nil_append, ← hsplit] at hstore
  exact hstore

/-- A read that `strlen` measures right: a zero byte follows it and none is in
it. -/
def Clean (r : Received) : Prop := r.bytes.length < 1024 ∧ 0 ∉ r.bytes

instance (r : Received) : Decidable r.Clean := inferInstanceAs (Decidable (_ ∧ _))

theorem Clean.parse_eq {r : Received} (h : r.Clean) : parse r.buffer = some r.bytes := by
  obtain ⟨n, hn⟩ : ∃ n, 1024 - r.bytes.length = n + 1 :=
    ⟨1023 - r.bytes.length, by have := h.1; omega⟩
  have hbuffer : r.buffer = r.bytes ++ 0 :: alloc n := by
    rw [buffer_eq, hn]
    rfl
  rw [parse, hbuffer, strlen_zero r.bytes (alloc n) h.2, Option.map_some, List.take_left]

/-- Of a read with a zero byte in it only what stands before is handed on, and a
read without one that fills the buffer is measured past its end. -/
theorem parse_length {r : Received} {range : Bytes} (h : parse r.buffer = some range) :
    range.length ≤ r.bytes.length ∧ (range.length = r.bytes.length → r.Clean) := by
  by_cases hzero : 0 ∈ r.bytes
  · obtain ⟨front, back, hbytes, hfront⟩ := List.eq_append_cons_of_mem hzero
    -- `strlen` stops at the first zero of the read
    have hbuffer : r.buffer = front ++ 0 :: (back ++ alloc (1024 - r.bytes.length)) := by
      rw [buffer_eq]
      nth_rewrite 1 [hbytes]
      rw [List.append_assoc, List.cons_append]
    rw [parse, hbuffer, strlen_zero front _ hfront, Option.map_some, List.take_left] at h
    cases h
    rw [hbytes, List.length_append, List.length_cons]
    omega
  · by_cases hfull : r.bytes.length = 1024
    · have hbuffer : r.buffer = r.bytes := by
        rw [buffer_eq, hfull]
        exact List.append_nil _
      rw [parse, hbuffer, strlen_eq_none hzero] at h
      cases h
    · have hfits := r.in_buffer
      have hclean : r.Clean := ⟨by omega, hzero⟩
      rw [hclean.parse_eq] at h
      cases h
      exact ⟨Nat.le_refl _, fun _ => hclean⟩

end Received

/-! ## The stream -/

/-- Every byte received reaches llhttp, in order and once, and no range is taken
from outside a buffer. -/
def BytesDelivered (completions : List Completion) : Prop :=
  ∃ ranges, httpRequest (serverSocketRead completions) = some ranges ∧
    ranges.flatten = (reads completions).flatMap Received.bytes

theorem httpRequest_clean {completions : List Completion}
    (h : ∀ r ∈ reads completions, r.Clean) :
    httpRequest (serverSocketRead completions)
      = some ((reads completions).map Received.bytes) := by
  induction completions with
  | nil => rfl
  | cons completion completions ih =>
      cases completion with
      | closed => rfl
      | failed => rfl
      | received r =>
          obtain ⟨hr, hrest⟩ := List.forall_mem_cons.mp h
          rw [serverSocketRead, httpRequest, hr.parse_eq, ih hrest]
          rfl

theorem httpRequest_length {completions : List Completion} {ranges : List Bytes}
    (h : httpRequest (serverSocketRead completions) = some ranges) :
    ranges.flatten.length ≤ ((reads completions).flatMap Received.bytes).length ∧
      (ranges.flatten.length = ((reads completions).flatMap Received.bytes).length →
        ∀ r ∈ reads completions, r.Clean) := by
  induction completions generalizing ranges with
  | nil =>
      cases h
      exact ⟨Nat.le_refl 0, fun _ r hr => absurd hr List.not_mem_nil⟩
  | cons completion completions ih =>
      cases completion with
      | closed =>
          cases h
          exact ⟨Nat.le_refl 0, fun _ r hr => absurd hr List.not_mem_nil⟩
      | failed =>
          cases h
          exact ⟨Nat.le_refl 0, fun _ r hr => absurd hr List.not_mem_nil⟩
      | received r =>
          simp only [serverSocketRead, httpRequest, Option.bind_eq_bind, Option.bind_eq_some_iff]
            at h
          obtain ⟨range, hrange, ranges', hranges, heq⟩ := h
          cases heq
          obtain ⟨hle, hclean⟩ := Received.parse_length hrange
          obtain ⟨hle', hclean'⟩ := ih hranges
          rw [reads, List.flatten_cons, List.flatMap_cons, List.length_append, List.length_append]
          -- neither part can make up for what the other loses
          refine ⟨by omega, fun hlength => List.forall_mem_cons.mpr ⟨?_, ?_⟩⟩
          · exact hclean (by omega)
          · exact hclean' (by omega)

/-- The stream reaches the parser exactly when no read fills the buffer and no
byte of it is zero. -/
theorem bytes_delivered_iff (completions : List Completion) :
    BytesDelivered completions ↔ ∀ r ∈ reads completions, r.Clean := by
  constructor
  · rintro ⟨ranges, hranges, hstream⟩
    exact (httpRequest_length hranges).2 (congrArg List.length hstream)
  · intro h
    exact ⟨_, httpRequest_clean h, List.flatMap_def.symm⟩

/-- Three bytes, the second of them zero. -/
def zeroRead : Received := ⟨[97, 0, 98], by decide, by decide⟩

/-- As many bytes as a read can bring. -/
def fullRead : Received where
  bytes := List.replicate 1024 97
  some_byte := by rw [List.length_replicate]; omega
  in_buffer := Nat.le_of_eq List.length_replicate

theorem bytes_not_delivered :
    ¬ BytesDelivered [.received zeroRead, .closed]
      ∧ ¬ BytesDelivered [.received fullRead, .closed] := by
  constructor
  · rintro ⟨ranges, hranges, hstream⟩
    have hclean := (httpRequest_length hranges).2 (congrArg List.length hstream)
    exact absurd (hclean _ List.mem_cons_self).2 (by decide)
  · rintro ⟨ranges, hranges, hstream⟩
    have hclean := (httpRequest_length hranges).2 (congrArg List.length hstream)
    have hlength : fullRead.bytes.length = 1024 := List.length_replicate
    exact absurd (hclean _ List.mem_cons_self).1 (by omega)

/-! ## The data events -/

/-- The payloads of the `data` events: the emitted buffers, whole. -/
def payloads : List SocketEvent → List Bytes
  | [] => []
  | .data buffer :: events => buffer :: payloads events
  | .end' :: events => payloads events
  | .error :: events => payloads events

/-- The `data` events carry the bytes received, in order and with nothing added. -/
def CarriesStream (completions : List Completion) : Prop :=
  (payloads (serverSocketRead completions)).flatten = (reads completions).flatMap Received.bytes

theorem payloads_serverSocketRead (completions : List Completion) :
    payloads (serverSocketRead completions) = (reads completions).map Received.buffer := by
  induction completions with
  | nil => rfl
  | cons completion completions ih =>
      cases completion with
      | received r => exact congrArg (r.buffer :: ·) ih
      | closed => rfl
      | failed => rfl

/-- Whatever the size of the read, the buffer emitted is the one allocated. -/
theorem Received.length_buffer (r : Received) : r.buffer.length = 1024 := by
  have hfits := r.in_buffer
  rw [buffer_eq, List.length_append, alloc, List.length_replicate]
  omega

theorem length_buffers (rs : List Received) :
    (rs.map Received.buffer).flatten.length = 1024 * rs.length := by
  induction rs with
  | nil => rfl
  | cons r rs ih =>
      rw [List.map_cons, List.flatten_cons, List.length_append, r.length_buffer, ih,
        List.length_cons]
      omega

theorem length_bytes_le (rs : List Received) :
    (rs.flatMap Received.bytes).length ≤ 1024 * rs.length := by
  induction rs with
  | nil => exact Nat.le_refl 0
  | cons r rs ih =>
      have hfits := r.in_buffer
      rw [List.flatMap_cons, List.length_append, List.length_cons]
      omega

/-- As many bytes as buffers hold: then no read was shorter. -/
theorem full_of_length {rs : List Received}
    (h : 1024 * rs.length ≤ (rs.flatMap Received.bytes).length) :
    ∀ r ∈ rs, r.bytes.length = 1024 := by
  induction rs with
  | nil => exact fun r hr => absurd hr List.not_mem_nil
  | cons r rs ih =>
      have hfits := r.in_buffer
      have hle := length_bytes_le rs
      rw [List.flatMap_cons, List.length_append, List.length_cons] at h
      exact List.forall_mem_cons.mpr ⟨by omega, ih (by omega)⟩

/-- **The `data` events carry the stream** exactly when every read fills the
    buffer it was given. -/
theorem carries_stream_iff (completions : List Completion) :
    CarriesStream completions ↔ ∀ r ∈ reads completions, r.bytes.length = 1024 := by
  rw [CarriesStream, payloads_serverSocketRead]
  constructor
  · intro h
    refine full_of_length (Nat.le_of_eq ?_)
    rw [← h, length_buffers]
  · intro h
    rw [List.flatMap_def]
    congr 1
    apply List.map_congr_left
    intro r hr
    rw [Received.buffer_eq, h r hr]
    exact List.append_nil _

/-- Three bytes arrive and 1024 are emitted. -/
theorem short_read_padded : ¬ ∀ completions : List Completion, CarriesStream completions := by
  intro h
  have hlength := congrArg List.length (h [.received zeroRead, .closed])
  rw [payloads_serverSocketRead, length_buffers] at hlength
  have hfull := full_of_length (Nat.le_of_eq hlength)
  exact absurd (hfull zeroRead List.mem_cons_self) (by decide)

end NoJs.Http.Feed
