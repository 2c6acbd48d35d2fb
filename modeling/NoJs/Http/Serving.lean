/-
  NoJs.Http.Serving

  A connection of the server of `libs/http/index.js` on the ring: the reads of
  its socket, the parser that they feed, the `request` listener and the responses
  that it writes.  The listener answers each request where it is called, as that
  of `test/http/index.js` does.

  llhttp is not part of the repository.  It may make any calls for a range of
  bytes; what the connection sends is a function of the calls it made
  (`replies`), and the ranges are the bytes that the kernel received.
-/

import NoJs.Http.Arrivals
import NoJs.Http.Connection
import NoJs.Http.Response
import NoJs.Tcp.Write
import NoJs.Util.Strings

namespace NoJs.Http

open Machine NoJs.IoUring NoJs.Async Feed
open NoJs.Buffer (Bytes)
open NoJs.Util (newStringToLcal)
open Tcp (isWrite ServerSocket)
open Utf16 (Str)

/-! ## The connection -/

/-- What the `request` listener makes of a head: the response, and what it passes to `end`. -/
abbrev Answer := HeadersCompleteInfo → HTTPResponse × Str

structure Serving where
  receiver : Receiver
  /-- The bytes the kernel has appended to the stream of the socket. -/
  stream : Bytes
  /-- The buffers written so far. -/
  written : List Bytes
  parser : HTTPParser
  connection : Connection
  /-- Whether `llhttp_execute` is running. -/
  executing : Bool
  /-- The ranges that were handed to it. -/
  fed : List Bytes
  /-- The calls that it made. -/
  calls : List Callback

namespace Serving

/-- After `new ServerSocket` and `new HTTPRequest` have made their objects. -/
def init : Serving where
  receiver := .init
  stream := []
  written := []
  parser := fresh
  connection := {}
  executing := false
  fed := []
  calls := []

/-- What `Socket.write` uses. -/
def socket (s : Serving) : Tcp.Socket where
  runtime := s.receiver.socket.runtime
  memory := s.receiver.socket.memory
  stream := s.stream
  written := s.written

def withSocket (s : Serving) (u : Tcp.Socket) : Serving :=
  { s with
    receiver := { s.receiver with
      socket := { s.receiver.socket with runtime := u.runtime, memory := u.memory } }
    stream := u.stream
    written := u.written }

/-- `socket.on('data', …)` of `HTTPRequest`: `Parser::Parse` measures the buffer and calls
    `llhttp_execute`. -/
def onData (p : Ptr) (s : Serving) : Outcome Serving :=
  match (s.receiver.socket.memory.get? p).bind parse with
  | none => .fault
  | some range => .next { s with executing := true, fed := s.fed ++ [range] }

/-- A step of the runtime: it may enter the callback of a read, which emits an event. -/
def other (fd : Int32) (a : Runtime.Act) (s : Serving) : Outcome Serving :=
  if s.socket.foreign fd a then
    (s.receiver.other a).bind fun receiver =>
      match receiver.socket.events.drop s.receiver.socket.events.length with
      | [.data p] => onData p { s with receiver }
      | _ => .next { s with receiver }
  else .disabled

/-- `res.end(data)`. -/
def respond (fd : Int32) (answer : Answer) (info : HeadersCompleteInfo) (s : Serving) :
    Outcome Serving :=
  (s.socket.write fd (.string ((answer info).1.end' (answer info).2))).bind fun u =>
    .next (s.withSocket u)

/-- llhttp makes a call: the callback of the parser, and what it passes on to JavaScript. -/
def call (fd : Int32) (answer : Answer) (c : Callback) (s : Serving) : Outcome Serving :=
  if s.executing then
    match s.connection.handleAll newStringToLcal (s.parser.callback c).2 with
    | none => .fault
    | some connection =>
        let s' :=
          { s with parser := (s.parser.callback c).1, connection, calls := s.calls ++ [c] }
        match heads (s.parser.callback c).2 with
        | info :: _ => s'.respond fd answer info
        | [] => .next s'
  else .disabled

inductive Act where
  /-- `new ServerSocket({fd})`. -/
  | construct
  /-- The listeners of an event have returned. -/
  | afterEmit
  /-- The kernel finishes a read of the socket. -/
  | arrive (i : Nat) (c : Completion) (res : Int32)
  /-- It executes a write of the socket. -/
  | execute (i k : Nat)
  | call (c : Callback)
  /-- `llhttp_execute` returns. -/
  | executed
  /-- Anything else that happens. -/
  | other (a : Runtime.Act)

def step (fd : Int32) (answer : Answer) (s : Serving) : Act → Outcome Serving
  | .construct => (s.receiver.construct fd).bind fun receiver => .next { s with receiver }
  | .afterEmit =>
      if s.executing then .disabled
      else (s.receiver.afterEmit fd).bind fun receiver => .next { s with receiver }
  | .arrive i c res => (s.receiver.arrive i c res).bind fun receiver => .next { s with receiver }
  | .execute i k => (s.socket.execute fd i k).bind fun u => .next (s.withSocket u)
  | .call c => s.call fd answer c
  | .executed => if s.executing then .next { s with executing := false } else .disabled
  | .other a => s.other fd a

/-- A connection on the descriptor `fd`. -/
def machine (fd : Int32) (answer : Answer) : Machine Serving Act := ⟨init, step fd answer⟩

/-! ## What the connection sends -/

/-- The bytes of one response. -/
def reply (answer : Answer) (info : HeadersCompleteInfo) : Bytes :=
  (answer info).1.written (answer info).2

/-- The responses to the requests that llhttp reports by these calls. -/
def replies (answer : Answer) (calls : List Callback) : Bytes :=
  (heads (fresh.parse calls).2).flatMap (reply answer)

/-- One for each message, in order. -/
theorem replies_messages (answer : Answer) (messages : List Message) :
    replies answer (messages.flatMap Message.calls) =
      messages.flatMap fun m => reply answer m.head.info := by
  rw [replies, ← emitted, heads_emitted, List.flatMap_map]

/-- A step that the repository's code is fit for: no read fills its buffer or has a zero byte,
    the kernel executes the oldest write and in full, and every header name has a value. -/
def Regular (fd : Int32) (s : Serving) : Act → Prop
  | .arrive _ (.received r) _ => r.Clean
  | .execute i k => Tcp.Socket.InOrder fd s.socket (.execute i k)
  | .call c => ∀ info ∈ heads (s.parser.callback c).2, info.keys.length ≤ info.values.length
  | _ => True

instance (fd : Int32) (s : Serving) : ∀ a, Decidable (Regular fd s a)
  | .arrive _ (.received r) _ => inferInstanceAs (Decidable r.Clean)
  | .arrive _ .closed _ => isTrue trivial
  | .arrive _ .failed _ => isTrue trivial
  | .execute i k => inferInstanceAs (Decidable (Tcp.Socket.InOrder fd s.socket (.execute i k)))
  | .call c => inferInstanceAs (Decidable (∀ info ∈ heads (s.parser.callback c).2, _))
  | .construct => isTrue trivial
  | .afterEmit => isTrue trivial
  | .executed => isTrue trivial
  | .other _ => isTrue trivial

/-! ## The invariant -/

/-- What the reads, the writes and the ranges for llhttp have to do with each other. -/
structure Wired (fd : Int32) (s : Serving) : Prop where
  receiver : s.receiver.Inv
  writes : Tcp.Socket.Inv fd s.socket
  /-- No write takes its bytes from the buffer of a read. -/
  apart : ∀ e ∈ s.socket.outstanding fd, ∀ r ∈ s.receiver.socket.reads, e.addr ≠ .mem r.buffer
  clean : ∀ a ∈ s.receiver.received, ∀ r, a.completion = .received r → r.Clean
  fed : httpRequest (serverSocketRead s.receiver.completions) = some s.fed
  executing : s.executing = true → ∃ status, s.receiver.socket.stage = .listeners status

structure Inv (fd : Int32) (answer : Answer) (s : Serving) : Prop extends Wired fd s where
  parser : s.parser = (fresh.parse s.calls).1
  written : s.written = (heads (fresh.parse s.calls).2).map (reply answer)

variable {fd : Int32} {answer : Answer} {s : Serving}

theorem inv_init : Inv fd answer init where
  receiver := Receiver.inv_init
  writes := Tcp.Socket.inv_init
  apart := by simp [init, socket, Tcp.Socket.outstanding, Receiver.init, Tcp.ServerSocket.init]
  clean := by simp [init, Receiver.init]
  fed := rfl
  parser := rfl
  written := rfl
  executing := by simp [init]

/-- Neither the parser nor what was written has changed. -/
def Quiet (s t : Serving) : Prop :=
  t.parser = s.parser ∧ t.calls = s.calls ∧ t.written = s.written

theorem Inv.quiet {t : Serving} (h : s.Inv fd answer) (hwired : t.Wired fd) (hquiet : s.Quiet t) :
    t.Inv fd answer := by
  obtain ⟨hparser, hcalls, hwritten⟩ := hquiet
  refine ⟨hwired, ?_, ?_⟩
  · rw [hparser, hcalls, h.parser]
  · rw [hwritten, hcalls, h.written]

/-! ### Buffers -/

/-- The writes look only at the buffers that they take their bytes from. -/
theorem writes_setMemory {u : Tcp.Socket} (h : Tcp.Socket.Inv fd u) {memory : Heap Bytes}
    (hsame : ∀ e ∈ u.outstanding fd, Tcp.Socket.source { u with memory } e = u.source e) :
    Tcp.Socket.Inv fd { u with memory } := by
  obtain ⟨chunks, hsource, htotal⟩ := h.total
  refine ⟨h.atRest, chunks, ?_, htotal⟩
  rw [← hsource]
  exact List.map_congr_left hsame

/-- The bytes of a write are there until the kernel has taken them. -/
theorem writes_source {u : Tcp.Socket} (h : Tcp.Socket.Inv fd u) :
    ∀ e ∈ u.outstanding fd, ∃ p bytes, e.addr = .mem p ∧ u.memory.get? p = some bytes := by
  obtain ⟨chunks, hsource, -⟩ := h.total
  intro e he
  have hmem := List.mem_map_of_mem (f := u.source) he
  rw [hsource] at hmem
  obtain ⟨bytes, -, hbytes⟩ := List.mem_map.mp hmem
  rw [Tcp.Socket.source] at hbytes
  split at hbytes
  · next p hp => exact ⟨p, bytes, hp, hbytes.symm⟩
  · exact absurd hbytes (by simp)

/-- A new buffer is none of theirs. -/
theorem writes_alloc {u : Tcp.Socket} (h : Tcp.Socket.Inv fd u) (buffer : Bytes) :
    Tcp.Socket.Inv fd { u with memory := u.memory.alloc buffer } := by
  refine writes_setMemory h fun e he => ?_
  obtain ⟨p, bytes, hp, hbytes⟩ := writes_source h e he
  simp only [Tcp.Socket.source, hp, hbytes]
  exact Heap.get?_alloc_of_some hbytes

/-- The reads of the socket look at no other buffers either. -/
theorem receiver_alloc {r : Receiver} (h : r.Inv) (buffer : Bytes) :
    Receiver.Inv { r with socket := { r.socket with memory := r.socket.memory.alloc buffer } } := by
  refine ⟨Receiver.setMemory h.socket _, ⟨fun e he hown => ?_, h.stored.buffers, fun q hq => ?_,
    h.stored.log, fun a ha => ?_⟩⟩
  · obtain ⟨q, hq, hentry, hbuffer⟩ := h.stored.entries e he hown
    exact ⟨q, hq, hentry, Heap.get?_alloc_of_some hbuffer⟩
  · obtain ⟨v, hv⟩ := Option.isSome_iff_exists.mp (h.stored.live q hq)
    exact Option.isSome_iff_exists.mpr ⟨v, Heap.get?_alloc_of_some hv⟩
  · obtain ⟨hallows, q, hq, hblock, hbuffer⟩ := h.stored.arrived a ha
    exact ⟨hallows, q, hq, hblock, Heap.get?_alloc_of_some hbuffer⟩

/-! ### The way of the bytes -/

theorem httpRequest_append (es fs : List SocketEvent) :
    httpRequest (es ++ fs) =
      (httpRequest es).bind fun ranges => (httpRequest fs).map (ranges ++ ·) := by
  induction es with
  | nil => simp [httpRequest]
  | cons e es ih =>
      cases e with
      | data buffer =>
          simp only [List.cons_append, httpRequest, ih, Option.bind_eq_bind]
          cases parse buffer <;> cases httpRequest es <;> cases httpRequest fs <;> rfl
      | end' => exact ih
      | error => exact ih

theorem mem_reads {r : Received} {cs : List Completion} (h : r ∈ reads cs) :
    .received r ∈ cs := by
  induction cs with
  | nil => exact absurd h List.not_mem_nil
  | cons c cs ih =>
      cases c with
      | received r' =>
          rcases List.mem_cons.mp h with rfl | h
          · exact List.mem_cons_self
          · exact List.mem_cons_of_mem _ (ih h)
      | closed => exact absurd h List.not_mem_nil
      | failed => exact absurd h List.not_mem_nil

/-- The completions taken so far are still the first ones. -/
theorem completions_append {r r' : Receiver} (h : r.Inv) (new : List Arrival)
    (hreceived : r'.received = r.received ++ new)
    (hseen : r'.socket.seen.length = r.socket.seen.length) : r'.completions = r.completions := by
  have hlength := congrArg List.length h.split.1
  rw [List.length_map, List.length_take] at hlength
  rw [Receiver.completions, hreceived, hseen, List.take_append_of_le_length (by omega)]
  rfl

/-- One event for each completion. -/
theorem length_events {r : Receiver} (h : r.Inv) :
    r.socket.events.length = r.socket.seen.length := by
  obtain ⟨-, done, flying, haccounts, -⟩ := h.socket
  rw [haccounts.events, haccounts.seen, List.length_map, List.length_map]

/-- The completions are the same where nothing was emitted. -/
theorem completions_eq {r r' : Receiver} (h : r.Inv) (h' : r'.Inv) (new : List Arrival)
    (hreceived : r'.received = r.received ++ new) (hevents : r'.socket.events = r.socket.events) :
    r'.completions = r.completions := by
  refine completions_append h new hreceived ?_
  rw [← length_events h, ← length_events h', hevents]

/-! ### `read` -/

theorem foreign_readCall (s : Serving) (fd : Int32) (p : Ptr) :
    s.socket.foreign fd (.start (ServerSocket.readCall fd p)) = true :=
  rfl

/-- A read starts, with the socket's callback going on at `stage`. -/
theorem Wired.read (h : s.Wired fd) {t : ServerSocket} {stage : Tcp.Stage}
    (hread : s.receiver.socket.read fd = .next t)
    (hreceiver : Receiver.Inv { s.receiver with socket := { t with stage } })
    (hstage : s.executing = true → stage = s.receiver.socket.stage) :
    Wired fd { s with receiver := { s.receiver with socket := { t with stage } } } := by
  obtain ⟨runtime, hstep, heq⟩ := Outcome.bind_eq_next.mp hread
  obtain rfl := Outcome.next.inj heq
  have hforeign := foreign_readCall s fd s.receiver.socket.memory.top
  have hwrites := h.writes.other hforeign
  rw [show s.socket.runtime.step _ = _ from hstep, Outcome.bind_next] at hwrites
  refine ⟨hreceiver, writes_alloc hwrites _, fun e he r hr => ?_, h.clean, ?_, fun hexec => ?_⟩
  · have he' : e ∈ s.socket.outstanding fd :=
      Tcp.Socket.outstanding_other h.writes.atRest hforeign hstep ▸ he
    rcases List.mem_append.mp hr with hr | hr
    · exact h.apart e he' r hr
    · -- the new buffer is not there yet
      obtain ⟨p, bytes, hp, hbytes⟩ := writes_source h.writes e he'
      rw [List.mem_singleton.mp hr, hp]
      intro heq
      exact Nat.ne_of_lt (Heap.lt_top_of_get? hbytes) (Address.mem.inj heq)
  · rw [completions_eq h.receiver hreceiver [] (List.append_nil _).symm rfl]
    exact h.fed
  · obtain ⟨status, hlisteners⟩ := h.executing hexec
    exact ⟨status, (hstage hexec).trans hlisteners⟩

theorem Inv.construct (h : s.Inv fd answer) :
    (s.step fd answer .construct).Holds (Inv fd answer) := by
  refine h.receiver.construct.bind_next fun r hconstruct hr => ?_
  rw [Receiver.construct] at hconstruct
  split at hconstruct
  · obtain ⟨t, hread, heq⟩ := Outcome.bind_eq_next.mp hconstruct
    obtain rfl := Outcome.next.inj heq
    have hstage : t.stage = s.receiver.socket.stage := by
      obtain ⟨runtime, -, heq⟩ := Outcome.bind_eq_next.mp hread
      obtain rfl := Outcome.next.inj heq
      rfl
    exact ⟨h.toWired.read hread hr fun _ => hstage, h.parser, h.written⟩
  · exact absurd hconstruct (by simp)

theorem Inv.afterEmit (h : s.Inv fd answer) :
    (s.step fd answer .afterEmit).Holds (Inv fd answer) := by
  rw [step]
  split
  · trivial
  next hexec =>
  refine h.receiver.afterEmit.bind_next fun r hafter hr => ?_
  obtain ⟨t, hemit, heq⟩ := Outcome.bind_eq_next.mp hafter
  obtain rfl := Outcome.next.inj heq
  rw [ServerSocket.afterEmit] at hemit
  split at hemit
  · split at hemit
    · obtain ⟨u, hread, heq⟩ := Outcome.bind_eq_next.mp hemit
      obtain rfl := Outcome.next.inj heq
      exact ⟨h.toWired.read hread hr fun he => absurd he hexec, h.parser, h.written⟩
    · obtain rfl := Outcome.next.inj hemit
      refine ⟨⟨hr, h.writes, h.apart, h.clean, ?_, fun he => absurd he hexec⟩, h.parser, h.written⟩
      rw [completions_eq h.receiver hr [] (List.append_nil _).symm rfl]
      exact h.fed
  · exact absurd hemit (by simp)

/-! ### The kernel -/

/-- The read that the kernel finishes, and its buffer. -/
theorem arrive_cases {r r' : Receiver} (h : r.Inv) {i : Nat} {c : Completion} {res : Int32}
    (harrive : r.arrive i c res = .next r') :
    ∃ sqe q runtime, r.socket.runtime.kernel[i]? = some sqe ∧ q ∈ r.socket.reads ∧
      Receiver.EntryOf q sqe ∧ r.socket.runtime.step (.complete i res) = .next runtime ∧
      r' = { socket := { r.socket with
               runtime, memory := r.socket.memory.modify q.buffer (fill c.bytes) }
             received := r.received ++ [⟨sqe.user_data, c, res⟩] } := by
  rw [Receiver.arrive] at harrive
  split at harrive
  · exact absurd harrive (by simp)
  next sqe hsqe =>
  split at harrive
  · next hguard =>
    have hown := (Bool.and_eq_true_iff.mp (Bool.and_eq_true_iff.mp hguard).1).1
    obtain ⟨q, hq, hentry, hbuffer⟩ := h.stored.entries sqe (List.mem_of_getElem? hsqe) hown
    simp only [hentry.addr, hbuffer] at harrive
    obtain ⟨t, hother, heq⟩ := Outcome.bind_eq_next.mp harrive
    obtain ⟨runtime, hstep, heq'⟩ := Outcome.bind_eq_next.mp hother
    obtain rfl := Outcome.next.inj heq'
    exact ⟨sqe, q, runtime, hsqe, hq, hentry, hstep, (Outcome.next.inj heq).symm⟩
  · exact absurd harrive (by simp)

/-- The entry of a read is none of a write. -/
theorem isWrite_entryOf {q : Tcp.Read} {sqe : Sqe} (h : Receiver.EntryOf q sqe) :
    isWrite fd sqe = false := by
  rw [isWrite, h.opcode]
  rfl

theorem Wired.arrive (h : s.Wired fd) {i : Nat} {c : Completion} {res : Int32}
    (hclean : ∀ r, c = .received r → r.Clean) :
    ((s.receiver.arrive i c res).bind fun receiver => .next { s with receiver }).Holds fun t =>
      t.Wired fd ∧ s.Quiet t := by
  refine (h.receiver.arrive i c res).bind_next fun r harrive hr => ?_
  obtain ⟨sqe, q, runtime, hsqe, hq, hentry, hstep, rfl⟩ := arrive_cases h.receiver harrive
  have hforeign : s.socket.foreign fd (.complete i res) = true := by
    simp [Tcp.Socket.foreign, socket, hsqe, isWrite_entryOf hentry]
  have hwrites := h.writes.other hforeign
  rw [show s.socket.runtime.step _ = _ from hstep, Outcome.bind_next] at hwrites
  have hsame := Tcp.Socket.outstanding_other h.writes.atRest hforeign hstep
  refine ⟨⟨hr, ?_, fun e he r hr => h.apart e (hsame ▸ he) r hr, fun a ha => ?_, ?_,
    h.executing⟩, rfl, rfl, rfl⟩
  · refine writes_setMemory hwrites fun e he => ?_
    have he' : e ∈ s.socket.outstanding fd := hsame ▸ he
    obtain ⟨p, bytes, hp, -⟩ := writes_source h.writes e he'
    have hne : p ≠ q.buffer := fun heq => h.apart e he' q hq (heq ▸ hp)
    simp only [Tcp.Socket.source, hp]
    exact Heap.get?_modify_ne hne
  · rcases List.mem_append.mp ha with ha | ha
    · exact h.clean a ha
    · rw [List.mem_singleton.mp ha]
      exact hclean
  · rw [completions_eq h.receiver hr _ rfl rfl]
    exact h.fed

/-- What `execute` does: the kernel finishes the write and appends to the stream. -/
theorem execute_cases {u u' : Tcp.Socket} {i k : Nat} (hexecute : u.execute fd i k = .next u') :
    ∃ sqe bytes runtime, u.runtime.kernel[i]? = some sqe ∧ isWrite fd sqe = true ∧
      u.runtime.step (.complete i (.ofNat k)) = .next runtime ∧
      u' = { u with runtime, stream := u.stream ++ bytes } := by
  rw [Tcp.Socket.execute] at hexecute
  split at hexecute
  · exact absurd hexecute (by simp)
  next sqe hsqe =>
  split at hexecute
  · next hwrite =>
    split at hexecute
    · exact absurd hexecute (by simp)
    split at hexecute
    · obtain ⟨runtime, hstep, heq⟩ := Outcome.bind_eq_next.mp hexecute
      exact ⟨sqe, _, runtime, hsqe, hwrite, hstep, (Outcome.next.inj heq).symm⟩
    · exact absurd hexecute (by simp)
  · exact absurd hexecute (by simp)

/-- A step of the runtime that enters no callback. -/
theorem receiver_step {r : Receiver} (h : r.Inv) {a : Runtime.Act} {runtime : Runtime}
    (hallows : r.socket.allows a = true) (hforeign : r.foreign a = true)
    (ha : a ≠ .inner ∧ a ≠ .ret) (hstep : r.socket.runtime.step a = .next runtime) :
    Receiver.Inv { r with socket := { r.socket with runtime } } := by
  have hother : r.other a = .next { r with socket := { r.socket with runtime } } := by
    rw [Receiver.other, hallows, hforeign, Bool.and_self, if_pos rfl, ServerSocket.other, hstep]
    cases a with
    | inner => exact absurd rfl ha.1
    | ret => exact absurd rfl ha.2
    | start c | stop | run | outer | complete i res => rfl
  exact (h.other a).of_next hother

theorem Wired.execute (h : s.Wired fd) {i k : Nat}
    (horder : Tcp.Socket.InOrder fd s.socket (.execute i k)) :
    ((s.socket.execute fd i k).bind fun u => .next (s.withSocket u)).Holds fun t =>
      t.Wired fd ∧ s.Quiet t := by
  refine (h.writes.execute horder).bind_next fun u hexecute hu => ?_
  obtain ⟨sqe, bytes, runtime, hsqe, hwrite, hstep, rfl⟩ := execute_cases hexecute
  have hsqe' : s.receiver.socket.runtime.kernel[i]? = some sqe := hsqe
  -- a write is no read of the socket
  have hown : s.receiver.socket.own sqe.user_data = false := by
    by_contra hmem
    rw [Bool.not_eq_false] at hmem
    obtain ⟨q, -, hentry, -⟩ :=
      h.receiver.stored.entries sqe (List.mem_of_getElem? hsqe') hmem
    rw [isWrite_entryOf hentry] at hwrite
    exact absurd hwrite (by simp)
  have hforeign : s.receiver.foreign (.complete i (.ofNat k)) = true := by
    simp [Receiver.foreign, hsqe', hown]
  have hr := receiver_step h.receiver rfl hforeign (by simp) hstep
  refine ⟨⟨hr, hu, fun e he r hr => ?_, h.clean, ?_, h.executing⟩, rfl, rfl, rfl⟩
  · have hkernel := Runtime.step_kernel h.writes.atRest hstep
    have he' : e ∈ runtime.kernel.filter (isWrite fd) := he
    rw [show runtime.kernel = s.socket.runtime.kernel.eraseIdx i from hkernel] at he'
    obtain ⟨hmem, hiswrite⟩ := List.mem_filter.mp he'
    exact h.apart e (List.mem_filter.mpr ⟨List.mem_of_mem_eraseIdx hmem, hiswrite⟩) r hr
  · have hsame := completions_eq h.receiver hr [] (List.append_nil _).symm rfl
    exact (congrArg (fun cs => httpRequest (serverSocketRead cs)) hsame).trans h.fed

/-! ### Events -/

/-- A step of the runtime emits one event at most, to the listeners that it enters. -/
theorem other_emits {t u : ServerSocket} {a : Runtime.Act} (h : t.other a = .next u) :
    u.events = t.events ∧ (t.stage = u.stage ∨ a = .ret) ∨
      ∃ e status, u.events = t.events ++ [e] ∧ u.stage = .listeners status := by
  obtain ⟨runtime, -, hcase⟩ := Outcome.bind_eq_next.mp h
  split at hcase
  · obtain rfl := Outcome.next.inj hcase
    rw [ServerSocket.onread]
    split
    · exact .inr ⟨_, _, rfl, rfl⟩
    · exact .inl ⟨rfl, .inl rfl⟩
  · obtain rfl := Outcome.next.inj hcase
    exact .inl ⟨rfl, .inr rfl⟩
  · obtain rfl := Outcome.next.inj hcase
    exact .inl ⟨rfl, .inl rfl⟩

/-- The next event is what the socket emits for the next completion. -/
theorem emitted_next {r r' : Receiver} (h : r.Inv) (h' : r'.Inv)
    (hmemory : r'.socket.memory = r.socket.memory) {e : Tcp.Event}
    (hevents : r'.socket.events = r.socket.events ++ [e]) :
    ∃ f, r'.view e = some f ∧
      serverSocketRead r'.completions = serverSocketRead r.completions ++ [f] := by
  have hview : r'.view = r.view := by
    funext e
    cases e <;> simp [Receiver.view, hmemory]
  have hemits := h'.emits
  rw [hevents, List.map_append, hview, h.emits, List.map_singleton, ← hview] at hemits
  obtain ⟨front, last, hsplit, hfront, hlast⟩ := List.map_eq_append_iff.mp hemits.symm
  obtain ⟨f, rest, rfl, hf, hrest⟩ := List.map_eq_cons_iff.mp hlast
  obtain rfl := List.map_eq_nil_iff.mp hrest
  refine ⟨f, hf.symm, ?_⟩
  rw [hsplit, List.map_injective_iff.mpr (Option.some_injective _) hfront]

/-- What is emitted as data was received, and so llhttp is given all of it. -/
theorem parse_emitted {r : Receiver} {buffer : Bytes}
    (hclean : ∀ a ∈ r.received, ∀ q, a.completion = .received q → q.Clean)
    (hmem : .data buffer ∈ serverSocketRead r.completions) :
    ∃ range, parse buffer = some range := by
  have hpayload : buffer ∈ payloads (serverSocketRead r.completions) := by
    generalize serverSocketRead r.completions = es at hmem
    induction es with
    | nil => exact absurd hmem List.not_mem_nil
    | cons e es ih =>
        cases e with
        | data b =>
            rcases List.mem_cons.mp hmem with heq | hmem
            · exact List.mem_cons.mpr (.inl (SocketEvent.data.inj heq))
            · exact List.mem_cons_of_mem _ (ih hmem)
        | end' => exact ih ((List.mem_cons.mp hmem).resolve_left (by simp))
        | error => exact ih ((List.mem_cons.mp hmem).resolve_left (by simp))
  rw [payloads_serverSocketRead] at hpayload
  obtain ⟨q, hq, rfl⟩ := List.mem_map.mp hpayload
  obtain ⟨a, ha, heq⟩ := List.mem_map.mp (mem_reads hq)
  exact ⟨_, (hclean a (List.mem_of_mem_take ha) q heq).parse_eq⟩

theorem Wired.other (h : s.Wired fd) (a : Runtime.Act) :
    (s.other fd a).Holds fun t => t.Wired fd ∧ s.Quiet t := by
  rw [Serving.other]
  split
  · next hforeign =>
    refine (h.receiver.other a).bind_next fun r hother hr => ?_
    rw [Receiver.other] at hother
    split at hother
    · next hguard =>
      obtain ⟨t, hsocket, heq⟩ := Outcome.bind_eq_next.mp hother
      obtain rfl := Outcome.next.inj heq
      obtain ⟨hstep, hreads, hmemory⟩ := Receiver.other_frame hsocket
      have hwrites := h.writes.other hforeign
      rw [show s.socket.runtime.step _ = _ from hstep, Outcome.bind_next] at hwrites
      have hsame := Tcp.Socket.outstanding_other h.writes.atRest hforeign hstep
      have hkept : Tcp.Socket.Inv fd ⟨t.runtime, t.memory, s.stream, s.written⟩ := by
        rw [hmemory]
        exact hwrites
      have hapart : ∀ e ∈ t.runtime.kernel.filter (isWrite fd), ∀ q ∈ t.reads,
          e.addr ≠ .mem q.buffer := fun e he q hq => h.apart e (hsame ▸ he) q (hreads ▸ hq)
      rcases other_emits hsocket with ⟨hevents, hstage⟩ | ⟨e, status, hevents, hstage⟩
      · rw [show t.events.drop s.receiver.socket.events.length = [] by rw [hevents]; simp]
        refine ⟨⟨hr, hkept, hapart, h.clean, ?_, fun hexec => ?_⟩, rfl, rfl, rfl⟩
        · rw [completions_eq h.receiver hr [] (List.append_nil _).symm hevents]
          exact h.fed
        · obtain ⟨status, hlisteners⟩ := h.executing hexec
          refine ⟨status, (hstage.resolve_right ?_).symm.trans hlisteners⟩
          -- the callback cannot return while its listeners run
          rintro rfl
          simp [ServerSocket.allows, hlisteners] at hguard
      · obtain ⟨f, hview, hread⟩ := emitted_next h.receiver hr hmemory hevents
        rw [show t.events.drop s.receiver.socket.events.length = [e] by rw [hevents]; simp]
        have hquiet : httpRequest [f] = some [] →
            httpRequest (serverSocketRead
              (Receiver.completions { s.receiver with socket := t })) = some s.fed := by
          intro hnone
          rw [hread, httpRequest_append, h.fed, hnone]
          simp
        cases e with
        | data p =>
            obtain ⟨buffer, hbuffer, rfl⟩ := Option.map_eq_some_iff.mp hview
            have hmem : .data buffer ∈
                serverSocketRead (Receiver.completions { s.receiver with socket := t }) := by
              rw [hread]
              simp
            obtain ⟨range, hrange⟩ :=
              parse_emitted (r := { s.receiver with socket := t }) h.clean hmem
            have hfed : (t.memory.get? p).bind parse = some range := by
              rw [show t.memory.get? p = some buffer from hbuffer]
              exact hrange
            simp only [onData, hfed]
            refine ⟨⟨hr, hkept, hapart, h.clean, ?_, fun _ => ⟨status, hstage⟩⟩, rfl, rfl, rfl⟩
            rw [hread, httpRequest_append, h.fed]
            simp [httpRequest, hrange]
        | end' =>
            obtain rfl := Option.some.inj hview
            exact ⟨⟨hr, hkept, hapart, h.clean, hquiet rfl, fun _ => ⟨status, hstage⟩⟩, rfl, rfl,
              rfl⟩
        | error =>
            obtain rfl := Option.some.inj hview
            exact ⟨⟨hr, hkept, hapart, h.clean, hquiet rfl, fun _ => ⟨status, hstage⟩⟩, rfl, rfl,
              rfl⟩
    · exact absurd hother (by simp)
  · trivial

/-! ### Responses -/

/-- `tcp.write` of a response, by a listener of the data. -/
theorem Wired.write (h : s.Wired fd) (hexec : s.executing = true) (payload : Tcp.Payload) :
    ((s.socket.write fd payload).bind fun u => .next (s.withSocket u)).Holds fun t =>
      t.Wired fd ∧ t.parser = s.parser ∧ t.calls = s.calls ∧
        t.written = s.written ++ [payload.bytes] := by
  have hwrite := h.writes.write payload
  obtain ⟨status, hlisteners⟩ := h.executing hexec
  refine hwrite.bind_next fun u hu hwrites => ?_
  obtain ⟨runtime, hstep, heq⟩ := Outcome.bind_eq_next.mp hu
  obtain rfl := Outcome.next.inj heq
  have hallows : s.receiver.socket.allows (.start
      (Tcp.Socket.writeCall fd s.receiver.socket.memory.top payload.bytes.length)) = true := by
    simp [ServerSocket.allows, hlisteners]
  have hstarted := receiver_step h.receiver hallows rfl (by simp) hstep
  have hr := receiver_alloc hstarted payload.bytes
  refine ⟨⟨hr, hwrites, fun e he r hread => ?_, h.clean, ?_, h.executing⟩, rfl, rfl, rfl⟩
  · obtain ⟨a, q, sqe, ha, hsqe, hkernel⟩ := Runtime.step_kernel h.writes.atRest hstep
    obtain ⟨-, haddr⟩ := Tcp.Socket.writeCall_prep ha hsqe
    have he' : e ∈ runtime.kernel.filter (isWrite fd) := he
    rw [show runtime.kernel = _ from hkernel, List.filter_append, List.mem_append] at he'
    rcases he' with he' | he'
    · exact h.apart e he' r hread
    · -- the new buffer is above those of the reads
      rw [List.mem_singleton.mp (List.mem_filter.mp he').1]
      obtain ⟨v, hv⟩ := Option.isSome_iff_exists.mp (h.receiver.stored.live r hread)
      intro heq
      have htop := Address.mem.inj (haddr.symm.trans heq)
      exact Nat.ne_of_lt (Heap.lt_top_of_get? hv) htop.symm
  · have hsame := completions_eq h.receiver hr [] (List.append_nil _).symm rfl
    exact (congrArg (fun cs => httpRequest (serverSocketRead cs)) hsame).trans h.fed

/-- A call of llhttp passes on one event at most, a head or none. -/
theorem heads_callback (p : HTTPParser) (c : Callback) :
    heads (p.callback c).2 = [] ∨ ∃ info, heads (p.callback c).2 = [info] := by
  cases c with
  | headersComplete parser now => exact .inr ⟨_, rfl⟩
  | messageBegin now => exact .inl rfl
  | url data => exact .inl rfl
  | status data => exact .inl rfl
  | headerField data => exact .inl rfl
  | headerValue data => exact .inl rfl
  | body data => exact .inl rfl
  | messageComplete now => exact .inl rfl

/-- It is handled where every name has a value. -/
theorem handleAll_callback (connection : Connection) (p : HTTPParser) (c : Callback)
    (hrange : ∀ info ∈ heads (p.callback c).2, info.keys.length ≤ info.values.length) :
    ∃ connection', connection.handleAll newStringToLcal (p.callback c).2 = some connection' := by
  cases c with
  | headersComplete parser now =>
      have hlength := hrange (p.onHeadersComplete parser now).info List.mem_cons_self
      have hpairs : setHeaders (p.onHeadersComplete parser now).info.keys
          (p.onHeadersComplete parser now).info.values ≠ none := by
        rw [Ne, setHeaders_eq_none]
        omega
      obtain ⟨pairs, hpairs⟩ := Option.ne_none_iff_exists'.mp hpairs
      simp [HTTPParser.callback, Connection.handleAll, Connection.handle, hpairs]
  | messageBegin now => exact ⟨_, rfl⟩
  | url data => exact ⟨_, rfl⟩
  | status data => exact ⟨_, rfl⟩
  | headerField data => exact ⟨_, rfl⟩
  | headerValue data => exact ⟨_, rfl⟩
  | body data => exact ⟨_, rfl⟩
  | messageComplete now => exact ⟨_, rfl⟩

theorem Inv.call (h : s.Inv fd answer) {c : Callback} (hregular : Regular fd s (.call c)) :
    (s.call fd answer c).Holds (Inv fd answer) := by
  rw [Serving.call]
  split
  · next hexec =>
    obtain ⟨connection, hconnection⟩ := handleAll_callback s.connection s.parser c hregular
    have hparse : fresh.parse (s.calls ++ [c]) =
        ((s.parser.callback c).1, (fresh.parse s.calls).2 ++ (s.parser.callback c).2) := by
      rw [HTTPParser.parse_append, ← h.parser]
      simp [HTTPParser.parse]
    have hwired : Wired fd
        { s with parser := (s.parser.callback c).1, connection, calls := s.calls ++ [c] } :=
      ⟨h.receiver, h.writes, h.apart, h.clean, h.fed, h.executing⟩
    simp only [hconnection]
    rcases heads_callback s.parser c with hheads | ⟨info, hheads⟩
    · rw [hheads]
      refine ⟨hwired, ?_, ?_⟩
      · rw [hparse]
      · rw [hparse, heads_append, hheads, List.append_nil]
        exact h.written
    · rw [hheads]
      refine (hwired.write hexec _).imp fun t ht => ?_
      obtain ⟨ht, hparser, hcalls, hwritten⟩ := ht
      refine ⟨ht, ?_, ?_⟩
      · rw [hparser, hcalls, hparse]
      · rw [hwritten, hcalls, hparse, heads_append, hheads, List.map_append]
        exact congrArg (· ++ [reply answer info]) h.written
  · trivial

theorem preservesWhen : (machine fd answer).PreservesWhen (Regular fd) (Inv fd answer) := by
  intro s a h hregular
  cases a with
  | construct => exact h.construct
  | afterEmit => exact h.afterEmit
  | arrive i c res =>
      have hclean : ∀ r, c = .received r → r.Clean := by
        rintro r rfl
        exact hregular
      exact (h.toWired.arrive hclean).imp fun t ht => h.quiet ht.1 ht.2
  | execute i k => exact (h.toWired.execute hregular).imp fun t ht => h.quiet ht.1 ht.2
  | call c => exact h.call hregular
  | executed =>
      show (if s.executing then Outcome.next { s with executing := false }
        else .disabled).Holds (Inv fd answer)
      split
      · exact ⟨⟨h.receiver, h.writes, h.apart, h.clean, h.fed, by simp⟩, h.parser, h.written⟩
      · trivial
  | other a => exact (h.toWired.other a).imp fun t ht => h.quiet ht.1 ht.2

/-! ## The connection as a function -/

/-- What goes in, and what has come out. -/
structure Answered (fd : Int32) (answer : Answer) (s : Serving) : Prop where
  /-- llhttp gets the bytes of the reads that the loop has taken, each read at once. -/
  fed : s.fed = (reads s.receiver.completions).map Received.bytes
  /-- At any time the peer has a part of the responses, and nothing else. -/
  sent : s.stream <+: replies answer s.calls
  /-- Once no write is outstanding it has them all. -/
  answered : s.socket.outstanding fd = [] → s.stream = replies answer s.calls
  /-- They are one for each message, in order. -/
  messages : ∀ messages : List Message, s.calls = messages.flatMap Message.calls →
    replies answer s.calls = messages.flatMap fun m => reply answer m.head.info

theorem Inv.answered (h : s.Inv fd answer) : s.Answered fd answer := by
  have hclean : ∀ r ∈ reads s.receiver.completions, r.Clean := by
    intro r hr
    obtain ⟨a, ha, heq⟩ := List.mem_map.mp (mem_reads hr)
    exact h.clean a (List.mem_of_mem_take ha) r heq
  obtain ⟨chunks, hsource, htotal⟩ := h.writes.total
  have hwritten : s.written.flatten = replies answer s.calls := by
    rw [h.written, replies, List.flatMap_def]
  have hstream : s.stream ++ chunks.flatten = replies answer s.calls := htotal.trans hwritten
  refine ⟨?_, ⟨_, hstream⟩, fun hnone => ?_, fun messages hmessages => ?_⟩
  · exact Option.some.inj (h.fed.symm.trans (httpRequest_clean hclean))
  · rw [hnone, List.map_nil, eq_comm, List.map_eq_nil_iff] at hsource
    rw [← hstream, hsource, List.flatten_nil, List.append_nil]
  · rw [hmessages, replies_messages]

/-- **The connection answers its requests**: in every run whose steps the code is fit for,
    llhttp gets the bytes that were received, and the peer the responses to the requests that
    llhttp reports, in order. -/
theorem requests_answered (fd : Int32) (answer : Answer) (as : List Act)
    (hregular : (machine fd answer).StepsMeet (Regular fd) init as) :
    ((machine fd answer).run as).Holds (Answered fd answer) :=
  (preservesWhen.run inv_init as hregular).imp fun _ h => h.answered

/-- One request, whose bytes do not matter here. -/
def oneRequest : List Act :=
  [.construct, .other .run, .other .outer, .arrive 0 (.received ⟨[71], by decide, by decide⟩) 1,
    .other .inner, .call (.messageBegin 0), .call (.url [47]),
    .call (.headersComplete ⟨1, 1, 0, 1⟩ 0), .call (.messageComplete 0), .executed, .afterEmit,
    .other .ret, .execute 0 57]

set_option maxRecDepth 8000 in
theorem requests_answered_one :
    (machine 5 fun _ => ({}, [])).StepsMeet (Regular 5) init oneRequest ∧
      ∃ s, (machine 5 fun _ => ({}, [])).run oneRequest = .next s ∧
        s.socket.outstanding 5 = [] ∧ Answered 5 (fun _ => ({}, [])) s :=
  have h : (machine 5 fun _ => ({}, [])).StepsMeet (Regular 5) init oneRequest := by
    decide
  ⟨h, _, rfl, rfl, (requests_answered 5 _ oneRequest h).of_next rfl⟩

end Serving

end NoJs.Http
