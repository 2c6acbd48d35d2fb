/-
  NoJs.Tcp.Write

  `Socket.write` of `libs/tcp/index.js` over the asynchronous runtime: one
  socket, its writes among any other operations, and a kernel that executes the
  writes it holds in any order and appends a prefix of each to the stream.

  The completion of a write is not looked at: `tcp.write` is called without a
  callback, so a short write is neither noticed nor continued, and nothing keeps
  a write back while another is outstanding.  The stream is the concatenation of
  the buffers when the kernel executes the oldest write each time, and in full.

  The contents of a backing store stay what they were at the call.
-/

import NoJs.Async.Kernel
import NoJs.Buffer.Encode

namespace NoJs.Tcp

open Machine NoJs.IoUring NoJs.Async
open NoJs.Buffer (Bytes from')
open Utf16 (Str)

/-- What `write` is called with. -/
inductive Payload where
  | string (s : Str)
  | buffer (bytes : Bytes)

/-- `if (typeof buffer === 'string') buffer = Buffer.from(buffer)`. -/
def Payload.bytes : Payload → Bytes
  | string s => from' s
  | buffer bytes => bytes

/-- One socket: the runtime, the backing stores of the buffers written, the bytes
    the kernel has appended to its stream, and the buffers written so far. -/
structure Socket where
  runtime : Runtime
  memory : Heap Bytes
  stream : Bytes
  written : List Bytes

/-- A WRITE entry on the descriptor `fd`. -/
def isWrite (fd : Int32) (sqe : Sqe) : Bool := sqe.opcode == IORING_OP_WRITE && sqe.fd == fd

/-- A request that writes to the descriptor `fd`. -/
def writesTo (fd : Int32) : Kind → Bool
  | .write r => r.fd == fd
  | .writev r => r.fd == fd
  | _ => false

namespace Socket

def init : Socket where
  runtime := .init
  memory := .empty
  stream := []
  written := []

/-- `tcp.write(this.fd, buffer)`. -/
def writeCall (fd : Int32) (p : Ptr) (length : Nat) : Call where
  entry := .write
  args := [.number fd.toInt,
    .uint8Array { buffer := ⟨p, length⟩, byteOffset := 0, byteLength := length }]

/-- `Socket.write`. -/
def write (fd : Int32) (data : Payload) (s : Socket) : Outcome Socket :=
  (s.runtime.step (.start (writeCall fd s.memory.top data.bytes.length))).bind fun runtime => .next
    { s with
      runtime
      memory := s.memory.alloc data.bytes
      written := s.written ++ [data.bytes] }

/-- The bytes a WRITE entry points to. -/
def source (s : Socket) (sqe : Sqe) : Option Bytes :=
  match sqe.addr with
  | .mem p => s.memory.get? p
  | _ => none

/-- How many bytes the kernel may write of `n`. -/
def allowed (k n : Nat) : Prop := if n = 0 then k = 0 else 1 ≤ k ∧ k ≤ n

instance (k n : Nat) : Decidable (allowed k n) := inferInstanceAs (Decidable (ite _ _ _))

/-- The kernel executes the `i`-th entry it holds, a write of the socket, and
    appends `k` bytes. -/
def execute (fd : Int32) (i k : Nat) (s : Socket) : Outcome Socket :=
  match s.runtime.kernel[i]? with
  | none => .disabled
  | some sqe =>
      if isWrite fd sqe then
        match s.source sqe with
        | none => .fault
        | some bytes =>
            if allowed k sqe.len.toNat then
              (s.runtime.step (.complete i (.ofNat k))).bind fun runtime => .next
                { s with runtime, stream := s.stream ++ bytes.take k }
            else .disabled
      else .disabled

/-- A step of the runtime that neither calls `write` on the descriptor nor
    completes such a call. -/
def foreign (fd : Int32) (s : Socket) : Runtime.Act → Bool
  | .start c => c.start.all fun a => !writesTo fd a.kind
  | .complete i _ => s.runtime.kernel[i]?.all fun sqe => !isWrite fd sqe
  | _ => true

inductive Act where
  /-- JavaScript calls `socket.write`. -/
  | write (data : Payload)
  /-- The kernel executes a write. -/
  | execute (i k : Nat)
  /-- Anything else that happens. -/
  | other (a : Runtime.Act)

def step (fd : Int32) (s : Socket) : Act → Outcome Socket
  | .write data => s.write fd data
  | .execute i k => s.execute fd i k
  | .other a =>
      if s.foreign fd a then (s.runtime.step a).bind fun runtime => .next { s with runtime }
      else .disabled

/-- A socket with the descriptor `fd`. -/
def machine (fd : Int32) : Machine Socket Act := ⟨init, step fd⟩

/-! ## The stream -/

/-- The writes of the socket that the kernel has not executed. -/
def outstanding (fd : Int32) (s : Socket) : List Sqe := s.runtime.kernel.filter (isWrite fd)

/-- Once no write is outstanding the stream is what was written. -/
def Reliable (fd : Int32) (s : Socket) : Prop :=
  s.outstanding fd = [] → s.stream = s.written.flatten

/-- The kernel executes the oldest outstanding write, and in full. -/
def InOrder (fd : Int32) (s : Socket) : Act → Prop
  | .execute i k =>
      (∀ sqe ∈ s.runtime.kernel.take i, isWrite fd sqe = false) ∧
        ∀ sqe ∈ s.runtime.kernel[i]?, ∀ bytes ∈ s.source sqe, k = bytes.length
  | _ => True

instance (fd : Int32) (s : Socket) : ∀ a, Decidable (InOrder fd s a)
  | .write _ => isTrue trivial
  | .execute _ _ => inferInstanceAs (Decidable (_ ∧ _))
  | .other _ => isTrue trivial

/-- What is in the stream and what the outstanding writes will append, in the
    order of their calls, is what was written. -/
structure Inv (fd : Int32) (s : Socket) : Prop where
  atRest : s.runtime.AtRest
  total : ∃ chunks : List Bytes, (s.outstanding fd).map s.source = chunks.map some ∧
    s.stream ++ chunks.flatten = s.written.flatten

variable {fd : Int32} {s : Socket}

theorem inv_init : Inv fd init where
  atRest := Runtime.inv_init
  total := ⟨[], rfl, rfl⟩

theorem Inv.reliable (h : Inv fd s) : Reliable fd s := by
  intro hnone
  obtain ⟨chunks, hsource, htotal⟩ := h.total
  rw [hnone, List.map_nil, eq_comm, List.map_eq_nil_iff] at hsource
  rw [← htotal, hsource, List.flatten_nil, List.append_nil]

/-! ### The entries -/

theorem isWrite_accept {sqe : Sqe} (h : sqe.opcode = IORING_OP_ACCEPT) : isWrite fd sqe = false := by
  rw [isWrite, h]
  simp [IORING_OP_ACCEPT, IORING_OP_WRITE]

/-- The entry of a request is a write of the socket only if the request is. -/
theorem isWrite_prep {p q : Ptr} {k : Kind} {sqe : Sqe} (hsqe : prep p k = some sqe)
    (hk : writesTo fd k = false) : isWrite fd { sqe with user_data := q } = false := by
  cases k <;> simp only [prep, Option.some.injEq, reduceCtorEq] at hsqe <;> subst hsqe
  case write r => simpa [isWrite, io_uring_prep_rw, writesTo] using hk
  all_goals
    simp [isWrite, io_uring_prep_rw, IORING_OP_READ, IORING_OP_READV, IORING_OP_WRITEV,
      IORING_OP_WRITE, IORING_OP_ACCEPT, IORING_OP_OPENAT, IORING_OP_CONNECT, IORING_OP_CLOSE,
      IORING_OP_NOP]

/-- The entry of `write`. -/
theorem writeCall_prep {p q : Ptr} {length : Nat} {a : AsyncRequest} {sqe : Sqe}
    (ha : (writeCall fd p length).start = some a) (hsqe : prep q a.kind = some sqe) :
    isWrite fd sqe = true ∧ sqe.addr = .mem p := by
  have hargs : (writeCall fd p length).start
      = read_write_request .write (writeCall fd p length).args := rfl
  rw [hargs] at ha
  simp only [read_write_request, writeCall, arg, Value.uint32, Value.backing, List.getD_cons_zero,
    List.getD_cons_succ, Option.bind_eq_bind, Option.bind_some, Option.pure_def,
    Option.some.injEq, toInt32_ofInt] at ha
  subst ha
  simp only [ReadWriteOp.kind, prep, Option.some.injEq] at hsqe
  subst hsqe
  exact ⟨by simp [isWrite, io_uring_prep_rw], rfl⟩

/-- Without the `i`-th entry. -/
theorem filter_eraseIdx {α : Type} {p : α → Bool} {l : List α} {i : Nat} {x : α}
    (hx : l[i]? = some x) :
    ((∀ y ∈ l.take i, p y = false) → p x = true → l.filter p = x :: (l.eraseIdx i).filter p) ∧
      (p x = false → (l.eraseIdx i).filter p = l.filter p) := by
  obtain ⟨hi, rfl⟩ := List.getElem?_eq_some_iff.mp hx
  have hsplit : l = l.take i ++ l[i] :: l.drop (i + 1) := by
    rw [← List.drop_eq_getElem_cons hi, List.take_append_drop]
  constructor
  · intro hfront hp
    have hnone : (l.take i).filter p = [] :=
      List.filter_eq_nil_iff.mpr fun y hy => by simp [hfront y hy]
    rw [List.eraseIdx_eq_take_drop_succ, List.filter_append, hnone, List.nil_append]
    conv_lhs => rw [hsplit, List.filter_append, hnone, List.nil_append, List.filter_cons_of_pos hp]
  · intro hp
    rw [List.eraseIdx_eq_take_drop_succ, List.filter_append]
    conv_rhs => rw [hsplit, List.filter_append, List.filter_cons_of_neg (by simp [hp])]

/-! ### The steps -/

/-- A step of the runtime that leaves the socket's writes where they are. -/
theorem Inv.runtime (h : Inv fd s) {a : Runtime.Act} {runtime : Runtime}
    (hstep : s.runtime.step a = .next runtime)
    (hsame : runtime.kernel.filter (isWrite fd) = s.outstanding fd) :
    Inv fd { s with runtime } := by
  obtain ⟨chunks, hsource, htotal⟩ := h.total
  refine ⟨(h.atRest.step a).of_next hstep, chunks, ?_, htotal⟩
  rw [outstanding, hsame]
  exact hsource

/-- A step that is not about the socket's writes leaves those outstanding. -/
theorem outstanding_other (h : s.runtime.AtRest) {a : Runtime.Act} {runtime : Runtime}
    (hforeign : s.foreign fd a = true) (hstep : s.runtime.step a = .next runtime) :
    runtime.kernel.filter (isWrite fd) = s.outstanding fd := by
  have hmoves := Runtime.step_kernel h hstep
  have hrearms : Runtime.Rearms s.runtime runtime →
      runtime.kernel.filter (isWrite fd) = s.outstanding fd := by
    rintro ⟨added, hadded, hop⟩
    have hnone : added.filter (isWrite fd) = [] :=
      List.filter_eq_nil_iff.mpr fun sqe hsqe => by simp [isWrite_accept (hop sqe hsqe)]
    rw [hadded, List.filter_append, hnone, List.append_nil, outstanding]
  cases a with
  | start c =>
      obtain ⟨async, p, sqe, hc, hsqe, hkernel⟩ := hmoves
      simp only [foreign, hc, Option.all_some, Bool.not_eq_true'] at hforeign
      rw [hkernel, List.filter_append, List.filter_singleton, isWrite_prep hsqe hforeign]
      exact List.append_nil _
  | complete i res =>
      cases hsqe : s.runtime.kernel[i]? with
      | none =>
          have hdisabled : s.runtime.step (.complete i res) = .disabled := by
            simp only [Runtime.step, Runtime.complete, show
              s.runtime.env.io_uring_data.ring.kernel[i]? = none from hsqe]
          rw [hdisabled] at hstep
          exact absurd hstep (by simp)
      | some sqe =>
          simp only [foreign, hsqe, Option.all_some, Bool.not_eq_true'] at hforeign
          rw [hmoves]
          exact (filter_eraseIdx hsqe).2 hforeign
  | stop | run | outer | inner | ret => exact hrearms hmoves

theorem Inv.other (h : Inv fd s) {a : Runtime.Act} (hforeign : s.foreign fd a = true) :
    ((s.runtime.step a).bind fun runtime => .next { s with runtime }).Holds (Inv fd) :=
  (h.atRest.step a).bind_next fun _ hstep _ =>
    h.runtime hstep (outstanding_other h.atRest hforeign hstep)

/-- A write goes behind those outstanding. -/
theorem Inv.write (h : Inv fd s) (data : Payload) : (s.write fd data).Holds (Inv fd) := by
  rw [Socket.write]
  refine (h.atRest.step (.start (writeCall fd s.memory.top data.bytes.length))).bind_next
    fun runtime hstep hat => ?_
  obtain ⟨chunks, hsource, htotal⟩ := h.total
  obtain ⟨a, q, sqe, ha, hsqe, hkernel⟩ := Runtime.step_kernel h.atRest hstep
  obtain ⟨hwrite, haddr⟩ := writeCall_prep ha hsqe
  refine ⟨hat, chunks ++ [data.bytes], ?_, ?_⟩
  · -- the stores of the writes outstanding are not touched
    have hold : ∀ e ∈ s.outstanding fd,
        source { s with runtime, memory := s.memory.alloc data.bytes,
                        written := s.written ++ [data.bytes] } e = s.source e := by
      intro e he
      have hsome : s.source e ∈ chunks.map some := by
        rw [← hsource]
        exact List.mem_map_of_mem he
      obtain ⟨bytes, -, hbytes⟩ := List.mem_map.mp hsome
      rw [← hbytes]
      rw [source] at hbytes
      split at hbytes
      · next p hp =>
        simp only [source, hp]
        exact Heap.get?_alloc_of_some hbytes.symm
      · exact absurd hbytes (by simp)
    have hnew : isWrite fd { sqe with user_data := q } = true := hwrite
    rw [outstanding, hkernel, List.filter_append, List.filter_singleton, hnew, cond_true,
      List.map_append, List.map_append, ← hsource]
    apply congrArg₂ (· ++ ·) (List.map_congr_left hold)
    simp only [List.map_cons, List.map_nil, source, haddr, Heap.get?_alloc_top]
  · rw [List.flatten_append, ← List.append_assoc, htotal, List.flatten_append]

/-- The oldest write, executed in full, moves from the front of what is
    outstanding to the end of the stream. -/
theorem Inv.execute (h : Inv fd s) {i k : Nat} (horder : s.InOrder fd (.execute i k)) :
    (s.execute fd i k).Holds (Inv fd) := by
  obtain ⟨hfront, hfull⟩ := horder
  rw [Socket.execute]
  cases hsqe : s.runtime.kernel[i]? with
  | none => trivial
  | some sqe =>
      obtain ⟨chunks, hsource, htotal⟩ := h.total
      by_cases hwrite : isWrite fd sqe = true
      · have hout : s.outstanding fd = sqe :: (s.runtime.kernel.eraseIdx i).filter (isWrite fd) :=
          (filter_eraseIdx hsqe).1 hfront hwrite
        rw [hout, List.map_cons] at hsource
        cases chunks with
        | nil => exact absurd hsource (List.cons_ne_nil _ _)
        | cons bytes chunks =>
            obtain ⟨hbytes, hrest⟩ := List.cons.inj hsource
            have hk : k = bytes.length := hfull sqe hsqe bytes hbytes
            simp only [hwrite, if_true, hbytes]
            split
            · refine (h.atRest.step (.complete i (.ofNat k))).bind_next fun runtime hstep hat => ?_
              have hkernel := Runtime.step_kernel h.atRest hstep
              refine ⟨hat, chunks, ?_, ?_⟩
              · rw [outstanding, hkernel]
                exact hrest
              · rw [hk, List.take_length, List.append_assoc, ← List.flatten_cons]
                exact htotal
            · trivial
      · simp only [hwrite]
        trivial

theorem preservesWhen : (machine fd).PreservesWhen (InOrder fd) (Inv fd) := by
  intro s a h horder
  cases a with
  | write data => exact h.write data
  | execute i k => exact h.execute horder
  | other a =>
      simp only [machine, step]
      split
      · next hforeign => exact h.other hforeign
      · trivial

/-- **The stream carries what was written**: in every run in which the kernel
    executes the oldest outstanding write each time, and in full. -/
theorem reliable_stream (fd : Int32) (as : List Act)
    (horder : (machine fd).StepsMeet (InOrder fd) init as) :
    ((machine fd).run as).Holds (Reliable fd) :=
  (preservesWhen.run inv_init as horder).imp fun _ hs => hs.reliable

/-- Two writes, the second made while the first is outstanding. -/
def twoWrites : List Act :=
  [.write (.buffer [97, 98]), .write (.buffer [99]), .execute 0 2, .execute 0 1]

theorem reliable_stream_two : ∃ s, (machine 5).run twoWrites = .next s ∧ s.outstanding 5 = [] ∧
    s.stream = [97, 98, 99] ∧ Reliable 5 s :=
  ⟨_, rfl, rfl, rfl, (reliable_stream 5 twoWrites (by decide)).of_next rfl⟩

/-- The kernel takes one of the two bytes: the other is lost. -/
theorem short_write_lost : ¬ ∀ (fd : Int32) (as : List Act),
    ((machine fd).run as).Holds (Reliable fd) := by
  intro h
  have hshort : ∃ s, (machine 5).run [.write (.buffer [97, 98]), .execute 0 1] = .next s ∧
      s.outstanding 5 = [] ∧ s.stream = [97] ∧ s.written = [[97, 98]] :=
    ⟨_, rfl, rfl, rfl, rfl⟩
  obtain ⟨s, hrun, hnone, hstream, hwritten⟩ := hshort
  have hreliable := (h 5 _).of_next hrun hnone
  rw [hstream, hwritten] at hreliable
  exact absurd hreliable (by decide)

end Socket

end NoJs.Tcp
