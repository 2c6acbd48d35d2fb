/-
  NoJs.Http.Arrivals

  A `ServerSocket` on the ring, with the buffers that the kernel fills: the
  machine of NoJs.Tcp.Reads, and what the kernel writes to where the entry of a
  read points.

  NoJs.Http.Feed says what a socket emits for a list of completions.  Here the
  list is what the kernel did in a run, with any other operations in flight
  beside the reads, and the buffers are those that the listeners are handed.
-/

import NoJs.Async.Entries
import NoJs.Http.Feed
import NoJs.Tcp.Reads

namespace NoJs.Http

open Machine NoJs.IoUring NoJs.Async Feed
open NoJs.Buffer (Bytes alloc)
open Tcp (Read ServerSocket answer)

/-! ## What the kernel does with a read -/

namespace Feed.Completion

/-- The bytes it writes. -/
def bytes : Completion → Bytes
  | received r => r.bytes
  | closed => []
  | failed => []

/-- The results it may post. -/
def allows : Completion → Int32 → Bool
  | received r, res => res == .ofNat r.bytes.length
  | closed, res => res == 0
  | failed, res => decide (res < 0)

/-- What the socket emits. -/
def event : Completion → SocketEvent
  | received r => .data r.buffer
  | closed => .end'
  | failed => .error

end Feed.Completion

/-- The buffer after the kernel has written to it. -/
def fill (bytes buffer : Bytes) : Bytes := bytes ++ buffer.drop bytes.length

/-- A completion of the read with the request `block`. -/
structure Arrival where
  block : Ptr
  completion : Completion
  res : Int32
  deriving DecidableEq, Repr

def Arrival.cqe (a : Arrival) : Cqe := ⟨a.block, a.res⟩

/-! ## The machine -/

/-- One socket, and the completions of its reads in the order the kernel posted
    them. -/
structure Receiver where
  socket : ServerSocket
  received : List Arrival

namespace Receiver

def init : Receiver := ⟨.init, []⟩

/-- The kernel finishes the `i`-th request it holds, a read of the socket. -/
def arrive (i : Nat) (c : Completion) (res : Int32) (s : Receiver) : Outcome Receiver :=
  match s.socket.runtime.kernel[i]? with
  | none => .disabled
  | some sqe =>
      if s.socket.own sqe.user_data && c.allows res && decide (c.bytes.length ≤ sqe.len.toNat) then
        match sqe.addr with
        | .mem p =>
            match s.socket.memory.get? p with
            | none => .fault
            | some _ =>
                (s.socket.other (.complete i res)).bind fun socket => .next
                  { socket := { socket with memory := socket.memory.modify p (fill c.bytes) }
                    received := s.received ++ [⟨sqe.user_data, c, res⟩] }
        | _ => .fault
      else .disabled

/-- Not the end of a read of the socket. -/
def foreign (s : Receiver) : Runtime.Act → Bool
  | .complete i _ => s.socket.runtime.kernel[i]?.all fun sqe => !s.socket.own sqe.user_data
  | _ => true

def other (a : Runtime.Act) (s : Receiver) : Outcome Receiver :=
  if s.socket.allows a && s.foreign a then
    (s.socket.other a).bind fun socket => .next { s with socket }
  else .disabled

inductive Act where
  /-- `new ServerSocket({fd})`. -/
  | construct
  /-- The listeners return. -/
  | afterEmit
  /-- The kernel finishes a read of the socket. -/
  | arrive (i : Nat) (c : Completion) (res : Int32)
  /-- Anything else that happens. -/
  | other (a : Runtime.Act)

def construct (fd : Int32) (s : Receiver) : Outcome Receiver :=
  if s.socket.reads = [] then (s.socket.read fd).bind fun socket => .next { s with socket }
  else .disabled

def afterEmit (fd : Int32) (s : Receiver) : Outcome Receiver :=
  (s.socket.afterEmit fd).bind fun socket => .next { s with socket }

def step (fd : Int32) (s : Receiver) : Act → Outcome Receiver
  | .construct => s.construct fd
  | .afterEmit => s.afterEmit fd
  | .arrive i c res => s.arrive i c res
  | .other a => s.other a

/-- A socket with the descriptor `fd`. -/
def machine (fd : Int32) : Machine Receiver Act := ⟨init, step fd⟩

/-! ## What is emitted -/

/-- An event as the listeners find it: with the contents of its buffer. -/
def view (s : Receiver) : Tcp.Event → Option SocketEvent
  | .data p => (s.socket.memory.get? p).map .data
  | .end' => some .end'
  | .error => some .error

/-- The completions the loop has taken. -/
def completions (s : Receiver) : List Completion :=
  (s.received.take s.socket.seen.length).map (·.completion)

/-! ## The invariant -/

/-- The entry of the read `r`. -/
structure EntryOf (r : Read) (e : Sqe) : Prop where
  opcode : e.opcode = IORING_OP_READ
  block : e.user_data = r.block
  addr : e.addr = .mem r.buffer

/-- What the reads have to do with their buffers, the kernel's entries and its completions. -/
structure Stored (s : Receiver) : Prop where
  /-- The buffer of a read that the kernel holds is as it was allocated. -/
  entries : ∀ e ∈ s.socket.runtime.kernel, s.socket.own e.user_data = true →
    ∃ r ∈ s.socket.reads, EntryOf r e ∧ s.socket.memory.get? r.buffer = some (alloc 1024)
  buffers : (s.socket.reads.map (·.buffer)).Nodup
  live : ∀ r ∈ s.socket.reads, (s.socket.memory.get? r.buffer).isSome
  log : s.received.map Arrival.cqe =
    s.socket.runtime.trace.posted.filter fun c => s.socket.own c.user_data
  arrived : ∀ a ∈ s.received, a.completion.allows a.res = true ∧
    ∃ r ∈ s.socket.reads, r.block = a.block ∧
      s.socket.memory.get? r.buffer = some (fill a.completion.bytes (alloc 1024))

structure Inv (s : Receiver) : Prop where
  socket : s.socket.Inv
  stored : s.Stored

variable {s : Receiver} {t : ServerSocket} {fd : Int32}

theorem inv_init : init.Inv where
  socket := ServerSocket.inv_init
  stored := ⟨by simp [init, ServerSocket.init, Runtime.init, Runtime.kernel, Environment.init,
    io_uring_queue_init], List.nodup_nil, by simp [init, ServerSocket.init], rfl, by simp [init]⟩

/-- The entry of `read`. -/
theorem entryOf_readCall {block p : Ptr} {a : AsyncRequest} {sqe : Sqe}
    (ha : (ServerSocket.readCall fd p).start = some a) (hsqe : prep block a.kind = some sqe) :
    EntryOf ⟨block, p⟩ { sqe with user_data := block } := by
  have hargs : (ServerSocket.readCall fd p).start
      = read_write_request .read (ServerSocket.readCall fd p).args := rfl
  rw [hargs] at ha
  simp only [read_write_request, ServerSocket.readCall, arg, Value.uint32, Value.backing,
    List.getD_cons_zero, List.getD_cons_succ, Option.bind_eq_bind, Option.bind_some,
    Option.pure_def, Option.some.injEq] at ha
  subst ha
  simp only [ReadWriteOp.kind, prep, Option.some.injEq] at hsqe
  subst hsqe
  exact ⟨rfl, rfl, rfl⟩

/-- A step after which the kernel holds no other entries of the socket, and has
    posted no other completions. -/
theorem Stored.frame (h : s.Stored) (hreads : t.reads = s.socket.reads)
    (hmemory : t.memory = s.socket.memory)
    (hkernel : ∀ e ∈ t.runtime.kernel, s.socket.own e.user_data = true →
      e ∈ s.socket.runtime.kernel)
    (hposted : (t.runtime.trace.posted.filter fun c => s.socket.own c.user_data) =
      s.socket.runtime.trace.posted.filter fun c => s.socket.own c.user_data) :
    Stored { s with socket := t } := by
  have hown : t.own = s.socket.own := by
    funext p
    rw [ServerSocket.own, hreads, ServerSocket.own]
  refine ⟨fun e he hmem => ?_, ?_, ?_, ?_, ?_⟩
  · simp only [hreads, hmemory]
    exact h.entries e (hkernel e he (hown ▸ hmem)) (hown ▸ hmem)
  · simp only [hreads]
    exact h.buffers
  · simp only [hreads, hmemory]
    exact h.live
  · simp only [hown, hposted]
    exact h.log
  · simp only [hreads, hmemory]
    exact h.arrived

/-! ### `read` -/

theorem Stored.read (h : s.Stored) (hbase : s.socket.Base) (hread : s.socket.read fd = .next t) :
    Stored { s with socket := t } := by
  obtain ⟨runtime, hstep, heq⟩ := Outcome.bind_eq_next.mp hread
  obtain rfl := Outcome.next.inj heq
  have hat := hbase.atRest
  obtain ⟨a, sqe, ha, hsqe, hkernel⟩ := hat.start_entry hstep
  let r : Read := ⟨s.socket.runtime.env.heap.top, s.socket.memory.top⟩
  let t : ServerSocket :=
    { s.socket with
      runtime
      memory := s.socket.memory.alloc (List.replicate 1024 0)
      reads := s.socket.reads ++ [r] }
  have hown : ∀ p, t.own p = true ↔ s.socket.own p = true ∨ p = s.socket.runtime.env.heap.top := by
    intro p
    simp only [ServerSocket.own_iff, t, r, List.mem_append, List.mem_singleton, or_and_right,
      exists_or, exists_eq_left]
    exact or_congr_right eq_comm
  have hlast : r ∈ t.reads := List.mem_append_right _ (List.mem_singleton_self r)
  -- the blocks of the past are below the new one
  have hpast : ∀ c ∈ s.socket.runtime.trace.posted,
      c.user_data < s.socket.runtime.env.heap.top := by
    intro c hc
    rw [hat.delivered, List.mem_append] at hc
    rcases hc with hc | hc
    · exact hat.past.reaped c hc
    · exact hat.sound.lt_top (List.mem_append_right _ (List.mem_map_of_mem hc))
  refine ⟨fun e he hmem => ?_, ?_, fun r' hr' => ?_, ?_, fun b hb => ?_⟩
  · rw [show t.runtime.kernel = _ from hkernel, List.mem_append, List.mem_singleton] at he
    rcases he with he | rfl
    · have hlt : e.user_data < s.socket.runtime.env.heap.top :=
        hat.sound.lt_top (List.mem_append_left _ (List.mem_map_of_mem he))
      obtain ⟨r', hr', hentry, hbuffer⟩ :=
        h.entries e he (((hown _).mp hmem).resolve_right (Nat.ne_of_lt hlt))
      exact ⟨r', List.mem_append_left _ hr', hentry, Heap.get?_alloc_of_some hbuffer⟩
    · exact ⟨r, hlast, entryOf_readCall ha hsqe, Heap.get?_alloc_top _ _⟩
  · rw [List.map_append, List.map_singleton, List.nodup_append_comm, List.singleton_append,
      List.nodup_cons]
    refine ⟨fun hold => ?_, h.buffers⟩
    obtain ⟨r', hr', hbuffer⟩ := List.mem_map.mp hold
    obtain ⟨v, hv⟩ := Option.isSome_iff_exists.mp (h.live r' hr')
    exact Nat.lt_irrefl _ (hbuffer ▸ Heap.lt_top_of_get? hv)
  · rcases List.mem_append.mp hr' with hr' | hr'
    · obtain ⟨v, hv⟩ := Option.isSome_iff_exists.mp (h.live r' hr')
      exact Option.isSome_iff_exists.mpr ⟨v, Heap.get?_alloc_of_some hv⟩
    · rw [List.mem_singleton.mp hr']
      exact Option.isSome_iff_exists.mpr ⟨_, Heap.get?_alloc_top _ _⟩
  · rw [h.log, show t.runtime.trace.posted = _ from hat.step_posted (by simp) hstep]
    refine List.filter_congr fun c hc => ?_
    rw [Bool.eq_iff_iff, hown, or_iff_left (Nat.ne_of_lt (hpast c hc))]
  · obtain ⟨hallows, r', hr', hblock, hbuffer⟩ := h.arrived b hb
    exact ⟨hallows, r', List.mem_append_left _ hr', hblock, Heap.get?_alloc_of_some hbuffer⟩

theorem Inv.construct (h : s.Inv) : (s.construct fd).Holds Inv := by
  rw [Receiver.construct]
  split
  · next hnone =>
    refine (h.socket.construct hnone).bind_next fun t hread ht => ?_
    exact ⟨ht, h.stored.read h.socket.1 hread⟩
  · trivial

theorem Inv.afterEmit (h : s.Inv) : (s.afterEmit fd).Holds Inv := by
  rw [Receiver.afterEmit]
  refine h.socket.afterEmit.bind_next fun t hemit ht => ⟨ht, ?_⟩
  rw [ServerSocket.afterEmit] at hemit
  split at hemit
  · split at hemit
    · obtain ⟨u, hread, heq⟩ := Outcome.bind_eq_next.mp hemit
      obtain rfl := Outcome.next.inj heq
      have hstored := h.stored.read h.socket.1 hread
      exact hstored.frame rfl rfl (fun e he _ => he) rfl
    · obtain rfl := Outcome.next.inj hemit
      exact h.stored.frame rfl rfl (fun e he _ => he) rfl
  · exact absurd hemit (by simp)

/-! ### The kernel -/

/-- A step of the runtime leaves the reads and the buffers alone. -/
theorem other_frame {a : Runtime.Act} (hother : s.socket.other a = .next t) :
    s.socket.runtime.step a = .next t.runtime ∧ t.reads = s.socket.reads ∧
      t.memory = s.socket.memory := by
  obtain ⟨runtime, hstep, hcase⟩ := Outcome.bind_eq_next.mp hother
  rw [hstep]
  split at hcase
  · obtain rfl := Outcome.next.inj hcase
    rw [ServerSocket.onread]
    split <;> exact ⟨rfl, rfl, rfl⟩
  · obtain rfl := Outcome.next.inj hcase
    exact ⟨rfl, rfl, rfl⟩
  · obtain rfl := Outcome.next.inj hcase
    exact ⟨rfl, rfl, rfl⟩

/-- The socket's group, as far as the kernel's entries go. -/
theorem Inv.single (h : s.Inv) : s.socket.runtime.Group s.socket.own Runtime.Single :=
  h.socket.1.group

theorem Inv.other (h : s.Inv) (a : Runtime.Act) : (s.other a).Holds Inv := by
  rw [Receiver.other]
  split
  · next hguard =>
    obtain ⟨hallows, hforeign⟩ := Bool.and_eq_true_iff.mp hguard
    refine (h.socket.other hallows).bind_next fun t hother ht => ⟨ht, ?_⟩
    obtain ⟨hstep, hreads, hmemory⟩ := other_frame hother
    have hat := h.socket.1.atRest
    by_cases hcomplete : ∃ i res, a = .complete i res
    · obtain ⟨i, res, rfl⟩ := hcomplete
      have hkernel := Runtime.step_kernel hat hstep
      cases hsqe : s.socket.runtime.kernel[i]? with
      | none =>
          rw [Runtime.step, Runtime.complete, show
            s.socket.runtime.env.io_uring_data.ring.kernel[i]? = none from hsqe] at hstep
          exact absurd hstep (by simp)
      | some sqe =>
          simp only [foreign, hsqe, Option.all_some, Bool.not_eq_true'] at hforeign
          refine h.stored.frame hreads hmemory (fun e he _ => ?_) ?_
          · rw [hkernel] at he
            exact List.mem_of_mem_eraseIdx he
          · rw [Runtime.complete_posted hsqe hstep, List.filter_append, List.filter_singleton,
              hforeign]
            exact List.append_nil _
    · have hne : ∀ i res, a ≠ .complete i res := fun i res heq => hcomplete ⟨i, res, heq⟩
      obtain ⟨added, hkernel, hnew⟩ := hat.entries_added h.single hne hstep
      refine h.stored.frame hreads hmemory (fun e he hown => ?_) ?_
      · rw [hkernel, List.mem_append] at he
        exact he.resolve_right fun he => absurd hown (by simp [hnew e he])
      · rw [hat.step_posted hne hstep]
  · trivial

/-- The invariant of the socket does not look at the buffers. -/
theorem setMemory (h : t.Inv) (memory : Heap Bytes) : ServerSocket.Inv { t with memory } := by
  obtain ⟨hbase, done, flying, haccounts, hphase⟩ := h
  exact ⟨⟨hbase.atRest, hbase.group, hbase.nodup⟩, done, flying, ⟨haccounts.reads, haccounts.seen,
    haccounts.inFlight, haccounts.events⟩, hphase⟩

/-- The kernel fills the buffer of a read, and the others stay what they were. -/
theorem Inv.arrive (h : s.Inv) (i : Nat) (c : Completion) (res : Int32) :
    (s.arrive i c res).Holds Inv := by
  rw [Receiver.arrive]
  cases hsqe : s.socket.runtime.kernel[i]? with
  | none => trivial
  | some sqe =>
      simp only
      split
      · next hguard =>
        obtain ⟨hguard, -⟩ := Bool.and_eq_true_iff.mp hguard
        obtain ⟨hown, hallows⟩ := Bool.and_eq_true_iff.mp hguard
        have hheld : sqe ∈ s.socket.runtime.kernel := List.mem_of_getElem? hsqe
        obtain ⟨r, hr, hentry, hbuffer⟩ := h.stored.entries sqe hheld hown
        simp only [hentry.addr, hbuffer]
        refine (h.socket.other (a := .complete i res) rfl).bind_next fun t hother ht => ?_
        obtain ⟨hstep, hreads, hmemory⟩ := other_frame hother
        have hat := h.socket.1.atRest
        have htown : t.own = s.socket.own := by
          funext p
          rw [ServerSocket.own, hreads, ServerSocket.own]
        have hkernel := Runtime.step_kernel hat hstep
        -- another read has another buffer
        have hkeep : ∀ r' ∈ s.socket.reads, r'.block ≠ r.block →
            (t.memory.modify r.buffer (fill c.bytes)).get? r'.buffer =
              s.socket.memory.get? r'.buffer := by
          intro r' hr' hne
          have hdistinct : r'.buffer ≠ r.buffer := fun heq =>
            hne (congrArg Read.block (List.inj_on_of_nodup_map h.stored.buffers hr' hr heq))
          rw [Heap.get?_modify_ne hdistinct, hmemory]
        refine ⟨setMemory ht _, ⟨fun e he hmem => ?_, ?_, fun r' hr' => ?_, ?_, fun a ha => ?_⟩⟩
        · have he' : e ∈ s.socket.runtime.kernel.eraseIdx i := hkernel ▸ he
          have hne := hat.entry_apart hsqe e he'
          obtain ⟨r', hr', hentry', hbuffer'⟩ :=
            h.stored.entries e (List.mem_of_mem_eraseIdx he') (htown ▸ hmem)
          refine ⟨r', hreads ▸ hr', hentry', ?_⟩
          exact (hkeep r' hr' (hentry'.block ▸ hentry.block ▸ hne)).trans hbuffer'
        · rw [hreads]
          exact h.stored.buffers
        · rw [Heap.isSome_get?_modify, hmemory]
          exact h.stored.live r' (hreads ▸ hr')
        · have hposted := Runtime.complete_posted hsqe hstep
          show _ = t.runtime.trace.posted.filter fun c => t.own c.user_data
          rw [List.map_append, h.stored.log, hposted, htown, List.filter_append,
            List.filter_singleton, hown]
          rfl
        · rw [List.mem_append, List.mem_singleton] at ha
          rcases ha with ha | rfl
          · obtain ⟨hallows', r', hr', hblock, hbuffer'⟩ := h.stored.arrived a ha
            refine ⟨hallows', r', hreads ▸ hr', hblock, ?_⟩
            have hposted : a.cqe ∈ s.socket.runtime.trace.posted := by
              have hmem := List.mem_map_of_mem (f := Arrival.cqe) ha
              rw [h.stored.log] at hmem
              exact (List.mem_filter.mp hmem).1
            have hne := hat.not_posted h.single hheld hown _ hposted
            rw [hkeep r' hr' (hblock ▸ hentry.block ▸ hne)]
            exact hbuffer'
          · refine ⟨hallows, r, hreads ▸ hr, hentry.block.symm, ?_⟩
            exact Heap.get?_modify_self (hmemory ▸ hbuffer)
      · trivial

theorem preserves : (machine fd).Preserves Inv := by
  intro s a h
  cases a with
  | construct => exact h.construct
  | afterEmit => exact h.afterEmit
  | arrive i c res => exact h.arrive i c res
  | other a => exact h.other a

/-! ## The refinement -/

/-- Two lists that agree in `f` and `g` agree in what these determine. -/
theorem map_eq_map {α β γ δ : Type} {f : α → γ} {g : β → γ} {p : α → δ} {q : β → δ} :
    ∀ {l : List α} {l' : List β}, l.map f = l'.map g →
      (∀ a ∈ l, ∀ b ∈ l', f a = g b → p a = q b) → l.map p = l'.map q := by
  intro l
  induction l with
  | nil =>
      intro l' h _
      obtain rfl := List.map_eq_nil_iff.mp h.symm
      rfl
  | cons a l ih =>
      intro l' h hrel
      obtain ⟨b, l', rfl, hb, hl⟩ := List.map_eq_cons_iff.mp h.symm
      rw [List.map_cons, List.map_cons, hrel a List.mem_cons_self b List.mem_cons_self hb.symm,
        ih hl.symm fun a ha b hb => hrel a (List.mem_cons_of_mem _ ha) b
          (List.mem_cons_of_mem _ hb)]

/-- Every completion is answered where only the last ends the stream. -/
theorem serverSocketRead_eq {cs : List Completion}
    (h : ∀ c ∈ cs.dropLast, ∃ r, c = .received r) :
    serverSocketRead cs = cs.map Completion.event := by
  induction cs with
  | nil => rfl
  | cons c cs ih =>
      cases cs with
      | nil => cases c <;> rfl
      | cons c' cs =>
          rw [List.dropLast_cons_cons] at h
          obtain ⟨⟨r, rfl⟩, hrest⟩ := List.forall_mem_cons.mp h
          rw [serverSocketRead, ih hrest]
          rfl

theorem fill_received (r : Received) :
    fill (Completion.bytes (.received r)) (alloc 1024) = r.buffer := by
  rw [fill, Completion.bytes, Received.buffer_eq, alloc, List.drop_replicate]
  rfl

/-- What the results say of a completion. -/
theorem answer_event {c : Completion} {res : Int32} (h : c.allows res = true) (p : Ptr)
    (hbuffer : s.socket.memory.get? p = some (fill c.bytes (alloc 1024))) :
    s.view (answer res p) = some c.event ∧ (0 < res ↔ ∃ r, c = .received r) := by
  cases c with
  | received r =>
      have hres : res = .ofNat r.bytes.length := by simpa [Completion.allows] using h
      have hsome := r.some_byte
      have hfits := r.in_buffer
      have hint : res.toInt = r.bytes.length := by
        rw [hres, Int32.toInt_ofNat_of_lt (by omega)]
      have hpositive : 0 < res := by
        rw [Int32.lt_iff_toInt_lt, hint]
        exact Int.ofNat_lt.mpr hsome
      have hne : res ≠ 0 := fun heq => absurd hpositive (by rw [heq]; decide)
      refine ⟨?_, fun _ => ⟨r, rfl⟩, fun _ => hpositive⟩
      rw [answer, if_neg hne, if_pos hpositive, view, hbuffer, fill_received]
      rfl
  | closed =>
      have hres : res = 0 := by simpa [Completion.allows] using h
      subst hres
      exact ⟨rfl, by simp⟩
  | failed =>
      have hneg : res < 0 := by simpa [Completion.allows] using h
      have hne : res ≠ 0 := fun heq => absurd hneg (by rw [heq]; decide)
      have hpositive : ¬ 0 < res := Int32.not_lt.mpr (Int32.le_of_lt hneg)
      refine ⟨?_, by simp [hpositive]⟩
      rw [answer, if_neg hne, if_neg hpositive]
      rfl

/-- Before the last result of a socket all are positive. -/
theorem positive_dropLast {done : List (Read × Int32)} {flying : List Read}
    (haccounts : t.Accounts done flying) (hphase : t.Phase done flying) :
    ∀ d ∈ done.dropLast, 0 < d.2 := by
  have hsettled : ServerSocket.Settled done flying → ∀ d ∈ done.dropLast, 0 < d.2 := by
    intro hsettled
    cases hsettled with
    | armed done r hpositive => exact fun d hd => hpositive d (List.dropLast_subset done hd)
    | ended before d hpositive hlast =>
        rw [List.dropLast_concat]
        exact hpositive
  rw [ServerSocket.Phase] at hphase
  cases hstage : t.stage with
  | idle =>
      rw [hstage] at hphase
      rcases hphase.2 with hnone | hs
      · have hempty := haccounts.reads
        rw [hnone, eq_comm, List.append_eq_nil_iff, List.map_eq_nil_iff] at hempty
        simp [hempty.1]
      · exact hsettled hs
  | listeners status =>
      rw [hstage] at hphase
      obtain ⟨-, -, before, r, rfl, hpositive⟩ := hphase
      rw [List.dropLast_concat]
      exact hpositive
  | returning =>
      rw [hstage] at hphase
      exact hsettled hphase.2

/-- The log, split where the loop has got to. -/
theorem Inv.split (h : s.Inv) :
    (s.received.take s.socket.seen.length).map Arrival.cqe = s.socket.seen ∧
      (s.received.drop s.socket.seen.length).map Arrival.cqe =
        s.socket.runtime.queued s.socket.own := by
  have hlog := h.stored.log
  rw [h.socket.1.atRest.posted_group] at hlog
  rw [List.map_take, List.map_drop, hlog]
  exact ⟨List.take_left, List.drop_left⟩

/-- What has been emitted, as the listeners find it. -/
theorem Inv.emits (h : s.Inv) :
    s.socket.events.map s.view = (serverSocketRead s.completions).map some := by
  obtain ⟨hbase, done, flying, haccounts, hphase⟩ := h.socket
  have hseen := h.split.1.trans haccounts.seen
  -- a completion and its read, taken together
  have hpair : ∀ a ∈ s.received.take s.socket.seen.length, ∀ d ∈ done,
      a.cqe = ⟨d.1.block, d.2⟩ →
        s.view (answer d.2 d.1.buffer) = some a.completion.event ∧
          (0 < d.2 ↔ ∃ r, a.completion = .received r) := by
    intro a ha d hd heq
    obtain ⟨hallows, r, hr, hblock, hbuffer⟩ := h.stored.arrived a (List.mem_of_mem_take ha)
    obtain ⟨hablock, hres⟩ := Cqe.mk.inj heq
    have hdr : d.1 ∈ s.socket.reads :=
      haccounts.reads ▸ List.mem_append_left _ (List.mem_map_of_mem hd)
    obtain rfl := List.inj_on_of_nodup_map hbase.nodup hr hdr (hblock.trans hablock)
    exact answer_event (hres ▸ hallows) _ hbuffer
  have hevents := map_eq_map (p := fun a : Arrival => some a.completion.event)
    (q := fun d => s.view (answer d.2 d.1.buffer)) hseen
    fun a ha d hd heq => (hpair a ha d hd heq).1.symm
  have hreceived : ∀ c ∈ s.completions.dropLast, ∃ r, c = .received r := by
    intro c hc
    rw [completions, ← List.map_dropLast] at hc
    obtain ⟨a, ha, rfl⟩ := List.mem_map.mp hc
    -- its read is not the last either
    have hlast := congrArg List.dropLast hseen
    rw [← List.map_dropLast, ← List.map_dropLast] at hlast
    obtain ⟨d, hd, heq⟩ := List.mem_map.mp (hlast ▸ List.mem_map_of_mem (f := Arrival.cqe) ha)
    refine (hpair a (List.dropLast_subset _ ha) d (List.dropLast_subset _ hd) heq.symm).2.mp ?_
    exact positive_dropLast haccounts hphase d hd
  rw [serverSocketRead_eq hreceived, completions, List.map_map, List.map_map, haccounts.events,
    List.map_map]
  exact hevents.symm

/-- **A socket emits what `serverSocketRead` says of the completions that the loop
    has taken**, with the bytes that the kernel received, and the kernel's other
    completions wait in the queue. -/
theorem emits_received (fd : Int32) (as : List Act) : ((machine fd).run as).Holds fun s =>
    s.socket.events.map s.view = (serverSocketRead s.completions).map some ∧
      (s.received.drop s.socket.seen.length).map Arrival.cqe =
        s.socket.runtime.queued s.socket.own :=
  (preserves.run inv_init as).imp fun _ h => ⟨h.emits, h.split.2⟩

/-- Beside a close, three bytes arrive; their listener has returned when the peer closes. -/
def readActs : List Act :=
  [.construct, .other (.start ⟨.close, [.number 7, .function 3], 0, fun _ _ => 0⟩), .other .run,
    .other .outer, .arrive 0 (.received zeroRead) 3, .other (.complete 0 0), .other .inner,
    .afterEmit, .other .ret, .arrive 0 .closed 0, .other .inner]

theorem emits_received_read : ∃ s, (machine 5).run readActs = .next s ∧
    s.completions = [.received zeroRead] ∧ s.received.length = 2 ∧
    s.socket.events.map s.view = (serverSocketRead s.completions).map some ∧
      (s.received.drop s.socket.seen.length).map Arrival.cqe =
        s.socket.runtime.queued s.socket.own :=
  ⟨_, rfl, rfl, rfl, (emits_received 5 readActs).of_next rfl⟩

end Receiver

end NoJs.Http
