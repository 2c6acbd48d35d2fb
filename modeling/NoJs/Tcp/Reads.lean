/-
  NoJs.Tcp.Reads

  `ServerSocket` of `libs/tcp/index.js` over the asynchronous runtime: its
  constructor calls `read`, and the callback of each read emits an event and,
  after data, calls `read` again.

  The callback is taken in three parts, since listeners run inside it: the event
  is emitted, the listeners do what they like, and then `read` is called or not.
  Every request, context and closure serves one read, so the run lemma pairs the
  reads made with the completions taken for them, oldest first.
-/

import NoJs.Async.Kernel
import NoJs.Async.Steps
import NoJs.Buffer.Encode

namespace NoJs.Tcp

open Machine NoJs.IoUring NoJs.Async
open NoJs.Buffer (Bytes)

/-- A call of `read`: the block of its request and the store of its buffer. -/
structure Read where
  block : Ptr
  buffer : Ptr
  deriving DecidableEq, Repr

/-- What a socket emits. -/
inductive Event where
  | data (buffer : Ptr)
  | end'
  | error
  deriving DecidableEq, Repr

def Event.isData : Event → Bool
  | data _ => true
  | _ => false

/-- What the callback of a read emits for `status`. -/
def answer (status : Int32) (buffer : Ptr) : Event :=
  if status = 0 then .end' else if 0 < status then .data buffer else .error

/-- Where the socket's callback stands. -/
inductive Stage where
  /-- It is not running. -/
  | idle
  /-- In `emit`: the listeners run. -/
  | listeners (status : Int32)
  /-- `emit` has returned, and `read` has been called if it is. -/
  | returning
  deriving DecidableEq, Repr

/-- One socket: the runtime, the backing stores of its buffers, the reads it has
    made, and what it has emitted. -/
structure ServerSocket where
  runtime : Runtime
  memory : Heap Bytes
  reads : List Read
  events : List Event
  stage : Stage

namespace ServerSocket

def init : ServerSocket where
  runtime := .init
  memory := .empty
  reads := []
  events := []
  stage := .idle

/-- The requests of the socket. -/
def own (s : ServerSocket) (p : Ptr) : Bool := s.reads.any (·.block == p)

/-- `tcp.read(this.fd, buffer, 0, (status) => …)`, with one closure for each buffer. -/
def readCall (fd : Int32) (p : Ptr) : Call where
  entry := .read
  args := [.number fd.toInt,
    .uint8Array { buffer := ⟨p, 1024⟩, byteOffset := 0, byteLength := 1024 },
    .number 0, .function p]

/-- `read`. -/
def read (fd : Int32) (s : ServerSocket) : Outcome ServerSocket :=
  (s.runtime.step (.start (readCall fd s.memory.top))).bind fun runtime => .next
    { s with
      runtime
      memory := s.memory.alloc (List.replicate 1024 0)
      reads := s.reads ++ [⟨s.runtime.env.heap.top, s.memory.top⟩] }

/-- The callback of a read, up to the listeners: `status` is the result in the
    request. -/
def onread (p : Ptr) (s : ServerSocket) : ServerSocket :=
  match s.reads.find? (·.block == p), s.runtime.env.heap.get? p with
  | some r, some req =>
      { s with events := s.events ++ [answer req.res r.buffer], stage := .listeners req.res }
  | _, _ => s

/-- The callback of a read, after the listeners. -/
def afterEmit (fd : Int32) (s : ServerSocket) : Outcome ServerSocket :=
  match s.stage with
  | .listeners status =>
      if 0 < status then (s.read fd).bind fun s => .next { s with stage := .returning }
      else .next { s with stage := .returning }
  | _ => .disabled

/-- What can happen besides: anything, but within the socket's callback only what
    its listeners do, and nothing once they have returned but that it returns. -/
def allows (s : ServerSocket) : Runtime.Act → Bool
  | .complete _ _ => true
  | .ret => s.stage = .idle || s.stage = .returning
  | _ => s.stage != .returning

/-- A step of the runtime: it may enter or leave the socket's callback. -/
def other (a : Runtime.Act) (s : ServerSocket) : Outcome ServerSocket :=
  (s.runtime.step a).bind fun runtime =>
    match a, runtime.handling s.own with
    | .inner, some p => .next (onread p { s with runtime })
    | .ret, _ => .next { s with runtime, stage := .idle }
    | _, _ => .next { s with runtime }

inductive Act where
  /-- `new ServerSocket({fd})`. -/
  | construct
  /-- The listeners return. -/
  | afterEmit
  /-- Anything else that happens. -/
  | other (a : Runtime.Act)

def step (fd : Int32) (s : ServerSocket) : Act → Outcome ServerSocket
  | .construct => if s.reads = [] then s.read fd else .disabled
  | .afterEmit => s.afterEmit fd
  | .other a => if s.allows a then s.other a else .disabled

/-- A socket with the descriptor `fd`. -/
def machine (fd : Int32) : Machine ServerSocket Act := ⟨init, step fd⟩

/-! ## One read outstanding until the end -/

/-- The completions the socket has seen, in order. -/
def seen (s : ServerSocket) : List Cqe := s.runtime.taken s.own

/-- Its reads in flight. -/
def inFlight (s : ServerSocket) : List Ptr := s.runtime.flying s.own

/-- It has seen a completion with a result that is not positive. -/
def ended (s : ServerSocket) : Prop := ∃ c ∈ s.seen, c.res ≤ 0

instance (s : ServerSocket) : Decidable s.ended := inferInstanceAs (Decidable (∃ c ∈ s.seen, _))

/-- The reads completed, with their results, and the reads in flight. -/
structure Accounts (s : ServerSocket) (done : List (Read × Int32)) (flying : List Read) :
    Prop where
  reads : s.reads = done.map (·.1) ++ flying
  seen : s.seen = done.map fun d => ⟨d.1.block, d.2⟩
  inFlight : s.inFlight.Perm (flying.map (·.block))
  events : s.events = done.map fun d => answer d.2 d.1.buffer

/-- One read in flight after positive results, or none after the first other. -/
inductive Settled : List (Read × Int32) → List Read → Prop where
  | armed (done : List (Read × Int32)) (r : Read) (positive : ∀ d ∈ done, 0 < d.2) :
      Settled done [r]
  | ended (before : List (Read × Int32)) (d : Read × Int32) (positive : ∀ d ∈ before, 0 < d.2)
      (last : d.2 ≤ 0) : Settled (before ++ [d]) []

/-- The phases of a socket. -/
def Phase (s : ServerSocket) (done : List (Read × Int32)) (flying : List Read) : Prop :=
  match s.stage with
  | .idle => s.runtime.handling s.own = none ∧ (s.reads = [] ∨ Settled done flying)
  | .listeners status => (s.runtime.handling s.own).isSome ∧ flying = [] ∧
      ∃ before r, done = before ++ [(r, status)] ∧ ∀ d ∈ before, 0 < d.2
  | .returning => (s.runtime.handling s.own).isSome ∧ Settled done flying

/-- A read: it has a callback and is not armed again. -/
def IsRead (x : Started) : Prop := Runtime.Callable x ∧ x.async.again = false

structure Base (s : ServerSocket) : Prop where
  atRest : s.runtime.AtRest
  group : s.runtime.Group s.own IsRead
  nodup : (s.reads.map (·.block)).Nodup

def Inv (s : ServerSocket) : Prop :=
  s.Base ∧ ∃ done flying, s.Accounts done flying ∧ s.Phase done flying

variable {fd : Int32} {s : ServerSocket} {done : List (Read × Int32)} {flying : List Read}

theorem own_iff {p : Ptr} : s.own p = true ↔ ∃ r ∈ s.reads, r.block = p := by
  simp [own]

theorem inv_init : Inv init := by
  refine ⟨⟨Runtime.inv_init, ⟨fun x hx => ?_, fun p hp => ?_⟩, List.nodup_nil⟩, [], [],
    ⟨rfl, rfl, List.Perm.refl _, rfl⟩, rfl, Or.inl rfl⟩
  · exact absurd hx (by simp [init, Runtime.init])
  · exact absurd hp (by simp [init, own])

theorem Base.setStage (h : s.Base) (stage : Stage) : Base { s with stage } :=
  ⟨h.atRest, h.group, h.nodup⟩

theorem Accounts.setStage (h : s.Accounts done flying) (stage : Stage) :
    Accounts { s with stage } done flying :=
  ⟨h.reads, h.seen, h.inFlight, h.events⟩

/-! ### `read` -/

theorem isRead_readCall {p : Ptr} {x : Started} (hcall : x.call = readCall fd p)
    (hstart : (readCall fd p).start = some x.async) : IsRead x := by
  refine ⟨⟨by simp [hcall, readCall], p, by simp [hcall, readCall, Call.callback, arg,
    EntryPoint.callbackArg, Value.function?]⟩, ?_⟩
  simp only [Call.start, readCall, read_write_request, Option.bind_eq_bind,
    Option.bind_eq_some_iff, Option.pure_def, Option.some.injEq] at hstart
  obtain ⟨fd, -, backing, -, hasync⟩ := hstart
  simp [← hasync, AsyncRequest.again, AsyncRequest.request, Request.again]

theorem Base.read (h : s.Base) (haccounts : s.Accounts done []) :
    (s.read fd).Holds fun t => t.Base ∧ t.stage = s.stage ∧
      t.runtime.handling t.own = s.runtime.handling s.own ∧
      ∃ r, t.Accounts done [r] := by
  rw [ServerSocket.read]
  refine (h.atRest.step (.start (readCall fd s.memory.top))).bind_next fun runtime hstep hat => ?_
  have hstarts := h.atRest.starts hstep
  let r : Read := ⟨s.runtime.env.heap.top, s.memory.top⟩
  let t : ServerSocket :=
    { s with runtime, memory := s.memory.alloc (List.replicate 1024 0),
             reads := s.reads ++ [r] }
  have hmem : ∀ p, t.own p = true ↔ s.own p = true ∨ p = s.runtime.env.heap.top := by
    intro p
    simp only [own_iff, t, r, List.mem_append, List.mem_singleton, or_and_right, exists_or,
      exists_eq_left]
    exact or_congr_right eq_comm
  obtain ⟨htaken, hflying, hhandling⟩ := hstarts.extend h.atRest hmem
  refine ⟨⟨hat, ?_, ?_⟩, rfl, hhandling, r, ?_, ?_, ?_, haccounts.events⟩
  · exact hstarts.group h.group hmem h.atRest fun x => isRead_readCall
  · rw [List.map_append, List.map_singleton, List.nodup_append_comm, List.singleton_append,
      List.nodup_cons]
    -- the new block is above those of the reads before
    refine ⟨fun hold => ?_, h.nodup⟩
    obtain ⟨r', hr', hblock⟩ := List.mem_map.mp hold
    exact Nat.lt_irrefl _ (hblock ▸ h.group.lt_top h.atRest (own_iff.mpr ⟨r', hr', rfl⟩))
  · rw [haccounts.reads, List.append_nil]
  · exact htaken.trans haccounts.seen
  · exact hflying.trans (List.Perm.cons _ haccounts.inFlight)

theorem Inv.construct (h : s.Inv) (hnone : s.reads = []) : (s.read fd).Holds Inv := by
  obtain ⟨hbase, done, flying, haccounts, hphase⟩ := h
  have hempty := haccounts.reads
  rw [hnone, eq_comm, List.append_eq_nil_iff, List.map_eq_nil_iff] at hempty
  obtain ⟨rfl, rfl⟩ := hempty
  refine (hbase.read haccounts).imp fun t ht => ?_
  obtain ⟨hbase', hstage, hhandling, r, haccounts'⟩ := ht
  refine ⟨hbase', [], [r], haccounts', ?_⟩
  -- without a read the callback is not running
  have hidle : s.runtime.handling s.own = none := by
    have hown : s.own = fun _ => false := by
      funext p
      simp [own, hnone]
    rw [Runtime.handling, hown]
    cases s.runtime.ctl.running <;> rfl
  have hstage' : s.stage = .idle := by
    rw [Phase, hidle] at hphase
    cases hs : s.stage <;> simp [hs] at hphase ⊢
  rw [Phase, hstage, hstage', hhandling]
  exact ⟨hidle, Or.inr (.armed [] r (by simp))⟩

theorem Inv.afterEmit (h : s.Inv) : (s.afterEmit fd).Holds Inv := by
  obtain ⟨hbase, done, flying, haccounts, hphase⟩ := h
  rw [ServerSocket.afterEmit]
  cases hstage : s.stage with
  | idle => trivial
  | returning => trivial
  | listeners status =>
      rw [Phase, hstage] at hphase
      obtain ⟨hrunning, rfl, before, r, rfl, hpositive⟩ := hphase
      simp only
      by_cases hdata : 0 < status
      · -- after data the next read is in flight
        rw [if_pos hdata]
        refine (hbase.read haccounts).bind fun t ht => ?_
        obtain ⟨hbase', -, hhandling, r', haccounts'⟩ := ht
        refine ⟨hbase'.setStage _, _, [r'], haccounts'.setStage _, ?_, ?_⟩
        · show (t.runtime.handling t.own).isSome
          rw [hhandling]
          exact hrunning
        · refine .armed _ r' fun d hd => ?_
          rcases List.mem_append.mp hd with hd | hd
          · exact hpositive d hd
          · rw [List.mem_singleton.mp hd]
            exact hdata
      · -- at the end, or after an error, there is none
        rw [if_neg hdata]
        exact ⟨hbase.setStage _, _, [], haccounts.setStage _, hrunning,
          .ended before (r, status) hpositive (Int32.not_lt.mp hdata)⟩

/-- The listeners never return in vain: the callback goes on, with `read` after data. -/
theorem Inv.afterEmit_next (h : s.Inv) {status : Int32} (hstage : s.stage = .listeners status) :
    ∃ t, s.afterEmit fd = .next t := by
  obtain ⟨hbase, done, flying, -, hphase⟩ := h
  rw [Phase, hstage] at hphase
  obtain ⟨runtime, hruntime⟩ := hbase.atRest.start_next (Runtime.runsJs_of_handling hphase.1)
    (show (readCall fd s.memory.top).start = some _ from rfl)
  simp only [ServerSocket.afterEmit, hstage, ServerSocket.read, hruntime, Outcome.bind_next]
  split <;> exact ⟨_, rfl⟩

/-! ### Steps of the runtime -/

theorem Base.runtime (h : s.Base) {a : Runtime.Act} {runtime : Runtime}
    (hstep : s.runtime.step a = .next runtime) : Base { s with runtime } :=
  ⟨(h.atRest.step a).of_next hstep, h.group.step h.atRest hstep, h.nodup⟩

theorem Phase.idle (h : s.Phase done flying) (hnone : s.runtime.handling s.own = none) :
    s.stage = .idle := by
  rw [Phase, hnone] at h
  cases hstage : s.stage <;> simp [hstage] at h ⊢

theorem Base.find? (h : s.Base) {r : Read} (hr : r ∈ s.reads) :
    s.reads.find? (·.block == r.block) = some r := by
  have hsome : (s.reads.find? (·.block == r.block)).isSome :=
    List.find?_isSome.mpr ⟨r, hr, by simp⟩
  obtain ⟨r', hr'⟩ := Option.isSome_iff_exists.mp hsome
  have hblock : r'.block = r.block := by simpa using List.find?_some hr'
  rw [hr', List.inj_on_of_nodup_map h.nodup (List.mem_of_find?_eq_some hr') hr hblock]

/-- A step that does not concern the socket. -/
theorem Inv.same (h : s.Inv) {a : Runtime.Act} {runtime : Runtime}
    (hstep : s.runtime.step a = .next runtime)
    (htaken : runtime.taken s.own = s.runtime.taken s.own)
    (hflying : (runtime.flying s.own).Perm (s.runtime.flying s.own))
    (hhandling : runtime.handling s.own = s.runtime.handling s.own) : Inv { s with runtime } := by
  obtain ⟨hbase, done, flying, haccounts, hphase⟩ := h
  refine ⟨hbase.runtime hstep, done, flying, ⟨haccounts.reads, htaken.trans haccounts.seen,
    hflying.trans haccounts.inFlight, haccounts.events⟩, ?_⟩
  rw [Phase] at hphase ⊢
  rw [← hhandling] at hphase
  exact hphase

/-- The loop calls the socket's callback: it was for the read in flight. -/
theorem Inv.called (h : s.Inv) {p : Ptr} {res : Int32} {runtime : Runtime}
    (hstep : s.runtime.step .inner = .next runtime) (hmem : s.own p = true)
    (htaken : runtime.taken s.own = s.runtime.taken s.own ++ [⟨p, res⟩])
    (hflying : (s.runtime.flying s.own).Perm (p :: runtime.flying s.own))
    (hidle : s.runtime.handling s.own = none) (hctl : runtime.ctl = .callback p)
    (hres : (runtime.env.heap.get? p).map (·.res) = some res) :
    (onread p { s with runtime }).Inv := by
  obtain ⟨hbase, done, flying, haccounts, hphase⟩ := h
  have hstage := hphase.idle hidle
  rw [Phase, hstage] at hphase
  have hreads : s.reads ≠ [] := by
    obtain ⟨r, hr, -⟩ := own_iff.mp hmem
    exact List.ne_nil_of_mem hr
  have hone := hflying.symm.trans haccounts.inFlight
  cases hphase.2.resolve_left hreads with
  | ended before d => exact absurd hone.length_eq (by simp)
  | armed done r hpositive =>
      -- one read is in flight, and it is the one that has completed
      obtain ⟨rfl, hnone⟩ : p = r.block ∧ _ := List.cons.inj (List.perm_singleton.mp hone)
      have hr : r ∈ s.reads :=
        haccounts.reads ▸ List.mem_append_right _ (List.mem_singleton_self r)
      obtain ⟨req, hreq, rfl⟩ := Option.map_eq_some_iff.mp hres
      have hafter := hbase.runtime hstep
      simp only [onread, hbase.find? hr, hreq]
      refine ⟨⟨hafter.atRest, hafter.group, hafter.nodup⟩, done ++ [(r, req.res)], [],
        ⟨?_, ?_, ?_, ?_⟩, ?_, rfl, done, r, rfl, hpositive⟩
      · simp [haccounts.reads]
      · rw [List.map_append, ← haccounts.seen]
        exact htaken
      · rw [inFlight, List.map_nil]
        exact hnone ▸ List.Perm.refl _
      · rw [List.map_append, ← haccounts.events]
        rfl
      · show (runtime.handling s.own).isSome
        rw [Runtime.handling_own (congrArg Ctl.running hctl) hmem]
        rfl

/-- The socket's callback returns. -/
theorem Inv.returned (h : s.Inv) {x : Started} {runtime : Runtime}
    (hallows : s.allows .ret = true) (hstep : s.runtime.step .ret = .next runtime)
    (hx : x ∈ s.runtime.trace.started) (hmem : s.own x.block = true)
    (htaken : runtime.taken s.own = s.runtime.taken s.own)
    (hflying : (runtime.flying s.own).Perm
      (if x.async.again then x.block :: s.runtime.flying s.own else s.runtime.flying s.own))
    (hrunning : s.runtime.handling s.own = some x.block) (hctl : runtime.ctl = .inner) :
    Inv { s with runtime, stage := .idle } := by
  obtain ⟨hbase, done, flying, haccounts, hphase⟩ := h
  have hafter := hbase.runtime hstep
  -- a read is not armed again, so it is out of flight for good
  have honce : x.async.again = false := (hbase.group.each x hx hmem).2
  rw [honce, if_neg (by simp)] at hflying
  have hsettled : Settled done flying := by
    rw [Phase, hrunning] at hphase
    cases hstage : s.stage with
    | idle => simp [hstage] at hphase
    | listeners status => simp [allows, hstage] at hallows
    | returning =>
        rw [hstage] at hphase
        exact hphase.2
  exact ⟨⟨hafter.atRest, hafter.group, hafter.nodup⟩, done, flying, ⟨haccounts.reads,
    htaken.trans haccounts.seen, hflying.trans haccounts.inFlight, haccounts.events⟩,
    Runtime.handling_none (congrArg Ctl.running hctl), Or.inr hsettled⟩

theorem Inv.other (h : s.Inv) {a : Runtime.Act} (hallows : s.allows a = true) :
    (s.other a).Holds Inv := by
  rw [ServerSocket.other]
  refine (h.1.atRest.step a).bind_next fun runtime hstep hat => ?_
  cases h.1.atRest.progress (h.1.group.imp fun x hx => hx.1) hstep with
  | called p res hmem htaken hflying hidle hctl hres =>
      have hrunning : runtime.handling s.own = some p :=
        Runtime.handling_own (congrArg Ctl.running hctl) hmem
      simp only [hrunning]
      exact h.called hstep hmem htaken hflying hidle hctl hres
  | returned x hx hmem htaken hflying hrunning hctl =>
      exact h.returned hallows hstep hx hmem htaken hflying hrunning hctl
  | same htaken hflying hhandling hidle =>
      have hsame := h.same hstep htaken hflying hhandling
      cases a with
      | inner =>
          simp only [hhandling, hidle (Or.inl rfl)]
          exact hsame
      | ret =>
          -- another callback returns, so the socket's is not running
          obtain ⟨-, done, flying, -, hphase⟩ := h
          have hstage := hphase.idle (hidle (Or.inr rfl))
          simp only [← hstage]
          exact hsame
      | start c | stop | run | outer | complete i res => exact hsame

theorem preserves : (machine fd).Preserves Inv := by
  intro s a h
  cases a with
  | construct =>
      simp only [machine, step]
      split
      · next hnone => exact h.construct hnone
      · trivial
  | afterEmit => exact h.afterEmit
  | other a =>
      simp only [machine, step]
      split
      · next hallows => exact h.other hallows
      · trivial

/-! ### What the invariant says -/

theorem isData_answer {status : Int32} {buffer : Ptr} :
    (answer status buffer).isData = true ↔ 0 < status := by
  rw [answer]
  by_cases hzero : status = 0
  · rw [if_pos hzero, hzero]
    simp [Event.isData]
  · rw [if_neg hzero]
    by_cases hpos : 0 < status <;> simp [hpos, Event.isData]

theorem Accounts.zip (h : s.Accounts done flying) :
    s.events = List.zipWith (fun c r => answer c.res r.buffer) s.seen s.reads := by
  rw [h.seen, h.reads, h.events, ← List.append_nil (done.map fun d => (⟨d.1.block, d.2⟩ : Cqe)),
    List.zipWith_append (by simp), List.zipWith_nil_left, List.append_nil, List.zipWith_map]
  simp

/-- The events of positive results are data. -/
theorem Accounts.isData {before : List (Read × Int32)} (hpositive : ∀ d ∈ before, 0 < d.2) :
    ∀ e ∈ before.map fun d => answer d.2 d.1.buffer, e.isData := by
  intro e he
  obtain ⟨d, hd, rfl⟩ := List.mem_map.mp he
  exact isData_answer.mpr (hpositive d hd)

end ServerSocket

end NoJs.Tcp
