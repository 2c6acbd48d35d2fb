/-
  NoJs.Signal.Interrupt

  `SubmitRequest` interrupted by the signal handlers of `core/timer.cc` and
  `core/signal.cc`.

  Both handlers call `SubmitRequest` themselves, for NOP requests.  Between
  `io_uring_get_sqe` and `io_uring_submit` the interrupted call holds the only
  entry of the ring, so the handler's `io_uring_get_sqe` returns NULL and the
  handler writes through it.  An interruption is harmless only when the handler
  finds nothing to submit.
-/

import NoJs.Timer.Machine

namespace NoJs.Signal

open Machine IoUring Timer

/-! ## The handlers -/

/-- `signalMap`: the contexts of the listeners of a signal, oldest first. -/
abbrev SignalMap := StdMap Int32 (List Ptr)

/-- The request `signalHandler` fills for the listener with context `ctx`. -/
def signalRequest (ctx : Ptr) : Request :=
  { kind := .nop, cb := some .signal_cb, data := ctx }

/-- A signal with its handler: the SIGUSR2 of a timer, which carries the context
    whose `timer_id` this is, or a signal with JavaScript listeners. -/
inductive Interrupt where
  | timer (timer_id : TimerId)
  | signal (signum : Int32)
  deriving DecidableEq, Repr

/-- What the handlers look into. -/
structure Tables where
  timerMap : StdMap TimerId Ptr
  signalMap : SignalMap

namespace Tables

/-- The requests a handler submits, in order. -/
def requests (t : Tables) : Interrupt → List Request
  | .timer id =>
      match t.timerMap.find id with
      | none => []
      | some _ => [Timers.timerRequest id]
  | .signal signum =>
      match t.signalMap.find signum with
      | none => []
      | some vec => vec.map signalRequest

end Tables

/-- `malloc`, `memset`, the fields and `SubmitRequest`, for each request. -/
def submitAll : List Request → Environment → Outcome Environment
  | [], env => .next env
  | req :: reqs, env => (env.submitNew req).bind (submitAll reqs)

/-- `signalHandler`, of `core/timer.cc` and of `core/signal.cc`. -/
def signalHandler (t : Tables) (i : Interrupt) : Environment → Outcome Environment :=
  submitAll (t.requests i)

/-- The handlers that run at one point, one after the other. -/
def deliver (t : Tables) : List Interrupt → Environment → Outcome Environment
  | [], env => .next env
  | i :: is, env => (signalHandler t i env).bind (deliver t is)

theorem requests_supported (t : Tables) (i : Interrupt) :
    ∀ req ∈ t.requests i, req.supported := by
  intro req hreq
  have hnop : req.kind = .nop := by
    cases i with
    | timer id =>
        simp only [Tables.requests] at hreq
        split at hreq
        · simp at hreq
        · rw [List.mem_singleton.mp hreq]
          rfl
    | signal signum =>
        simp only [Tables.requests] at hreq
        split at hreq
        · simp at hreq
        · obtain ⟨ctx, -, rfl⟩ := List.mem_map.mp hreq
          rfl
  rw [Request.supported, hnop]
  decide

/-- The handler of the timer machine is this one, on the context it was given. -/
theorem signalHandler_timers {s u : Timers} {sival : Ptr} {ctx : TimerRequestContext}
    (signalMap : SignalMap) (hctx : s.contexts.get? sival = some ctx)
    (h : s.signalHandler sival = .next u) :
    signalHandler ⟨s.timerMap, signalMap⟩ (.timer ctx.timer_id) s.env = .next u.env := by
  simp only [Timers.signalHandler, hctx] at h
  simp only [signalHandler, Tables.requests]
  split at h
  · next hempty =>
    rw [StdMap.size_eq_zero.mp hempty, ← Outcome.next.inj h]
    rfl
  split at h
  · cases hfind : s.timerMap.find ctx.timer_id with
    | none =>
        simp only [hfind, Outcome.next.injEq] at h
        rw [← h]
        rfl
    | some c =>
        simp only [hfind] at h
        obtain ⟨env, henv, hu⟩ := Outcome.bind_eq_next.mp h
        obtain rfl := Outcome.next.inj hu
        simp only [submitAll, henv, Outcome.bind_next]
  · exact absurd h (by simp)

/-! ## SubmitRequest with interruptions -/

/-- The points of `SubmitRequest` between two accesses, after the one named.
    `++pending` is a load and a store. -/
inductive Point where
  | got
  | filled
  | loaded
  | stored
  | tagged
  deriving DecidableEq, Repr

def Point.all : List Point := [.got, .filled, .loaded, .stored, .tagged]

/-- An access of `SubmitRequest` to the `io_uring_info`. -/
def access (f : IoUringInfo → Outcome IoUringInfo) (env : Environment) : Outcome Environment :=
  (f env.io_uring_data).bind fun info => .next { env with io_uring_data := info }

/-- `SubmitRequest` with an action of the handlers at every point. -/
def SubmitRequestInterrupted (handlers : Point → Environment → Outcome Environment) (p : Ptr)
    (req : Request) (env : Environment) : Outcome Environment :=
  let slot := (getSqe env.io_uring_data).1
  (handlers .got { env with io_uring_data := (getSqe env.io_uring_data).2 }).bind fun env =>
  match prep p req.kind with
  -- `default: return`
  | none => .next env
  | some sqe =>
      (access (fillSqe slot sqe) env).bind fun env =>
      (handlers .filled env).bind fun env =>
      let pending := env.io_uring_data.pending
      (handlers .loaded env).bind fun env =>
      let env := { env with io_uring_data := { env.io_uring_data with pending := pending + 1 } }
      (handlers .stored env).bind fun env =>
      (access (setData slot p) env).bind fun env =>
      (handlers .tagged env).bind fun env =>
        .next { env with io_uring_data := submit true env.io_uring_data }

/-- Without interruptions this is `SubmitRequest`. -/
theorem SubmitRequestInterrupted_next (p : Ptr) (req : Request) (env : Environment) :
    SubmitRequestInterrupted (fun _ => .next) p req env = access (SubmitRequest true p req) env := by
  rw [SubmitRequestInterrupted, access, SubmitRequest]
  cases prep p req.kind with
  | none => rfl
  | some sqe =>
      cases (getSqe env.io_uring_data).1 with
      | none => rfl
      | some slot => rfl

/-! ## What the handlers do meanwhile -/

/-- The only entry of the ring is handed out and not submitted. -/
structure Busy (r : Ring) : Prop where
  single : r.entries = 1
  taken : r.sqe_tail = r.khead + 1

/-- With the entry taken a request is written through NULL. -/
theorem submitNew_busy {env : Environment} {req : Request} (hb : Busy env.io_uring_data.ring)
    (hreq : req.supported) : env.submitNew req = .fault := by
  -- `io_uring_get_sqe` finds the ring full and returns NULL
  have hfull : ¬ env.io_uring_data.ring.sqe_tail + 1 - env.io_uring_data.ring.khead
      ≤ env.io_uring_data.ring.entries := by
    have hsingle := hb.single
    have htaken := hb.taken
    omega
  have hslot : (getSqe env.io_uring_data).1 = none := by
    rw [getSqe, io_uring_get_sqe, if_neg hfull]
  obtain ⟨sqe, hsqe⟩ := Option.isSome_iff_exists.mp
    ((prep_isSome_iff env.heap.top req.kind).mpr hreq)
  simp only [Environment.submitNew, SubmitRequest, hsqe, hslot, fillSqe, Outcome.bind_fault]

variable {t : Tables} {env : Environment}

theorem deliver_quiet {is : List Interrupt} (hquiet : ∀ i ∈ is, t.requests i = []) :
    deliver t is env = .next env := by
  induction is with
  | nil => rfl
  | cons i is ih =>
      have hi : signalHandler t i env = .next env := by
        rw [signalHandler, hquiet i (List.mem_cons_self ..), submitAll]
      rw [deliver, hi, Outcome.bind_next]
      exact ih fun j hj => hquiet j (List.mem_cons_of_mem _ hj)

theorem deliver_busy {is : List Interrupt} (hb : Busy env.io_uring_data.ring)
    (hloud : ¬ ∀ i ∈ is, t.requests i = []) : deliver t is env = .fault := by
  induction is with
  | nil => exact absurd (by simp) hloud
  | cons i is ih =>
      rw [deliver, signalHandler]
      cases hreqs : t.requests i with
      | nil =>
          refine ih fun hquiet => hloud ?_
          intro j hj
          rcases List.mem_cons.mp hj with rfl | hj
          · exact hreqs
          · exact hquiet j hj
      | cons req reqs =>
          have hreq := requests_supported t i req (by rw [hreqs]; exact List.mem_cons_self ..)
          rw [submitAll, submitNew_busy hb hreq]
          rfl

/-- Nothing is submitted at the point. -/
def Quiet (t : Tables) (is : List Interrupt) : Prop := ∀ i ∈ is, t.requests i = []

/-- A handler that submits at some point writes through NULL. -/
theorem SubmitRequestInterrupted_fault {interrupts : Point → List Interrupt} {p : Ptr}
    {req : Request} (hq : env.io_uring_data.ring.Quiescent) (hreq : req.supported)
    (hloud : ¬ ∀ pt, Quiet t (interrupts pt)) :
    SubmitRequestInterrupted (fun pt => deliver t (interrupts pt)) p req env = .fault := by
  obtain ⟨sqe, hsqe⟩ := Option.isSome_iff_exists.mp ((prep_isSome_iff p req.kind).mpr hreq)
  -- from here to `io_uring_submit` the one entry is taken
  let slot := env.io_uring_data.ring.sqe_tail % env.io_uring_data.ring.entries
  let taken := { env.io_uring_data.ring with sqe_tail := env.io_uring_data.ring.sqe_tail + 1 }
  have hget : getSqe env.io_uring_data
      = (some slot, { env.io_uring_data with ring := taken }) := by
    rw [getSqe, io_uring_get_sqe_quiescent hq]
  have hbusy : ∀ sqes, Busy { taken with sqes } :=
    fun _ => ⟨hq.single, congrArg (· + 1) hq.drained.symm⟩
  simp only [SubmitRequestInterrupted, hget, hsqe, access, fillSqe, setData, Outcome.bind_next]
  -- the first point with something to submit faults
  by_cases hgot : Quiet t (interrupts .got)
  case neg =>
    rw [deliver_busy (hbusy _) hgot]
    rfl
  rw [deliver_quiet hgot, Outcome.bind_next]
  by_cases hfilled : Quiet t (interrupts .filled)
  case neg =>
    rw [deliver_busy (hbusy _) hfilled]
    rfl
  rw [deliver_quiet hfilled, Outcome.bind_next]
  by_cases hloaded : Quiet t (interrupts .loaded)
  case neg =>
    rw [deliver_busy (hbusy _) hloaded]
    rfl
  rw [deliver_quiet hloaded, Outcome.bind_next]
  by_cases hstored : Quiet t (interrupts .stored)
  case neg =>
    rw [deliver_busy (hbusy _) hstored]
    rfl
  rw [deliver_quiet hstored, Outcome.bind_next]
  by_cases htagged : Quiet t (interrupts .tagged)
  case neg =>
    rw [deliver_busy (hbusy _) htagged]
    rfl
  refine absurd (fun pt => ?_) hloud
  cases pt with
  | got => exact hgot
  | filled => exact hfilled
  | loaded => exact hloaded
  | stored => exact hstored
  | tagged => exact htagged

/-! ## The law -/

/-- The part of an entry that tells whose it is. -/
def key (e : Sqe) : Int32 × Ptr := (e.opcode, e.user_data)

/-- What is to hold once the interrupted call and the handlers have finished,
    `nops` being the requests the handlers submitted and their blocks: each
    request was submitted once, under its own opcode and `user_data`, and
    `pending` has grown by their number. -/
structure Completed (p : Ptr) (req : Request) (nops : List (Ptr × Request))
    (env env' : Environment) : Prop where
  live : ∀ x ∈ nops, env'.heap.get? x.1 = some x.2
  entries : (env'.io_uring_data.ring.kernel.map key).Perm
    (env.io_uring_data.ring.kernel.map key ++
      (req.kind.op, p) :: nops.map fun x => (x.2.kind.op, x.1))
  pending : env'.io_uring_data.pending.toInt
    = env.io_uring_data.pending.toInt + 1 + nops.length

/-- `SubmitRequest` of `req` in block `p` tolerates the interruptions. -/
def Tolerates (t : Tables) (interrupts : Point → List Interrupt) (p : Ptr) (req : Request)
    (env : Environment) : Prop :=
  ∃ env' nops,
    SubmitRequestInterrupted (fun pt => deliver t (interrupts pt)) p req env = .next env' ∧
    nops.map (·.2) = Point.all.flatMap (fun pt => (interrupts pt).flatMap t.requests) ∧
    Completed p req nops env env'

/-- A call that no handler disturbs. -/
theorem SubmitRequestInterrupted_quiet {interrupts : Point → List Interrupt} (p : Ptr)
    {req : Request} (hq : env.io_uring_data.ring.Quiescent) (hreq : req.supported)
    (hquiet : ∀ pt, Quiet t (interrupts pt)) :
    ∃ env', SubmitRequestInterrupted (fun pt => deliver t (interrupts pt)) p req env = .next env' ∧
      env'.io_uring_data.pending = env.io_uring_data.pending + 1 ∧
      env'.io_uring_data.ring.kernel.map key
        = env.io_uring_data.ring.kernel.map key ++ [(req.kind.op, p)] := by
  obtain ⟨sqe, hsqe⟩ := Option.isSome_iff_exists.mp ((prep_isSome_iff p req.kind).mpr hreq)
  obtain ⟨ring, hsub, hkernel, -, -⟩ := SubmitRequest_quiescent hq hsqe
  -- handlers that submit nothing leave the call as it is without them
  have hnone : (fun pt => deliver t (interrupts pt)) = fun _ => .next := by
    funext pt env
    exact deliver_quiet (hquiet pt)
  rw [hnone, SubmitRequestInterrupted_next, access, hsub]
  refine ⟨_, rfl, rfl, ?_⟩
  simp only [hkernel, List.map_append, List.map_cons, List.map_nil, key, prep_opcode hsqe]

/-- A request without a case in the `switch` is never submitted. -/
theorem not_tolerates_unsupported {interrupts : Point → List Interrupt} {p : Ptr} {req : Request}
    (hq : env.io_uring_data.ring.Quiescent) (hreq : ¬ req.supported) :
    ¬ Tolerates t interrupts p req env := by
  rintro ⟨env', nops, hrun, -, hdone⟩
  have hsqe : prep p req.kind = none := by
    rw [← Option.not_isSome_iff_eq_none, prep_isSome_iff]
    exact hreq
  simp only [SubmitRequestInterrupted, hsqe, getSqe, io_uring_get_sqe_quiescent hq] at hrun
  -- the call returns after `io_uring_get_sqe`, so only that point counts
  by_cases hgot : Quiet t (interrupts .got)
  · rw [deliver_quiet hgot] at hrun
    obtain rfl := Outcome.next.inj hrun
    have hlen := hdone.entries.length_eq
    simp at hlen
  · have hbusy : Busy { env.io_uring_data.ring with
        sqe_tail := env.io_uring_data.ring.sqe_tail + 1 } :=
      ⟨hq.single, congrArg (· + 1) hq.drained.symm⟩
    rw [deliver_busy hbusy hgot] at hrun
    exact absurd hrun (by simp)

/-- **Interrupted submission.**  With the ring idle at the start, `SubmitRequest`
    of a request with a case in the `switch` tolerates interruptions exactly
    when no handler submits anything and `pending` does not overflow. -/
theorem interrupted_submit_iff (t : Tables) (interrupts : Point → List Interrupt) (p : Ptr)
    (req : Request) (env : Environment) (h : env.io_uring_data.ring.Quiescent) :
    Tolerates t interrupts p req env ↔
      req.supported ∧ (∀ pt, Quiet t (interrupts pt)) ∧
      env.io_uring_data.pending.toInt + 1 < 2 ^ 31 := by
  constructor
  · intro htol
    have hreq : req.supported := by
      by_contra hreq
      exact not_tolerates_unsupported h hreq htol
    obtain ⟨env', nops, hrun, hnops, hdone⟩ := htol
    have hquiet : ∀ pt, Quiet t (interrupts pt) := by
      by_contra hloud
      rw [SubmitRequestInterrupted_fault h hreq hloud] at hrun
      exact absurd hrun (by simp)
    obtain ⟨env₁, hrun₁, hpending, -⟩ := SubmitRequestInterrupted_quiet p h hreq hquiet
    obtain rfl := Outcome.next.inj (hrun.symm.trans hrun₁)
    -- nothing was submitted by the handlers, so `pending` grew by one
    have hlen : nops.length = 0 := by
      have hcount := congrArg List.length hnops
      have hzero : Point.all.flatMap (fun pt => (interrupts pt).flatMap t.requests) = [] :=
        List.flatMap_eq_nil_iff.mpr fun pt _ => List.flatMap_eq_nil_iff.mpr (hquiet pt)
      simpa [hzero] using hcount
    refine ⟨hreq, hquiet, (toInt_add_one_iff _).mp ?_⟩
    rw [← hpending, hdone.pending, hlen]
    omega
  · rintro ⟨hreq, hquiet, hrange⟩
    obtain ⟨env', hrun, hpending, hentries⟩ := SubmitRequestInterrupted_quiet p h hreq hquiet
    refine ⟨env', [], hrun, ?_, by simp, ?_, ?_⟩
    · exact (List.flatMap_eq_nil_iff.mpr
        fun pt _ => List.flatMap_eq_nil_iff.mpr (hquiet pt)).symm
    · rw [hentries]
      exact List.Perm.refl _
    · rw [hpending, (toInt_add_one_iff _).mpr hrange]
      simp

/-- Timer 1 is registered; nobody listens to signals. -/
def oneTimer : Tables := ⟨StdMap.insert ∅ 1 0, ∅⟩

/-- `fs.close(-1)`. -/
def closeRequest : Request := { kind := .close { fd := -1 }, cb := some (.makeCallback .onclose) }

/-- The late signal of a timer that is not registered does no harm. -/
theorem interrupted_submit_iff_stray :
    Tolerates oneTimer (fun _ => [.timer 2, .signal 1]) 0 closeRequest .init := by
  refine (interrupted_submit_iff _ _ _ _ _ Ring.quiescent_init).mpr ⟨by decide, ?_, by decide⟩
  intro pt i hi
  rcases List.mem_pair.mp hi with rfl | rfl <;> decide

/-- The expiry of a registered timer right after `io_uring_get_sqe`. -/
theorem interrupted_submit_faults :
    ¬ ∀ (t : Tables) (interrupts : Point → List Interrupt) (p : Ptr) (req : Request),
      req.supported → Tolerates t interrupts p req .init := by
  intro h
  let interrupts : Point → List Interrupt := fun pt => if pt = .got then [.timer 1] else []
  obtain ⟨env', nops, hrun, -⟩ := h oneTimer interrupts 0 closeRequest (by decide)
  have hloud : ¬ ∀ pt, Quiet oneTimer (interrupts pt) := by
    intro hquiet
    exact absurd (hquiet .got (.timer 1) (List.mem_singleton.mpr rfl)) (by decide)
  rw [SubmitRequestInterrupted_fault Ring.quiescent_init (by decide) hloud] at hrun
  exact absurd hrun (by simp)

end NoJs.Signal
