/-
  NoJs.Core.Requests

  The request blocks of the whole process.

  Every subsystem submits requests of its own kind to the one ring, and
  `RunIOUring` hands each to the function that its `cb` names.  `Requests` is what
  makes that work: the blocks are owned as in NoJs.IoUring.Ownership, each holds a
  request of the kind that its completion function expects (`Fits`), and no two
  asynchronous operations have one `RequestContext`.
-/

import NoJs.Core.Machine
import NoJs.IoUring.Ownership

namespace NoJs.Core

open Machine IoUring Timer Inotify Signal

/-- A request of `makeCallback`, which owns a context. -/
def isAsync (r : Request) : Bool :=
  match r.cb with
  | some (.makeCallback _) => true
  | _ => false

/-- What a completion function expects of the request it is given. -/
def Expects (fd : Int32) (contexts : Heap Async.RequestContext) (r : Request) :
    Callback → Prop
  | .makeCallback _ => (contexts.get? r.data).isSome
  | .openAfter => True
  | .timer_cb => ∃ id, r.withoutRes = Timers.timerRequest id
  | .signal_cb => ∃ ctx, r.withoutRes = signalRequest ctx
  | .inotifyHandler => ∃ buf, r.withoutRes = Watcher.readRequest fd buf

/-- The request goes to a function that expects it. -/
def Fits (fd : Int32) (contexts : Heap Async.RequestContext) (r : Request) : Prop :=
  r.supported ∧ ∃ cb, r.cb = some cb ∧ Expects fd contexts r cb

/-- The requests of the process, while the completion of `running` is handled; `pending` counts
    those of `flight`, which are in flight, and `n` references. -/
structure Requests (fd : Int32) (env : Environment) (contexts : Heap Async.RequestContext)
    (running : Option (Ptr × Request)) (n : Int) (flight : List Request) : Prop where
  owns : env.Owns (running.map Prod.fst) n
  stop : env.io_uring_data.stop = 0
  flight : env.inFlight.Perm flight
  at_hand : ∀ p r, running = some (p, r) → env.heap.get? p = some r
  fits : env.heap.All (Fits fd contexts)
  apart : ∀ p q r r', env.heap.get? p = some r → env.heap.get? q = some r' →
    isAsync r = true → isAsync r' = true → r.data = r'.data → p = q

variable {fd : Int32} {env env' : Environment} {contexts : Heap Async.RequestContext}
  {running : Option (Ptr × Request)} {n : Int} {flight : List Request} {p : Ptr} {req : Request}

/-! ## What fits -/

theorem Fits.withRes (h : Fits fd contexts req) (res : Int32) :
    Fits fd contexts { req with res } := h

/-- More contexts do no harm. -/
theorem Fits.mono {contexts' : Heap Async.RequestContext} (h : Fits fd contexts req)
    (hcontexts : isAsync req = true → (contexts.get? req.data).isSome →
      (contexts'.get? req.data).isSome) : Fits fd contexts' req := by
  obtain ⟨hsupported, cb, hcb, hexpects⟩ := h
  refine ⟨hsupported, cb, hcb, ?_⟩
  cases cb with
  | makeCallback event => exact hcontexts (by simp [isAsync, hcb]) hexpects
  | openAfter => trivial
  | timer_cb => exact hexpects
  | signal_cb => exact hexpects
  | inotifyHandler => exact hexpects

theorem fits_timerRequest (id : TimerId) : Fits fd contexts (Timers.timerRequest id) :=
  ⟨timerRequest_supported id, _, rfl, id, rfl⟩

theorem fits_signalRequest (ctx : Ptr) : Fits fd contexts (signalRequest ctx) :=
  ⟨by show IORING_OP_NOP ∈ switchOps; decide, _, rfl, ctx, rfl⟩

theorem fits_readRequest (buf : Ptr) : Fits fd contexts (Watcher.readRequest fd buf) :=
  ⟨by show IORING_OP_READ ∈ switchOps; decide, _, rfl, buf, rfl⟩

namespace Requests

theorem init : Requests fd .init .empty none 0 [] where
  owns := Environment.owns_init
  stop := rfl
  flight := List.Perm.refl _
  at_hand p r h := absurd h (by simp)
  fits := Heap.all_empty
  apart p q r r' hp := absurd hp (by simp [Environment.init])

/-- The context of a request of `makeCallback`. -/
theorem context (h : Requests fd env contexts running n flight)
    (hp : env.heap.get? p = some req) (hasync : isAsync req = true) :
    ∃ ctx, contexts.get? req.data = some ctx := by
  obtain ⟨-, cb, hcb, hexpects⟩ := h.fits p req hp
  rw [isAsync, hcb] at hasync
  cases cb with
  | makeCallback event => exact Option.isSome_iff_exists.mp hexpects
  | _ => exact absurd hasync (by simp)

/-! ## The operations -/

/-- Another count, the same requests. -/
theorem frame (h : Requests fd env contexts running n flight) {m : Int} (hsound : env'.Sound m)
    (hstop : env'.io_uring_data.stop = env.io_uring_data.stop) (hheap : env'.heap = env.heap)
    (hout : env'.outstanding.Perm env.outstanding) :
    Requests fd env' contexts running m flight where
  owns := h.owns.frame hsound hheap hout
  stop := hstop.trans h.stop
  flight := (Environment.inFlight_congr hout fun q _ => by rw [hheap]).trans h.flight
  at_hand := by
    rw [hheap]
    exact h.at_hand
  fits := by
    rw [hheap]
    exact h.fits
  apart := by
    rw [hheap]
    exact h.apart

theorem inc (h : Requests fd env contexts running n flight) :
    Requests fd env.inc contexts running (n + 1) flight :=
  h.frame h.owns.sound.inc rfl rfl (List.Perm.refl _)

theorem dec (h : Requests fd env contexts running n flight) :
    Requests fd env.dec contexts running (n - 1) flight :=
  h.frame h.owns.sound.dec rfl rfl (List.Perm.refl _)

theorem submitAndWait (h : Requests fd env contexts running n flight) :
    Requests fd env.submitAndWait contexts running n flight := by
  obtain ⟨hsound, hout⟩ := h.owns.sound.submitAndWait
  exact h.frame hsound rfl rfl (hout ▸ List.Perm.refl _)

theorem complete (h : Requests fd env contexts running n flight) (i : Nat) (res : Int32) :
    (env.complete i res).Holds fun env' => Requests fd env' contexts running n flight := by
  cases hsqe : env.io_uring_data.ring.kernel[i]? with
  | none =>
      simp only [Environment.complete, Ring.complete, hsqe]
      trivial
  | some sqe =>
      obtain ⟨env', henv, hsound, hheap, hstop, -, hperm⟩ := h.owns.sound.complete res hsqe
      rw [henv]
      exact h.frame hsound hstop hheap hperm

/-- A new request of another function than `makeCallback`. -/
theorem submitNew (h : Requests fd env contexts running n flight) (hreq : Fits fd contexts req)
    (hplain : isAsync req = false) :
    ∃ env', env.submitNew req = .next env' ∧
      Requests fd env' contexts running n (req :: flight) := by
  obtain ⟨env', henv, howns, hheap, hsub⟩ := h.owns.submitNew req hreq.1
  refine ⟨env', henv, ⟨howns, hsub.stop.trans h.stop,
    (Environment.inFlight_submit h.owns.sound hheap hsub).trans (h.flight.cons req),
    fun p r hp => ?_, ?_, ?_⟩⟩
  · rw [hheap, Heap.get?_alloc_of_some (h.at_hand p r hp)]
  · rw [hheap]
    exact h.fits.alloc hreq
  · intro p q r r' hp hq hr hr'
    rw [hheap, Heap.get?_alloc] at hp hq
    split at hp
    · obtain rfl := Option.some.inj hp
      exact absurd (hplain.symm.trans hr) (by simp)
    · split at hq
      · obtain rfl := Option.some.inj hq
        exact absurd (hplain.symm.trans hr') (by simp)
      · exact h.apart p q r r' hp hq hr hr'

/-- The requests of a signal handler, one after the other. -/
theorem submitAll {reqs : List Request} (h : Requests fd env contexts running n flight)
    (hreqs : ∀ req ∈ reqs, Fits fd contexts req ∧ isAsync req = false) :
    ∃ env', Signal.submitAll reqs env = .next env' ∧
      Requests fd env' contexts running n (reqs.reverse ++ flight) := by
  induction reqs generalizing env flight with
  | nil => exact ⟨env, rfl, h⟩
  | cons req reqs ih =>
      obtain ⟨hfits, hplain⟩ := hreqs req List.mem_cons_self
      obtain ⟨env₁, henv₁, h₁⟩ := h.submitNew hfits hplain
      obtain ⟨env₂, henv₂, h₂⟩ := ih h₁ fun r hr => hreqs r (List.mem_cons_of_mem _ hr)
      refine ⟨env₂, by rw [Signal.submitAll, henv₁, Outcome.bind_next, henv₂], ?_⟩
      rw [List.reverse_cons, List.append_assoc, List.singleton_append]
      exact h₂

/-- A new asynchronous operation, with a context of its own. -/
theorem start {c : Async.Call} {a : Async.AsyncRequest}
    (h : Requests fd env contexts running n flight) (hc : c.start = some a) :
    ∃ env', env.submitNew (a.request contexts.top) = .next env' ∧
      Requests fd env' (contexts.alloc a.context) running n (a.request contexts.top :: flight) := by
  obtain ⟨hsupported, hwired⟩ := Async.Call.start_wired hc
  obtain ⟨env', henv, howns, hheap, hsub⟩ := h.owns.submitNew (a.request contexts.top) hsupported
  -- the contexts there were are older than the new one
  have hold : ∀ q r, env.heap.get? q = some r → isAsync r = true → r.data < contexts.top := by
    intro q r hq hr
    obtain ⟨ctx, hctx⟩ := h.context hq hr
    exact Heap.lt_top_of_get? hctx
  refine ⟨env', henv, ⟨howns, hsub.stop.trans h.stop,
    (Environment.inFlight_submit h.owns.sound hheap hsub).trans (h.flight.cons _),
    fun p r hp => ?_, ?_, ?_⟩⟩
  · rw [hheap, Heap.get?_alloc_of_some (h.at_hand p r hp)]
  · rw [hheap]
    refine Heap.All.alloc ?_ ⟨hsupported, a.cb, rfl, ?_⟩
    · refine h.fits.imp fun r hr => hr.mono fun _ hlive => ?_
      obtain ⟨ctx, hctx⟩ := Option.isSome_iff_exists.mp hlive
      rw [Heap.get?_alloc_of_some hctx]
      rfl
    · split at hwired
      · rw [hwired.1]
        trivial
      · obtain ⟨event, hevent, -⟩ := hwired
        rw [hevent]
        show ((contexts.alloc a.context).get? contexts.top).isSome
        rw [Heap.get?_alloc_top]
        rfl
  · intro p q r r' hp hq hr hr' hdata
    rw [hheap, Heap.get?_alloc] at hp hq
    split at hp
    · next hptop =>
      obtain rfl := Option.some.inj hp
      split at hq
      · next hqtop => exact hptop.trans hqtop.symm
      · exact absurd hdata.symm (Nat.ne_of_lt (hold q r' hq hr'))
    · split at hq
      · obtain rfl := Option.some.inj hq
        exact absurd hdata (Nat.ne_of_lt (hold p r hp hr))
      · exact h.apart p q r r' hp hq hr hr' hdata

/-- The loop takes a completion. -/
theorem reap (h : Requests fd env contexts none n flight) {c : Cqe}
    (hc : io_uring_peek_cqe env.io_uring_data.ring = some c) :
    ∃ req env' flight', env.heap.get? c.user_data = some req ∧
      env.reap c = .next ({ req with res := c.res }, env') ∧ flight.Perm (req :: flight') ∧
      Requests fd env' contexts (some (c.user_data, { req with res := c.res })) n flight' := by
  obtain ⟨req, env', hreq, henv, hhand, howns, hreaps⟩ := h.owns.reap hc
  refine ⟨req, env', env'.inFlight, hreq, henv,
    h.flight.symm.trans (Environment.inFlight_reap hreq hreaps), howns,
    hreaps.stop.trans h.stop, List.Perm.refl _, fun p r hp => ?_, ?_, ?_⟩
  · obtain ⟨rfl, rfl⟩ := Prod.mk.inj (Option.some.inj hp)
    exact hhand
  · rw [hreaps.heap]
    exact h.fits.modify fun r hr => hr.withRes _
  · intro p q r r' hp hq hr hr' hdata
    -- the store changes neither the function of a request nor its context
    have hback : ∀ q r, env'.heap.get? q = some r →
        ∃ r₀, env.heap.get? q = some r₀ ∧ isAsync r₀ = isAsync r ∧ r₀.data = r.data := by
      intro q r hq
      rw [hreaps.heap, Heap.get?_modify] at hq
      split at hq
      · obtain ⟨r₀, hr₀, rfl⟩ := Option.map_eq_some_iff.mp hq
        exact ⟨r₀, hr₀, rfl, rfl⟩
      · exact ⟨r, hq, rfl, rfl⟩
    obtain ⟨r₀, hp₀, hr₀, hd₀⟩ := hback p r hp
    obtain ⟨r₁, hq₁, hr₁, hd₁⟩ := hback q r' hq
    exact h.apart p q r₀ r₁ hp₀ hq₁ (hr₀.trans hr) (hr₁.trans hr')
      (hd₀.trans (hdata.trans hd₁.symm))

/-- The block at hand is freed. -/
theorem free (h : Requests fd env contexts (some (p, req)) n flight) :
    env.free p = .next { env with heap := env.heap.free p } ∧
      Requests fd { env with heap := env.heap.free p } contexts none n flight := by
  obtain ⟨hfree, howns⟩ := h.owns.free
  refine ⟨hfree, howns, h.stop, ?_, fun q r hq => absurd hq (by simp), h.fits.free p,
    fun q q' r r' hq hq' => ?_⟩
  · rw [Environment.inFlight_free (h.owns.apart p rfl)]
    exact h.flight
  · have hlive : ∀ {q r}, (env.heap.free p).get? q = some r → env.heap.get? q = some r := by
      intro q r hq
      rw [Heap.get?_free] at hq
      split at hq
      · exact absurd hq (by simp)
      · exact hq
    exact h.apart q q' r r' (hlive hq) (hlive hq')

/-- With the block at hand its context goes. -/
theorem release (h : Requests fd env contexts (some (p, req)) n flight)
    (hasync : isAsync req = true) :
    Requests fd { env with heap := env.heap.free p } (contexts.free req.data) none n flight := by
  obtain ⟨-, hfree⟩ := h.free
  refine ⟨hfree.owns, hfree.stop, hfree.flight, hfree.at_hand,
    fun q r hq => (hfree.fits q r hq).mono fun hr hlive => ?_, hfree.apart⟩
  rw [Heap.isSome_get?_free]
  refine ⟨fun hdata => ?_, hlive⟩
  -- another request with this context would be the one that is gone
  have hq' : (env.heap.free p).get? q = some r := hq
  rw [Heap.get?_free] at hq'
  split at hq'
  · exact absurd hq' (by simp)
  · next hne => exact hne (h.apart q p r req hq' (h.at_hand p req rfl) hr hasync hdata)

/-- The request at hand is armed again. -/
theorem resubmit (h : Requests fd env contexts (some (p, req)) n flight) :
    ∃ env', env.resubmit p = .next env' ∧
      Requests fd env' contexts none n (req :: flight) := by
  have hp := h.at_hand p req rfl
  obtain ⟨env', henv, howns, hheap, hsub⟩ := h.owns.resubmit hp (h.fits p req hp).1
  refine ⟨env', henv, howns, hsub.stop.trans h.stop, ?_, fun q r hq => absurd hq (by simp), ?_, ?_⟩
  · refine (Environment.inFlight_cons hsub.outstanding (hheap ▸ hp) fun q _ => ?_).trans
      (h.flight.cons req)
    rw [hheap]
  · rw [hheap]
    exact h.fits
  · rw [hheap]
    exact h.apart

end Requests

end NoJs.Core
