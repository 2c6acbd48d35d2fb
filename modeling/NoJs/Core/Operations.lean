/-
  NoJs.Core.Operations

  The functions of each module on requests and tables that are in order.

  Each function has one lemma: it goes through, and leaves the requests of
  NoJs.Core.Requests and its own table in order; the lemma also says what it adds
  to the references in `pending` and to what is in flight.  The exception is
  `expire_cases`, for the handler of the timers: the kernel brings back a pointer
  that nothing keeps alive, and the lemma says when its target is gone.

  What the tables of `core/timer.cc` keep between them is taken from
  NoJs.Timer.Invariant: `tables` puts them into a process of their own.
-/

import NoJs.Timer.Accounting
import NoJs.Inotify.Accounting
import NoJs.Core.Requests

namespace NoJs.Core

open Machine IoUring Timer Inotify Signal

variable {fd : Int32} {contexts : Heap Async.RequestContext}
  {running : Option (Ptr × Request)} {n : Int} {flight : List Request} {p : Ptr} {req : Request}

/-! ## core/async.h -/

section Async

variable {r : Async.Runtime}

theorem start_holds (h : Requests fd r.env r.contexts running n flight) (c : Async.Call) :
    (r.start c).Holds fun r' => ∃ a, c.start = some a ∧
      Requests fd r'.env r'.contexts running n (a.request r.contexts.top :: flight) := by
  rw [Async.Runtime.start]
  cases hc : c.start with
  | none => trivial
  | some a =>
      obtain ⟨env, henv, hrequests⟩ := h.start hc
      simp only [henv]
      exact ⟨a, rfl, hrequests⟩

/-- No entry point starts a read of `inotify.cc` or a NOP of `signal.cc`. -/
theorem start_plain {c : Async.Call} {a : Async.AsyncRequest} (hc : c.start = some a) (ctx : Ptr) :
    isRead (a.request ctx) = false ∧ (a.request ctx).cb ≠ some .signal_cb := by
  have hwired := (Async.Call.start_wired hc).2
  have hcb : (a.request ctx).cb = some a.cb := rfl
  rw [isRead, hcb]
  split at hwired
  · rw [hwired.1]
    decide
  · obtain ⟨event, hevent, -⟩ := hwired
    rw [hevent]
    exact ⟨rfl, by simp⟩

/-- What `makeCallback` puts in flight again. -/
def again (req : Request) : List Request := if req.again then [req] else []

theorem finishCallback_holds (h : Requests fd r.env r.contexts (some (p, req)) n flight)
    (hasync : isAsync req = true) :
    (r.finishCallback p).Holds fun r' =>
      r'.ctl = .inner ∧ Requests fd r'.env r'.contexts none n (again req ++ flight) := by
  have hreq := h.at_hand p req rfl
  obtain ⟨ctx, hctx⟩ := h.context hreq hasync
  simp only [Async.Runtime.finishCallback, hreq, hctx, again]
  split
  · obtain ⟨env, henv, hrequests⟩ := h.resubmit
    rw [henv]
    exact ⟨rfl, hrequests⟩
  · rw [h.free.1]
    exact ⟨rfl, h.release hasync⟩

/-- The JavaScript callback is called, or the request is done with. -/
theorem makeCallback_holds (h : Requests fd r.env r.contexts (some (p, req)) n flight)
    (hasync : isAsync req = true) (event : EventName) :
    (r.makeCallback event p).Holds fun r' =>
      r'.ctl = .callback p ∧ Requests fd r'.env r'.contexts (some (p, req)) n flight ∨
        r'.ctl = .inner ∧ Requests fd r'.env r'.contexts none n (again req ++ flight) := by
  have hfinish := finishCallback_holds h hasync
  have hreq := h.at_hand p req rfl
  obtain ⟨ctx, hctx⟩ := h.context hreq hasync
  simp only [Async.Runtime.makeCallback, hreq, hctx]
  split
  · exact hfinish.imp fun r' hr' => .inr hr'
  · exact .inl ⟨rfl, h⟩

theorem openAfter_holds (h : Requests fd r.env r.contexts (some (p, req)) n flight) :
    (r.openAfter p).Holds fun r' =>
      r'.ctl = r.ctl ∧ Requests fd r'.env r'.contexts none n flight := by
  obtain ⟨hfree, hrequests⟩ := h.free
  rw [Async.Runtime.openAfter, hfree]
  exact ⟨rfl, hrequests⟩

end Async

/-! ## core/timer.cc -/

section Timers

/-- The tables alone, with no requests and in the main script. -/
def tables (t : Timers) : Timers := { t with env := .init, ctl := .script, trace := ⟨[], []⟩ }

/-- The tables of timers agree, and the contexts they point to are there. -/
structure Points (t : Timers) : Prop where
  core : (tables t).Core 0
  callback : ∀ p id c, t.ctl = .callback p id c → (t.contexts.get? c).isSome

variable {t u v : Timers}

/-- The core of the timers' invariant is about the tables. -/
theorem core_tables {m : Int} (h : t.Core m) : (tables t).Core 0 where
  sound := Environment.sound_init
  request := by simp [tables, Environment.init, Environment.outstanding]
  running := by simp [tables]
  context := h.context
  entry := h.entry
  registering := h.registering

theorem Points.inv (h : Points t) (harmed : t.Armed) : (tables t).Inv 0 :=
  h.core.inv harmed

theorem Points.entry (h : Points t) {id : TimerId} {c : Ptr} (hc : t.timerMap.find id = some c) :
    (t.contexts.get? c).isSome := by
  obtain ⟨u, hu, rfl⟩ := h.core.entry id c hc
  obtain ⟨ctx, hctx, -⟩ := h.core.context id u hu
  exact Option.isSome_iff_exists.mpr ⟨ctx, hctx⟩

/-- The tables agree, every armed timer is still in the map, and the timers are owed `d` more. -/
structure Keeps (t u : Timers) (d : Int) : Prop where
  points : Points u
  armed : t.Armed → u.Armed
  owed : u.owed = t.owed + d

theorem Points.keeps (h : Points t) : Keeps t t 0 := ⟨h, id, (Int.add_zero _).symm⟩

/-- What an operation does to the tables it does to them wherever they are. -/
theorem Points.effect (h : Points t) {a : Timers.Act} {d : Int}
    (he : Timers.Effect (tables t) 0 a d v) (htables : tables v = tables u)
    (hcallback : ∀ p id c, u.ctl = .callback p id c → (u.contexts.get? c).isSome) : Points u := by
  refine ⟨?_, hcallback⟩
  rw [← htables]
  exact core_tables (he.core h.core)

theorem Points.keeps_effect (h : Points t) {a : Timers.Act} {d : Int}
    (he : Timers.Effect (tables t) 0 a d v) (htables : tables v = tables u)
    (hcallback : ∀ p id c, u.ctl = .callback p id c → (u.contexts.get? c).isSome)
    (hsettled : (tables t).Settled a = true) (hregistered : (tables t).Registered a = true) :
    Keeps t u d := by
  refine ⟨h.effect he htables hcallback, fun harmed => ?_, ?_⟩
  · have hv : (tables v).Armed := he.armed (h.inv harmed) hsettled
    rw [htables] at hv
    exact hv
  · have howed : (tables v).owed = t.owed + d := he.owed hregistered
    rw [htables] at howed
    exact howed

/-- A context that is there stays there. -/
theorem isSome_alloc {α : Type} {h : Heap α} {c : Ptr} (v : α) (hc : (h.get? c).isSome) :
    ((h.alloc v).get? c).isSome := by
  obtain ⟨w, hw⟩ := Option.isSome_iff_exists.mp hc
  rw [Heap.get?_alloc_of_some hw]
  rfl

theorem timerCreate_holds (h : Points t) (hreg : t.registration = none)
    (object : Option JsFunction) (timeout interval : Int32) (created : Option TimerId) :
    (t.timerCreate object timeout interval created).Holds fun u =>
      Keeps t u 0 ∧ u.env = t.env ∧ u.ctl = t.ctl := by
  cases created with
  | none =>
      let ctx : TimerRequestContext :=
        { object, flags := intervalFlags (itimerspec timeout interval), timer_id := -1 }
      have he : Timers.Effect (tables t) 0 (.setTimer object timeout interval none) 0
          { tables t with contexts := t.contexts.alloc ctx } := .createFailed hreg
      have hcallback := fun p id c hc => isSome_alloc ctx (h.callback p id c hc)
      exact ⟨h.keeps_effect he rfl hcallback rfl rfl, rfl, rfl⟩
  | some id =>
      simp only [Timers.timerCreate]
      split
      · trivial
      · next hfree =>
        let ctx : TimerRequestContext :=
          { object, flags := intervalFlags (itimerspec timeout interval), timer_id := id }
        have hnone : (tables t).kernel id = none := by simpa [tables] using hfree
        have he : Timers.Effect (tables t) 0 (.setTimer object timeout interval (some id)) 0
            { tables t with
              contexts := t.contexts.alloc ctx
              kernel := Function.update t.kernel id (some ⟨t.contexts.top, .idle⟩)
              registration := some ⟨.created, t.contexts.top, itimerspec timeout interval⟩ } :=
          .created hreg hnone rfl rfl
        have hcallback := fun p q c hc => isSome_alloc ctx (h.callback p q c hc)
        exact ⟨h.keeps_effect he rfl hcallback rfl rfl, rfl, rfl⟩

/-- The last step of `timerHandler` adds a reference, and the map had the entry before it. -/
theorem timerHandler_holds (h : Points t) (hr : Requests fd t.env contexts running n flight) :
    t.timerHandler.Holds fun u => ∃ d, Keeps t u d ∧
      Requests fd u.env contexts running (n + d) flight ∧ u.ctl = t.ctl := by
  have hr' : Requests fd t.env contexts running (n + 0) flight := by rwa [Int.add_zero]
  rw [Timers.timerHandler]
  cases hreg : t.registration with
  | none => trivial
  | some g =>
      obtain ⟨u, ctx, hu, hg⟩ := h.core.registering g hreg
      have hctx : t.contexts.get? g.ctx = some ctx := hg.context
      have hkernel : t.kernel ctx.timer_id = some u := hu
      cases hstage : g.stage with
      | created =>
          simp only [hstage, Timers.timerSettime, hctx, hkernel]
          split
          · have he := Timers.Effect.settime (s := tables t) (n := 0) hreg hstage hu hg
            exact ⟨0, h.keeps_effect he rfl h.callback rfl rfl, hr', rfl⟩
          · have he := Timers.Effect.settimeFailed (s := tables t) (n := 0) hreg hstage
            exact ⟨0, h.keeps_effect he rfl h.callback rfl rfl, hr', rfl⟩
      | settime =>
          simp only [hstage, Timers.timerInsert, hctx]
          have he := Timers.Effect.inserted (s := tables t) (n := 0) hreg hstage hu hg
          exact ⟨0, h.keeps_effect he rfl h.callback rfl rfl, hr', rfl⟩
      | inserted =>
          simp only [hstage]
          have he := Timers.Effect.returned (s := tables t) (n := 0) hreg hstage
          exact ⟨1, h.keeps_effect he rfl h.callback rfl rfl, hr.inc, rfl⟩

/-- Entry and timer go together, if timer_delete returns. -/
theorem clearTimer_holds (h : Points t) (hreg : t.registration = none) (arg : Int)
    (hdeletable : t.deletable (UInt64.ofInt arg) = true) :
    (t.clearTimer arg).Holds fun u => Points u ∧ u.env = t.env.dec ∧ u.ctl = t.ctl ∧
      u.registration = t.registration ∧
      ((t.timerMap.find (UInt64.ofInt arg)).isSome → Keeps t u (-1)) := by
  have he : Timers.Effect (tables t) 0 (.clearTimer arg) (-1)
      (((tables t).timerErase (UInt64.ofInt arg)).timerDelete (UInt64.ofInt arg)) := .cleared hreg
  simp only [Timers.clearTimer, if_pos hdeletable]
  exact ⟨h.effect he rfl h.callback, rfl, rfl, rfl,
    fun hfind => h.keeps_effect he rfl h.callback rfl hfind⟩

/-- A timer with an entry is one that timer_create made. -/
theorem Points.deletable (h : Points t) {id : TimerId} (hfind : (t.timerMap.find id).isSome) :
    t.deletable id = true := by
  obtain ⟨c, hc⟩ := Option.isSome_iff_exists.mp hfind
  obtain ⟨w, hw, -⟩ := h.core.entry id c hc
  have hkernel : t.kernel id = some w := hw
  simp [Timers.deletable, hkernel]

/-- The kernel's record of a timer changes, and its `sigevent` does not. -/
theorem Points.expired (h : Points t) {id : TimerId} {w : PosixTimer}
    (hw : t.kernel id = some w) (harmed : w.arming.armed = true)
    (hu : tables u = tables { t with
      kernel := Function.update t.kernel id (some (Timers.expiry w)) })
    (hcallback : ∀ p id c, u.ctl = .callback p id c → (u.contexts.get? c).isSome) :
    Keeps t u 0 := by
  refine ⟨⟨?_, hcallback⟩, fun hall => ?_, ?_⟩
  · rw [hu]
    exact h.core.expiry hw harmed
  · have hexpired : (tables u).Armed := by
      rw [hu]
      exact hall.expiry hw harmed rfl rfl rfl
    exact hexpired
  · have howed : (tables u).owed = t.owed + 0 := by
      rw [hu]
      exact (Int.add_zero _).symm
    exact howed

/-- The context of an armed timer is held while every armed timer is in the map. -/
theorem Points.held (h : Points t) (hall : t.Armed) {id : TimerId} {w : PosixTimer}
    (hw : t.kernel id = some w) (harmed : w.arming.armed = true) : t.held w.sival = true := by
  have hheld : (tables t).held w.sival = true := (h.inv hall).held_sival hw harmed
  have hscript : (tables t).held w.sival =
      (t.timerMap.values.contains w.sival || t.registration.any (·.ctx == w.sival) || false) := rfl
  rw [hscript, Bool.or_false] at hheld
  rw [Timers.held, hheld, Bool.true_or]

/-- An expiry reads the context of its timer, which must be held, unless the map is empty. -/
theorem expire_cases (h : Points t) (hr : Requests fd t.env contexts running n flight)
    (id : TimerId) :
    (t.expire id = .disabled ∧ ∀ w, t.kernel id = some w → w.arming.armed = false) ∨
    ∃ w, t.kernel id = some w ∧ w.arming.armed = true ∧
      (t.timerMap.size ≠ 0 ∧ t.held w.sival = false ∧ t.expire id = .fault ∨
        (t.timerMap.size ≠ 0 → t.held w.sival = true) ∧ (t.expire id).Holds fun u => ∃ sent,
          Keeps t u 0 ∧ u.ctl = t.ctl ∧ u.registration = t.registration ∧
            Requests fd u.env contexts running n (sent ++ flight) ∧
            ∀ r ∈ sent, r = Timers.timerRequest id) := by
  rw [Timers.expire]
  cases hw : t.kernel id with
  | none => exact .inl ⟨rfl, fun w hw => absurd hw (by simp)⟩
  | some w =>
      cases harmed : w.arming.armed with
      | false =>
          refine .inl ⟨by simp [harmed], fun v hv => ?_⟩
          obtain rfl := Option.some.inj hv
          exact harmed
      | true =>
          refine .inr ⟨w, rfl, harmed, ?_⟩
          obtain ⟨ctx, hctx, rfl, -⟩ := h.core.context id w hw
          have hctx' : t.contexts.get? w.sival = some ctx := hctx
          simp only [harmed, if_true, Timers.signalHandler, hctx']
          have hheld : Timers.held
              { t with
                kernel := Function.update t.kernel ctx.timer_id (some (Timers.expiry w))
                trace := { t.trace with expired := t.trace.expired ++ [ctx.timer_id] } } w.sival =
              t.held w.sival := rfl
          rw [hheld]
          have hexpired := h.expired hw harmed (u := { t with
            kernel := Function.update t.kernel ctx.timer_id (some (Timers.expiry w))
            trace := { t.trace with expired := t.trace.expired ++ [ctx.timer_id] } }) rfl h.callback
          by_cases hempty : t.timerMap.size = 0
          · -- there is no key to compare the id with
            refine .inr ⟨fun hne => absurd hempty hne, ?_⟩
            rw [if_pos hempty]
            exact ⟨[], hexpired, rfl, rfl, hr, fun r hr => absurd hr (by simp)⟩
          rw [if_neg hempty]
          cases hh : t.held w.sival with
          | false => exact .inl ⟨hempty, rfl, rfl⟩
          | true =>
              refine .inr ⟨fun _ => rfl, ?_⟩
              rw [if_pos rfl]
              -- only a timer with an entry is given a NOP
              cases hfind : t.timerMap.find ctx.timer_id with
              | none => exact ⟨[], hexpired, rfl, rfl, hr, fun r hr => absurd hr (by simp)⟩
              | some c =>
                  obtain ⟨env, henv, hr'⟩ := hr.submitNew (fits_timerRequest ctx.timer_id) rfl
                  simp only [henv, Outcome.bind_next]
                  exact ⟨[Timers.timerRequest ctx.timer_id], h.expired hw harmed rfl h.callback,
                    rfl, rfl, hr', fun r hr => List.mem_singleton.mp hr⟩

/-- The JavaScript callback is called, or the request is done with. -/
theorem timer_cb_holds (h : Points t)
    (hr : Requests fd t.env contexts (some (p, req)) n flight) :
    (t.timer_cb p req).Holds fun u => Keeps t u 0 ∧ u.registration = t.registration ∧
      ((∃ id c, u.ctl = .callback p id c) ∧
          Requests fd u.env contexts (some (p, req)) n flight ∨
        u.ctl = .inner ∧ Requests fd u.env contexts none n flight) := by
  simp only [Timers.timer_cb]
  cases hfind : t.timerMap.find (UInt64.ofNat req.data) with
  | some c =>
      refine ⟨⟨⟨h.core, fun q id c' hc => ?_⟩, id, (Int.add_zero _).symm⟩, rfl,
        .inl ⟨⟨_, _, rfl⟩, hr⟩⟩
      obtain ⟨-, -, rfl⟩ := Timer.Ctl.callback.inj hc
      exact h.entry hfind
  | none =>
      obtain ⟨hfree, hr'⟩ := hr.free
      simp only [hfree, Outcome.bind_next]
      exact ⟨⟨⟨h.core, fun q id c hc => absurd hc (by simp)⟩, fun harmed => harmed,
        (Int.add_zero _).symm⟩, rfl, .inr ⟨rfl, hr'⟩⟩

/-- A one-shot timer gives up its entry and its reference. -/
theorem timer_cb_return_holds (h : Points t)
    (hr : Requests fd t.env contexts (some (p, req)) n flight) {id : TimerId} {c : Ptr}
    (hctl : t.ctl = .callback p id c) (hreg : t.registration = none) :
    (t.timer_cb_return p id c).Holds fun u => ∃ d, Points u ∧ u.ctl = .inner ∧
      u.registration = t.registration ∧
      Requests fd u.env contexts none (n + d) flight ∧
      (t.Settled .ret = true → t.Registered .ret = true → Keeps t u d) := by
  obtain ⟨ctx, hctx⟩ := Option.isSome_iff_exists.mp (h.callback p id c hctl)
  simp only [Timers.timer_cb_return, hctx]
  cases hone : ctx.oneShot with
  | true =>
      obtain ⟨hfree, hr'⟩ := hr.dec.free
      simp only [if_true, hfree, Outcome.bind_next]
      have hcore := core_tables (h.core.erase id hreg)
      refine ⟨-1, ⟨hcore, fun q id c hc => absurd hc (by simp)⟩, rfl, rfl, hr',
        fun hsettled hregistered => ⟨⟨hcore, fun q id c hc => absurd hc (by simp)⟩,
          fun harmed q w hw hq => .inl ?_, ?_⟩⟩
      · -- settled: the timer whose entry goes is not armed
        have hne : q ≠ id := by
          rintro rfl
          have hidle := Timers.Settled.not_armed hsettled (Timers.finishing_ret hctl hctx hone) hw
          exact absurd (hidle.symm.trans hq) (by decide)
        rw [StdMap.find_erase, if_neg hne]
        exact harmed.find (Timers.Inv.unregistered_none hreg) hw hq
      · -- registered: there is an entry to give up
        obtain ⟨c', hc'⟩ := Timers.Registered.find hregistered (Timers.finishing_ret hctl hctx hone)
        have hsize := StdMap.size_erase hc'
        simp only [Timers.owed, Timers.debt, hreg]
        omega
  | false =>
      obtain ⟨hfree, hr'⟩ := hr.free
      simp only [Bool.false_eq_true, if_false, hfree, Outcome.bind_next]
      exact ⟨0, ⟨h.core, fun q id c hc => absurd hc (by simp)⟩, rfl, rfl, by rwa [Int.add_zero],
        fun _ _ => ⟨⟨h.core, fun q id c hc => absurd hc (by simp)⟩, fun harmed => harmed,
          (Int.add_zero _).symm⟩⟩

end Timers

/-! ## core/inotify.cc -/

section Inotify

variable {w : Watcher}

/-- The counters of `inotify.cc`, while they count what is watched. -/
structure Watched (w : Watcher) : Prop where
  unused : w.needSubmit = true → w.inotifyMap.size = 0
  count : w.inotifyMap.size ≤ w.count.toInt

/-- One read is in flight or handled, once there is one to submit. -/
def Reading (w : Watcher) (flight : List Request) (handled : Nat) : Prop :=
  flight.countP isRead + handled = if w.needSubmit then 0 else 1

theorem SubmitReadRequest_holds (hfd : w.inotify_fd = fd)
    (hr : Requests fd w.env contexts running n flight) :
    w.SubmitReadRequest.Holds fun w' => ∃ sent,
      w'.needSubmit = false ∧ w'.count = w.count ∧ w'.inotifyMap = w.inotifyMap ∧
      Requests fd w'.env contexts running n (sent ++ flight) ∧ (∀ r ∈ sent, isRead r = true) ∧
      sent.length = if w.needSubmit then 1 else 0 := by
  rw [Watcher.SubmitReadRequest, hfd]
  cases hneed : w.needSubmit with
  | true =>
      obtain ⟨env, henv, hr'⟩ := hr.submitNew (fits_readRequest w.buffers) rfl
      simp only [if_true, henv, Outcome.bind_next]
      exact ⟨[Watcher.readRequest fd w.buffers], rfl, rfl, rfl, hr', fun r hr => by
        rw [List.mem_singleton.mp hr]
        rfl, rfl⟩
  | false => exact ⟨[], hneed, rfl, rfl, hr, fun r hr => absurd hr (by simp), rfl⟩

theorem countP_sent {sent : List Request} (hsent : ∀ r ∈ sent, isRead r = true) :
    (sent ++ flight).countP isRead = sent.length + flight.countP isRead := by
  rw [List.countP_append, List.countP_eq_length.mpr hsent]

/-- The first listener ever submits the read; a careful program watches again only while
    something is watched. -/
theorem On_holds (hfd : w.inotify_fd = fd) (hr : Requests fd w.env contexts running n flight)
    (object : Option JsFunction) (id : Int32) :
    (w.On object id).Holds fun w' => ∃ sent,
      Requests fd w'.env contexts running n (sent ++ flight) ∧ (∀ r ∈ sent, isRead r = true) ∧
      (∀ k, Reading w flight k → Reading w' (sent ++ flight) k) ∧
      (Watched w → w.Kept (.on object id) → w.count.toInt + 1 < 2 ^ 31 →
        Watched w' ∧ w'.owed = w.owed) := by
  rw [Watcher.On]
  split
  · exact ⟨[], hr, fun r hr => absurd hr (by simp), fun k h => h, fun h _ _ => ⟨h, rfl⟩⟩
  · next hid =>
    refine (SubmitReadRequest_holds (w := { w with
      watches := Function.update w.watches id true, count := w.count + 1 }) hfd hr).bind
      fun w' hread => ?_
    obtain ⟨sent, hneed, hcount, hmap, hr', hsent, hlength⟩ := hread
    have hlength' : sent.length = if w.needSubmit then 1 else 0 := hlength
    have hcount' : w'.count = w.count + 1 := hcount
    have hmap' : w'.inotifyMap = w.inotifyMap := hmap
    have hsize := Watcher.Inv.size_addListener w' object id
    rw [hmap'] at hsize
    refine ⟨sent, hr', hsent, fun k h => ?_, fun h hkept hrange => ⟨⟨fun hn => ?_, ?_⟩, ?_⟩⟩
    · show List.countP _ _ + k = if w'.needSubmit then 0 else 1
      rw [countP_sent hsent, hneed, hlength']
      rw [Reading] at h
      cases hw : w.needSubmit with
      | true =>
          simp only [hw, if_true, Bool.false_eq_true, if_false] at h ⊢
          omega
      | false =>
          simp only [hw, Bool.false_eq_true, if_false] at h ⊢
          omega
    · exact absurd (hneed.symm.trans hn) (by decide)
    · show ((w'.addListener object id).inotifyMap.size : Int) ≤ w'.count.toInt
      have hincr := (toInt_add_one_iff w.count).mpr hrange
      have hle := h.count
      rw [hcount']
      omega
    · -- nothing is owed before, and nothing after
      have hused : (w'.addListener object id).owed = 0 := Watcher.Inv.owed_used (by omega) hneed
      rw [hused, Watcher.owed, Watcher.watching]
      cases hw : w.needSubmit with
      | true => simp [h.unused hw]
      | false =>
          have hne : w.inotifyMap.size ≠ 0 := by simpa [Watcher.Kept, hid, hw] using hkept
          simp [hne]

/-- The last watch gives up the reference of the read. -/
theorem removeWatch_requests (hr : Requests fd w.env contexts running n flight) (id : Int32) :
    ∃ m, Requests fd (w.removeWatch id).env contexts running m flight ∧
      (w.removeWatch id).needSubmit = w.needSubmit ∧
      (Watched w → (w.inotifyMap.find id).isSome →
        (w.inotifyMap.size = 1 → w.watches id = true ∧ w.count = 1) →
        Watched (w.removeWatch id) ∧ (w.removeWatch id).owed = w.owed + (m - n)) := by
  -- in a careful program there is an entry, and it has the read submitted
  have hcareful : Watched w → (w.inotifyMap.find id).isSome →
      (w.inotifyMap.erase id).size + 1 = w.inotifyMap.size ∧ w.needSubmit = false ∧
        w.owed = 0 ∧ (w.count - 1).toInt = w.count.toInt - 1 := by
    intro h hfind
    obtain ⟨listeners, hfind⟩ := Option.isSome_iff_exists.mp hfind
    have hsize := StdMap.size_erase hfind
    have hle := h.count
    have hneed : w.needSubmit = false := by
      by_contra hne
      have hzero := h.unused (by simpa using hne)
      omega
    exact ⟨hsize, hneed, Watcher.Inv.owed_used (by omega) hneed, toInt_sub_one (by omega)⟩
  simp only [Watcher.removeWatch]
  split
  · split
    · next hwatched hzero =>
      refine ⟨n - 1, hr.dec, rfl, fun h hfind hlast => ?_⟩
      obtain ⟨hsize, hneed, howed, hdecr⟩ := hcareful h hfind
      have hle := h.count
      have hone : (w.inotifyMap.erase id).size = 0 := by
        have hzero' : (w.count - 1).toInt = 0 := congrArg Int32.toInt hzero
        omega
      refine ⟨⟨fun hn => hone, ?_⟩, ?_⟩
      · show ((w.inotifyMap.erase id).size : Int) ≤ (w.count - 1).toInt
        omega
      · rw [howed, Watcher.owed, Watcher.watching, if_pos hone, hneed]
        simp only [Bool.false_eq_true, if_false]
        omega
    · next hwatched hne =>
      refine ⟨n, hr, rfl, fun h hfind hlast => ?_⟩
      obtain ⟨hsize, hneed, howed, hdecr⟩ := hcareful h hfind
      have hle := h.count
      have hmore : 0 < (w.inotifyMap.erase id).size := by
        refine Nat.pos_of_ne_zero fun hzero => hne ?_
        rw [(hlast (by omega)).2]
        rfl
      refine ⟨⟨fun hn => absurd (hneed.symm.trans hn) (by decide), ?_⟩, ?_⟩
      · show ((w.inotifyMap.erase id).size : Int) ≤ (w.count - 1).toInt
        omega
      · rw [howed]
        refine Eq.trans (Watcher.Inv.owed_used ?_ hneed) (by omega)
        exact hmore
  · next hdropped =>
    refine ⟨n, hr, rfl, fun h hfind hlast => ?_⟩
    obtain ⟨hsize, hneed, howed, hdecr⟩ := hcareful h hfind
    have hle := h.count
    -- the kernel has dropped the watch, so `count` stays and an entry remains
    have hmore : 0 < (w.inotifyMap.erase id).size := by
      refine Nat.pos_of_ne_zero fun hzero => hdropped ?_
      exact (hlast (by omega)).1
    refine ⟨⟨fun hn => absurd (hneed.symm.trans hn) (by decide), ?_⟩, ?_⟩
    · show ((w.inotifyMap.erase id).size : Int) ≤ w.count.toInt
      omega
    · rw [howed]
      refine Eq.trans (Watcher.Inv.owed_used ?_ hneed) (by omega)
      exact hmore

theorem Off_requests (hr : Requests fd w.env contexts running n flight)
    (watchId funcId : Option Int32) :
    ∃ m, Requests fd (w.Off watchId funcId).env contexts running m flight ∧
      (w.Off watchId funcId).needSubmit = w.needSubmit ∧
      (Watched w → w.Kept (.off watchId funcId) →
        Watched (w.Off watchId funcId) ∧ (w.Off watchId funcId).owed = w.owed + (m - n)) := by
  have hsame : w.owed = w.owed + (n - n) := by omega
  have hlast : w.Kept (.off watchId funcId) → ∀ id, w.removed watchId funcId = some id →
      w.inotifyMap.size = 1 → w.watches id = true ∧ w.count = 1 := by
    intro hkept id hid hone
    simpa [Watcher.Kept, hid, hone] using hkept
  simp only [Watcher.Off]
  cases watchId with
  | none => exact ⟨n, hr, rfl, fun h _ => ⟨h, hsame⟩⟩
  | some id =>
      cases hfind : w.inotifyMap.find id with
      | none =>
          simp only [hfind]
          exact ⟨n, hr, trivial, fun h _ => ⟨h, hsame⟩⟩
      | some listeners =>
          cases funcId with
          | none =>
              simp only [hfind]
              obtain ⟨m, hr', hneed, hcareful⟩ := removeWatch_requests hr id
              refine ⟨m, hr', hneed, fun h hkept => hcareful h (by rw [hfind]; rfl) ?_⟩
              exact hlast hkept id (by simp [Watcher.removed, hfind])
          | some f =>
              simp only [hfind]
              have hupdate : Watched w → Watched { w with
                  inotifyMap := w.inotifyMap.update id (listeners.eraseP (·.id == f)) } :=
                fun h => ⟨by rw [StdMap.size_update]; exact h.unused,
                  by rw [StdMap.size_update]; exact h.count⟩
              have howed : Watcher.owed { w with
                  inotifyMap := w.inotifyMap.update id (listeners.eraseP (·.id == f)) } =
                  w.owed := by
                rw [Watcher.owed, Watcher.watching, StdMap.size_update]
                rfl
              split
              · refine ⟨n, hr, rfl, fun h _ => ⟨hupdate h, ?_⟩⟩
                rw [howed]
                exact hsame
              · next hempty =>
                obtain ⟨m, hr', hneed, hcareful⟩ := removeWatch_requests (w := { w with
                  inotifyMap := w.inotifyMap.update id (listeners.eraseP (·.id == f)) }) hr id
                refine ⟨m, hr', hneed, fun h hkept => ?_⟩
                rw [← howed]
                refine hcareful (hupdate h) ?_ ?_
                · rw [StdMap.find_update (by rw [hfind]; rfl), if_pos rfl]
                  rfl
                · rw [StdMap.size_update]
                  apply hlast hkept id
                  have hnil : listeners.eraseP (·.id == f) = [] :=
                    List.eq_nil_of_length_eq_zero (by omega)
                  simp [Watcher.removed, hfind, hnil]

/-- The next read takes the place of the one handled. -/
theorem inotifyHandler_return_holds (hfd : w.inotify_fd = fd)
    (hr : Requests fd w.env contexts (some (p, req)) n flight) :
    (w.inotifyHandler_return p).Holds fun w' => ∃ sent,
      Requests fd w'.env contexts none n (sent ++ flight) ∧ (∀ r ∈ sent, isRead r = true) ∧
      (Reading w flight 1 → Reading w' (sent ++ flight) 0 ∧
        (Watched w → Watched w' ∧ w'.owed = w.owed)) := by
  obtain ⟨hfree, hr'⟩ := hr.free
  rw [Watcher.inotifyHandler_return, hfree, Outcome.bind_next]
  refine (SubmitReadRequest_holds (w := { w with
    env := { w.env with heap := w.env.heap.free p }, needSubmit := true, ctl := .inner }) hfd
    hr').imp fun w' hread => ?_
  obtain ⟨sent, hneed, hcount, hmap, hr', hsent, hlength⟩ := hread
  refine ⟨sent, hr', hsent, fun h => ?_⟩
  rw [Reading] at h
  have hused : w.needSubmit = false := by
    cases hw : w.needSubmit with
    | true => simp [hw] at h
    | false => rfl
  simp only [hused, Bool.false_eq_true, if_false] at h
  refine ⟨?_, fun hw => ⟨⟨fun hn => absurd (hneed.symm.trans hn) (by decide), ?_⟩, ?_⟩⟩
  · rw [Reading, countP_sent hsent, hneed, hlength]
    simp only [if_true, Bool.false_eq_true, if_false]
    omega
  · rw [hcount, hmap]
    exact hw.count
  · rw [Watcher.owed, Watcher.watching, Watcher.owed, Watcher.watching, hneed, hused, hmap]

end Inotify

/-! ## core/signal.cc -/

section Signal

variable {u : Signal.Process}

/-- The contexts that listeners own are there. -/
def Listens (u : Signal.Process) : Prop :=
  ∀ sig vec, u.signalMap.find sig = some vec → ∀ c ∈ vec, (u.contexts.get? c).isSome

theorem owned_iff {c : Ptr} :
    u.owned c = true ↔ ∃ sig vec, u.signalMap.find sig = some vec ∧ c ∈ vec := by
  constructor
  · intro h
    obtain ⟨vec, hvec, hmem⟩ := List.any_eq_true.mp h
    obtain ⟨sig, hfind⟩ := StdMap.mem_values.mp hvec
    exact ⟨sig, vec, hfind, List.contains_iff_mem.mp hmem⟩
  · rintro ⟨sig, vec, hfind, hc⟩
    exact List.any_eq_true.mpr
      ⟨vec, StdMap.mem_values_of_find hfind, List.contains_iff_mem.mpr hc⟩

theorem Listens.owned (h : Listens u) {c : Ptr} (hc : u.owned c = true) :
    (u.contexts.get? c).isSome := by
  obtain ⟨sig, vec, hfind, hmem⟩ := owned_iff.mp hc
  exact h sig vec hfind c hmem

theorem RegisterSignal_listens (h : Listens u) (object : Option JsFunction) (sig : Int32) :
    Listens (u.RegisterSignal object sig) := by
  have hnew : ((u.contexts.alloc ⟨object, sig⟩).get? u.contexts.top).isSome := by
    rw [Heap.get?_alloc_top]
    rfl
  intro q vec hq c hc
  cases hfind : u.signalMap.find sig with
  | none =>
      rw [Signal.Process.RegisterSignal_first u object hfind] at hq ⊢
      rw [StdMap.find_insert hfind] at hq
      split at hq
      · obtain rfl := Option.some.inj hq
        rw [List.mem_singleton.mp hc]
        exact hnew
      · exact isSome_alloc _ (h q vec hq c hc)
  | some old =>
      rw [Signal.Process.RegisterSignal_more u object hfind] at hq ⊢
      rw [StdMap.find_update (by rw [hfind]; rfl)] at hq
      split at hq
      · obtain rfl := Option.some.inj hq
        obtain hold | hlast := List.mem_append.mp hc
        · exact isSome_alloc _ (h sig old hfind c hold)
        · rw [List.mem_singleton.mp hlast]
          exact hnew
      · exact isSome_alloc _ (h q vec hq c hc)

theorem owned_register {c : Ptr} (hc : u.owned c = true) (object : Option JsFunction)
    (sig : Int32) : (u.RegisterSignal object sig).owned c = true := by
  obtain ⟨q, vec, hq, hmem⟩ := owned_iff.mp hc
  rw [owned_iff]
  cases hfind : u.signalMap.find sig with
  | none =>
      rw [Signal.Process.RegisterSignal_first u object hfind]
      have hne : q ≠ sig := by
        rintro rfl
        exact absurd (hfind.symm.trans hq) (by simp)
      exact ⟨q, vec, by rw [StdMap.find_insert hfind, if_neg hne, hq], hmem⟩
  | some old =>
      rw [Signal.Process.RegisterSignal_more u object hfind]
      by_cases hsig : q = sig
      · subst hsig
        obtain rfl := Option.some.inj (hfind.symm.trans hq)
        exact ⟨q, _, by rw [StdMap.find_update (by rw [hfind]; rfl), if_pos rfl],
          List.mem_append_left _ hmem⟩
      · exact ⟨q, vec, by rw [StdMap.find_update (by rw [hfind]; rfl), if_neg hsig, hq], hmem⟩

theorem UnRegisterSignal_listens (h : Listens u) (sig : Int32) :
    Listens (u.UnRegisterSignal sig) :=
  fun q vec hq => h q vec (StdMap.of_find_erase hq).2

/-- A NOP for every listener. -/
theorem handleSignal_holds (hr : Requests fd u.timers.env contexts running n flight)
    (sig : Int32) :
    ∃ env sent, u.handleSignal sig = .next { u with timers := { u.timers with env } } ∧
      Requests fd env contexts running n (sent ++ flight) ∧
      ∀ r ∈ sent, ∃ c, r = signalRequest c ∧ u.owned c = true := by
  have hsent : ∀ r ∈ Tables.requests ⟨∅, u.signalMap⟩ (.signal sig),
      ∃ c, r = signalRequest c ∧ u.owned c = true := by
    intro r hr
    simp only [Tables.requests] at hr
    split at hr
    · exact absurd hr (by simp)
    · next vec hfind =>
      obtain ⟨c, hc, rfl⟩ := List.mem_map.mp hr
      exact ⟨c, rfl, owned_iff.mpr ⟨sig, vec, hfind, hc⟩⟩
  have hfits : ∀ r ∈ Tables.requests ⟨∅, u.signalMap⟩ (.signal sig),
      Fits fd contexts r ∧ isAsync r = false := by
    intro r hr
    obtain ⟨c, rfl, -⟩ := hsent r hr
    exact ⟨fits_signalRequest c, rfl⟩
  obtain ⟨env, henv, hr'⟩ := hr.submitAll hfits
  refine ⟨env, _, ?_, hr', fun r hr => hsent r (List.mem_reverse.mp hr)⟩
  rw [Signal.Process.handleSignal_eq, henv, Outcome.bind_next]

theorem signal_cb_return_holds
    (hr : Requests fd u.timers.env contexts (some (p, req)) n flight) :
    ∃ env, u.signal_cb_return p =
        .next { u with timers := { u.timers with env }, listener := none } ∧
      Requests fd env contexts none n flight := by
  obtain ⟨hfree, hr'⟩ := hr.free
  exact ⟨_, by rw [Signal.Process.signal_cb_return_eq, hfree, Outcome.bind_next], hr'⟩

end Signal

end NoJs.Core
