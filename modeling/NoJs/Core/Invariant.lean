/-
  NoJs.Core.Invariant

  What holds of the whole process in every run, and of a careful one beside.

  Every run keeps the requests of NoJs.Core.Requests, and tables whose pointers
  lead to contexts that are there.  `Dangling` lists the steps that follow a
  pointer which nothing in the process keeps alive.  `Careful` is what a program
  has to observe so that it takes none of them and `pending` counts what is left
  to wait for: `Balance` is what it keeps.  `Inv` serves both kinds of run, with
  `G` for "the run was careful".
-/

import NoJs.Core.Operations

namespace NoJs.Core

open Machine IoUring Timer Inotify Signal

/-- The request that the code at `ctl` has at hand. -/
def Ctl.Handles : Ctl → Option (Ptr × Request) → Prop
  | callback p, running => ∃ req, running = some (p, req) ∧ isAsync req = true
  | timer p _ _, running => ∃ req, running = some (p, req)
  | signal p _, running => ∃ req, running = some (p, req)
  | handler p, running => ∃ req, running = some (p, req)
  | _, running => running = none

theorem Ctl.Handles.running {ctl : Ctl} {running : Option (Ptr × Request)}
    (h : ctl.Handles running) : running.map Prod.fst = ctl.running := by
  cases ctl with
  | callback p =>
      obtain ⟨req, rfl, -⟩ := h
      rfl
  | timer p id c =>
      obtain ⟨req, rfl⟩ := h
      rfl
  | signal p c =>
      obtain ⟨req, rfl⟩ := h
      rfl
  | handler p =>
      obtain ⟨req, rfl⟩ := h
      rfl
  | script => exact congrArg _ h
  | outer => exact congrArg _ h
  | inner => exact congrArg _ h
  | exited => exact congrArg _ h

/-- The inotify reads that the code at `ctl` has at hand. -/
def Ctl.handled : Ctl → Nat
  | handler _ => 1
  | _ => 0

/-- Whether `RunIOUring` is between two completions. -/
def Ctl.inLoop : Ctl → Bool
  | outer => true
  | inner => true
  | exited => true
  | _ => false

namespace Process

/-! ## The invariant -/

/-- The tables of the modules point to contexts that are there. -/
structure Linked (fd : Int32) (s : Process) : Prop where
  inotify_fd : s.inotify_fd = fd
  points : Points s.timers
  listens : Listens s.signals
  idle : s.ctl.inLoop = true → s.registration = none

/-- What a careful program keeps of `pending`, which counts `n` references and the requests of
    `flight`, and of the pointers that the kernel keeps. -/
structure Balance (s : Process) (n : Int) (flight : List Request) (handled : Nat) : Prop where
  owed : n = s.timers.owed + s.watcher.owed
  listened : ∀ r ∈ flight, r.cb = some .signal_cb → s.signals.owned r.data = true
  reading : Reading s.watcher flight handled
  armed : s.timers.Armed
  watched : Watched s.watcher

/-- What every run keeps, and a careful one beside. -/
structure Inv (fd : Int32) (G : Prop) (s : Process) : Prop extends Linked fd s where
  requests : ∃ running n flight, Requests fd s.env s.contexts running n flight ∧
    s.ctl.Handles running ∧ (G → s.Balance n flight s.ctl.handled)

variable {fd : Int32} {G : Prop} {s : Process} {running : Option (Ptr × Request)} {n d : Int}
  {flight flight' sent : List Request} {k : Nat} {p : Ptr} {req : Request}

theorem inv_init (fd : Int32) (G : Prop) : (init fd).Inv fd G where
  inotify_fd := rfl
  points := ⟨core_tables (t := Timers.init) Timers.inv_init.core, fun p id c hc =>
    absurd hc (by simp [init, timers])⟩
  listens sig vec hvec := absurd hvec (by simp [init, signals])
  idle _ := rfl
  requests := ⟨none, 0, [], Requests.init, rfl, fun _ => {
    owed := rfl
    listened := fun r hr => absurd hr (by simp)
    reading := rfl
    armed := fun id u hu => absurd hu (by simp [init, timers])
    watched := ⟨fun _ => rfl, Int.le_refl 0⟩ }⟩

namespace Balance

/-- Other requests, and another place in the code. -/
theorem goesOn (h : s.Balance n flight k) (env : Environment)
    (contexts : Heap Async.RequestContext) (ctl : Ctl) :
    Balance { s with env, contexts, ctl } n flight k :=
  ⟨h.owed, h.listened, h.reading, h.armed, ⟨h.watched.unused, h.watched.count⟩⟩

/-- Requests that are none of `inotify.cc`, to listeners that are there. -/
theorem send (h : s.Balance n flight k)
    (hsent : ∀ r ∈ sent, isRead r = false ∧
      (r.cb = some .signal_cb → s.signals.owned r.data = true)) :
    s.Balance n (sent ++ flight) k where
  owed := h.owed
  listened r hr := (List.mem_append.mp hr).elim (fun hr => (hsent r hr).2) (h.listened r)
  reading := by
    have hnone : sent.countP isRead = 0 :=
      List.countP_eq_zero.mpr fun r hr => by simp [(hsent r hr).1]
    rw [Reading, List.countP_append, hnone, Nat.zero_add]
    exact h.reading
  armed := h.armed
  watched := h.watched

/-- A completion is taken. -/
theorem reap (h : s.Balance n flight k) (hperm : flight.Perm (req :: flight')) :
    s.Balance n flight' (k + if isRead req then 1 else 0) where
  owed := h.owed
  listened r hr := h.listened r (hperm.mem_iff.mpr (List.mem_cons_of_mem _ hr))
  reading := by
    have hreading := h.reading
    rw [Reading, hperm.countP_eq, List.countP_cons] at hreading
    rw [Reading]
    omega
  armed := h.armed
  watched := h.watched

theorem withTimers (h : s.Balance n flight k) {t : Timers} (hkeeps : Keeps s.timers t d) :
    (s.withTimers t).Balance (n + d) flight k where
  owed := by
    have howed : (s.withTimers t).timers.owed = s.timers.owed + d := hkeeps.owed
    have hwatcher : (s.withTimers t).watcher.owed = s.watcher.owed := rfl
    rw [h.owed, howed, hwatcher]
    omega
  listened := h.listened
  reading := h.reading
  armed := hkeeps.armed h.armed
  watched := ⟨h.watched.unused, h.watched.count⟩

/-- More listeners. -/
theorem withSignals (h : s.Balance n flight k) {u : Signal.Process}
    (hkeeps : Keeps s.timers u.timers d)
    (howned : ∀ c, s.signals.owned c = true → u.owned c = true) :
    (s.withSignals u).Balance (n + d) flight k where
  owed := (h.withTimers hkeeps).owed
  listened r hr hcb := howned _ (h.listened r hr hcb)
  reading := h.reading
  armed := hkeeps.armed h.armed
  watched := ⟨h.watched.unused, h.watched.count⟩

/-- Reads may be sent; no listener of a signal is behind one. -/
theorem withWatcher (h : s.Balance n flight k) {w : Watcher} {m : Int} {k' : Nat}
    (hsent : ∀ r ∈ sent, isRead r = true) (hreading : Reading w (sent ++ flight) k')
    (hwatched : Watched w) (howed : w.owed = s.watcher.owed + (m - n)) :
    (s.withWatcher w).Balance m (sent ++ flight) k' where
  owed := by
    have htimers : (s.withWatcher w).timers.owed = s.timers.owed := rfl
    have hwatcher : (s.withWatcher w).watcher.owed = w.owed := rfl
    have hn := h.owed
    rw [htimers, hwatcher, howed]
    omega
  listened r hr hcb := by
    rcases List.mem_append.mp hr with hr | hr
    · have hread := hsent r hr
      rw [isRead, hcb] at hread
      exact absurd hread (by decide)
    · exact h.listened r hr hcb
  reading := hreading
  armed := h.armed
  watched := ⟨hwatched.unused, hwatched.count⟩

end Balance

namespace Linked

/-- Other requests, and another place in the code. -/
theorem goesOn (h : s.Linked fd) {env : Environment} {contexts : Heap Async.RequestContext}
    {ctl : Ctl} (hr : Requests fd env contexts running n flight) (hctl : ctl.Handles running)
    (htimer : ∀ p id c, ctl = .timer p id c → s.ctl = ctl)
    (hidle : ctl.inLoop = true → s.registration = none)
    (hbalance : G → s.Balance n flight ctl.handled) :
    Inv fd G { s with env, contexts, ctl } where
  inotify_fd := h.inotify_fd
  points := by
    refine ⟨h.points.core, fun p id c hc => ?_⟩
    have heq : ctl = .timer p id c := by
      cases ctl with
      | timer p' id' c' =>
          obtain ⟨rfl, rfl, rfl⟩ := Timer.Ctl.callback.inj hc
          rfl
      | _ => exact absurd hc (by simp [timers])
    refine h.points.callback p id c ?_
    simp only [timers, htimer p id c heq, heq]
  listens := h.listens
  idle := hidle
  requests := ⟨running, n, flight, hr, hctl, fun g => (hbalance g).goesOn env contexts ctl⟩

/-- A completion is taken. -/
theorem reaped (h : s.Linked fd) (env : Environment) : Linked fd { s with env } where
  inotify_fd := h.inotify_fd
  points := ⟨h.points.core, h.points.callback⟩
  listens := h.listens
  idle := h.idle

/-- The same after a function of `core/inotify.cc`. -/
theorem withWatcher (h : s.Linked fd) {w : Watcher} {ctl : Ctl} {m : Int}
    (hr : Requests fd w.env s.contexts running m flight') (hctl : ctl.Handles running)
    (htimer : ∀ p id c, ctl = .timer p id c → s.ctl = ctl)
    (hidle : ctl.inLoop = true → s.registration = none)
    (hbalance : G → (s.withWatcher w).Balance m flight' ctl.handled) :
    Inv fd G { s.withWatcher w with ctl } := by
  have hlinked : Linked fd (s.withWatcher w) :=
    ⟨h.inotify_fd, ⟨h.points.core, h.points.callback⟩, h.listens, h.idle⟩
  exact hlinked.goesOn hr hctl htimer hidle hbalance

/-- JavaScript goes on after a function of `core/timer.cc`. -/
theorem withTimers (h : s.Linked fd) (hctl : s.ctl.Handles running) {t : Timers}
    (hpoints : Points t) (hr : Requests fd t.env s.contexts running n flight)
    (hsame : t.ctl = s.timers.ctl) (hidle : s.ctl.inLoop = true → t.registration = none)
    (hbalance : G → (s.withTimers t).Balance n flight s.ctl.handled) :
    Inv fd G (s.withTimers t) where
  inotify_fd := h.inotify_fd
  points := ⟨hpoints.core, fun p id c hc => hpoints.callback p id c (hsame.trans hc)⟩
  listens := h.listens
  idle := hidle
  requests := ⟨running, n, flight, hr, hctl, hbalance⟩

/-- And after one of `core/signal.cc`. -/
theorem withSignals (h : s.Linked fd) (hctl : s.ctl.Handles running) {u : Signal.Process}
    (hpoints : Points u.timers) (hlistens : Listens u)
    (hr : Requests fd u.timers.env s.contexts running n flight)
    (hsame : u.timers.ctl = s.timers.ctl)
    (hidle : s.ctl.inLoop = true → u.timers.registration = none)
    (hbalance : G → (s.withSignals u).Balance n flight s.ctl.handled) :
    Inv fd G (s.withSignals u) where
  inotify_fd := h.inotify_fd
  points := ⟨hpoints.core, fun p id c hc => hpoints.callback p id c (hsame.trans hc)⟩
  listens := hlistens
  idle := hidle
  requests := ⟨running, n, flight, hr, hctl, hbalance⟩

/-- The loop or a callback goes on after a function of `core/timer.cc`. -/
theorem afterTimers (h : s.Linked fd) (p : Ptr) (req : Request) {o : Outcome Timers}
    (ho : o.Holds fun t => Points t ∧ t.registration = none ∧ ∃ m flight,
      (G → (s.withTimers t).Balance m flight 0) ∧
      ((∃ id c, t.ctl = .callback p id c) ∧ Requests fd t.env s.contexts (some (p, req)) m flight ∨
        t.ctl = .inner ∧ Requests fd t.env s.contexts none m flight)) :
    (s.afterTimers o).Holds (Inv fd G) := by
  refine ho.bind fun t ht => ?_
  obtain ⟨hpoints, hidle, m, flight, hbalance, hor⟩ := ht
  have hrepack : ∀ ctl : Ctl, ctl.handled = 0 →
      G → Balance { s.withTimers t with ctl } m flight ctl.handled := fun ctl hctl g => by
    rw [hctl]
    exact (hbalance g).goesOn t.env s.contexts ctl
  rcases hor with ⟨⟨id, c, hctl⟩, hr⟩ | ⟨hctl, hr⟩
  · simp only [hctl]
    exact ⟨⟨h.inotify_fd, ⟨hpoints.core, fun q id' c' hc =>
      hpoints.callback q id' c' (hctl.trans hc)⟩, h.listens, fun _ => hidle⟩,
      _, m, flight, hr, ⟨req, rfl⟩, hrepack _ rfl⟩
  · simp only [hctl]
    exact ⟨⟨h.inotify_fd, ⟨hpoints.core, fun q id' c' hc =>
      absurd hc (by simp [timers, Process.withTimers])⟩, h.listens, fun _ => hidle⟩,
      _, m, flight, hr, rfl, hrepack _ rfl⟩

/-- The same after one of an asynchronous operation. -/
theorem afterAsync (h : s.Linked fd) (p : Ptr) (req : Request) {o : Outcome Async.Runtime}
    (hidle : s.registration = none)
    (ho : o.Holds fun r => ∃ flight, (G → s.Balance n flight 0) ∧
      (r.ctl = .callback p ∧ isAsync req = true ∧
          Requests fd r.env r.contexts (some (p, req)) n flight ∨
        r.ctl = .inner ∧ Requests fd r.env r.contexts none n flight)) :
    (s.afterAsync o).Holds (Inv fd G) := by
  refine ho.bind fun r hr => ?_
  obtain ⟨flight, hbalance, hor⟩ := hr
  rcases hor with ⟨hctl, hasync, hr⟩ | ⟨hctl, hr⟩
  · simp only [hctl]
    exact h.goesOn hr ⟨req, rfl, hasync⟩ (fun p id c hc => absurd hc (by simp))
      (fun _ => hidle) hbalance
  · simp only [hctl]
    exact h.goesOn hr rfl (fun p id c hc => absurd hc (by simp)) (fun _ => hidle) hbalance

/-- What `makeCallback` puts in flight again is no read and has no listener. -/
theorem again_plain (hasync : isAsync req = true) :
    ∀ r ∈ again req, isRead r = false ∧
      (r.cb = some .signal_cb → s.signals.owned r.data = true) := by
  intro r hr
  have heq : r = req := by
    rw [again] at hr
    split at hr
    · exact List.mem_singleton.mp hr
    · exact absurd hr (by simp)
  subst heq
  rw [isAsync] at hasync
  cases hcb : r.cb with
  | none => simp [hcb] at hasync
  | some cb =>
      cases cb with
      | makeCallback event => exact ⟨by simp [isRead, hcb], fun heq => absurd heq (by simp)⟩
      | _ => simp [hcb] at hasync

/-- A completion function runs, on a request that fits. -/
theorem call (h : s.Linked fd) (hr : Requests fd s.env s.contexts (some (p, req)) n flight)
    (hidle : s.registration = none) (hfits : Fits fd s.contexts req)
    (howned : req.cb = some .signal_cb → s.signals.owned req.data = true)
    (hbalance : G → s.Balance n flight (if isRead req then 1 else 0)) :
    (call p req s).Holds (Inv fd G) := by
  obtain ⟨-, cb, hcb, hexpects⟩ := hfits
  rw [Process.call, hcb]
  have hother : cb ≠ .inotifyHandler → G → s.Balance n flight 0 := fun hne g => by
    have hread : isRead req = false := by
      rw [isRead, hcb]
      exact beq_eq_false_iff_ne.mpr fun heq => hne (Option.some.inj heq)
    have hb := hbalance g
    rw [hread] at hb
    exact hb
  cases cb with
  | makeCallback event =>
      have hasync : isAsync req = true := by simp [isAsync, hcb]
      have hb := hother (by simp)
      refine h.afterAsync (n := n) p req hidle
        ((makeCallback_holds hr hasync event).imp fun r hor => ?_)
      rcases hor with ⟨hctl, hr⟩ | ⟨hctl, hr⟩
      · exact ⟨flight, hb, .inl ⟨hctl, hasync, hr⟩⟩
      · exact ⟨_, fun g => (hb g).send (again_plain hasync), .inr ⟨hctl, hr⟩⟩
  | openAfter =>
      have hb := hother (by simp)
      exact h.afterAsync (n := n) p req hidle
        ((openAfter_holds hr).imp fun r hr => ⟨flight, hb, .inr hr⟩)
  | timer_cb =>
      have hb := hother (by simp)
      refine h.afterTimers p req ((timer_cb_holds h.points hr).imp fun t ht => ?_)
      obtain ⟨hkeeps, hreg, hor⟩ := ht
      refine ⟨hkeeps.points, hreg.trans hidle, n, flight, fun g => ?_, hor⟩
      have hb' := (hb g).withTimers hkeeps
      rwa [Int.add_zero] at hb'
  | signal_cb =>
      have hown := howned hcb
      obtain ⟨ctx, hctx⟩ := Option.isSome_iff_exists.mp (h.listens.owned hown)
      have hcalls : s.signals.owned req.data = true ∧
          (s.signals.contexts.get? req.data).isSome = true := ⟨hown, by rw [hctx]; rfl⟩
      simp only [Signal.Process.signal_cb_eq, if_pos hcalls, Process.afterSignals,
        Outcome.bind_next]
      exact h.goesOn hr ⟨req, rfl⟩ (fun p id c hc => absurd hc (by simp)) (fun _ => hidle)
        (hother (by simp))
  | inotifyHandler =>
      refine h.goesOn hr ⟨req, rfl⟩ (fun p id c hc => absurd hc (by simp)) (fun _ => hidle)
        fun g => ?_
      have hb := hbalance g
      rw [show isRead req = true by rw [isRead, hcb]; rfl] at hb
      exact hb

end Linked

/-! ## What a step needs -/

/-- The steps that follow a pointer to what is gone, or to what was never there. -/
def Dangling (s : Process) : Act → Prop
  | .inner => s.ctl = .inner ∧
      ∃ c req, io_uring_peek_cqe s.env.io_uring_data.ring = some c ∧
        s.env.heap.get? c.user_data = some req ∧ req.cb = some .signal_cb ∧
        s.signals.owned req.data = false
  | .expire id => s.dispositions SIGUSR2 = .timer ∧
      ∃ u, s.kernel id = some u ∧ u.arming.armed = true ∧ s.timerMap.size ≠ 0 ∧
        s.timers.held u.sival = false
  | .deliver sig => s.dispositions sig = .timer ∧ s.timerMap.size ≠ 0
  | .clearTimer arg => s.runsJs = true ∧ s.timers.deletable (UInt64.ofInt arg) = false
  | _ => False

/-- A program clears only registered timers, and no one-shot timer in its own callback; it
    watches again only while something is watched, and unwatches what is; it drops no listener
    while a NOP for it is in flight; and nobody sends a signal that the timers handle. -/
def Careful (s : Process) : Act → Bool
  | .clearTimer arg => (s.timerMap.find (UInt64.ofInt arg)).isSome
  | .watch object id =>
      s.watcher.Kept (.on object id) && decide (s.count.toInt + 1 < 2 ^ 31)
  | .unwatch watchId funcId => s.watcher.Kept (.off watchId funcId)
  | .off sig => s.env.inFlight.all fun req =>
      req.cb != some .signal_cb || !((s.signalMap.find sig).getD []).contains req.data
  | .ret => s.timers.Settled .ret && s.timers.Registered .ret
  | .deliver sig => s.dispositions sig != .timer
  | _ => true

/-! ## The loop -/

theorem innerLoop_dangling (h : s.Inv fd G) (hd : s.Dangling .inner) : s.innerLoop = .fault := by
  obtain ⟨hctl, c, req, hc, hreq, hcb, howned⟩ := hd
  obtain ⟨running, n, flight, hr, hhandles, -⟩ := h.requests
  rw [hctl] at hhandles
  obtain rfl : running = none := hhandles
  obtain ⟨req', env, flight', hreq', henv, -⟩ := hr.reap hc
  obtain rfl := Option.some.inj (hreq.symm.trans hreq')
  simp only [innerLoop, hc, henv, Outcome.bind_next, Process.call, hcb,
    Signal.Process.signal_cb_eq]
  rw [show (signals { s with env }).owned req.data = false from howned]
  rfl

theorem innerLoop_holds (h : s.Inv fd G) (hctl : s.ctl = .inner) (hd : ¬ s.Dangling .inner) :
    s.innerLoop.Holds (Inv fd G) := by
  obtain ⟨running, n, flight, hr, hhandles, hbalance⟩ := h.requests
  have hidle : s.registration = none := h.idle (by rw [hctl]; rfl)
  rw [hctl] at hhandles hbalance
  obtain rfl : running = none := hhandles
  rw [innerLoop]
  cases hc : io_uring_peek_cqe s.env.io_uring_data.ring with
  | none =>
      exact h.toLinked.goesOn hr rfl (fun p id c hc => absurd hc (by simp)) (fun _ => hidle)
        hbalance
  | some c =>
      obtain ⟨req, env, flight', hreq, henv, hperm, hr'⟩ := hr.reap hc
      simp only [henv, Outcome.bind_next]
      refine (h.toLinked.reaped env).call hr' hidle ((hr.fits _ _ hreq).withRes c.res)
        (fun hcb => ?_) fun g => ?_
      · -- a listener that is gone would make the step one of `Dangling`
        by_contra hnot
        exact hd ⟨hctl, c, req, hc, hreq, hcb, Bool.eq_false_iff.mpr hnot⟩
      · have hb := (hbalance g).reap hperm
        rw [show Ctl.inner.handled = 0 from rfl, Nat.zero_add] at hb
        exact hb.goesOn env s.contexts s.ctl

theorem ret_holds (h : s.Inv fd G) (hidle : s.registration = none)
    (hG : G → s.Careful .ret = true) : s.ret.Holds (Inv fd G) := by
  obtain ⟨running, n, flight, hr, hhandles, hbalance⟩ := h.requests
  rw [ret]
  split
  · next p hctl =>
    -- makeCallback frees its request, or puts an accept in flight again
    rw [hctl] at hhandles hbalance
    obtain ⟨req, rfl, hasync⟩ := hhandles
    refine h.toLinked.afterAsync (n := n) p req hidle
      ((finishCallback_holds (r := s.async) hr hasync).imp fun r hr => ?_)
    exact ⟨_, fun g => (hbalance g).send (Linked.again_plain hasync), .inr hr⟩
  · next p id c hctl =>
    -- timer_cb drops a one-shot timer, and what is left to wait for goes down by one
    rw [hctl] at hhandles hbalance
    obtain ⟨req, rfl⟩ := hhandles
    refine h.toLinked.afterTimers p req
      ((timer_cb_return_holds h.points hr (by simp [timers, hctl]) hidle).imp fun t ht => ?_)
    obtain ⟨d, hpoints, hinner, hreg, hr', hkeeps⟩ := ht
    refine ⟨hpoints, hreg.trans hidle, n + d, flight, fun g => ?_, .inr ⟨hinner, hr'⟩⟩
    obtain ⟨hsettled, hregistered⟩ := Bool.and_eq_true_iff.mp (hG g)
    exact (hbalance g).withTimers (hkeeps hsettled hregistered)
  · next p c hctl =>
    -- signal_cb frees its request and nothing else
    rw [hctl] at hhandles hbalance
    obtain ⟨req, rfl⟩ := hhandles
    obtain ⟨env, henv, hr'⟩ := signal_cb_return_holds (u := s.signals) hr
    rw [henv]
    exact h.toLinked.goesOn hr' rfl (fun p id c hc => absurd hc (by simp)) (fun _ => hidle)
      hbalance
  · next p hctl =>
    -- inotifyHandler reads again while something is watched
    rw [hctl] at hhandles hbalance
    obtain ⟨req, rfl⟩ := hhandles
    refine (inotifyHandler_return_holds (w := s.watcher) h.inotify_fd hr).bind fun w hread => ?_
    obtain ⟨sent, hr', hsent, hcareful⟩ := hread
    refine h.toLinked.withWatcher hr' rfl (fun p id c hc => absurd hc (by simp)) (fun _ => hidle)
      fun g => ?_
    obtain ⟨hreading, hwatched⟩ := hcareful (hbalance g).reading
    obtain ⟨hwatched, howed⟩ := hwatched (hbalance g).watched
    exact (hbalance g).withWatcher (m := n) hsent hreading hwatched (by omega)
  · trivial

/-! ## Steps -/

theorem step_dangling (h : s.Inv fd G) {a : Act} (hd : s.Dangling a) : step s a = .fault := by
  cases a with
  | inner =>
      rw [step, if_pos hd.1]
      exact innerLoop_dangling h hd
  | expire id =>
      obtain ⟨hdisposition, u, hu, harmed, hsize, hheld⟩ := hd
      obtain ⟨running, n, flight, hr, -⟩ := h.requests
      rcases expire_cases (t := s.timers) h.points hr id with ⟨-, hnone⟩ | ⟨u', hu', -, hor⟩
      · exact absurd harmed (by simp [hnone u hu])
      · obtain rfl := Option.some.inj (hu.symm.trans hu')
        rcases hor with ⟨-, -, hfault⟩ | ⟨hheld', -⟩
        · have hlift : s.signals.expire id = s.signals.lift (s.timers.expire id) := by
            rw [Signal.Process.expire, show s.signals.dispositions SIGUSR2 = .timer from
              hdisposition]
            rfl
          rw [step, hlift, hfault]
          rfl
        · exact absurd (hheld' hsize) (by simp [hheld])
  | deliver sig =>
      rw [step, Process.deliver, hd.1]
      exact if_neg hd.2
  | clearTimer arg =>
      rw [step, if_pos hd.1, Timers.clearTimer, if_neg (by simp [hd.2])]
      rfl
  | _ => exact hd.elim

/-- What a signal handler sends is for listeners that are there. -/
theorem signalRequests_plain {u : Signal.Process} {sent : List Request}
    (hsent : ∀ r ∈ sent, ∃ c, r = signalRequest c ∧ u.owned c = true) :
    ∀ r ∈ sent, isRead r = false ∧ (r.cb = some .signal_cb → u.owned r.data = true) := by
  intro r hr
  obtain ⟨c, rfl, hc⟩ := hsent r hr
  exact ⟨rfl, fun _ => hc⟩

theorem deliver_holds (h : s.Inv fd G) (sig : Int32) (hd : ¬ s.Dangling (.deliver sig)) :
    (s.deliver sig).Holds (Inv fd G) := by
  obtain ⟨running, n, flight, hr, hctl, hbalance⟩ := h.requests
  rw [Process.deliver]
  cases hdisposition : s.dispositions sig with
  | dfl => trivial
  | timer =>
      -- with a timer in the map the handler would follow the pointer
      have hempty : s.timerMap.size = 0 := by
        by_contra hsize
        exact hd ⟨hdisposition, hsize⟩
      simp only [if_pos hempty]
      exact h
  | signal =>
      obtain ⟨env, sent, henv, hr', hsent⟩ := handleSignal_holds (u := s.signals) hr sig
      simp only [henv, Outcome.bind_next]
      refine h.toLinked.withSignals hctl ⟨h.points.core, h.points.callback⟩ h.listens hr' rfl
        h.idle fun g => ?_
      have hb := ((hbalance g).send (signalRequests_plain hsent)).withSignals
        (u := { s.signals with timers := { s.signals.timers with env } }) (d := 0)
        ⟨⟨h.points.core, h.points.callback⟩, fun harmed => harmed, (Int.add_zero _).symm⟩
        fun c hc => hc
      rwa [Int.add_zero] at hb

/-- The SIGUSR2 of a timer takes the way that the table says. -/
theorem expire_holds (h : s.Inv fd G) (id : TimerId) (hd : ¬ s.Dangling (.expire id)) :
    ((s.signals.expire id).bind fun u => .next (s.withSignals u)).Holds (Inv fd G) := by
  obtain ⟨running, n, flight, hr, hctl, hbalance⟩ := h.requests
  rw [Signal.Process.expire]
  cases hdisposition : s.signals.dispositions SIGUSR2 with
  | dfl => trivial
  | timer =>
      rcases expire_cases (t := s.timers) h.points hr id with ⟨hdisabled, -⟩ |
        ⟨u, hu, harmed, ⟨hsize, hheld, -⟩ | ⟨-, hholds⟩⟩
      · rw [show s.signals.timers.expire id = .disabled from hdisabled]
        trivial
      · exact absurd ⟨hdisposition, u, hu, harmed, hsize, hheld⟩ hd
      · have hlift : (s.signals.lift (s.signals.timers.expire id)).bind
            (fun u => .next (s.withSignals u)) =
            (s.timers.expire id).bind fun t => .next (s.withTimers t) := by
          rw [Signal.Process.lift, Outcome.bind_assoc]
          rfl
        rw [hlift]
        refine hholds.bind fun t ht => ?_
        obtain ⟨sent, hkeeps, hsame, hreg, hr', hsent⟩ := ht
        refine h.toLinked.withTimers hctl hkeeps.points hr' hsame (fun hin => ?_) fun g => ?_
        · exact hreg.trans (h.idle hin)
        · have hplain : ∀ r ∈ sent, isRead r = false ∧
              (r.cb = some .signal_cb → s.signals.owned r.data = true) := fun r hr => by
            rw [hsent r hr]
            exact ⟨rfl, fun hcb => absurd hcb (by simp [Timers.timerRequest])⟩
          have hb := ((hbalance g).send hplain).withTimers hkeeps
          rwa [Int.add_zero] at hb
  | signal =>
      cases hu : s.signals.timers.kernel id with
      | none => trivial
      | some u =>
          simp only
          split
          · next harmed =>
            -- the listeners of SIGUSR2 get the signal of the timer
            let t : Timers := { s.timers with
              kernel := Function.update s.timers.kernel id (some (Timers.expiry u))
              trace := { s.timers.trace with expired := s.timers.trace.expired ++ [id] } }
            have hkeeps : Keeps s.timers t 0 := h.points.expired hu harmed rfl h.points.callback
            obtain ⟨env, sent, henv, hr', hsent⟩ :=
              handleSignal_holds (u := { s.signals with timers := t }) hr SIGUSR2
            rw [show s.signals.timers = s.timers from rfl, henv]
            refine h.toLinked.withSignals hctl ⟨hkeeps.points.core, hkeeps.points.callback⟩
              h.listens hr' rfl h.idle fun g => ?_
            have hb := ((hbalance g).send (signalRequests_plain hsent)).withSignals
              (u := { s.signals with timers := { t with env } }) (d := 0)
              ⟨⟨hkeeps.points.core, hkeeps.points.callback⟩, hkeeps.armed, hkeeps.owed⟩
              fun c hc => hc
            rwa [Int.add_zero] at hb
          · trivial

/-- JavaScript drops the listeners of a signal. -/
theorem off_holds (h : s.Inv fd G) (sig : Int32) (hG : G → s.Careful (.off sig) = true) :
    Inv fd G (s.withSignals (s.signals.UnRegisterSignal sig)) := by
  obtain ⟨running, n, flight, hr, hctl, hbalance⟩ := h.requests
  refine h.toLinked.withSignals hctl h.points (UnRegisterSignal_listens h.listens sig) hr rfl
    h.idle fun g => ⟨(hbalance g).owed, fun req hreq hcb => ?_, (hbalance g).reading,
      (hbalance g).armed, ⟨(hbalance g).watched.unused, (hbalance g).watched.count⟩⟩
  obtain ⟨q, vec, hfind, hc⟩ := owned_iff.mp ((hbalance g).listened req hreq hcb)
  refine owned_iff.mpr ⟨q, vec, ?_, hc⟩
  have hne : q ≠ sig := by
    rintro rfl
    -- careful: no NOP in flight is for a listener of the signal
    have hflight := List.all_eq_true.mp (hG g) req (hr.flight.mem_iff.mpr hreq)
    have hfind' : s.signalMap.find q = some vec := hfind
    simp [hcb, hfind', hc] at hflight
  show (s.signalMap.erase sig).find q = some vec
  rw [StdMap.find_erase, if_neg hne]
  exact hfind

/-- JavaScript adds one. -/
theorem on_holds (h : s.Inv fd G) (object : Option JsFunction) (sig : Int32) :
    Inv fd G (s.withSignals (s.signals.RegisterSignal object sig)) := by
  obtain ⟨running, n, flight, hr, hctl, hbalance⟩ := h.requests
  obtain ⟨htimers, -⟩ := Signal.Process.timers_register s.signals object sig
  have hkeeps : Keeps s.timers (s.signals.RegisterSignal object sig).timers 0 := by
    rw [htimers]
    exact h.points.keeps
  have hr' : Requests fd (s.signals.RegisterSignal object sig).timers.env s.contexts running n
      flight := by
    rw [htimers]
    exact hr
  refine h.toLinked.withSignals hctl hkeeps.points (RegisterSignal_listens h.listens object sig)
    hr' (by rw [htimers]; rfl) (fun hin => by rw [htimers]; exact h.idle hin) fun g => ?_
  have hb := (hbalance g).withSignals hkeeps fun c hc => owned_register hc object sig
  rwa [Int.add_zero] at hb

/-- Every other step of JavaScript is in the middle of the code of a callback. -/
theorem runsJs_inLoop (hjs : s.runsJs = true) : s.registration = none ∧ s.ctl.inLoop = false := by
  rw [runsJs, Bool.and_eq_true] at hjs
  refine ⟨Option.isNone_iff_eq_none.mp hjs.1, ?_⟩
  cases hctl : s.ctl with
  | outer => simp [hctl] at hjs
  | inner => simp [hctl] at hjs
  | exited => simp [hctl] at hjs
  | _ => rfl

/-- JavaScript starts an asynchronous operation. -/
theorem start_step_holds (h : s.Inv fd G) (c : Async.Call) :
    ((s.async.start c).bind fun r => .next (s.withAsync r)).Holds (Inv fd G) := by
  obtain ⟨running, n, flight, hr, hctl, hbalance⟩ := h.requests
  refine (start_holds (r := s.async) hr c).bind fun r hstarted => ?_
  obtain ⟨a, hc, hr'⟩ := hstarted
  obtain ⟨hread, hcb⟩ := start_plain hc s.async.contexts.top
  have hplain : ∀ r ∈ [a.request s.async.contexts.top], isRead r = false ∧
      (r.cb = some .signal_cb → s.signals.owned r.data = true) := fun r hr => by
    rw [List.mem_singleton.mp hr]
    exact ⟨hread, fun heq => absurd heq hcb⟩
  exact h.toLinked.goesOn hr' hctl (fun _ _ _ _ => rfl) h.idle fun g => (hbalance g).send hplain

/-- JavaScript calls `setTimeout` or `setInterval`, up to `timer_create`. -/
theorem setTimer_holds (h : s.Inv fd G) (hjs : s.runsJs = true) (object : Option JsFunction)
    (timeout interval : Int32) (created : Option TimerId) :
    ((s.timers.timerCreate object timeout interval created).bind fun t =>
      .next (s.withTimers t)).Holds (Inv fd G) := by
  obtain ⟨running, n, flight, hr, hctl, hbalance⟩ := h.requests
  obtain ⟨hreg, hloop⟩ := runsJs_inLoop hjs
  refine (timerCreate_holds h.points hreg object timeout interval created).bind fun t ht => ?_
  obtain ⟨hkeeps, henv, hctl'⟩ := ht
  have hr' : Requests fd t.env s.contexts running n flight := by
    rw [henv]
    exact hr
  refine h.toLinked.withTimers hctl hkeeps.points hr' hctl'
    (fun hin => absurd (hloop.symm.trans hin) (by decide)) fun g => ?_
  have hb := (hbalance g).withTimers hkeeps
  rwa [Int.add_zero] at hb

/-- The next step of the `timerHandler` call in progress. -/
theorem timerHandler_step_holds (h : s.Inv fd G) :
    (s.timers.timerHandler.bind fun t => .next (s.withTimers t)).Holds (Inv fd G) := by
  obtain ⟨running, n, flight, hr, hctl, hbalance⟩ := h.requests
  refine (timerHandler_holds h.points hr).bind_next fun t ht hd => ?_
  obtain ⟨d, hkeeps, hr', hctl'⟩ := hd
  refine h.toLinked.withTimers hctl hkeeps.points hr' hctl' (fun hin => ?_) fun g =>
    (hbalance g).withTimers hkeeps
  -- no call of `timerHandler` is in progress in the loop
  have hreg : s.timers.registration = none := h.idle hin
  rw [Timers.timerHandler, hreg] at ht
  exact absurd ht (by simp)

/-- JavaScript clears a timer. -/
theorem clearTimer_step_holds (h : s.Inv fd G) (hjs : s.runsJs = true) (arg : Int)
    (hG : G → s.Careful (.clearTimer arg) = true) (hd : ¬ s.Dangling (.clearTimer arg)) :
    ((s.timers.clearTimer arg).bind fun t => .next (s.withTimers t)).Holds (Inv fd G) := by
  obtain ⟨running, n, flight, hr, hctl, hbalance⟩ := h.requests
  obtain ⟨hreg, hloop⟩ := runsJs_inLoop hjs
  have hdeletable : s.timers.deletable (UInt64.ofInt arg) = true := by
    by_contra hnot
    exact hd ⟨hjs, Bool.eq_false_iff.mpr hnot⟩
  refine (clearTimer_holds h.points hreg arg hdeletable).bind fun t ht => ?_
  obtain ⟨hpoints, henv, hsame, hreg', hkeeps⟩ := ht
  have hr' : Requests fd t.env s.contexts running (n - 1) flight := by
    rw [henv]
    exact hr.dec
  exact h.toLinked.withTimers hctl hpoints hr' hsame (fun hin => hreg'.trans (h.idle hin))
    fun g => (hbalance g).withTimers (hkeeps (hG g))

/-- JavaScript watches a path. -/
theorem watch_holds (h : s.Inv fd G) (object : Option JsFunction) (id : Int32)
    (hG : G → s.Careful (.watch object id) = true) :
    ((s.watcher.On object id).bind fun w => .next (s.withWatcher w)).Holds (Inv fd G) := by
  obtain ⟨running, n, flight, hr, hctl, hbalance⟩ := h.requests
  refine (On_holds (w := s.watcher) h.inotify_fd hr object id).bind fun w hread => ?_
  obtain ⟨sent, hr', hsent, hreading, hcareful⟩ := hread
  refine h.toLinked.withWatcher hr' hctl (fun _ _ _ _ => rfl) h.idle fun g => ?_
  -- careful: `count` does not wrap, and something is watched unless it is the first time
  obtain ⟨hkept, hcount⟩ := Bool.and_eq_true_iff.mp (hG g)
  obtain ⟨hwatched, howed⟩ := hcareful (hbalance g).watched hkept (of_decide_eq_true hcount)
  exact (hbalance g).withWatcher hsent (hreading _ (hbalance g).reading) hwatched (by omega)

/-- JavaScript ends a watch; nothing is sent. -/
theorem unwatch_holds (h : s.Inv fd G) (watchId funcId : Option Int32)
    (hG : G → s.Careful (.unwatch watchId funcId) = true) :
    Inv fd G (s.withWatcher (s.watcher.Off watchId funcId)) := by
  obtain ⟨running, n, flight, hr, hctl, hbalance⟩ := h.requests
  obtain ⟨m, hr', hneed, hcareful⟩ := Off_requests (w := s.watcher) hr watchId funcId
  refine h.toLinked.withWatcher hr' hctl (fun _ _ _ _ => rfl) h.idle fun g => ?_
  obtain ⟨hwatched, howed⟩ := hcareful (hbalance g).watched (hG g)
  have hnone : ∀ r ∈ ([] : List Request), isRead r = true := by simp
  refine (hbalance g).withWatcher hnone ?_ hwatched howed
  have hreading := (hbalance g).reading
  rw [Reading] at hreading ⊢
  rw [hneed]
  exact hreading

/-- The outer loop of `RunIOUring` tests whether to go on. -/
theorem outerLoop_holds (h : s.Inv fd G) (houter : s.ctl = .outer) :
    Inv fd G s.outerLoop := by
  obtain ⟨running, n, flight, hr, hctl, hbalance⟩ := h.requests
  have hidle : s.registration = none := h.idle (by rw [houter]; rfl)
  rw [houter] at hctl hbalance
  rw [outerLoop]
  split
  · exact h.toLinked.goesOn hr.submitAndWait hctl (fun p id c hc => absurd hc (by simp))
      (fun _ => hidle) hbalance
  · exact h.toLinked.goesOn hr hctl (fun p id c hc => absurd hc (by simp))
      (fun _ => hidle) hbalance

/-- **The step lemma**: a step that is none of `Dangling` keeps the invariant, and a careful
    program keeps its part of it too. -/
theorem step_holds (h : s.Inv fd G) (a : Act) (hG : G → s.Careful a = true)
    (hd : ¬ s.Dangling a) : (step s a).Holds (Inv fd G) := by
  cases a with
  | start c =>
      rw [step]
      split
      · exact start_step_holds h c
      · trivial
  | setTimer object timeout interval created =>
      rw [step]
      split
      · next hjs => exact setTimer_holds h hjs object timeout interval created
      · trivial
  | timerHandler => exact timerHandler_step_holds h
  | clearTimer arg =>
      rw [step]
      split
      · next hjs => exact clearTimer_step_holds h hjs arg hG hd
      · trivial
  | watch object id =>
      rw [step]
      split
      · exact watch_holds h object id hG
      · trivial
  | unwatch watchId funcId =>
      rw [step]
      split
      · exact unwatch_holds h watchId funcId hG
      · trivial
  | on object sig =>
      rw [step]
      split
      · exact on_holds h object sig
      · trivial
  | off sig =>
      rw [step]
      split
      · exact off_holds h sig hG
      · trivial
  | run =>
      rw [step]
      split
      · next hscript =>
        obtain ⟨running, n, flight, hr, hctl, hbalance⟩ := h.requests
        rw [hscript.1] at hctl hbalance
        exact h.toLinked.goesOn hr hctl (fun p id c hc => absurd hc (by simp))
          (fun _ => hscript.2) hbalance
      · trivial
  | outer =>
      rw [step]
      split
      · next houter => exact outerLoop_holds h houter
      · trivial
  | inner =>
      rw [step]
      split
      · next hinner => exact innerLoop_holds h hinner hd
      · trivial
  | ret =>
      rw [step]
      split
      · next hreg => exact ret_holds h hreg hG
      · trivial
  | dropped id =>
      -- the kernel's watches are in no part of the invariant
      obtain ⟨running, n, flight, hr, hctl, hbalance⟩ := h.requests
      refine ⟨⟨h.inotify_fd, ⟨h.points.core, h.points.callback⟩, h.listens, h.idle⟩,
        running, n, flight, hr, hctl, fun g => ?_⟩
      exact ⟨(hbalance g).owed, (hbalance g).listened, (hbalance g).reading, (hbalance g).armed,
        ⟨(hbalance g).watched.unused, (hbalance g).watched.count⟩⟩
  | expire id => exact expire_holds h id hd
  | deliver sig => exact deliver_holds h sig hd
  | complete i res =>
      obtain ⟨running, n, flight, hr, hctl, hbalance⟩ := h.requests
      exact (hr.complete i res).bind fun env hr' =>
        h.toLinked.goesOn hr' hctl (fun _ _ _ _ => rfl) h.idle hbalance

end Process

end NoJs.Core
