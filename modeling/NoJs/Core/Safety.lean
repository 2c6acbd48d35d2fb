/-
  NoJs.Core.Safety

  Which request blocks and contexts the process uses when they are gone, and when
  it ends.

  The kernel keeps pointers that nothing in the process keeps alive: the context
  of a listener in a NOP that was in flight at `signal.off`, the context of a
  timer that was erased from `timerMap` under its reused id, and the `sival_ptr`
  of a SIGUSR2 that no timer sent.  The last two are followed while some timer is
  registered.  And `clearTimer` lets timer_delete follow any id with its top bit
  set.  In every run a step is a fault exactly if it follows one of these.  A
  careful program follows none, and its process ends exactly when nothing is left
  to wait for.

  Outside this machine are: the rest of `inotifyHandler`, which is cut at its
  callbacks as in NoJs.Inotify.Machine (its walk over the listeners, which its
  callbacks may change, and its read of the environment's pointer from the request
  that it has just freed); an expiry inside `clearTimer`, which is one step here
  (NoJs.Timer.Delivery takes the two apart); and what the kernel reads and writes
  through a request in flight, the buffers, which `core/io.cc` does not keep alive,
  and the address that `SubmitRequest` passes to accept, a local of its own.
-/

import NoJs.Core.Invariant

namespace NoJs.Core

open Machine IoUring Timer Inotify Signal

namespace Process

variable {fd : Int32} {s : Process}

/-! ## Blocks and contexts that are gone -/

theorem inv_run {as : List Act} (hrun : (machine fd).run as = .next s) : s.Inv fd False := by
  refine Machine.Keeps.run (I := Inv fd False) (fun s a t h hstep => ?_) (inv_init fd False) hrun
  refine (step_holds h a False.elim fun hd => ?_).of_next hstep
  exact absurd (hstep.symm.trans (step_dangling h hd)) (by simp)

/-- `signal.off` while the NOP of a delivery is in flight. -/
example : (machine 3).run [.on (some 0) 2, .deliver 2, .off 2, .run, .outer, .complete 0 0,
    .inner] = .fault := rfl

/-- A SIGUSR2 from outside: nothing is read before the first timer is registered. -/
example :
    (∃ s, (machine 3).run [.deliver 12] = .next s) ∧
      (machine 3).run [.setTimer (some 0) 1000 0 (some 7), .timerHandler, .timerHandler,
        .deliver 12] = .fault := ⟨⟨_, rfl⟩, rfl⟩

/-! ## The request blocks -/

/-- Who has the request blocks, and what each is good for. -/
structure Owned (fd : Int32) (s : Process) : Prop where
  live_iff : ∀ p, (s.env.heap.get? p).isSome ↔ p ∈ s.env.outstanding ∨ s.ctl.running = some p
  apart : ∀ p, s.ctl.running = some p → p ∉ s.env.outstanding
  fits : ∀ p req, s.env.heap.get? p = some req → Fits fd s.contexts req
  contexts : ∀ p q r r', s.env.heap.get? p = some r → s.env.heap.get? q = some r' →
    isAsync r = true → isAsync r' = true → r.data = r'.data → p = q

/-- **Whatever the modules do between each other's steps, a request block is live exactly while
    its request is in flight or handled, and goes back to the function that submitted it.** -/
theorem requests_owned (fd : Int32) (as : List Act) (s : Process)
    (hrun : (machine fd).run as = .next s) : s.Owned fd := by
  obtain ⟨running, n, flight, hr, hctl, -⟩ := (inv_run hrun).requests
  have howns := hr.owns
  rw [hctl.running] at howns
  exact ⟨howns.live_iff, howns.apart, hr.fits, hr.apart⟩

/-- A timer, a listener of a signal and a watch, beside an asynchronous operation; the listener
    is dropped in its own callback, and the watch and the timer after their events. -/
def mixedActs : List Act :=
  [.setTimer (some 0) 1000 0 (some 7), .timerHandler, .timerHandler, .timerHandler,
    .on (some 1) 2, .watch (some 2) 1, .start ⟨.close, [.number 7, .function 3], 0, fun _ _ => 0⟩,
    .run, .outer, .deliver 2, .expire 7, .complete 3 0, .complete 2 0, .complete 1 0,
    .complete 0 32, .inner, .ret, .inner, .off 2, .ret, .inner, .ret, .inner,
    .unwatch (some 1) (some 1), .ret, .inner]

theorem requests_owned_mixed : ∃ s, (machine 3).run mixedActs = .next s ∧ s.Owned 3 :=
  ⟨_, rfl, requests_owned 3 mixedActs _ rfl⟩

/-! ## What keeps the process running -/

/-- What the process waits for: requests, timers, and a change of a file. -/
def left (s : Process) : Nat :=
  (s.env.inFlight.countP fun req => !isRead req) + s.timerMap.size + s.watcher.watching

/-- The count of a careful run, in the loop. -/
theorem Inv.pending (h : s.Inv fd True) (hloop : s.ctl.inLoop = true) :
    s.env.goesOn = false ↔ (2 ^ 32 : Int) ∣ s.left := by
  obtain ⟨running, n, flight, hr, hctl, hbalance⟩ := h.requests
  have hb := hbalance trivial
  have hstop : s.env.io_uring_data.stop ≠ 1 := by
    rw [hr.stop]
    decide
  -- nothing is handled between two completions, and no timer is being registered
  have hhandled : s.ctl.handled = 0 := by
    cases hc : s.ctl with
    | handler p => simp [hc, Ctl.inLoop] at hloop
    | _ => rfl
  have hdebt : s.timers.owed = s.timerMap.size := by
    have hreg : s.timers.registration = none := h.idle hloop
    simp only [Timers.owed, Timers.debt, hreg]
    exact Int.sub_zero _
  have hlength := Environment.length_inFlight hr.owns.sound
  have hsplit := List.length_eq_countP_add_countP isRead (l := s.env.inFlight)
  have hreads : s.env.inFlight.countP isRead = if s.needSubmit then 0 else 1 := by
    have hreading := hb.reading
    rw [Reading, hhandled, Nat.add_zero] at hreading
    rw [hr.flight.countP_eq]
    exact hreading
  have htotal : (s.env.outstanding.length : Int) + n = s.left := by
    have hothers : (s.env.inFlight.countP fun req => decide (¬ isRead req = true)) =
        s.env.inFlight.countP fun req => !isRead req :=
      List.countP_congr fun req _ => by simp
    have hneed : s.watcher.needSubmit = s.needSubmit := rfl
    rw [hb.owed, hdebt, Watcher.owed, ← hlength, hsplit, hreads, hothers, left, hneed]
    cases s.needSubmit with
    | true =>
        simp only [if_true]
        omega
    | false =>
        simp only [Bool.false_eq_true, if_false]
        omega
  rw [hr.owns.sound.goesOn_iff, htotal]
  exact or_iff_right hstop

end Process

end NoJs.Core
