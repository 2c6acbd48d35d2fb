/-
  NoJs.Timer.KernelTimers

  The kernel's timers against the keys of `timerMap`.

  A timer is created in one place and has four ways to leave the map or never
  to reach it: `clearTimer`, the end of a one-shot callback, and the two early
  returns of `timerHandler`.  Only `clearTimer` calls timer_delete.  A failing
  timer_create has nothing to undo, but a failing timer_settime leaves its timer
  behind, and so does every one-shot timer that goes off.
-/

import NoJs.Timer.Accounting

namespace NoJs.Timer

open Machine IoUring

/-- What timer_settime accepts: it looks at both halves, armed or not. -/
def Itimerspec.valid (it : Itimerspec) : Bool := it.it_value.valid && it.it_interval.valid

namespace Timers

/-- The kernel's timers are the keys of `timerMap`. -/
def KernelAgrees (s : Timers) : Prop :=
  ∀ id, (s.kernel id).isSome = (s.timerMap.find id).isSome

/-- The timer that `timerHandler` has created and not yet put in `timerMap`. -/
def registeringId (s : Timers) : Option TimerId :=
  match s.registration with
  | some ⟨.inserted, _, _⟩ => none
  | some ⟨_, ctx, _⟩ => (s.contexts.get? ctx).map (·.timer_id)
  | none => none

/-- Whether timer_settime will accept the setting of the timer a step creates. -/
def accepted : Act → Bool
  | .setTimer _ timeout interval (some _) => (itimerspec timeout interval).valid
  | _ => true

/-- The steps that leave no timer behind: those that create a timer with a valid
    setting, and no end of a one-shot callback whose timer still exists. -/
def Releases (s : Timers) (a : Act) : Bool :=
  accepted a && ((s.finishing a).bind s.kernel).isNone

theorem Releases.deleted {s : Timers} {a : Act} (h : s.Releases a) {id : TimerId}
    (hfin : s.finishing a = some id) : s.kernel id = none := by
  simp only [Releases, hfin, Bool.and_eq_true] at h
  exact Option.isNone_iff_eq_none.mp h.2

theorem Releases.settled {s : Timers} {a : Act} (h : s.Releases a) : s.Settled a := by
  simp only [Releases, Bool.and_eq_true, Option.isNone_iff_eq_none] at h
  rw [Settled, h.2]
  rfl

/-- The invariant of a run whose steps release what they end. -/
structure Owned (s : Timers) : Prop where
  inv : ∃ n, s.Inv n
  keys : ∀ id, (s.kernel id).isSome ↔ (s.timerMap.find id).isSome ∨ s.registeringId = some id
  valid : ∀ g, s.registration = some g → g.it.valid

namespace Owned

variable {s t : Timers} {n d : Int} {a : Act}

theorem registeringId_eq {g : Registration} {u : PosixTimer} {ctx : TimerRequestContext}
    (hreg : s.registration = some g) (hg : Registering s.contexts s.timerMap g u ctx) :
    s.registeringId = if g.stage = .inserted then none else some ctx.timer_id := by
  obtain ⟨stage, c, it⟩ := g
  have hctx := hg.context
  rw [registeringId, hreg]
  cases stage with
  | created => simp [show s.contexts.get? c = some ctx from hctx]
  | settime => simp [show s.contexts.get? c = some ctx from hctx]
  | inserted => rfl

theorem registeringId_none (hreg : s.registration = none) : s.registeringId = none := by
  rw [registeringId, hreg]

/-- With a valid setting timer_settime does not fail. -/
theorem settime_succeeds {g : Registration} (hreg : s.registration = some g)
    (hstage : g.stage = .created) (hvalid : g.it.valid) (hstep : s.timerHandler = .next t) :
    t.registration ≠ none := by
  rw [Itimerspec.valid] at hvalid
  simp only [timerHandler, hreg, hstage, timerSettime, hvalid, if_true] at hstep
  split at hstep
  · exact absurd hstep (by simp)
  · rw [← Outcome.next.inj hstep]
    simp

/-- Setting a timer that exists, or its expiry, creates none. -/
theorem isSome_update {id : TimerId} {u v : PosixTimer} (hu : s.kernel id = some u)
    (q : TimerId) : (Function.update s.kernel id (some v) q).isSome = (s.kernel q).isSome := by
  by_cases hq : q = id
  · subst hq
    simp [hu]
  · rw [Function.update_of_ne hq]

/-- The keys after a step, with the timer of the call in progress. -/
theorem keys_step (h : s.Owned) (hstep : machine.step s a = .next t) (he : Effect s n a d t)
    (hreleases : s.Releases a) :
    ∀ id, (t.kernel id).isSome ↔ (t.timerMap.find id).isSome ∨ t.registeringId = some id := by
  intro q
  have hkeys := h.keys q
  cases he with
  | createFailed hreg =>
      simpa [registeringId_none, hreg] using hkeys
  | @created _ _ _ id ctx hreg hfree hid hflags =>
      -- the new timer is that of the call that starts
      simp only [registeringId, Heap.get?_alloc_top, Option.map_some, hid, Option.some.injEq]
      by_cases hq : q = id
      · subst hq
        simp
      · simpa [Function.update_of_ne hq, registeringId_none hreg, Ne.symm hq] using hkeys
  | @settime g u ctx hreg hstage ht hg =>
      rw [registeringId_eq hreg hg, hstage, if_neg (by decide)] at hkeys
      simp only [registeringId, hg.context, Option.map_some]
      rw [isSome_update ht]
      exact hkeys
  | settimeFailed hreg hstage =>
      exact absurd rfl (settime_succeeds hreg hstage (h.valid _ hreg) hstep)
  | @inserted g u ctx hreg hstage ht hg =>
      -- the timer of the call becomes an entry
      rw [registeringId_eq hreg hg, hstage, if_neg (by decide)] at hkeys
      simp only [registeringId, StdMap.find_insert (hg.find_none (.inr hstage))]
      rw [hkeys]
      by_cases hq : q = ctx.timer_id
      · simp [hq]
      · simp [hq, Ne.symm hq]
  | @returned g hreg hstage =>
      obtain ⟨m, hinv⟩ := h.inv
      obtain ⟨u, ctx, -, hg⟩ := hinv.registering g hreg
      rw [registeringId_eq hreg hg, if_pos hstage] at hkeys
      exact hkeys
  | @cleared arg hreg =>
      -- the entry and the timer go together
      rw [registeringId_none hreg] at hkeys
      simp only [timerDelete, timerErase, registeringId_none, hreg, StdMap.find_erase,
        Function.update_apply]
      split
      · simp
      · exact hkeys
  | @fired p id c ctx hctl hreg hctx hone =>
      -- released: the timer whose entry would go is gone
      have hgone := Releases.deleted hreleases (finishing_ret hctl hctx hone)
      rw [registeringId_none hreg] at hkeys
      simp only [registeringId_none, hreg, StdMap.find_erase]
      by_cases hq : q = id
      · simp [hq, hgone]
      · rw [if_neg hq]
        exact hkeys
  | notified ht harmed hfind hsound hheap hsub =>
      simp only [isSome_update ht]
      exact hkeys
  | lost ht harmed hwin =>
      simp only [isSome_update ht]
      exact hkeys
  | _ => exact hkeys

/-- A call in progress has a setting that timer_settime accepts. -/
theorem valid_step (h : s.Owned) (he : Effect s n a d t) (hreleases : s.Releases a) :
    ∀ g, t.registration = some g → g.it.valid := by
  intro g hg
  cases he with
  | created hreg hfree hid hflags =>
      obtain rfl := Option.some.inj hg
      simp only [Releases, Bool.and_eq_true] at hreleases
      exact hreleases.1
  | @settime g' _ _ hreg hstage ht hg' =>
      obtain rfl := Option.some.inj hg
      exact h.valid g' hreg
  | settimeFailed hreg hstage => exact absurd hg (by simp)
  | @inserted g' _ _ hreg hstage ht hg' =>
      obtain rfl := Option.some.inj hg
      exact h.valid g' hreg
  | returned hreg hstage => exact absurd hg (by simp [timerReturn])
  | _ => exact h.valid g hg

end Owned

theorem preserves_owned : machine.PreservesWhen (fun s a => s.Releases a) Owned := by
  intro s a h hreleases
  obtain ⟨n, hinv⟩ := h.inv
  have heffect := hinv.effect a
  cases hstep : machine.step s a with
  | disabled => trivial
  | fault => rw [hstep] at heffect; exact heffect
  | next t =>
      obtain ⟨d, he⟩ := heffect.of_next hstep
      exact ⟨⟨_, he.inv hinv (Releases.settled hreleases)⟩, h.keys_step hstep he hreleases,
        h.valid_step he hreleases⟩

theorem owned_init : init.Owned where
  inv := ⟨0, inv_init⟩
  keys := by simp [init, registeringId]
  valid := by simp [init]

theorem Owned.agrees {s : Timers} (h : s.Owned) (hquiet : s.Quiet) : s.KernelAgrees := by
  intro id
  have hkeys := h.keys id
  rw [Owned.registeringId_none hquiet.1] at hkeys
  rw [Bool.eq_iff_iff]
  simpa using hkeys

/-- **Kernel timers.**  In a run that creates timers with valid settings only,
    and in which every one-shot callback has cleared its timer when it returns,
    the kernel's timers are the keys of `timerMap` between any two calls. -/
theorem kernel_timers (as : List Act) (h : machine.StepsMeet (fun s a => s.Releases a) init as) :
    (machine.run as).Holds fun s => s.Quiet → s.KernelAgrees :=
  (preserves_owned.run owned_init as h).imp fun _ hs hquiet => hs.agrees hquiet

/-- A timeout whose callback clears it, and an interval set and cleared. -/
def releasedActs : List Act :=
  setTimeoutActs ++ [.run, .outer, .expire 1, .complete 0 0, .inner, .clearTimer 1,
    .setTimer (some 0) 5 5 (some 2), .timerHandler, .timerHandler, .timerHandler, .ret]

theorem kernel_timers_released :
    machine.StepsMeet (fun s a => s.Releases a) init releasedActs ∧
      ∃ s, machine.run releasedActs = .next s ∧ s.Quiet ∧ (s.kernel 2).isSome ∧
        s.KernelAgrees :=
  have h : machine.StepsMeet (fun s a => s.Releases a) init releasedActs := by decide
  ⟨h, _, rfl, ⟨rfl, rfl⟩, rfl, (kernel_timers releasedActs h).of_next rfl ⟨rfl, rfl⟩⟩

/-- `setTimeout(f, 1000)` goes off and its callback returns: no entry, and the
    timer is still there. -/
def firedActs : List Act :=
  setTimeoutActs ++ [.run, .outer, .expire 1, .complete 0 0, .inner, .ret]

/-- `setTimeout(f, -5)` returns -1 and leaves its timer behind; so does a
    timeout that has fired. -/
theorem kernel_timers_leaked :
    (¬ ∀ as, (machine.run as).Holds fun s => s.Quiet → s.KernelAgrees) ∧
      (∃ s, machine.run firedActs = .next s ∧ s.Quiet ∧ s.timerMap.find 1 = none ∧
        (s.kernel 1).isSome) ∧
      ∃ s, machine.run [.setTimer (some 0) (-5) 0 (some 1), .timerHandler] = .next s ∧ s.Quiet ∧
        s.timerMap.find 1 = none ∧ (s.kernel 1).isSome := by
  refine ⟨fun h => ?_, ⟨_, rfl, ⟨rfl, rfl⟩, rfl, rfl⟩, ⟨_, rfl, ⟨rfl, rfl⟩, rfl, rfl⟩⟩
  have hagrees := h firedActs ⟨rfl, rfl⟩ 1
  exact absurd hagrees (by decide)

end Timers

end NoJs.Timer
