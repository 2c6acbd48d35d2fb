/-
  NoJs.Timer.Invariant

  What holds between the map, the kernel's timers and the requests in flight.

  `Inv s n` is the invariant, `n` the number of references `pending` holds
  beside the outstanding requests.  It holds in every run but for one danger:
  a timer id may be handed out again after `timer_delete`, and a late completion
  of the old timer then erases the entry of the new one while that is armed.
  `Settled` excludes the step that does this.  `Core` is the part of it that
  needs no such exclusion: all but that an armed timer is in the map.

  `Effect` lists what a step can do, once: `Inv.effect` derives it from the
  definitions, and every invariant of the machine is a case analysis on it.
-/

import NoJs.Timer.Machine

namespace NoJs.Timer

open Machine IoUring

/-! ## Settings -/

theorem oneShot_iff {ctx : TimerRequestContext} {it : Itimerspec}
    (h : ctx.flags = intervalFlags it) : ctx.oneShot = it.it_interval.zero := by
  rw [TimerRequestContext.oneShot, h, intervalFlags]
  cases it.it_interval.zero <;> decide

/-- A timer goes off once exactly when its context says so. -/
def Arming.Agrees (a : Arming) (ctx : TimerRequestContext) : Prop :=
  match a with
  | idle => True
  | once => ctx.oneShot = true
  | expired => ctx.oneShot = true
  | periodic => ctx.oneShot = false

theorem Itimerspec.arming_agrees {ctx : TimerRequestContext} {it : Itimerspec}
    (h : ctx.flags = intervalFlags it) : it.arming.Agrees ctx := by
  rw [Itimerspec.arming, ← oneShot_iff h]
  cases it.it_value.zero
  · cases hone : ctx.oneShot
    · simpa [Arming.Agrees] using hone
    · simpa [Arming.Agrees] using hone
  · trivial

theorem timerRequest_supported (id : TimerId) : (Timers.timerRequest id).supported := by
  show IORING_OP_NOP ∈ switchOps
  decide

namespace Timers

/-- A timer keeps its `sigevent`. -/
theorem expiry_sival (t : PosixTimer) : (expiry t).sival = t.sival := by
  rw [expiry]
  split <;> rfl

/-- A timer that is there after a timer_delete was there before it. -/
theorem of_update_none {kernel : TimerId → Option PosixTimer} {id q : TimerId} {u : PosixTimer}
    (h : Function.update kernel id none q = some u) : q ≠ id ∧ kernel q = some u := by
  by_cases hq : q = id
  · rw [hq, Function.update_self] at h
    exact absurd h (by simp)
  · rw [Function.update_of_ne hq] at h
    exact ⟨hq, h⟩

/-- The timer `timerHandler` has set and not yet put in `timerMap`. -/
def unregistered (s : Timers) : Option TimerId :=
  match s.registration with
  | some ⟨.settime, ctx, _⟩ => (s.contexts.get? ctx).map (·.timer_id)
  | _ => none

/-- What holds of the timer `t` of a `timerHandler` call in progress. -/
structure Registering (contexts : Heap TimerRequestContext) (timerMap : StdMap TimerId Ptr)
    (g : Registration) (t : PosixTimer) (ctx : TimerRequestContext) : Prop where
  sival : t.sival = g.ctx
  context : contexts.get? g.ctx = some ctx
  flags : ctx.flags = intervalFlags g.it
  created : g.stage = .created → t.arming = .idle
  absent : g.stage ≠ .inserted → timerMap.find ctx.timer_id = none

theorem Registering.find_none {contexts : Heap TimerRequestContext}
    {timerMap : StdMap TimerId Ptr} {g : Registration} {t : PosixTimer}
    {ctx : TimerRequestContext} (hg : Registering contexts timerMap g t ctx)
    (hstage : g.stage = .created ∨ g.stage = .settime) : timerMap.find ctx.timer_id = none := by
  apply hg.absent
  intro hin
  rw [hin] at hstage
  simp at hstage

/-- The invariant, with `n` references. -/
structure Inv (s : Timers) (n : Int) : Prop where
  sound : s.env.Sound n
  request : ∀ p ∈ s.env.outstanding, ∃ id, s.env.heap.get? p = some (timerRequest id)
  running : ∀ p id c, s.ctl = .callback p id c →
    (s.env.heap.get? p).isSome ∧ p ∉ s.env.outstanding ∧ (s.contexts.get? c).isSome
  context : ∀ id t, s.kernel id = some t →
    ∃ ctx, s.contexts.get? t.sival = some ctx ∧ ctx.timer_id = id ∧ t.arming.Agrees ctx
  entry : ∀ id c, s.timerMap.find id = some c → ∃ t, s.kernel id = some t ∧ t.sival = c
  registering : ∀ g, s.registration = some g → 
    ∃ t ctx, s.kernel ctx.timer_id = some t ∧ Registering s.contexts s.timerMap g t ctx
  armed : ∀ id t, s.kernel id = some t → t.arming.armed →
    s.timerMap.find id = some t.sival ∨ s.unregistered = some id

/-- The invariant but for `armed`. -/
structure Core (s : Timers) (n : Int) : Prop where
  sound : s.env.Sound n
  request : ∀ p ∈ s.env.outstanding, ∃ id, s.env.heap.get? p = some (timerRequest id)
  running : ∀ p id c, s.ctl = .callback p id c →
    (s.env.heap.get? p).isSome ∧ p ∉ s.env.outstanding ∧ (s.contexts.get? c).isSome
  context : ∀ id t, s.kernel id = some t →
    ∃ ctx, s.contexts.get? t.sival = some ctx ∧ ctx.timer_id = id ∧ t.arming.Agrees ctx
  entry : ∀ id c, s.timerMap.find id = some c → ∃ t, s.kernel id = some t ∧ t.sival = c
  registering : ∀ g, s.registration = some g →
    ∃ t ctx, s.kernel ctx.timer_id = some t ∧ Registering s.contexts s.timerMap g t ctx

/-- Every armed timer is in the map, or about to be put there. -/
def Armed (s : Timers) : Prop :=
  ∀ id t, s.kernel id = some t → t.arming.armed →
    s.timerMap.find id = some t.sival ∨ s.unregistered = some id

theorem Inv.core {s : Timers} {n : Int} (h : s.Inv n) : s.Core n :=
  ⟨h.sound, h.request, h.running, h.context, h.entry, h.registering⟩

theorem Core.inv {s : Timers} {n : Int} (h : s.Core n) (harmed : s.Armed) : s.Inv n :=
  ⟨h.sound, h.request, h.running, h.context, h.entry, h.registering, harmed⟩

theorem inv_init : init.Inv 0 where
  sound := Environment.sound_init
  request := by simp [init, Environment.init, Environment.outstanding]
  running := by simp [init]
  context := by simp [init]
  entry := by simp [init]
  registering := by simp [init]
  armed := by simp [init]

/-! ## What a step can do -/

/-- The outcomes of a step from a state with `n` references; the number is what
    the step adds to the references. -/
inductive Effect (s : Timers) (n : Int) : Act → Int → Timers → Prop where
  | createFailed {object timeout interval ctx} (hreg : s.registration = none) :
      Effect s n (.setTimer object timeout interval none) 0
        { s with contexts := s.contexts.alloc ctx }
  | created {object timeout interval id ctx} (hreg : s.registration = none)
      (hfree : s.kernel id = none) (hid : ctx.timer_id = id)
      (hflags : ctx.flags = intervalFlags (itimerspec timeout interval)) :
      Effect s n (.setTimer object timeout interval (some id)) 0
        { s with
          contexts := s.contexts.alloc ctx
          kernel := Function.update s.kernel id (some ⟨s.contexts.top, .idle⟩)
          registration := some ⟨.created, s.contexts.top, itimerspec timeout interval⟩ }
  | settime {g t ctx} (hreg : s.registration = some g) (hstage : g.stage = .created)
      (ht : s.kernel ctx.timer_id = some t) (hg : Registering s.contexts s.timerMap g t ctx) :
      Effect s n .timerHandler 0
        { s with
          kernel := Function.update s.kernel ctx.timer_id (some { t with arming := g.it.arming })
          registration := some { g with stage := .settime } }
  | settimeFailed {g} (hreg : s.registration = some g) (hstage : g.stage = .created) :
      Effect s n .timerHandler 0 { s with registration := none }
  | inserted {g t ctx} (hreg : s.registration = some g) (hstage : g.stage = .settime)
      (ht : s.kernel ctx.timer_id = some t) (hg : Registering s.contexts s.timerMap g t ctx) :
      Effect s n .timerHandler 0
        { s with
          timerMap := s.timerMap.insert ctx.timer_id g.ctx
          registration := some { g with stage := .inserted } }
  | returned {g} (hreg : s.registration = some g) (hstage : g.stage = .inserted) :
      Effect s n .timerHandler 1 s.timerReturn
  | cleared {arg} (hreg : s.registration = none) :
      Effect s n (.clearTimer arg) (-1)
        ((s.timerErase (UInt64.ofInt arg)).timerDelete (UInt64.ofInt arg))
  | stopped : Effect s n .stop 0
      { s with env := { s.env with io_uring_data := Stop s.env.io_uring_data } }
  | started (hctl : s.ctl = .script) (hreg : s.registration = none) :
      Effect s n .run 0 { s with ctl := .outer }
  | waited (hctl : s.ctl = .outer) (hgoes : s.env.goesOn = true) :
      Effect s n .outer 0 { s with env := s.env.submitAndWait, ctl := .inner }
  | left (hctl : s.ctl = .outer) (hgoes : s.env.goesOn = false) :
      Effect s n .outer 0 { s with ctl := .exited }
  | drained (hctl : s.ctl = .inner) : Effect s n .inner 0 { s with ctl := .outer }
  | called {c id ctx env} (hctl : s.ctl = .inner)
      (hreq : s.env.heap.get? c.user_data = some (timerRequest id))
      (hfind : s.timerMap.find id = some ctx) (hsound : env.Sound n)
      (hreaps : s.env.Reaps c env) :
      Effect s n .inner 0 { s with env, ctl := .callback c.user_data id ctx }
  | ignored {c id env} (hctl : s.ctl = .inner)
      (hreq : s.env.heap.get? c.user_data = some (timerRequest id))
      (hfind : s.timerMap.find id = none) (hsound : env.Sound n) (hreaps : s.env.Reaps c env) :
      Effect s n .inner 0 { s with env := { env with heap := env.heap.free c.user_data } }
  | fired {p id c ctx} (hctl : s.ctl = .callback p id c) (hreg : s.registration = none)
      (hctx : s.contexts.get? c = some ctx) (hone : ctx.oneShot = true) :
      Effect s n .ret (-1)
        { s with
          timerMap := s.timerMap.erase id
          env := { s.env.dec with heap := s.env.heap.free p }
          ctl := .inner }
  | repeats {p id c ctx} (hctl : s.ctl = .callback p id c) (hreg : s.registration = none)
      (hctx : s.contexts.get? c = some ctx) (hone : ctx.oneShot = false) :
      Effect s n .ret 0 { s with env := { s.env with heap := s.env.heap.free p }, ctl := .inner }
  | notified {id t env} (ht : s.kernel id = some t) (harmed : t.arming.armed = true)
      (hfind : s.timerMap.find id = some t.sival) (hsound : env.Sound n)
      (hheap : env.heap = s.env.heap.alloc (timerRequest id))
      (hsub : Environment.Submits s.env.heap.top s.env env) :
      Effect s n (.expire id) 0
        { s with
          env
          kernel := Function.update s.kernel id (some (expiry t))
          trace := ⟨s.trace.expired ++ [id], s.trace.submitted ++ [timerRequest id]⟩ }
  | lost {id t} (ht : s.kernel id = some t) (harmed : t.arming.armed = true)
      (hwin : s.unregistered = some id) :
      Effect s n (.expire id) 0
        { s with
          kernel := Function.update s.kernel id (some (expiry t))
          trace := ⟨s.trace.expired ++ [id], s.trace.submitted⟩ }
  | completed {i res env} (hsound : env.Sound n) (hheap : env.heap = s.env.heap)
      (hout : env.outstanding.Perm s.env.outstanding) :
      Effect s n (.complete i res) 0 { s with env }

namespace Inv

variable {s : Timers} {n : Int}

/-- Outside `timerHandler` there is no timer in its window. -/
theorem unregistered_none (hreg : s.registration = none) : s.unregistered = none := by
  rw [unregistered, hreg]

theorem runsJs_registration (h : s.runsJs = true) : s.registration = none := by
  rw [runsJs, Bool.and_eq_true] at h
  exact Option.isNone_iff_eq_none.mp h.1

theorem unregistered_eq {g : Registration} {t : PosixTimer} {ctx : TimerRequestContext}
    (hreg : s.registration = some g) (hg : Registering s.contexts s.timerMap g t ctx) :
    s.unregistered = if g.stage = .settime then some ctx.timer_id else none := by
  obtain ⟨stage, c, it⟩ := g
  have hctx := hg.context
  rw [unregistered, hreg]
  cases stage with
  | created => rfl
  | settime =>
      simp only [hctx]
      rfl
  | inserted => rfl

/-- The context an armed timer points to is held. -/
theorem held_sival (h : s.Inv n) {id : TimerId} {t : PosixTimer} (ht : s.kernel id = some t)
    (harmed : t.arming.armed = true) : s.held t.sival = true := by
  -- `timerMap` holds it, or the call whose timer is in its window
  rcases h.armed id t ht harmed with hfind | hwin
  · have hvalue := StdMap.mem_values_of_find hfind
    simp [held, hvalue]
  · cases hreg : s.registration with
    | none => exact absurd ((unregistered_none hreg).symm.trans hwin) (by simp)
    | some g =>
        obtain ⟨t', ctx, ht', hg⟩ := h.registering g hreg
        rw [unregistered_eq hreg hg] at hwin
        split at hwin
        · obtain rfl := Option.some.inj hwin
          obtain rfl := Option.some.inj (ht.symm.trans ht')
          simp [held, hreg, hg.sival]
        · exact absurd hwin (by simp)

theorem timerCreate (hreg : s.registration = none) (object : Option JsFunction)
    (timeout interval : Int32) (created : Option TimerId) :
    (s.timerCreate object timeout interval created).Holds
      fun t => ∃ d, Effect s n (.setTimer object timeout interval created) d t := by
  cases created with
  | none => exact ⟨_, Effect.createFailed hreg⟩
  | some id =>
      simp only [Timers.timerCreate]
      split
      · trivial
      · next hfree => exact ⟨_, Effect.created hreg (by simpa using hfree) rfl rfl⟩

theorem expire (h : s.Inv n) (id : TimerId) :
    (s.expire id).Holds fun t => ∃ d, Effect s n (.expire id) d t := by
  rw [Timers.expire]
  cases ht : s.kernel id with
  | none => trivial
  | some t =>
      obtain ⟨ctx, hctx, rfl, -⟩ := h.context id t ht
      cases harmed : t.arming.armed with
      | false =>
          simp only [harmed, Bool.false_eq_true, if_false]
          trivial
      | true =>
          have hheld := h.held_sival ht harmed
          have hlost : s.timerMap.find ctx.timer_id = none →
              s.unregistered = some ctx.timer_id := fun hfind =>
            (h.armed _ t ht harmed).resolve_left fun hin =>
              absurd (hfind.symm.trans hin) (by simp)
          simp only [harmed, signalHandler, held, hctx, if_true] at hheld ⊢
          simp only [hheld, if_true]
          by_cases hempty : s.timerMap.size = 0
          · rw [if_pos hempty]
            exact ⟨_, Effect.lost ht harmed (hlost (StdMap.size_eq_zero.mp hempty _))⟩
          rw [if_neg hempty]
          -- the map is searched before anything is submitted
          cases hfind : s.timerMap.find ctx.timer_id with
          | none => exact ⟨_, Effect.lost ht harmed (hlost hfind)⟩
          | some c =>
              -- the entry found is that of this very timer
              obtain ⟨t', ht', hsival⟩ := h.entry _ c hfind
              obtain rfl := Option.some.inj (ht.symm.trans ht')
              obtain ⟨env, henv, hsound, hheap, hsub⟩ :=
                h.sound.submitNew _ (timerRequest_supported ctx.timer_id)
              simp only [henv, Outcome.bind_next]
              exact ⟨_, Effect.notified ht harmed (by rw [hfind, hsival]) hsound hheap hsub⟩

end Inv

namespace Core

variable {s : Timers} {n : Int}

theorem timerHandler (h : s.Core n) :
    s.timerHandler.Holds fun t => ∃ d, Effect s n .timerHandler d t := by
  rw [Timers.timerHandler]
  cases hreg : s.registration with
  | none => trivial
  | some g =>
      obtain ⟨t, ctx, ht, hg⟩ := h.registering g hreg
      cases hstage : g.stage with
      | created =>
          simp only [hstage, timerSettime, hg.context, ht]
          split
          · exact ⟨_, Effect.settime hreg hstage ht hg⟩
          · exact ⟨_, Effect.settimeFailed hreg hstage⟩
      | settime =>
          simp only [hstage, timerInsert, hg.context]
          exact ⟨_, Effect.inserted hreg hstage ht hg⟩
      | inserted =>
          simp only [hstage]
          exact ⟨_, Effect.returned hreg hstage⟩

theorem timer_cb_return (h : s.Core n) {p : Ptr} {id : TimerId} {c : Ptr}
    (hctl : s.ctl = .callback p id c) (hreg : s.registration = none) :
    (s.timer_cb_return p id c).Holds fun t => ∃ d, Effect s n .ret d t := by
  obtain ⟨hp, hout, hctx⟩ := h.running p id c hctl
  obtain ⟨req, hreq⟩ := Option.isSome_iff_exists.mp hp
  obtain ⟨ctx, hctx⟩ := Option.isSome_iff_exists.mp hctx
  rw [Timers.timer_cb_return]
  cases hone : ctx.oneShot with
  | true =>
      have hfree := (h.sound.dec.free hreq hout).1
      simp only [hctx, hone, if_true, hfree, Outcome.bind_next]
      exact ⟨_, Effect.fired hctl hreg hctx hone⟩
  | false =>
      have hfree := (h.sound.free hreq hout).1
      simp only [hctx, hone, Bool.false_eq_true, if_false, hfree, Outcome.bind_next]
      exact ⟨_, Effect.repeats hctl hreg hctx hone⟩

theorem innerLoop (h : s.Core n) (hctl : s.ctl = .inner) :
    s.innerLoop.Holds fun t => ∃ d, Effect s n .inner d t := by
  rw [Timers.innerLoop]
  cases hc : io_uring_peek_cqe s.env.io_uring_data.ring with
  | none => exact ⟨_, Effect.drained hctl⟩
  | some c =>
      obtain ⟨req, env, hreq, henv, hsound, hreaps⟩ := h.sound.reap hc
      -- every request in flight is an expiry's NOP, so the callback is `timer_cb`
      obtain ⟨id, hid⟩ := h.request c.user_data
        (hreaps.outstanding.mem_iff.mpr (List.mem_cons_self ..))
      obtain rfl := Option.some.inj (hreq.symm.trans hid)
      simp only [henv, Outcome.bind_next, timer_cb, timerRequest, UInt64.ofNat_toNat]
      cases hfind : s.timerMap.find id with
      | some ctx => exact ⟨_, Effect.called hctl hreq hfind hsound hreaps⟩
      | none =>
          have hlive : env.heap.get? c.user_data = some { timerRequest id with res := c.res } := by
            rw [hreaps.heap, Heap.get?_modify_self hreq]
          have hfree := (hsound.free hlive hreaps.reaped).1
          simp only [hfree, Outcome.bind_next]
          rw [← hctl]
          exact ⟨_, Effect.ignored hctl hreq hfind hsound hreaps⟩

/-- The step lemma, but for expiries. -/
theorem effect (h : s.Core n) {a : Act} (ha : ∀ id, a ≠ .expire id) :
    (machine.step s a).Holds fun t => ∃ d, Effect s n a d t := by
  cases a with
  | setTimer object timeout interval created =>
      simp only [machine, step]
      split
      · next hjs =>
        exact Inv.timerCreate (Inv.runsJs_registration hjs) object timeout interval created
      · trivial
  | timerHandler => exact h.timerHandler
  | clearTimer arg =>
      simp only [machine, step]
      split
      · next hclears =>
        obtain ⟨hjs, hdeletable⟩ := Bool.and_eq_true_iff.mp hclears
        rw [Timers.clearTimer, if_pos hdeletable]
        exact ⟨_, Effect.cleared (Inv.runsJs_registration hjs)⟩
      · trivial
  | stop =>
      simp only [machine, step]
      split
      · exact ⟨_, Effect.stopped⟩
      · trivial
  | run =>
      simp only [machine, step]
      split
      · next hctl => exact ⟨_, Effect.started hctl.1 hctl.2⟩
      · trivial
  | outer =>
      simp only [machine, step]
      split
      · next hctl =>
        rw [outerLoop]
        cases hgoes : s.env.goesOn with
        | true => exact ⟨_, Effect.waited hctl hgoes⟩
        | false => exact ⟨_, Effect.left hctl hgoes⟩
      · trivial
  | inner =>
      simp only [machine, step]
      split
      · next hctl => exact h.innerLoop hctl
      · trivial
  | ret =>
      simp only [machine, step]
      split
      · next p id c hctl =>
        split
        · next hreg => exact h.timer_cb_return hctl hreg
        · trivial
      · trivial
  | expire id => exact absurd rfl (ha id)
  | complete i res =>
      simp only [machine, step]
      apply h.sound.complete_holds i res
      intro env hsound hheap hout
      exact ⟨_, Effect.completed hsound hheap hout⟩

end Core

namespace Inv

variable {s : Timers} {n : Int}

/-- The step lemma. -/
theorem effect (h : s.Inv n) (a : Act) :
    (machine.step s a).Holds fun t => ∃ d, Effect s n a d t := by
  by_cases ha : ∃ id, a = .expire id
  · obtain ⟨id, rfl⟩ := ha
    exact h.expire id
  · exact h.core.effect fun id heq => ha ⟨id, heq⟩

end Inv

/-! ## The invariant -/

/-- Whether the callback that returns is that of a one-shot timer, and its id. -/
def finishing (s : Timers) : Act → Option TimerId
  | .ret =>
      match s.ctl with
      | .callback _ id c => if (s.contexts.get? c).any (·.oneShot) then some id else none
      | _ => none
  | _ => none

theorem finishing_ret {s : Timers} {p : Ptr} {id : TimerId} {c : Ptr} {ctx : TimerRequestContext}
    (hctl : s.ctl = .callback p id c) (hctx : s.contexts.get? c = some ctx)
    (hone : ctx.oneShot = true) : s.finishing .ret = some id := by
  simp [finishing, hctl, hctx, hone]

/-- The end of a one-shot callback does not take the entry of an armed timer
    away. -/
def Settled (s : Timers) (a : Act) : Bool :=
  ((s.finishing a).bind s.kernel).all fun t => !t.arming.armed

theorem Settled.not_armed {s : Timers} {a : Act} (h : s.Settled a) {id : TimerId}
    (hfin : s.finishing a = some id) {t : PosixTimer} (ht : s.kernel id = some t) :
    t.arming.armed = false := by
  simpa [Settled, hfin, ht] using h

namespace Inv

variable {s t : Timers} {n d : Int} {a : Act}

/-- With no call in progress every armed timer is in the map. -/
theorem armed_find (h : s.Inv n) (hreg : s.registration = none) {id : TimerId} {t : PosixTimer}
    (ht : s.kernel id = some t) (harmed : t.arming.armed = true) :
    s.timerMap.find id = some t.sival := by
  rcases h.armed id t ht harmed with hfind | hwin
  · exact hfind
  · exact absurd ((unregistered_none hreg).symm.trans hwin) (by simp)

end Inv

namespace Core

variable {s : Timers} {n : Int}

/-- A step that only moves the program counter, and not into a callback. -/
private theorem setCtl (h : s.Core n) {c : Ctl} (hc : ∀ p id ctx, c ≠ .callback p id ctx) :
    Core { s with ctl := c } n :=
  ⟨h.sound, h.request, fun p id ctx heq => absurd heq (hc p id ctx), h.context, h.entry,
    h.registering⟩

private theorem setTrace (h : s.Core n) (tr : Trace) : Core { s with trace := tr } n :=
  ⟨h.sound, h.request, h.running, h.context, h.entry, h.registering⟩

/-- A step that only touches the requests. -/
private theorem setEnv (h : s.Core n) {env : Environment} {n' : Int} (hsound : env.Sound n')
    (hrequest : ∀ p ∈ env.outstanding, ∃ id, env.heap.get? p = some (timerRequest id))
    (hrunning : ∀ p id c, s.ctl = .callback p id c →
      (env.heap.get? p).isSome ∧ p ∉ env.outstanding) :
    Core { s with env } n' :=
  ⟨hsound, hrequest,
    fun p id c hc => ⟨(hrunning p id c hc).1, (hrunning p id c hc).2, (h.running p id c hc).2.2⟩,
    h.context, h.entry, h.registering⟩

/-- A step that leaves the outstanding requests and the heap as they are. -/
private theorem setLedger (h : s.Core n) {env : Environment} {n' : Int} (hsound : env.Sound n')
    (hheap : env.heap = s.env.heap) (hout : ∀ p, p ∈ env.outstanding ↔ p ∈ s.env.outstanding) :
    Core { s with env } n' := by
  apply h.setEnv hsound
  · intro p hp
    rw [hheap]
    exact h.request p ((hout p).mp hp)
  · intro p id c hc
    rw [hheap, hout]
    exact ⟨(h.running p id c hc).1, (h.running p id c hc).2.1⟩

/-- A context that timerHandler allocates and drops. -/
private theorem alloc (h : s.Core n) (ctx : TimerRequestContext) (hreg : s.registration = none) :
    Core { s with contexts := s.contexts.alloc ctx } n where
  sound := h.sound
  request := h.request
  running := by
    intro p id c hc
    obtain ⟨hp, hout, hctx⟩ := h.running p id c hc
    obtain ⟨w, hw⟩ := Option.isSome_iff_exists.mp hctx
    exact ⟨hp, hout, by rw [Heap.get?_alloc_of_some hw]; rfl⟩
  context := by
    intro id t ht
    obtain ⟨w, hw, hid, hagrees⟩ := h.context id t ht
    exact ⟨w, Heap.get?_alloc_of_some hw, hid, hagrees⟩
  entry := h.entry
  registering := by simp [hreg]

private theorem created (h : s.Core n) {ctx : TimerRequestContext} {it : Itimerspec}
    (hreg : s.registration = none) (hfree : s.kernel ctx.timer_id = none)
    (hflags : ctx.flags = intervalFlags it) :
    Core { s with
      contexts := s.contexts.alloc ctx
      kernel := Function.update s.kernel ctx.timer_id (some ⟨s.contexts.top, .idle⟩)
      registration := some ⟨.created, s.contexts.top, it⟩ } n := by
  have halloc := h.alloc ctx hreg
  -- an entry would name a timer the kernel has, and the id is new
  have hfind : s.timerMap.find ctx.timer_id = none := by
    by_contra hsome
    obtain ⟨c, hc⟩ := Option.ne_none_iff_exists'.mp hsome
    obtain ⟨t, ht, -⟩ := h.entry _ c hc
    exact absurd (hfree.symm.trans ht) (by simp)
  refine ⟨halloc.sound, halloc.request, halloc.running, ?_, ?_, ?_⟩
  · -- context
    intro q t ht
    by_cases hq : q = ctx.timer_id
    · subst hq
      simp only [Function.update_self, Option.some.injEq] at ht
      subst ht
      exact ⟨ctx, Heap.get?_alloc_top _ _, rfl, trivial⟩
    · simp only [Function.update_of_ne hq] at ht
      exact halloc.context q t ht
  · -- entry
    intro q c hq
    have hne : q ≠ ctx.timer_id := by
      rintro rfl
      exact absurd (hfind.symm.trans hq) (by simp)
    simp only [Function.update_of_ne hne]
    exact h.entry q c hq
  · -- registering
    intro g hg
    obtain rfl := Option.some.inj hg
    exact ⟨_, ctx, Function.update_self .., rfl, Heap.get?_alloc_top _ _, hflags,
      fun _ => rfl, fun _ => hfind⟩

private theorem settime (h : s.Core n) {g : Registration} {t : PosixTimer}
    {ctx : TimerRequestContext} (hstage : g.stage = .created)
    (hg : Registering s.contexts s.timerMap g t ctx) :
    Core { s with
      kernel := Function.update s.kernel ctx.timer_id (some { t with arming := g.it.arming })
      registration := some { g with stage := .settime } } n := by
  have hfind := hg.find_none (.inl hstage)
  refine ⟨h.sound, h.request, h.running, ?_, ?_, ?_⟩
  · -- context
    intro q t' ht'
    by_cases hq : q = ctx.timer_id
    · subst hq
      simp only [Function.update_self, Option.some.injEq] at ht'
      subst ht'
      refine ⟨ctx, ?_, rfl, Itimerspec.arming_agrees hg.flags⟩
      simp only [hg.sival, hg.context]
    · simp only [Function.update_of_ne hq] at ht'
      exact h.context q t' ht'
  · -- entry
    intro q c hq
    have hne : q ≠ ctx.timer_id := by
      rintro rfl
      exact absurd (hfind.symm.trans hq) (by simp)
    simp only [Function.update_of_ne hne]
    exact h.entry q c hq
  · -- registering
    intro g' hg'
    obtain rfl := Option.some.inj hg'
    exact ⟨_, ctx, Function.update_self .., hg.sival, hg.context, hg.flags,
      fun hc => absurd hc (by simp), fun _ => hfind⟩

private theorem unregister (h : s.Core n) : Core { s with registration := none } n :=
  ⟨h.sound, h.request, h.running, h.context, h.entry, by simp⟩

private theorem inserted (h : s.Core n) {g : Registration} {t : PosixTimer}
    {ctx : TimerRequestContext} (hstage : g.stage = .settime)
    (ht : s.kernel ctx.timer_id = some t) (hg : Registering s.contexts s.timerMap g t ctx) :
    Core { s with
      timerMap := s.timerMap.insert ctx.timer_id g.ctx
      registration := some { g with stage := .inserted } } n := by
  have hfind := hg.find_none (.inr hstage)
  refine ⟨h.sound, h.request, h.running, h.context, ?_, ?_⟩
  · -- entry
    intro q c hq
    rw [StdMap.find_insert hfind] at hq
    split at hq
    · next heq =>
      obtain rfl := Option.some.inj hq
      exact ⟨t, heq ▸ ht, hg.sival⟩
    · exact h.entry q c hq
  · -- registering
    intro g' hg'
    obtain rfl := Option.some.inj hg'
    exact ⟨t, ctx, ht, hg.sival, hg.context, hg.flags, fun hc => absurd hc (by simp),
      fun hc => absurd rfl hc⟩

private theorem returned (h : s.Core n) : s.timerReturn.Core (n + 1) :=
  ⟨h.sound.inc, h.request, h.running, h.context, h.entry, by simp [timerReturn]⟩

theorem erase (h : s.Core n) (id : TimerId) (hreg : s.registration = none) :
    (s.timerErase id).Core n := by
  refine ⟨h.sound, h.request, h.running, h.context, ?_, by simp [timerErase, hreg]⟩
  intro q c hq
  exact h.entry q c (StdMap.of_find_erase hq).2

/-- The id deleted has no entry any more. -/
theorem delete (h : s.Core n) {id : TimerId} (hreg : s.registration = none)
    (hfind : s.timerMap.find id = none) : (s.timerDelete id).Core (n - 1) := by
  refine ⟨h.sound.dec, h.request, h.running, ?_, ?_, by simp [timerDelete, hreg]⟩
  · intro q t ht
    exact h.context q t (of_update_none ht).2
  · intro q c hq
    have hne : q ≠ id := by
      rintro rfl
      exact absurd (hfind.symm.trans hq) (by simp)
    simp only [timerDelete, Function.update_of_ne hne]
    exact h.entry q c hq

/-- Entry and timer go together, whether or not there were any. -/
private theorem cleared (h : s.Core n) (id : TimerId) (hreg : s.registration = none) :
    ((s.timerErase id).timerDelete id).Core (n - 1) :=
  (h.erase id hreg).delete hreg (by simp [timerErase, StdMap.find_erase])

/-- A request taken out of flight leaves the others as they were. -/
private theorem reaped (h : s.Core n) {c : Cqe} {env : Environment} (hsound : env.Sound n)
    (hreaps : s.env.Reaps c env) (hctl : s.ctl = .inner) : Core { s with env } n := by
  refine h.setEnv hsound ?_ (by simp [hctl])
  intro p hp
  have hne : p ≠ c.user_data := fun heq => hreaps.reaped (heq ▸ hp)
  rw [hreaps.heap, Heap.get?_modify_ne hne]
  exact h.request p (hreaps.outstanding.mem_iff.mpr (List.mem_cons_of_mem _ hp))

private theorem called (h : s.Core n) {c : Cqe} {env : Environment} {id : TimerId} {ctx : Ptr}
    (hctl : s.ctl = .inner) (hreq : s.env.heap.get? c.user_data = some (timerRequest id))
    (hfind : s.timerMap.find id = some ctx) (hsound : env.Sound n) (hreaps : s.env.Reaps c env) :
    Core { s with env, ctl := .callback c.user_data id ctx } n := by
  have hinv := h.reaped hsound hreaps hctl
  refine ⟨hinv.sound, hinv.request, ?_, h.context, h.entry, h.registering⟩
  intro p q ctx' heq
  obtain ⟨rfl, rfl, rfl⟩ := Ctl.callback.inj heq
  obtain ⟨t, ht, hsival⟩ := h.entry id ctx hfind
  obtain ⟨w, hw, -⟩ := h.context id t ht
  refine ⟨?_, hreaps.reaped, ?_⟩
  · rw [hreaps.heap, Heap.get?_modify_self hreq]
    rfl
  · rw [hsival] at hw
    simp only [hw]
    rfl

/-- `free` of a request that is not in flight. -/
private theorem freed (h : s.Core n) {env : Environment} {n' : Int} {p : Ptr}
    (hsound : env.Sound n') (hout : env.outstanding = s.env.outstanding)
    (hp : p ∉ s.env.outstanding) :
    Core { s with env := { env with heap := s.env.heap.free p }, ctl := .inner } n' := by
  have hne : ∀ q ∈ s.env.outstanding, q ≠ p := fun q hq heq => hp (heq ▸ hq)
  have hrequest : ∀ q ∈ s.env.outstanding,
      ∃ id, (s.env.heap.free p).get? q = some (timerRequest id) := by
    intro q hq
    rw [Heap.get?_free_ne (hne q hq)]
    exact h.request q hq
  refine ⟨⟨hsound.accounts, ?_, hsound.nodup⟩, ?_, by simp, h.context, h.entry, h.registering⟩
  · intro q hq
    obtain ⟨id, hid⟩ := hrequest q (hout ▸ hq)
    simp only [hid]
    rfl
  · exact fun q hq => hrequest q (hout ▸ hq)

theorem notified (h : s.Core n) {id : TimerId} {env : Environment} (hsound : env.Sound n)
    (hheap : env.heap = s.env.heap.alloc (timerRequest id))
    (hsub : Environment.Submits s.env.heap.top s.env env) : Core { s with env } n := by
  apply h.setEnv hsound
  · intro p hp
    rw [hheap]
    rcases List.mem_cons.mp (hsub.outstanding.mem_iff.mp hp) with rfl | hp
    · exact ⟨id, Heap.get?_alloc_top _ _⟩
    · obtain ⟨q, hq⟩ := h.request p hp
      exact ⟨q, Heap.get?_alloc_of_some hq⟩
  · intro p q c hctl
    obtain ⟨hlive, hout, -⟩ := h.running p q c hctl
    obtain ⟨w, hw⟩ := Option.isSome_iff_exists.mp hlive
    refine ⟨by rw [hheap, Heap.get?_alloc_of_some hw]; rfl, fun hp => ?_⟩
    rcases List.mem_cons.mp (hsub.outstanding.mem_iff.mp hp) with rfl | hp
    · exact Nat.lt_irrefl _ (Heap.lt_top_of_get? hw)
    · exact hout hp

/-- The kernel's side of an expiry. -/
theorem expiry (h : s.Core n) {id : TimerId} {t : PosixTimer} (ht : s.kernel id = some t)
    (harmed : t.arming.armed = true) :
    Core { s with kernel := Function.update s.kernel id (some (Timers.expiry t)) } n := by
  have hsival := expiry_sival t
  -- only a one-shot timer changes its setting, and it stays one-shot
  have hagrees : ∀ ctx, t.arming.Agrees ctx → (Timers.expiry t).arming.Agrees ctx := by
    intro ctx hctx
    rw [Timers.expiry]
    split
    · next honce => rwa [honce] at hctx
    · exact hctx
  refine ⟨h.sound, h.request, h.running, ?_, ?_, ?_⟩
  · -- context
    intro q t' ht'
    by_cases hq : q = id
    · subst hq
      simp only [Function.update_self, Option.some.injEq] at ht'
      subst ht'
      obtain ⟨ctx, hctx, hid, hag⟩ := h.context q t ht
      exact ⟨ctx, by rw [hsival]; exact hctx, hid, hagrees ctx hag⟩
    · simp only [Function.update_of_ne hq] at ht'
      exact h.context q t' ht'
  · -- entry
    intro q c hq
    obtain ⟨t', ht', hc⟩ := h.entry q c hq
    by_cases hqid : q = id
    · subst hqid
      obtain rfl := Option.some.inj (ht.symm.trans ht')
      exact ⟨_, Function.update_self .., hsival.trans hc⟩
    · exact ⟨t', by simp only [Function.update_of_ne hqid]; exact ht', hc⟩
  · -- registering
    intro g hreg
    obtain ⟨t', ctx, ht', hg⟩ := h.registering g hreg
    by_cases hqid : ctx.timer_id = id
    · subst hqid
      obtain rfl := Option.some.inj (ht.symm.trans ht')
      refine ⟨_, ctx, Function.update_self .., hsival.trans hg.sival, hg.context, hg.flags, ?_,
        hg.absent⟩
      intro hc
      rw [hg.created hc] at harmed
      exact absurd harmed (by decide)
    · exact ⟨t', ctx, by simp only [Function.update_of_ne hqid]; exact ht', hg⟩

private theorem fired (h : s.Core n) {p : Ptr} {id : TimerId} {c : Ptr}
    (hctl : s.ctl = .callback p id c) (hreg : s.registration = none) :
    Core { s with
      timerMap := s.timerMap.erase id
      env := { s.env.dec with heap := s.env.heap.free p }
      ctl := .inner } (n - 1) := by
  have herased := h.erase id hreg
  exact herased.freed h.sound.dec rfl (h.running p id c hctl).2.1

end Core

/-- Every step but an expiry that is missed keeps the core of the invariant. -/
theorem Effect.core {s t : Timers} {n d : Int} {a : Act} (he : Effect s n a d t) (h : s.Core n) :
    t.Core (n + d) := by
  have hkeep : ∀ {u : Timers}, u.Core n → u.Core (n + 0) := fun hu => by rwa [Int.add_zero]
  cases he with
  | createFailed hreg => exact hkeep (h.alloc _ hreg)
  | created hreg hfree hid hflags =>
      subst hid
      exact hkeep (h.created hreg hfree hflags)
  | settime hreg hstage ht hg => exact hkeep (h.settime hstage hg)
  | settimeFailed hreg hstage => exact hkeep h.unregister
  | inserted hreg hstage ht hg => exact hkeep (h.inserted hstage ht hg)
  | returned hreg hstage => exact h.returned
  | cleared hreg => exact h.cleared _ hreg
  | stopped =>
      exact hkeep (h.setLedger h.sound.stop rfl (fun _ => Iff.rfl))
  | started hctl hreg => exact hkeep (h.setCtl (by simp))
  | waited hctl hgoes =>
      have hout := h.sound.submitAndWait.2
      have hinv := h.setLedger h.sound.submitAndWait.1 rfl (fun _ => by rw [hout])
      exact hkeep (hinv.setCtl (by simp))
  | left hctl hgoes => exact hkeep (h.setCtl (by simp))
  | drained hctl => exact hkeep (h.setCtl (by simp))
  | called hctl hreq hfind hsound hreaps =>
      exact hkeep (h.called hctl hreq hfind hsound hreaps)
  | ignored hctl hreq hfind hsound hreaps =>
      have hinv := (h.reaped hsound hreaps hctl).freed hsound rfl hreaps.reaped
      rw [← hctl] at hinv
      exact hkeep hinv
  | fired hctl hreg hctx hone => exact h.fired hctl hreg
  | repeats hctl hreg hctx hone =>
      exact hkeep (h.freed h.sound rfl (h.running _ _ _ hctl).2.1)
  | notified ht harmed hfind hsound hheap hsub =>
      have hinv := ((h.expiry ht harmed).notified hsound hheap hsub).setTrace
      exact hkeep (hinv _)
  | lost ht harmed hwin => exact hkeep ((h.expiry ht harmed).setTrace _)
  | completed hsound hheap hout =>
      exact hkeep (h.setLedger hsound hheap (fun _ => hout.mem_iff))

/-- The expiry of a timer without an entry: nothing is submitted. -/
def Missed (s : Timers) (id : TimerId) (t : Timers) : Prop :=
  ∃ u, s.kernel id = some u ∧ u.arming.armed = true ∧ s.timerMap.find id = none ∧
    t = { s with
      kernel := Function.update s.kernel id (some (expiry u))
      trace := ⟨s.trace.expired ++ [id], s.trace.submitted⟩ }

namespace Core

variable {s t : Timers} {n : Int}

theorem missed (h : s.Core n) {id : TimerId} (hmissed : s.Missed id t) : t.Core n := by
  obtain ⟨u, hu, harmed, -, rfl⟩ := hmissed
  exact (h.expiry hu harmed).setTrace _

/-- An expiry that reads no context which is gone. -/
theorem expire (h : s.Core n) {id : TimerId} (hstep : s.expire id = .next t) :
    Effect s n (.expire id) 0 t ∨ s.Missed id t := by
  rw [Timers.expire] at hstep
  cases hu : s.kernel id with
  | none => rw [hu] at hstep; exact absurd hstep (by simp)
  | some u =>
      obtain ⟨ctx, hctx, rfl, -⟩ := h.context id u hu
      simp only [hu] at hstep
      split at hstep
      · next harmed =>
        rw [signalHandler] at hstep
        split at hstep
        · next hempty =>
          have hfind := StdMap.size_eq_zero.mp hempty ctx.timer_id
          exact Or.inr ⟨u, hu, harmed, hfind, (Outcome.next.inj hstep).symm⟩
        split at hstep
        · simp only [hctx] at hstep
          cases hfind : s.timerMap.find ctx.timer_id with
          | none =>
              simp only [hfind, Outcome.next.injEq] at hstep
              exact Or.inr ⟨u, hu, harmed, hfind, hstep.symm⟩
          | some c =>
              -- the entry found is that of this very timer
              obtain ⟨u', hu', hsival⟩ := h.entry _ c hfind
              obtain rfl := Option.some.inj (hu.symm.trans hu')
              obtain ⟨env, henv, hsound, hheap, hsub⟩ :=
                h.sound.submitNew _ (timerRequest_supported ctx.timer_id)
              simp only [hfind, henv, Outcome.bind_next, Outcome.next.injEq] at hstep
              subst hstep
              exact Or.inl (Effect.notified hu harmed (by rw [hfind, hsival]) hsound hheap hsub)
        · exact absurd hstep (by simp)
      · exact absurd hstep (by simp)

/-- What any step does, settled or not. -/
theorem step (h : s.Core n) {a : Act} (hstep : machine.step s a = .next t) :
    (∃ d, Effect s n a d t) ∨ ∃ id, a = .expire id ∧ s.Missed id t := by
  by_cases ha : ∃ id, a = .expire id
  · obtain ⟨id, rfl⟩ := ha
    exact (h.expire hstep).imp (fun he => ⟨0, he⟩) fun hm => ⟨id, rfl, hm⟩
  · exact Or.inl ((h.effect fun id heq => ha ⟨id, heq⟩).of_next hstep)

theorem of_step (h : s.Core n) {a : Act} (hstep : machine.step s a = .next t) :
    ∃ m, t.Core m := by
  rcases h.step hstep with ⟨d, he⟩ | ⟨id, -, hm⟩
  · exact ⟨_, he.core h⟩
  · exact ⟨_, h.missed hm⟩

end Core

/-! ## Armed timers -/

namespace Armed

variable {s t : Timers} {n : Int}

/-- A step that touches neither the kernel's timers nor the map nor the window. -/
theorem frame (h : s.Armed) (hkernel : t.kernel = s.kernel) (hmap : t.timerMap = s.timerMap)
    (hwin : t.unregistered = s.unregistered) : t.Armed := by
  intro id u hu harmed
  rw [hmap, hwin]
  exact h id u (hkernel ▸ hu) harmed

/-- With no timer in the window an armed timer is in the map. -/
theorem find (h : s.Armed) (hwin : s.unregistered = none) {id : TimerId} {u : PosixTimer}
    (hu : s.kernel id = some u) (harmed : u.arming.armed = true) :
    s.timerMap.find id = some u.sival :=
  (h id u hu harmed).resolve_right fun hin => absurd (hwin.symm.trans hin) (by simp)

/-- The kernel's side of an expiry. -/
theorem expiry (h : s.Armed) {id : TimerId} {u : PosixTimer} (hu : s.kernel id = some u)
    (harmed : u.arming.armed = true)
    (hkernel : t.kernel = Function.update s.kernel id (some (Timers.expiry u)))
    (hmap : t.timerMap = s.timerMap) (hwin : t.unregistered = s.unregistered) : t.Armed := by
  intro q u' hu' harmed'
  rw [hkernel] at hu'
  rw [hmap, hwin]
  by_cases hq : q = id
  · subst hq
    rw [Function.update_self, Option.some.injEq] at hu'
    rw [← hu', expiry_sival]
    exact h q u hu harmed
  · rw [Function.update_of_ne hq] at hu'
    exact h q u' hu' harmed'

end Armed

/-- A settled step leaves every armed timer in the map. -/
theorem Effect.armed {s t : Timers} {n d : Int} {a : Act} (he : Effect s n a d t) (h : s.Inv n)
    (hsettled : s.Settled a) : t.Armed := by
  have harmed : s.Armed := h.armed
  cases he with
  | createFailed hreg =>
      refine harmed.frame rfl rfl ?_
      rw [Inv.unregistered_none hreg]
      exact Inv.unregistered_none hreg
  | @created _ _ _ id _ hreg hfree hid hflags =>
      -- the new timer is not armed yet
      intro q u hu hq
      by_cases heq : q = id
      · subst heq
        simp only [Function.update_self, Option.some.injEq] at hu
        subst hu
        exact absurd hq (by simp [Arming.armed])
      · simp only [Function.update_of_ne heq] at hu
        exact Or.inl (h.armed_find hreg hu hq)
  | @settime g _ ctx hreg hstage ht hg =>
      -- the window opens: the timer is armed and has no entry
      have hwin : s.unregistered = none := by
        rw [Inv.unregistered_eq hreg hg, hstage]
        rfl
      intro q u hu hq
      by_cases heq : q = ctx.timer_id
      · subst heq
        apply Or.inr
        simp only [unregistered, hg.context]
        rfl
      · simp only [Function.update_of_ne heq] at hu
        exact Or.inl (harmed.find hwin hu hq)
  | settimeFailed hreg hstage =>
      -- the failed timer stays disarmed, so nothing is left in a window
      obtain ⟨u, ctx, -, hg⟩ := h.registering _ hreg
      refine harmed.frame rfl rfl ?_
      rw [Inv.unregistered_eq hreg hg, hstage]
      rfl
  | @inserted g _ ctx hreg hstage ht hg =>
      -- the window closes
      have hfind := hg.find_none (.inr hstage)
      have hwin : s.unregistered = some ctx.timer_id := by
        rw [Inv.unregistered_eq hreg hg, if_pos hstage]
      intro q u hu hq
      apply Or.inl
      simp only [StdMap.find_insert hfind]
      split
      · next heq =>
        subst heq
        obtain rfl := Option.some.inj (ht.symm.trans hu)
        rw [hg.sival]
      · next hne =>
        refine (harmed q u hu hq).resolve_right fun hin => ?_
        exact hne (Option.some.inj (hin.symm.trans hwin))
  | returned hreg hstage =>
      obtain ⟨u, ctx, -, hg⟩ := h.registering _ hreg
      refine harmed.frame rfl rfl ?_
      rw [Inv.unregistered_eq hreg hg, hstage]
      rfl
  | cleared hreg =>
      -- entry and timer go together
      intro q u hu hq
      obtain ⟨hne, hu⟩ := of_update_none hu
      apply Or.inl
      simp only [timerDelete, timerErase, StdMap.find_erase, if_neg hne]
      exact h.armed_find hreg hu hq
  | @fired p id c ctx hctl hreg hctx hone =>
      intro q u hu hq
      -- settled: the timer whose entry goes is not armed
      have hne : q ≠ id := by
        rintro rfl
        have hidle := Settled.not_armed hsettled (finishing_ret hctl hctx hone) hu
        exact absurd (hidle.symm.trans hq) (by decide)
      apply Or.inl
      simp only [StdMap.find_erase, if_neg hne]
      exact h.armed_find hreg hu hq
  | notified ht hgoes hfind hsound hheap hsub => exact harmed.expiry ht hgoes rfl rfl rfl
  | lost ht hgoes hwin => exact harmed.expiry ht hgoes rfl rfl rfl
  | _ => exact harmed.frame rfl rfl rfl

/-- A settled step keeps the invariant. -/
theorem Effect.inv {s t : Timers} {n d : Int} {a : Act} (he : Effect s n a d t) (h : s.Inv n)
    (hsettled : s.Settled a) : t.Inv (n + d) :=
  (he.core h.core).inv (he.armed h hsettled)

end Timers

end NoJs.Timer
