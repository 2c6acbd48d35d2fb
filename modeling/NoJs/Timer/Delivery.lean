/-
  NoJs.Timer.Delivery

  Expiries and clearing, each in two steps.

  In NoJs.Timer.Machine an expiry is delivered when it happens and `clearTimer`
  is one step.  Here an expiry queues a signal with the `sival_ptr` of its
  timer, which `signalHandler` gets at any later time, and `clearTimer` is
  `timerMap.erase` and then timer_delete, with signals in between.  What is
  queued stays queued when its timer is deleted.

  The handler's own look-up goes through the pointer, so it does not protect
  it: `Safe` says what does, an owner for every context that is queued.
-/

import NoJs.Timer.Invariant

namespace NoJs.Timer

open Machine IoUring

namespace Timers

/-- The first half of an expiry: the signal that is queued. -/
def queueExpiry (id : TimerId) (s : Timers) : Outcome (Ptr × Timers) :=
  match s.kernel id with
  | none => .disabled
  | some t =>
      if t.arming.armed then .next (t.sival,
        { s with
          kernel := Function.update s.kernel id (some (expiry t))
          trace := { s.trace with expired := s.trace.expired ++ [id] } })
      else .disabled

/-- An expiry delivered at once is the two halves together. -/
theorem expire_eq (id : TimerId) (s : Timers) :
    s.expire id = (s.queueExpiry id).bind fun (sival, t) => t.signalHandler sival := by
  rw [expire, queueExpiry]
  cases s.kernel id with
  | none => rfl
  | some t =>
      cases harmed : t.arming.armed with
      | true => simp [harmed]
      | false => simp [harmed]

/-- The owners that outlive the step they are in: an entry, a `timerHandler`
    call that has set its timer, a callback. -/
def Secured (s : Timers) (c : Ptr) : Prop :=
  (∃ id, s.timerMap.find id = some c) ∨
    (∃ g, s.registration = some g ∧ g.stage = .settime ∧ g.ctx = c) ∨
    ∃ p id, s.ctl = .callback p id c

theorem Secured.held {s : Timers} {c : Ptr} (h : s.Secured c) : s.held c = true := by
  rcases h with ⟨id, hfind⟩ | ⟨g, hreg, -, rfl⟩ | ⟨p, id, hctl⟩
  · have hvalue := StdMap.mem_values_of_find hfind
    simp [Timers.held, hvalue]
  · simp [Timers.held, hreg]
  · simp [Timers.held, hctl]

end Timers

structure Delivery where
  timers : Timers
  /-- The `sival_ptr` of each signal that is pending. -/
  queued : List Ptr
  /-- The id that `clearTimer` has erased and not deleted yet. -/
  clearing : Option TimerId

namespace Delivery

def init : Delivery := ⟨.init, [], none⟩

inductive Act where
  /-- A step of the program, or a completion. -/
  | timers (a : Timers.Act)
  /-- An armed timer expires. -/
  | queue (id : TimerId)
  /-- `signalHandler` gets the `i`-th pending signal. -/
  | deliver (i : Nat)
  /-- `clearTimer` up to `timerMap.erase`. -/
  | erase (arg : Int)
  /-- The rest of `clearTimer`. -/
  | delete

/-- Whether a step of the timers is one step here too, and can be taken now. -/
def enabled (s : Delivery) : Timers.Act → Bool
  | .expire _ => false
  | .clearTimer _ => false
  | .complete _ _ => true
  | _ => s.clearing.isNone

def step (s : Delivery) : Act → Outcome Delivery
  | .timers a =>
      if s.enabled a then
        (Timers.machine.step s.timers a).bind fun timers => .next { s with timers }
      else .disabled
  | .queue id => (s.timers.queueExpiry id).bind fun (sival, timers) =>
      .next { s with timers, queued := s.queued ++ [sival] }
  | .deliver i =>
      match s.queued[i]? with
      | none => .disabled
      | some sival => (s.timers.signalHandler sival).bind fun timers =>
          .next { s with timers, queued := s.queued.eraseIdx i }
  | .erase arg =>
      if s.timers.runsJs && s.clearing.isNone then
        .next { s with
          timers := s.timers.timerErase (UInt64.ofInt arg)
          clearing := some (UInt64.ofInt arg) }
      else .disabled
  | .delete =>
      match s.clearing with
      | none => .disabled
      | some id =>
          if s.timers.deletable id then
            .next { s with timers := s.timers.timerDelete id, clearing := none }
          else .disabled

/-- The timers with the signals that are pending. -/
def machine : Machine Delivery Act := ⟨init, step⟩

/-! ## The condition -/

/-- Whether `timer_cb` is running for the context `c`. -/
def running (s : Delivery) (c : Ptr) : Bool :=
  match s.timers.ctl with
  | .callback _ _ c' => c' == c
  | _ => false

/-- The contexts that lose an owner they may not have another for. -/
def drops (s : Delivery) : Act → List Ptr
  | .erase arg => ((s.timers.timerMap.find (UInt64.ofInt arg)).filter fun c => !s.running c).toList
  | .timers .ret =>
      match s.timers.ctl with
      | .callback _ id c =>
          if (s.timers.contexts.get? c).any (·.oneShot) then
            c :: (s.timers.timerMap.find id).toList
          else if s.timers.timerMap.find id = some c then [] else [c]
      | _ => []
  | _ => []

/-- Whether an expiry comes after the entry of its timer is gone. -/
def orphaned (s : Delivery) (id : TimerId) : Bool :=
  s.clearing == some id && (s.timers.kernel id).any fun t => !s.running t.sival

/-- The steps that keep an owner for what is queued: no pending signal carries
    what `clearTimer` or the end of a callback drops, no timer expires between
    the two steps of its `clearTimer`, and no one-shot callback takes the entry
    of an armed timer away. -/
def Guarded (s : Delivery) (a : Act) : Bool :=
  ((s.drops a).all fun c => !s.queued.contains c) &&
    match a with
    | .queue id => !s.orphaned id
    | .timers a => s.timers.Settled a
    | _ => true

/-! ## The invariant -/

/-- Every armed timer is in the map, or about to be put there, or being
    cleared; and every pending signal carries a context with an owner. -/
structure Safe (s : Delivery) : Prop where
  core : ∃ n, s.timers.Core n
  armed : ∀ id t, s.timers.kernel id = some t → t.arming.armed →
    s.timers.timerMap.find id = some t.sival ∨ s.timers.unregistered = some id ∨
      s.clearing = some id
  queued : ∀ c ∈ s.queued, s.timers.Secured c
  clearing : ∀ id, s.clearing = some id →
    s.timers.registration = none ∧ s.timers.timerMap.find id = none

end Delivery

namespace Timers

variable {s t : Timers} {n d : Int} {c : Ptr}

/-- A step that touches no owner. -/
theorem Secured.frame (h : s.Secured c) (hmap : t.timerMap = s.timerMap)
    (hreg : t.registration = s.registration) (hctl : t.ctl = s.ctl) : t.Secured c := by
  rwa [Secured, hmap, hreg, hctl]

/-- A step of the loop, which owns nothing. -/
theorem Secured.resume (h : s.Secured c) (hctl : ∀ p id c, s.ctl ≠ .callback p id c)
    (hmap : t.timerMap = s.timerMap) (hreg : t.registration = s.registration) : t.Secured c := by
  rw [Secured, hmap, hreg]
  refine h.imp_right (Or.imp_right ?_)
  rintro ⟨p, id, hcb⟩
  exact absurd hcb (hctl p id c)

/-- A step of `timerHandler` outside its window. -/
theorem Secured.advance (h : s.Secured c)
    (hstage : ∀ g, s.registration = some g → g.stage ≠ .settime)
    (hmap : t.timerMap = s.timerMap) (hctl : t.ctl = s.ctl) : t.Secured c := by
  rw [Secured, hmap, hctl]
  refine h.imp_right (Or.imp_left ?_)
  rintro ⟨g, hreg, hset, -⟩
  exact absurd hset (hstage g hreg)

/-- A context with an owner is there to be read. -/
theorem Core.secured_context (h : s.Core n) (hc : s.Secured c) :
    ∃ ctx, s.contexts.get? c = some ctx := by
  rcases hc with ⟨id, hfind⟩ | ⟨g, hreg, -, rfl⟩ | ⟨p, id, hctl⟩
  · obtain ⟨u, hu, rfl⟩ := h.entry id c hfind
    obtain ⟨ctx, hctx, -⟩ := h.context id u hu
    exact ⟨ctx, hctx⟩
  · obtain ⟨u, ctx, -, hg⟩ := h.registering g hreg
    exact ⟨ctx, hg.context⟩
  · exact Option.isSome_iff_exists.mp (h.running p id c hctl).2.2

/-- The call that has set a timer owns its context. -/
theorem Core.secured_window (h : s.Core n) {id : TimerId} {u : PosixTimer}
    (hu : s.kernel id = some u) (hwin : s.unregistered = some id) : s.Secured u.sival := by
  cases hreg : s.registration with
  | none => exact absurd ((Inv.unregistered_none hreg).symm.trans hwin) (by simp)
  | some g =>
      obtain ⟨v, ctx, hv, hg⟩ := h.registering g hreg
      rw [Inv.unregistered_eq hreg hg] at hwin
      split at hwin
      · next hstage =>
        obtain rfl := Option.some.inj hwin
        obtain rfl := Option.some.inj (hu.symm.trans hv)
        exact Or.inr (Or.inl ⟨g, hreg, hstage, hg.sival.symm⟩)
      · exact absurd hwin (by simp)

/-- `signalHandler` on a context with an owner changes the requests only. -/
theorem Core.signalHandler (h : s.Core n) (hc : s.Secured c) :
    (s.signalHandler c).Holds fun t => t.Core n ∧ t.contexts = s.contexts ∧
      t.timerMap = s.timerMap ∧ t.kernel = s.kernel ∧ t.registration = s.registration ∧
      t.ctl = s.ctl := by
  obtain ⟨ctx, hctx⟩ := h.secured_context hc
  rw [Timers.signalHandler]
  by_cases hempty : s.timerMap.size = 0
  · rw [if_pos hempty]
    exact ⟨h, rfl, rfl, rfl, rfl, rfl⟩
  rw [if_neg hempty, if_pos hc.held]
  simp only [hctx]
  cases s.timerMap.find ctx.timer_id with
  | none => exact ⟨h, rfl, rfl, rfl, rfl, rfl⟩
  | some c' =>
      obtain ⟨env, henv, hsound, hheap, hsub⟩ :=
        h.sound.submitNew _ (timerRequest_supported ctx.timer_id)
      have hcore := h.notified hsound hheap hsub
      simp only [henv, Outcome.bind_next]
      exact ⟨⟨hcore.sound, hcore.request, hcore.running, hcore.context, hcore.entry,
        hcore.registering⟩, rfl, rfl, rfl, rfl, rfl⟩

end Timers

namespace Delivery

variable {s t : Delivery} {n d : Int} {c : Ptr}

/-- `timer_cb` owns the context it runs for. -/
theorem secured_running {u : Timers} (h : s.running c = true) (hctl : u.ctl = s.timers.ctl) :
    u.Secured c := by
  rw [running, ← hctl] at h
  split at h
  · next p id c' hcb =>
    obtain rfl := eq_of_beq h
    exact Or.inr (Or.inr ⟨p, id, hcb⟩)
  · exact absurd h (by simp)

/-- What `timer_cb` leaves without an owner when it returns. -/
theorem drops_fired {p : Ptr} {id : TimerId} {c : Ptr} {ctx : TimerRequestContext}
    (hctl : s.timers.ctl = .callback p id c) (hctx : s.timers.contexts.get? c = some ctx)
    (hone : ctx.oneShot = true) :
    s.drops (.timers .ret) = c :: (s.timers.timerMap.find id).toList := by
  simp [drops, hctl, hctx, hone]

theorem drops_repeats {p : Ptr} {id : TimerId} {c : Ptr} {ctx : TimerRequestContext}
    (hctl : s.timers.ctl = .callback p id c) (hctx : s.timers.contexts.get? c = some ctx)
    (hone : ctx.oneShot = false) :
    s.drops (.timers .ret) = if s.timers.timerMap.find id = some c then [] else [c] := by
  simp [drops, hctl, hctx, hone]

/-- The one call in progress is outside its window. -/
theorem not_settime {u : Timers} {g : Registration} (hreg : u.registration = some g)
    (hstage : g.stage ≠ .settime) : ∀ g', u.registration = some g' → g'.stage ≠ .settime := by
  intro g' hg'
  obtain rfl := Option.some.inj (hreg.symm.trans hg')
  exact hstage

/-- What a step does not drop keeps an owner. -/
theorem secured_step {a : Timers.Act} {u : Timers} (he : Timers.Effect s.timers n a d u)
    (hclear : ∀ arg, a ≠ .clearTimer arg) (hdrops : c ∉ s.drops (.timers a))
    (h : s.timers.Secured c) : u.Secured c := by
  cases he with
  | settime hreg hstage ht hg =>
      exact h.advance (not_settime hreg (by rw [hstage]; decide)) rfl rfl
  | settimeFailed hreg hstage =>
      exact h.advance (not_settime hreg (by rw [hstage]; decide)) rfl rfl
  | created hreg hfree hid hflags =>
      exact h.advance (fun g hg => absurd (hreg.symm.trans hg) (by simp)) rfl rfl
  | @inserted g v ctx hreg hstage ht hg =>
      -- the call hands its context to the map
      have habsent := hg.find_none (.inr hstage)
      rcases h with ⟨id, hfind⟩ | ⟨g', hg', -, rfl⟩ | hcb
      · refine Or.inl ⟨id, ?_⟩
        have hne : id ≠ ctx.timer_id := by
          rintro rfl
          exact absurd (habsent.symm.trans hfind) (by simp)
        simpa [StdMap.find_insert habsent, hne] using hfind
      · obtain rfl := Option.some.inj (hreg.symm.trans hg')
        exact Or.inl ⟨ctx.timer_id, by simp [StdMap.find_insert habsent]⟩
      · exact Or.inr (Or.inr hcb)
  | returned hreg hstage =>
      exact h.advance (not_settime hreg (by rw [hstage]; decide)) rfl rfl
  | cleared hreg => exact absurd rfl (hclear _)
  | started hctl hreg => exact h.resume (by simp [hctl]) rfl rfl
  | waited hctl hgoes => exact h.resume (by simp [hctl]) rfl rfl
  | left hctl hgoes => exact h.resume (by simp [hctl]) rfl rfl
  | drained hctl => exact h.resume (by simp [hctl]) rfl rfl
  | called hctl hreq hfind hsound hreaps => exact h.resume (by simp [hctl]) rfl rfl
  | @fired p id c' ctx hctl hreg hctx hone =>
      rw [drops_fired hctl hctx hone, List.mem_cons, Option.mem_toList, not_or] at hdrops
      rcases h with ⟨q, hfind⟩ | ⟨g, hg, -⟩ | ⟨q, q', hcb⟩
      · refine Or.inl ⟨q, ?_⟩
        have hne : q ≠ id := fun heq => hdrops.2 (heq ▸ hfind)
        simpa [StdMap.find_erase, hne] using hfind
      · exact absurd (hreg.symm.trans hg) (by simp)
      · exact absurd (Ctl.callback.inj (hctl.symm.trans hcb)).2.2.symm hdrops.1
  | @repeats p id c' ctx hctl hreg hctx hone =>
      rw [drops_repeats hctl hctx hone] at hdrops
      rcases h with hmap | ⟨g, hg, -⟩ | ⟨q, q', hcb⟩
      · exact Or.inl hmap
      · exact absurd (hreg.symm.trans hg) (by simp)
      · -- the running context is not dropped, so the map has it
        obtain rfl : c' = c := (Ctl.callback.inj (hctl.symm.trans hcb)).2.2
        split at hdrops
        · next hfind => exact Or.inl ⟨id, hfind⟩
        · simp at hdrops
  | _ => exact h

namespace Safe

theorem inv (h : s.Safe) (hclearing : s.clearing = none) (hcore : s.timers.Core n) :
    s.timers.Inv n := by
  refine hcore.inv fun id u hu harmed => ?_
  rcases h.armed id u hu harmed with hfind | hwin | hclear
  · exact Or.inl hfind
  · exact Or.inr hwin
  · exact absurd (hclearing.symm.trans hclear) (by simp)

/-- A step of the program, which is not inside `clearTimer`. -/
theorem program (h : s.Safe) {a : Timers.Act} (hclearing : s.clearing = none)
    (hexpire : ∀ id, a ≠ .expire id) (hclear : ∀ arg, a ≠ .clearTimer arg)
    (hguarded : s.Guarded (.timers a)) :
    (Timers.machine.step s.timers a).Holds fun u => Safe { s with timers := u } := by
  obtain ⟨n, hcore⟩ := h.core
  simp only [Guarded, Bool.and_eq_true, List.all_eq_true] at hguarded
  obtain ⟨hdrops, hsettled⟩ := hguarded
  refine (hcore.effect hexpire).imp fun u ⟨d, he⟩ => ?_
  refine ⟨⟨_, he.core hcore⟩, ?_, ?_, ?_⟩
  · intro id v hv harmed
    rcases he.armed (h.inv hclearing hcore) hsettled id v hv harmed with hfind | hwin
    · exact Or.inl hfind
    · exact Or.inr (Or.inl hwin)
  · intro c hc
    refine secured_step he hclear (fun hdrop => ?_) (h.queued c hc)
    exact absurd (hdrops c hdrop) (by simpa using hc)
  · exact fun id hid => absurd (hclearing.symm.trans hid) (by simp)

/-- A completion, which may come at any time. -/
theorem complete (h : s.Safe) (i : Nat) (res : Int32) :
    (Timers.machine.step s.timers (.complete i res)).Holds fun u =>
      Safe { s with timers := u } := by
  obtain ⟨n, hcore⟩ := h.core
  refine (hcore.effect (by simp)).imp fun u ⟨d, he⟩ => ?_
  have hcore' := he.core hcore
  cases he with
  | completed hsound hheap hout => exact ⟨⟨_, hcore'⟩, h.armed, h.queued, h.clearing⟩

/-- A timer that expires points to a context with an owner. -/
theorem secured_sival (h : s.Safe) {id : TimerId} {u : PosixTimer}
    (hu : s.timers.kernel id = some u) (harmed : u.arming.armed = true)
    (hguarded : s.Guarded (.queue id)) : s.timers.Secured u.sival := by
  obtain ⟨n, hcore⟩ := h.core
  rcases h.armed id u hu harmed with hfind | hwin | hclearing
  · exact Or.inl ⟨id, hfind⟩
  · exact hcore.secured_window hu hwin
  · -- guarded: between the two steps of its `clearTimer` its callback is running
    have hrunning : s.running u.sival = true := by
      simpa [Guarded, drops, orphaned, hclearing, hu] using hguarded
    exact secured_running hrunning rfl

theorem queue (h : s.Safe) (id : TimerId) (hguarded : s.Guarded (.queue id)) :
    (machine.step s (.queue id)).Holds Safe := by
  obtain ⟨n, hcore⟩ := h.core
  simp only [machine, step, Timers.queueExpiry]
  cases hu : s.timers.kernel id with
  | none => trivial
  | some u =>
      cases harmed : u.arming.armed with
      | false =>
          simp only [harmed, Bool.false_eq_true, if_false]
          trivial
      | true =>
          simp only [harmed, if_true, Outcome.bind_next]
          have hcore' := hcore.expiry hu harmed
          refine ⟨⟨n, hcore'.sound, hcore'.request, hcore'.running, hcore'.context, hcore'.entry,
            hcore'.registering⟩, ?_, ?_, h.clearing⟩
          · intro q v hv harmed'
            by_cases hq : q = id
            · subst hq
              simp only [Function.update_self, Option.some.injEq] at hv
              rw [← hv, Timers.expiry_sival]
              exact h.armed q u hu harmed
            · simp only [Function.update_of_ne hq] at hv
              exact h.armed q v hv harmed'
          · intro c hc
            rcases List.mem_append.mp hc with hc | hc
            · exact (h.queued c hc).frame rfl rfl rfl
            · obtain rfl := List.mem_singleton.mp hc
              exact (h.secured_sival hu harmed hguarded).frame rfl rfl rfl

theorem deliver (h : s.Safe) (i : Nat) : (machine.step s (.deliver i)).Holds Safe := by
  obtain ⟨n, hcore⟩ := h.core
  simp only [machine, step]
  cases hi : s.queued[i]? with
  | none => trivial
  | some c =>
      have hc := h.queued c (List.mem_of_getElem? hi)
      apply (hcore.signalHandler hc).bind
      rintro u ⟨hcore', hcontexts, hmap, hkernel, hreg, hctl⟩
      refine ⟨⟨n, hcore'⟩, ?_, ?_, ?_⟩
      · intro id v hv harmed
        have hwin : u.unregistered = s.timers.unregistered := by
          rw [Timers.unregistered, Timers.unregistered, hreg, hcontexts]
        rw [hmap, hwin]
        exact h.armed id v (hkernel ▸ hv) harmed
      · intro c' hc'
        exact (h.queued c' (List.mem_of_mem_eraseIdx hc')).frame hmap hreg hctl
      · intro id hid
        rw [hreg, hmap]
        exact h.clearing id hid

theorem erase (h : s.Safe) (arg : Int) (hguarded : s.Guarded (.erase arg)) :
    (machine.step s (.erase arg)).Holds Safe := by
  obtain ⟨n, hcore⟩ := h.core
  simp only [machine, step]
  split
  · next hruns =>
    simp only [Bool.and_eq_true, Option.isNone_iff_eq_none] at hruns
    obtain ⟨hjs, hclearing⟩ := hruns
    have hreg := Timers.Inv.runsJs_registration hjs
    have hinv := h.inv hclearing hcore
    refine ⟨⟨n, hcore.erase _ hreg⟩, ?_, ?_, ?_⟩
    · intro id u hu harmed
      by_cases hid : id = UInt64.ofInt arg
      · exact Or.inr (Or.inr (hid ▸ rfl))
      · apply Or.inl
        simp only [Timers.timerErase, StdMap.find_erase, if_neg hid]
        exact hinv.armed_find hreg hu harmed
    · intro c hc
      rcases h.queued c hc with ⟨id, hfind⟩ | hwin | hcb
      · by_cases hid : id = UInt64.ofInt arg
        · -- guarded: what is queued and erased is the context of the callback running
          subst hid
          have hrunning : s.running c = true := by
            simpa [Guarded, drops, hfind, hc] using hguarded
          exact secured_running hrunning rfl
        · exact Or.inl ⟨id, by simp [Timers.timerErase, StdMap.find_erase, hid, hfind]⟩
      · exact Or.inr (Or.inl hwin)
      · exact Or.inr (Or.inr hcb)
    · intro id hid
      obtain rfl := Option.some.inj hid
      exact ⟨hreg, by simp [Timers.timerErase, StdMap.find_erase]⟩
  · trivial

theorem delete (h : s.Safe) : (machine.step s .delete).Holds Safe := by
  obtain ⟨n, hcore⟩ := h.core
  simp only [machine, step]
  cases hclearing : s.clearing with
  | none => trivial
  | some id =>
      obtain ⟨hreg, hfind⟩ := h.clearing id hclearing
      simp only
      split
      · refine ⟨⟨n - 1, hcore.delete hreg hfind⟩, ?_, ?_, by simp⟩
        · intro q u hu harmed
          obtain ⟨hne, hu⟩ := Timers.of_update_none hu
          rcases h.armed q u hu harmed with hfind | hwin | hclear
          · exact Or.inl hfind
          · exact Or.inr (Or.inl hwin)
          · exact absurd (Option.some.inj (hclearing.symm.trans hclear)).symm hne
        · exact fun c hc => (h.queued c hc).frame rfl rfl rfl
      · trivial

end Safe

/-- A guarded step keeps an owner for every context that is queued. -/
theorem preserves_safe : machine.PreservesWhen (fun s a => s.Guarded a) Safe := by
  intro s a h hguarded
  cases a with
  | timers a =>
      simp only [machine, step]
      split
      · next henabled =>
        refine Outcome.Holds.bind ?_ fun u hu => hu
        cases a with
        | expire id => simp [enabled] at henabled
        | clearTimer arg => simp [enabled] at henabled
        | complete i res => exact h.complete i res
        | _ =>
            exact h.program (Option.isNone_iff_eq_none.mp henabled) (by simp) (by simp) hguarded
      · trivial
  | queue id => exact h.queue id hguarded
  | deliver i => exact h.deliver i
  | erase arg => exact h.erase arg hguarded
  | delete => exact h.delete

theorem safe_init : init.Safe where
  core := ⟨0, Timers.inv_init.core⟩
  armed := by simp [init, Timers.init]
  queued := by simp [init]
  clearing := by simp [init]

/-- **Expiries reach an owned context.**  In a guarded run `signalHandler` never
    reads a context that nobody owns, and at no point could it: every pending
    signal carries a context that `timerMap` or a running function holds. -/
theorem expiry_reaches_owner (as : List Act)
    (h : machine.StepsMeet (fun s a => s.Guarded a) init as) :
    (machine.run as).Holds fun s => ∀ c ∈ s.queued, s.timers.held c = true :=
  (preserves_safe.run safe_init as h).imp fun _ hs c hc => (hs.queued c hc).held

/-- `setInterval(f, 1000)`, which returns `id`. -/
def setIntervalActs (id : TimerId) : List Act :=
  [.timers (.setTimer (some 0) 1000 1000 (some id)), .timers .timerHandler, .timers .timerHandler,
    .timers .timerHandler]

/-- Beside another interval, a signal of the first is pending while its callback
    clears it, and is delivered before the callback returns. -/
def callbackActs : List Act :=
  setIntervalActs 1 ++ setIntervalActs 2 ++ [.timers .run, .timers .outer, .queue 1, .deliver 0,
    .timers (.complete 0 0), .timers .inner, .queue 1, .erase 1, .queue 1, .deliver 0, .delete,
    .deliver 0, .timers .ret, .queue 2]

theorem expiry_reaches_owner_callback :
    machine.StepsMeet (fun s a => s.Guarded a) init callbackActs ∧
      ∃ s, machine.run callbackActs = .next s ∧ s.queued = [1] ∧
        ∀ c ∈ s.queued, s.timers.held c = true :=
  have h : machine.StepsMeet (fun s a => s.Guarded a) init callbackActs := by decide
  ⟨h, _, rfl, rfl, (expiry_reaches_owner callbackActs h).of_next rfl⟩

/-- With another interval in the map: the first expires between the two steps of
    its `clearTimer`, or its signal is still pending when it is cleared.  The
    handler reads a context that is gone. -/
theorem expiry_reaches_destroyed :
    (¬ ∀ as, machine.run as ≠ .fault) ∧
      machine.run (setIntervalActs 1 ++ setIntervalActs 2 ++ [.erase 1, .queue 1, .deliver 0])
        = .fault ∧
      machine.run (setIntervalActs 1 ++ setIntervalActs 2 ++
        [.queue 1, .erase 1, .delete, .deliver 0]) = .fault := by
  have hfault : machine.run (setIntervalActs 1 ++ setIntervalActs 2 ++
    [.erase 1, .queue 1, .deliver 0]) = .fault := rfl
  exact ⟨fun h => h _ hfault, hfault, rfl⟩

end Delivery

end NoJs.Timer
