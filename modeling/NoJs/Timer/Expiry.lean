/-
  NoJs.Timer.Expiry

  Delivery of timer expiries.

  `timerHandler` arms the timer before it puts it in `timerMap`.  An expiry
  delivered in between finds no entry and submits nothing, and a one-shot timer
  then stays registered with nothing left to remove it.  Outside that window
  (`unregistered`) every expiry submits its NOP, and a one-shot timer that has
  gone off is unregistered by the callback that NOP runs.
-/

import NoJs.Timer.Invariant

namespace NoJs.Timer

open Machine IoUring

namespace Timers

/-- The request of an expiry is in flight, or its callback is running. -/
def Noticed (s : Timers) (id : TimerId) (c : Ptr) : Prop :=
  (∃ p ∈ s.env.outstanding, s.env.heap.get? p = some (timerRequest id)) ∨
    ∃ p, s.ctl = .callback p id c

/-- No expiry is lost: each one delivered has submitted one NOP with the timer's
    id, and a one-shot timer that has gone off and is still registered has its
    NOP in flight or is in its callback, whose end unregisters it. -/
structure Delivered (s : Timers) : Prop where
  submitted : s.trace.submitted = s.trace.expired.map timerRequest
  noticed : ∀ id t c, s.kernel id = some t → t.arming = .expired →
    s.timerMap.find id = some c → s.Noticed id c
  unregisters : ∀ p id t c u, s.ctl = .callback p id c → s.kernel id = some t →
    t.arming = .expired → s.timerMap.find id = some c → machine.step s .ret = .next u →
    u.timerMap.find id = none

/-- The expiry delivered, if any, does not hit the window of its timer. -/
def OutsideWindow (s : Timers) : Act → Bool
  | .expire id => s.unregistered != some id
  | _ => true

/-- The steps that lose no expiry. -/
def Timely (s : Timers) (a : Act) : Prop := s.Settled a ∧ s.OutsideWindow a

instance (s : Timers) (a : Act) : Decidable (s.Timely a) :=
  inferInstanceAs (Decidable (_ ∧ _))

theorem Timely.unregistered_ne {s : Timers} {id : TimerId} (h : s.Timely (.expire id)) :
    s.unregistered ≠ some id := by
  have hout := h.2
  rw [OutsideWindow] at hout
  exact bne_iff_ne.mp hout

/-- The timer in its window has not gone off. -/
def Waiting (s : Timers) : Prop :=
  ∀ id t, s.unregistered = some id → s.kernel id = some t → t.arming ≠ .expired

theorem timerRequest_inj {id q : TimerId} (h : timerRequest id = timerRequest q) : id = q := by
  have hdata : id.toNat = q.toNat := congrArg Request.data h
  exact UInt64.toNat_inj.mp hdata

theorem arming_ne_expired (it : Itimerspec) : it.arming ≠ .expired := by
  rw [Itimerspec.arming]
  split
  · decide
  · split <;> decide

/-- A timer in its window has no entry. -/
theorem Inv.find_of_unregistered {s : Timers} {n : Int} (h : s.Inv n) {id : TimerId}
    (hwin : s.unregistered = some id) : s.timerMap.find id = none := by
  cases hreg : s.registration with
  | none => exact absurd ((Inv.unregistered_none hreg).symm.trans hwin) (by simp)
  | some g =>
      obtain ⟨t, ctx, -, hg⟩ := h.registering g hreg
      rw [Inv.unregistered_eq hreg hg] at hwin
      split at hwin
      · next hstage =>
        obtain rfl := Option.some.inj hwin
        exact hg.find_none (.inr hstage)
      · exact absurd hwin (by simp)

/-- A one-shot timer that has gone off has a one-shot context. -/
theorem Inv.expired_oneShot {s : Timers} {n : Int} (h : s.Inv n) {id : TimerId} {t : PosixTimer}
    {c : Ptr} (ht : s.kernel id = some t) (hexp : t.arming = .expired)
    (hfind : s.timerMap.find id = some c) :
    ∃ ctx, s.contexts.get? c = some ctx ∧ ctx.oneShot = true := by
  obtain ⟨t', ht', rfl⟩ := h.entry id c hfind
  obtain rfl := Option.some.inj (ht.symm.trans ht')
  obtain ⟨ctx, hctx, -, hagrees⟩ := h.context id t ht
  rw [hexp] at hagrees
  exact ⟨ctx, hctx, hagrees⟩

/-- An expiry submits its NOP exactly when it does not hit the window. -/
theorem Inv.expire_submits_iff {s t : Timers} {n : Int} (h : s.Inv n) {id : TimerId}
    (hstep : machine.step s (.expire id) = .next t) :
    (∃ p, t.env.outstanding.Perm (p :: s.env.outstanding) ∧
      t.env.heap.get? p = some (timerRequest id)) ↔ s.unregistered ≠ some id := by
  obtain ⟨d, he⟩ := (h.effect (.expire id)).of_next hstep
  cases he with
  | notified ht harmed hfind hsound hheap hsub =>
      refine iff_of_true ⟨_, hsub.outstanding, by rw [hheap, Heap.get?_alloc_top]⟩ fun hwin => ?_
      exact absurd ((h.find_of_unregistered hwin).symm.trans hfind) (by simp)
  | lost ht harmed hwin =>
      refine iff_of_false ?_ (not_not_intro hwin)
      rintro ⟨p, hperm, -⟩
      have hlen := hperm.length_eq
      simp at hlen

/-! ## What a step does to the timers that have gone off -/

/-- Every registered timer that has gone off is noticed. -/
def AllNoticed (s : Timers) : Prop :=
  ∀ id t c, s.kernel id = some t → t.arming = .expired → s.timerMap.find id = some c →
    s.Noticed id c

namespace Noticed

variable {s t : Timers} {n : Int}

/-- A request in flight stays in flight in a step that only adds requests. -/
theorem mono {c : Ptr} {id : TimerId} (hn : s.Noticed id c)
    (hout : ∀ p ∈ s.env.outstanding, p ∈ t.env.outstanding)
    (hheap : ∀ p ∈ s.env.outstanding, t.env.heap.get? p = s.env.heap.get? p)
    (hctl : ∀ p, s.ctl = .callback p id c → t.ctl = .callback p id c) : t.Noticed id c := by
  rcases hn with ⟨p, hp, hreq⟩ | ⟨p, hp⟩
  · exact Or.inl ⟨p, hout p hp, (hheap p hp).trans hreq⟩
  · exact Or.inr ⟨p, hctl p hp⟩

/-- Reaping takes only the request reaped out of flight. -/
theorem reaped {c : Ptr} {id : TimerId} (hn : s.Noticed id c)
    (hctl : s.ctl = .inner) {q : TimerId} {cqe : Cqe} {env : Environment}
    (hreq : s.env.heap.get? cqe.user_data = some (timerRequest q)) (hreaps : s.env.Reaps cqe env) :
    id = q ∨ ∃ p ∈ env.outstanding, p ≠ cqe.user_data ∧
      env.heap.get? p = some (timerRequest id) := by
  rcases hn with ⟨p, hp, hpreq⟩ | ⟨p, hp⟩
  · by_cases heq : p = cqe.user_data
    · subst heq
      exact Or.inl (timerRequest_inj (Option.some.inj (hpreq.symm.trans hreq)))
    · rcases List.mem_cons.mp (hreaps.outstanding.mem_iff.mp hp) with hp | hp
      · exact absurd hp heq
      · refine Or.inr ⟨p, hp, heq, ?_⟩
        rw [hreaps.heap, Heap.get?_modify_ne heq, hpreq]
  · exact absurd (hctl.symm.trans hp) (by simp)

/-- The end of a callback keeps every other timer noticed. -/
theorem freed {c c' : Ptr} {id q : TimerId} {p : Ptr} (h : s.Inv n)
    (hn : s.Noticed id c) (hctl : s.ctl = .callback p q c') (hother : ¬ (id = q ∧ c = c')) :
    ∃ r ∈ s.env.outstanding, (s.env.heap.free p).get? r = some (timerRequest id) := by
  rcases hn with ⟨r, hr, hreq⟩ | ⟨r, hr⟩
  · have hne : r ≠ p := fun heq => (h.running p q c' hctl).2.1 (heq ▸ hr)
    exact ⟨r, hr, by rw [Heap.get?_free_ne hne, hreq]⟩
  · obtain ⟨-, rfl, rfl⟩ := Ctl.callback.inj (hctl.symm.trans hr)
    exact absurd ⟨rfl, rfl⟩ hother

end Noticed

namespace Effect

variable {s t : Timers} {n d : Int} {a : Act}

theorem submitted (he : Effect s n a d t) (htimely : s.Timely a)
    (h : s.trace.submitted = s.trace.expired.map timerRequest) :
    t.trace.submitted = t.trace.expired.map timerRequest := by
  cases he with
  | notified ht harmed hfind hsound hheap hsub => simp [h]
  | lost ht harmed hwin => exact absurd hwin htimely.unregistered_ne
  | _ => exact h

theorem waiting (he : Effect s n a d t) (h : s.Inv n) (htimely : s.Timely a)
    (hw : s.Waiting) : t.Waiting := by
  intro id u hwin hu
  cases he with
  | createFailed hreg =>
      simp [unregistered, hreg] at hwin
  | created hreg hfree hid hflags => exact absurd hwin (by simp [unregistered])
  | settime hreg hstage ht hg =>
      -- the timer in the window is the one just set
      simp only [unregistered, hg.context, Option.map_some, Option.some.injEq] at hwin
      subst hwin
      simp only [Function.update_self, Option.some.injEq] at hu
      subst hu
      exact arming_ne_expired _
  | settimeFailed hreg hstage => exact absurd hwin (by simp [unregistered])
  | inserted hreg hstage ht hg => exact absurd hwin (by simp [unregistered])
  | returned hreg hstage => exact absurd hwin (by simp [unregistered, timerReturn])
  | cleared hreg => exact absurd hwin (by simp [unregistered, timerDelete, timerErase, hreg])
  | notified ht harmed hfind hsound hheap hsub =>
      -- the timer that goes off is registered, so it is not the one in its window
      have hnone : s.timerMap.find id = none := h.find_of_unregistered hwin
      simp only [Function.update_apply] at hu
      split at hu
      · next heq => exact absurd ((heq ▸ hnone).symm.trans hfind) (by simp)
      · exact hw id u hwin hu
  | lost ht harmed hwin' => exact absurd hwin' htimely.unregistered_ne
  | _ => exact hw id u hwin hu

theorem allNoticed (he : Effect s n a d t) (h : s.Inv n) (htimely : s.Timely a)
    (hw : s.Waiting) (hall : s.AllNoticed) : t.AllNoticed := by
  intro id u c hu hexp hfind
  cases he with
  | created hreg hfree hid hflags =>
      simp only [Function.update_apply] at hu
      split at hu
      · obtain rfl := Option.some.inj hu
        exact absurd hexp (by simp)
      · exact hall id u c hu hexp hfind
  | settime hreg hstage ht hg =>
      simp only [Function.update_apply] at hu
      split at hu
      · obtain rfl := Option.some.inj hu
        exact absurd hexp (arming_ne_expired _)
      · exact hall id u c hu hexp hfind
  | @inserted g t' ctx hreg hstage ht hg =>
      simp only [StdMap.find_insert (hg.find_none (.inr hstage))] at hfind
      split at hfind
      · next heq =>
        -- the timer registered now was in its window
        subst heq
        have hwin : s.unregistered = some ctx.timer_id := by
          rw [Inv.unregistered_eq hreg hg, if_pos hstage]
        exact absurd hexp (hw _ u hwin hu)
      · exact hall id u c hu hexp hfind
  | cleared hreg =>
      exact hall id u c (of_update_none hu).2 hexp (StdMap.of_find_erase hfind).2
  | started hctl hreg =>
      exact (hall id u c hu hexp hfind).mono (fun _ hp => hp) (fun _ _ => rfl) (by simp [hctl])
  | waited hctl hgoes =>
      refine (hall id u c hu hexp hfind).mono ?_ (fun _ _ => rfl) (by simp [hctl])
      simp [h.sound.submitAndWait.2]
  | left hctl hgoes =>
      exact (hall id u c hu hexp hfind).mono (fun _ hp => hp) (fun _ _ => rfl) (by simp [hctl])
  | drained hctl =>
      exact (hall id u c hu hexp hfind).mono (fun _ hp => hp) (fun _ _ => rfl) (by simp [hctl])
  | called hctl hreq hfind' hsound hreaps =>
      -- the timer is now in its callback, or its NOP is still in flight
      rcases (hall id u c hu hexp hfind).reaped hctl hreq hreaps with rfl | ⟨p, hp, -, hpreq⟩
      · obtain rfl := Option.some.inj (hfind.symm.trans hfind')
        exact Or.inr ⟨_, rfl⟩
      · exact Or.inl ⟨p, hp, hpreq⟩
  | ignored hctl hreq hfind' hsound hreaps =>
      -- the NOP dropped here belonged to no entry
      rcases (hall id u c hu hexp hfind).reaped hctl hreq hreaps with rfl | ⟨p, hp, hne, hpreq⟩
      · exact absurd (hfind.symm.trans hfind') (by simp)
      · exact Or.inl ⟨p, hp, by simp only [Heap.get?_free_ne hne, hpreq]⟩
  | fired hctl hreg hctx hone =>
      obtain ⟨hne, hfind⟩ := StdMap.of_find_erase hfind
      exact Or.inl ((hall id u c hu hexp hfind).freed h hctl fun heq => hne heq.1)
  | repeats hctl hreg hctx hone =>
      refine Or.inl ((hall id u c hu hexp hfind).freed h hctl ?_)
      -- a timer that has gone off for good is not an interval timer
      rintro ⟨rfl, rfl⟩
      obtain ⟨ctx, hctx', hone'⟩ := h.expired_oneShot hu hexp hfind
      obtain rfl := Option.some.inj (hctx.symm.trans hctx')
      exact absurd (hone.symm.trans hone') (by decide)
  | notified ht harmed hfind' hsound hheap hsub =>
      simp only [Function.update_apply] at hu
      split at hu
      · next heq =>
        subst heq
        exact Or.inl ⟨_, hsub.outstanding.mem_iff.mpr (List.mem_cons_self ..),
          by rw [hheap, Heap.get?_alloc_top]⟩
      · refine (hall id u c hu hexp hfind).mono ?_ ?_ (fun _ hp => hp)
        · exact fun p hp => hsub.outstanding.mem_iff.mpr (List.mem_cons_of_mem _ hp)
        · intro p hp
          obtain ⟨q, hq⟩ := h.request p hp
          rw [hheap, Heap.get?_alloc_of_some hq, hq]
  | lost ht harmed hwin => exact absurd hwin htimely.unregistered_ne
  | completed hsound hheap hout =>
      refine (hall id u c hu hexp hfind).mono ?_ ?_ (fun _ hp => hp)
      · exact fun p hp => hout.mem_iff.mpr hp
      · exact fun p _ => by rw [hheap]
  | _ => exact hall id u c hu hexp hfind

end Effect

/-! ## Runs -/

/-- The invariant of a run that loses no expiry. -/
structure Delivering (s : Timers) : Prop where
  inv : ∃ n, s.Inv n
  submitted : s.trace.submitted = s.trace.expired.map timerRequest
  noticed : s.AllNoticed
  waiting : s.Waiting

theorem delivering_init : init.Delivering where
  inv := ⟨0, inv_init⟩
  submitted := rfl
  noticed := by simp [AllNoticed, init]
  waiting := by simp [Waiting, init]

theorem preserves_delivering : machine.PreservesWhen Timely Delivering := by
  rintro s a ⟨⟨n, h⟩, hsubmitted, hnoticed, hwaiting⟩ htimely
  apply (h.effect a).imp
  rintro t ⟨d, he⟩
  exact ⟨⟨n + d, he.inv h htimely.1⟩, he.submitted htimely hsubmitted,
    he.allNoticed h htimely hwaiting hnoticed, he.waiting h htimely hwaiting⟩

theorem Delivering.delivered {s : Timers} (h : s.Delivering) : s.Delivered := by
  refine ⟨h.submitted, h.noticed, ?_⟩
  intro p id t c u hctl ht hexp hfind hstep
  obtain ⟨n, hinv⟩ := h.inv
  obtain ⟨ctx, hctx, hone⟩ := hinv.expired_oneShot ht hexp hfind
  obtain ⟨d, he⟩ := (hinv.effect .ret).of_next hstep
  cases he with
  | fired hctl' hreg hctx' hone' =>
      obtain ⟨-, rfl, -⟩ := Ctl.callback.inj (hctl.symm.trans hctl')
      simp [StdMap.find_erase]
  | repeats hctl' hreg hctx' hone' =>
      obtain ⟨-, -, rfl⟩ := Ctl.callback.inj (hctl.symm.trans hctl')
      obtain rfl := Option.some.inj (hctx.symm.trans hctx')
      exact absurd (hone.symm.trans hone') (by decide)

/-- **No expiry is lost** in a run that delivers none between the
    `timer_settime` and the `timerMap.insert` of its timer. -/
theorem timer_expiries_delivered (as : List Act) (h : machine.StepsMeet Timely init as) :
    (machine.run as).Holds Delivered :=
  (preserves_delivering.run delivering_init as h).imp fun _ hs => hs.delivered

/-- `setTimeout(f, 1)` and `setInterval(g, 2, 2)`, each going off once registered. -/
def expiryActs : List Act :=
  [.setTimer (some 0) 1 0 (some 1), .timerHandler, .timerHandler, .expire 1, .timerHandler,
    .setTimer (some 1) 2 2 (some 2), .timerHandler, .timerHandler, .timerHandler, .run, .outer,
    .expire 2, .complete 1 0, .inner, .expire 2, .ret, .complete 0 0, .inner, .ret]

theorem timer_expiries_delivered_run :
    machine.StepsMeet Timely init expiryActs ∧
      ∃ s, machine.run expiryActs = .next s ∧ s.trace.expired = [1, 2, 2] ∧ s.Delivered :=
  have h : machine.StepsMeet Timely init expiryActs := by decide
  ⟨h, _, rfl, rfl, (timer_expiries_delivered expiryActs h).of_next rfl⟩

/-- `setTimeout(f, 1)` going off before `timerMap.insert`: no NOP is submitted. -/
theorem timer_expiry_lost : ¬ ∀ as, (machine.run as).Holds Delivered := by
  intro h
  have hrun := h [.setTimer (some 0) 1 0 (some 1), .timerHandler, .expire 1, .timerHandler,
    .timerHandler]
  exact absurd hrun.submitted (by decide)

end Timers

end NoJs.Timer
