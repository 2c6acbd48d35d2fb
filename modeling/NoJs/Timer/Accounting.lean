/-
  NoJs.Timer.Accounting

  Timer accounting: `pending` against the outstanding requests and `timerMap`.

  `clearTimer` decrements `pending` whether or not `timerMap.erase` removed
  anything, and `timer_cb` decrements it again for a one-shot timer that its own
  callback has cleared.  Where neither happens the count is exact; one stray
  `clearTimeout` makes it negative.
-/

import NoJs.Timer.Invariant

namespace NoJs.Timer

open Machine IoUring

def Ctl.inCallback : Ctl → Bool
  | callback .. => true
  | _ => false

namespace Timers

/-- An entry of `timerMap` whose `incPending` is still to come. -/
def debt (s : Timers) : Int :=
  if s.registration.map (·.stage) = some .inserted then 1 else 0

/-- The references that `pending` is meant to hold for the timers. -/
def owed (s : Timers) : Int := s.timerMap.size - s.debt

/-- What `pending` is meant to count. -/
def load (s : Timers) : Nat := s.env.outstanding.length + s.timerMap.size

/-- No `timerHandler` call and no callback is in progress. -/
def Quiet (s : Timers) : Prop := s.registration = none ∧ s.ctl.inCallback = false

/-- The count of the loop, and what it is kept for. -/
structure Accounted (s : Timers) : Prop where
  pending : s.env.io_uring_data.pending.toInt = s.env.outstanding.length + s.timerMap.size
  nonneg : 0 ≤ s.env.io_uring_data.pending.toInt
  leaves : ∀ t, machine.step s .outer = .next t → t.ctl = .exited →
    s.env.io_uring_data.stop = 1 ∨ s.timerMap.size = 0 ∧ s.env.outstanding = []

/-- The timer for which a step decrements `pending`. -/
def released (s : Timers) : Act → Option TimerId
  | .clearTimer arg => some (UInt64.ofInt arg)
  | a => s.finishing a

/-- What a step decrements `pending` for is an entry of `timerMap`. -/
def Registered (s : Timers) (a : Act) : Bool :=
  (s.released a).all fun id => (s.timerMap.find id).isSome

theorem Registered.find {s : Timers} {a : Act} (h : s.Registered a) {id : TimerId}
    (hrel : s.released a = some id) : ∃ c, s.timerMap.find id = some c := by
  rw [Registered, hrel] at h
  exact Option.isSome_iff_exists.mp h

/-- The steps that keep the count: they are registered and settled, and leave
    the count in the range of an `int32_t`. -/
def Counted (s : Timers) (a : Act) : Prop :=
  s.Registered a ∧ s.Settled a ∧ s.load + 1 < 2 ^ 31

instance (s : Timers) (a : Act) : Decidable (s.Counted a) :=
  inferInstanceAs (Decidable (_ ∧ _ ∧ _))

/-- A registered step changes the references by what it adds to `pending`. -/
theorem Effect.owed {s t : Timers} {n d : Int} {a : Act} (he : Effect s n a d t)
    (hregistered : s.Registered a) : t.owed = s.owed + d := by
  cases he with
  | created hreg hfree hid hflags => simp [Timers.owed, debt, hreg]
  | settime hreg hstage ht hg => simp [Timers.owed, debt, hreg, hstage]
  | settimeFailed hreg hstage => simp [Timers.owed, debt, hreg, hstage]
  | inserted hreg hstage ht hg =>
      -- the entry is there before its `incPending`, which `debt` records
      have hsize := fun c : Ptr => StdMap.size_insert (v := c) (hg.find_none (.inr hstage))
      simp [Timers.owed, debt, hreg, hstage, hsize]
  | returned hreg hstage => simp [Timers.owed, debt, timerReturn, hreg, hstage]
  | cleared hreg =>
      -- registered: the erase and the decrement take one away together
      obtain ⟨c, hc⟩ := Registered.find hregistered rfl
      have hsize := StdMap.size_erase hc
      simp only [Timers.owed, timerDelete, timerErase, debt, hreg]
      omega
  | fired hctl hreg hctx hone =>
      obtain ⟨c, hc⟩ := Registered.find hregistered (finishing_ret hctl hctx hone)
      have hsize := StdMap.size_erase hc
      simp only [Timers.owed, debt, hreg]
      omega
  | _ => exact (Int.add_zero _).symm

/-- A step adds at most one to the count. -/
theorem Effect.load {s t : Timers} {n d : Int} {a : Act} (he : Effect s n a d t)
    (h : s.Inv n) : t.load ≤ s.load + 1 := by
  cases he with
  | inserted hreg hstage ht hg =>
      have hsize := fun c : Ptr =>
        StdMap.size_insert (v := c) (hg.find_none (.inr hstage))
      simp only [Timers.load, hsize]
      omega
  | cleared hreg => exact Nat.le_succ_of_le (Nat.add_le_add_left StdMap.size_erase_le _)
  | fired hctl hreg hctx hone =>
      exact Nat.le_succ_of_le (Nat.add_le_add_left StdMap.size_erase_le _)
  | waited hctl hgoes =>
      simp only [Timers.load, h.sound.submitAndWait.2]
      omega
  | called hctl hreq hfind hsound hreaps =>
      simp only [Timers.load, hreaps.outstanding.length_eq, List.length_cons]
      omega
  | ignored hctl hreq hfind hsound hreaps =>
      have hlen := hreaps.outstanding.length_eq
      simp only [Environment.outstanding, List.length_cons] at hlen
      simp only [Timers.load, Environment.outstanding, hlen]
      omega
  | notified ht harmed hfind hsound hheap hsub =>
      simp only [Timers.load, hsub.outstanding.length_eq, List.length_cons]
      omega
  | completed hsound hheap hout =>
      simp only [Timers.load, hout.length_eq]
      omega
  | _ => exact Nat.le_succ _

/-- The invariant of a counted run. -/
structure Balanced (s : Timers) : Prop where
  inv : s.Inv s.owed
  range : s.load < 2 ^ 31

theorem preserves_balanced : machine.PreservesWhen Counted Balanced := by
  rintro s a ⟨h, -⟩ ⟨hregistered, hsettled, hrange⟩
  apply (h.effect a).imp
  rintro t ⟨d, he⟩
  refine ⟨?_, Nat.lt_of_le_of_lt (he.load h) hrange⟩
  rw [he.owed hregistered]
  exact he.inv h hsettled

theorem balanced_init : init.Balanced := ⟨inv_init, by decide⟩

theorem Balanced.accounted {s : Timers} (h : s.Balanced) (hquiet : s.Quiet) : s.Accounted := by
  have hdebt : s.owed = s.timerMap.size := by simp [owed, debt, hquiet.1]
  have hrange := h.range
  have hacc := h.inv.sound.accounts
  have hpending : s.env.io_uring_data.pending.toInt
      = s.env.outstanding.length + s.timerMap.size := by
    rw [hacc.toInt, hdebt]
    · rfl
    · rw [hdebt]
      omega
    · rw [hdebt]
      simp only [load, Environment.outstanding] at hrange
      omega
  refine ⟨hpending, by omega, ?_⟩
  intro t hstep hexited
  simp only [machine, step] at hstep
  split at hstep
  · obtain rfl := Outcome.next.inj hstep
    cases hgoes : s.env.goesOn with
    | true => simp [outerLoop, hgoes] at hexited
    | false =>
        -- a multiple of 2^32 below 2^31 is zero
        refine (h.inv.sound.goesOn_iff.mp hgoes).imp_right fun hdvd => ?_
        rw [hdebt] at hdvd
        simp only [load] at hrange
        obtain ⟨hsize, hlen⟩ : s.timerMap.size = 0 ∧ s.env.outstanding.length = 0 := by omega
        exact ⟨hsize, List.length_eq_zero_iff.mp hlen⟩
  · exact absurd hstep (by simp)

/-- **Timer accounting.**  In a run that clears only registered timers, lets no
    one-shot callback return after its timer has been cleared, and stays below
    2^31, `pending` is the number of requests in flight plus the number of
    registered timers, and the loop ends by itself only with neither. -/
theorem timer_accounting (as : List Act) (h : machine.StepsMeet Counted init as) :
    (machine.run as).Holds fun s => s.Quiet → s.Accounted :=
  (preserves_balanced.run balanced_init as h).imp fun _ hs hquiet => hs.accounted hquiet

/-- `setTimeout(f, 1000)`, which returns 1. -/
def setTimeoutActs : List Act :=
  [.setTimer (some 0) 1000 0 (some 1), .timerHandler, .timerHandler, .timerHandler]

/-- The timeout goes off; its callback sets another one and clears it. -/
def timeoutActs : List Act :=
  setTimeoutActs ++ [.run, .outer, .expire 1, .complete 0 0, .inner,
    .setTimer none 5 0 (some 2), .timerHandler, .timerHandler, .timerHandler, .clearTimer 2,
    .ret, .inner, .outer]

theorem timer_accounting_timeout :
    machine.StepsMeet Counted init timeoutActs ∧
      ∃ s, machine.run timeoutActs = .next s ∧ s.Quiet ∧ s.Accounted :=
  have h : machine.StepsMeet Counted init timeoutActs := by decide
  have hquiet : ∃ s, machine.run timeoutActs = .next s ∧ s.Quiet := ⟨_, rfl, rfl, rfl⟩
  ⟨h, hquiet.imp fun _ hs => ⟨hs.1, hs.2, (timer_accounting timeoutActs h).of_next hs.1 hs.2⟩⟩

/-- `clearTimeout` twice: with nothing registered `pending` is -1, and the loop
    does not end. -/
theorem timer_accounting_cleared_twice :
    ¬ ∀ as, (machine.run as).Holds fun s => s.Quiet → s.Accounted := by
  intro h
  have hrun := h (setTimeoutActs ++ [.clearTimer 1, .clearTimer 1, .run])
  have hpending := (hrun ⟨rfl, rfl⟩).nonneg
  exact absurd hpending (by decide)

end Timers

end NoJs.Timer
