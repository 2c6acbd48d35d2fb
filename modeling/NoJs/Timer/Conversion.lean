/-
  NoJs.Timer.Conversion

  The numbers of `setTimeout` and `setInterval` on their way to the kernel: a
  JavaScript integer is stored in an `int`, and its quotient and remainder by
  1000 become the two fields of a `timespec`.

  The fields are exact for the `int`.  What is lost is lost before, where the
  integer has more than 31 bits, and behind, where the kernel takes a setting of
  zero as a request to disarm the timer.

  `Calling` is the machine of NoJs.Timer.Machine with the JavaScript arguments of
  the call in progress and the settings of the calls that have returned an id.
-/

import NoJs.Async.EntryPoints
import NoJs.Timer.KernelTimers

namespace NoJs.Timer

open Machine IoUring NoJs.Async

/-! ## The fields of a timespec -/

/-- The time a setting stands for. -/
def Timespec.nanoseconds (t : Timespec) : Int := t.tv_sec * 1000000000 + t.tv_nsec

/-- `(ms % 1000) * 1000 * 1000`, without the bounds of `int`. -/
def nsecProduct (ms : Int32) : Int := (ms % 1000).toInt * 1000 * 1000

/-- The values of an `int`. -/
def InInt (n : Int) : Prop := -2 ^ 31 ≤ n ∧ n < 2 ^ 31

theorem tmod_bounds (n : Int) : -1000 < n.tmod 1000 ∧ n.tmod 1000 < 1000 :=
  ⟨Int.lt_tmod_of_pos n (by omega), Int.tmod_lt_of_pos n (by omega)⟩

theorem nsecProduct_eq (ms : Int32) : nsecProduct ms = ms.toInt.tmod 1000 * 1000000 := by
  rw [nsecProduct, Int32.toInt_mod, show (1000 : Int32).toInt = 1000 from rfl]
  omega

/-- The products stay within `int`. -/
theorem inInt_nsecProduct (ms : Int32) :
    InInt ((ms % 1000).toInt * 1000) ∧ InInt (nsecProduct ms) := by
  have hbounds := tmod_bounds ms.toInt
  rw [nsecProduct_eq, Int32.toInt_mod, show (1000 : Int32).toInt = 1000 from rfl, InInt, InInt]
  omega

theorem timespec_sec (ms : Int32) : (timespec ms).tv_sec = ms.toInt.tdiv 1000 :=
  Int32.toInt_div_of_ne_right ms 1000 (by decide)

theorem timespec_nsec (ms : Int32) : (timespec ms).tv_nsec = ms.toInt.tmod 1000 * 1000000 := by
  have hbounds := tmod_bounds ms.toInt
  -- the products do not wrap
  show (ms % 1000 * 1000 * 1000).toInt = _
  rw [Int32.toInt_mul, Int32.toInt_mul, Int32.toInt_mod, show (1000 : Int32).toInt = 1000 from rfl,
    Int.bmod_mul_bmod, Int.bmod_eq_of_le (by omega) (by omega)]
  omega

/-- No time is lost between the `int` and the setting. -/
theorem timespec_nanoseconds (ms : Int32) : (timespec ms).nanoseconds = ms.toInt * 1000000 := by
  have hparts := Int.mul_tdiv_add_tmod ms.toInt 1000
  rw [Timespec.nanoseconds, timespec_sec, timespec_nsec]
  omega

theorem timespec_zero_iff (ms : Int32) : (timespec ms).zero ↔ ms.toInt = 0 := by
  have hparts := Int.mul_tdiv_add_tmod ms.toInt 1000
  rw [Timespec.zero, Bool.and_eq_true, beq_iff_eq, beq_iff_eq, timespec_sec, timespec_nsec]
  constructor
  · rintro ⟨hsec, hnsec⟩
    omega
  · intro hzero
    rw [hzero]
    exact ⟨rfl, rfl⟩

/-- timer_settime takes the settings of an `int` that is not negative. -/
theorem timespec_valid_iff (ms : Int32) : (timespec ms).valid ↔ 0 ≤ ms.toInt := by
  have hparts := Int.mul_tdiv_add_tmod ms.toInt 1000
  have hbounds := tmod_bounds ms.toInt
  rw [Timespec.valid, decide_eq_true_eq, timespec_sec, timespec_nsec]
  constructor
  · omega
  · intro hnonneg
    have hsec := Int.tdiv_nonneg hnonneg (show (0 : Int) ≤ 1000 by omega)
    have hnsec := Int.tmod_nonneg 1000 hnonneg
    omega

/-! ## Calls -/

/-- `timerHandler` reads its arguments. -/
def timerArgs (args : List Value) : Option (Option JsFunction × Int32 × Int32) := do
  let timeout ← (arg args 1).int
  let interval ← if args.length > 2 then (arg args 2).int else some 0
  return ((arg args 0).function?, timeout, interval)

/-- A call of `setTimeout` or `setInterval` with safe integers; `interval` may be
    left out. -/
structure TimerCall where
  callback : JsFunction
  timeout : Nat
  interval : Option Nat
  timeout_safe : timeout < 2 ^ 53
  interval_safe : ∀ ms ∈ interval, ms < 2 ^ 53

namespace TimerCall

def args (c : TimerCall) : List Value :=
  [.function c.callback, .number c.timeout] ++ (c.interval.map fun ms => .number ms).toList

/-- The interval the call asks for. -/
def intervalMs (c : TimerCall) : Nat := c.interval.getD 0

/-- The `int`s the call is left with. -/
def timeoutInt (c : TimerCall) : Int32 := Int32.ofInt c.timeout

def intervalInt (c : TimerCall) : Int32 := Int32.ofInt c.intervalMs

/-- The call as a step of `timerHandler`, up to `timer_create`. -/
def act (c : TimerCall) (created : Option TimerId) : Option Timers.Act :=
  (timerArgs c.args).map fun (object, timeout, interval) =>
    .setTimer object timeout interval created

/-- The numbers an `int` keeps, with a timeout that is not zero. -/
def InRange (c : TimerCall) : Prop :=
  0 < c.timeout ∧ c.timeout < 2 ^ 31 ∧ c.intervalMs < 2 ^ 31

/-- The numbers that an `int` does not turn negative. -/
def Nonneg (c : TimerCall) : Prop :=
  c.timeout % 2 ^ 32 < 2 ^ 31 ∧ c.intervalMs % 2 ^ 32 < 2 ^ 31

end TimerCall

/-- A call that has returned an id: the setting that timer_settime has accepted for
    the timer, and the flags of its context. -/
structure Returned where
  call : TimerCall
  timer_id : TimerId
  it : Itimerspec
  flags : Int32

/-- What is to hold of a call that has returned an id. -/
structure Returned.Converted (r : Returned) : Prop where
  armed : r.it.arming.armed
  /-- For the timeout zero it is the smallest delay there is. -/
  value : r.it.it_value.nanoseconds
    = if r.call.timeout = 0 then 1 else (r.call.timeout : Int) * 1000000
  interval : r.it.it_interval.nanoseconds = (r.call.intervalMs : Int) * 1000000
  flag : r.flags &&& INTERVAL ≠ 0 ↔ r.call.intervalMs ≠ 0
  products : ∀ ms ∈ [r.call.timeoutInt, r.call.intervalInt],
    InInt ((ms % 1000).toInt * 1000) ∧ InInt (nsecProduct ms)

/-- The timers, the call in progress, and the calls that have returned an id. -/
structure Calling where
  timers : Timers
  call : Option TimerCall
  returned : List Returned

namespace Calling

def init : Calling := ⟨.init, none, []⟩

inductive Act where
  /-- `setTimeout` or `setInterval` with safe integers, up to `timer_create`. -/
  | call (c : TimerCall) (created : Option TimerId)
  /-- Anything else that happens, the next steps of the call included. -/
  | other (a : Timers.Act)

/-- The call that returns an id in a step. -/
def returns (s : Calling) : Timers.Act → List Returned
  | .timerHandler =>
      match s.timers.registration, s.call with
      | some ⟨.inserted, c, it⟩, some call =>
          ((s.timers.contexts.get? c).map fun ctx => ⟨call, ctx.timer_id, it, ctx.flags⟩).toList
      | _, _ => []
  | _ => []

/-- The call in progress after a step. -/
def callAfter (s : Calling) : Timers.Act → Option TimerCall
  | .setTimer .. => none
  | _ => s.call

def step (s : Calling) : Act → Outcome Calling
  | .call c created =>
      match c.act created with
      | none => .disabled
      | some a => (Timers.machine.step s.timers a).bind fun timers => .next
          { s with timers, call := some c }
  | .other a => (Timers.machine.step s.timers a).bind fun timers => .next
      { timers, call := s.callAfter a, returned := s.returned ++ s.returns a }

/-- The timers with the calls that set them. -/
def machine : Machine Calling Act := ⟨init, step⟩

end Calling

/-! ## The setting of a call -/

namespace TimerCall

variable (c : TimerCall)

/-- The setting handed to timer_settime. -/
def setting : Itimerspec := itimerspec c.timeoutInt c.intervalInt

theorem act_eq (created : Option TimerId) :
    c.act created = some (.setTimer (some c.callback) c.timeoutInt c.intervalInt created) := by
  obtain ⟨callback, timeout, interval, htimeout, hinterval⟩ := c
  have htime : (Value.number timeout).int = some (Int32.ofInt timeout) :=
    Value.int_number (by omega) (by omega)
  cases interval with
  | none => simp [act, timerArgs, args, arg, htime, timeoutInt, intervalInt, intervalMs,
      Value.function?]
  | some ms =>
      have hsafe := hinterval ms rfl
      have hms : (Value.number ms).int = some (Int32.ofInt ms) :=
        Value.int_number (by omega) (by omega)
      simp [act, timerArgs, args, arg, htime, hms, timeoutInt, intervalInt, intervalMs,
        Value.function?]

/-- timer_settime takes the setting unless an `int` has become negative. -/
theorem setting_valid_iff : c.setting.valid ↔ c.Nonneg := by
  have hsign : ∀ n : Nat, 0 ≤ (Int32.ofInt n).toInt ↔ n % 2 ^ 32 < 2 ^ 31 := by
    intro n
    rw [Int32.toInt_ofInt, show Int32.size = 4294967296 from rfl, Int.bmod_def]
    split <;> omega
  rw [Itimerspec.valid, Bool.and_eq_true, setting, itimerspec, timespec_valid_iff,
    timespec_valid_iff, timeoutInt, intervalInt, hsign, hsign, Nonneg]

end TimerCall

theorem arming_armed_iff (it : Itimerspec) : it.arming.armed ↔ ¬ it.it_value.zero := by
  rw [Itimerspec.arming]
  cases it.it_value.zero <;> cases it.it_interval.zero <;> decide

theorem interval_flag_iff (it : Itimerspec) :
    intervalFlags it &&& INTERVAL ≠ 0 ↔ ¬ it.it_interval.zero := by
  rw [intervalFlags]
  cases it.it_interval.zero <;> decide

/-- What makes the setting right. -/
theorem Returned.converted_iff {r : Returned} (hit : r.it = r.call.setting)
    (hflags : r.flags = intervalFlags r.it) : r.Converted ↔ r.call.InRange := by
  have htimeout := toInt_ofInt_iff (n := r.call.timeout) (by omega)
  have hinterval := toInt_ofInt_iff (n := r.call.intervalMs) (by omega)
  have hvalue : r.it.it_value.nanoseconds = r.call.timeoutInt.toInt * 1000000 := by
    rw [hit]
    exact timespec_nanoseconds _
  have hperiod : r.it.it_interval.nanoseconds = r.call.intervalInt.toInt * 1000000 := by
    rw [hit]
    exact timespec_nanoseconds _
  constructor
  · intro h
    have htime := h.value
    have hms := h.interval
    rw [hvalue] at htime
    rw [hperiod] at hms
    split at htime
    · -- no `int` is the smallest delay
      omega
    · have hkept : (Int32.ofInt r.call.timeout).toInt = r.call.timeout :=
        Int.eq_of_mul_eq_mul_right (by omega) htime
      have hkept' : (Int32.ofInt r.call.intervalMs).toInt = r.call.intervalMs :=
        Int.eq_of_mul_eq_mul_right (by omega) hms
      have hlt := htimeout.mp hkept
      have hlt' := hinterval.mp hkept'
      exact ⟨by omega, by omega, by omega⟩
  · rintro ⟨hpos, hlt, hlt'⟩
    have hkept : r.call.timeoutInt.toInt = r.call.timeout := htimeout.mpr (by omega)
    have hkept' : r.call.intervalInt.toInt = r.call.intervalMs := hinterval.mpr (by omega)
    have hzero : r.it.it_value.zero ↔ r.call.timeoutInt.toInt = 0 := by
      rw [hit]
      exact timespec_zero_iff _
    have hzero' : r.it.it_interval.zero ↔ r.call.intervalInt.toInt = 0 := by
      rw [hit]
      exact timespec_zero_iff _
    refine ⟨?_, ?_, ?_, ?_, fun ms _ => inInt_nsecProduct ms⟩
    · rw [arming_armed_iff, hzero]
      omega
    · rw [hvalue, hkept, if_neg (by omega)]
    · rw [hperiod, hkept']
    · rw [hflags, interval_flag_iff, hzero', hkept']
      omega

/-! ## The call in progress -/

namespace Timers

variable {s t : Timers} {n : Int} {a : Act}

theorem Core.setTimer_registration (h : s.Core n) {object : Option JsFunction}
    {timeout interval : Int32} {created : Option TimerId}
    (hstep : machine.step s (.setTimer object timeout interval created) = .next t) :
    ∀ g, t.registration = some g → g.it = itimerspec timeout interval ∧ g.stage = .created := by
  intro g hg
  rcases h.step hstep with ⟨d, he⟩ | ⟨id, hne, -⟩
  · cases he with
    | createFailed hreg => exact absurd (hreg.symm.trans hg) (by simp)
    | created hreg hfree hid hflags =>
        obtain rfl := Option.some.inj hg
        exact ⟨rfl, rfl⟩
  · exact absurd hne (by simp)

/-- The next step of `timerHandler` keeps its locals. -/
theorem timerHandler_registration (hstep : s.timerHandler = .next t) :
    ∃ g, s.registration = some g ∧ ∀ g', t.registration = some g' →
      g'.it = g.it ∧ (g.stage = .created → g.it.valid) := by
  rw [timerHandler] at hstep
  cases hreg : s.registration with
  | none => rw [hreg] at hstep; exact absurd hstep (by simp)
  | some g =>
      refine ⟨g, rfl, fun g' hg' => ?_⟩
      simp only [hreg] at hstep
      cases hstage : g.stage with
      | created =>
          simp only [hstage, timerSettime] at hstep
          split at hstep
          · exact absurd hstep (by simp)
          split at hstep
          · next hvalid =>
            obtain rfl := Outcome.next.inj hstep
            obtain rfl := Option.some.inj hg'
            exact ⟨rfl, fun _ => hvalid⟩
          · obtain rfl := Outcome.next.inj hstep
            exact absurd hg' (by simp)
      | settime =>
          simp only [hstage, timerInsert] at hstep
          split at hstep
          · exact absurd hstep (by simp)
          · obtain rfl := Outcome.next.inj hstep
            obtain rfl := Option.some.inj hg'
            exact ⟨rfl, by simp⟩
      | inserted =>
          simp only [hstage] at hstep
          obtain rfl := Outcome.next.inj hstep
          exact absurd hg' (by simp [timerReturn])

/-- Nothing else touches them. -/
theorem Core.registration_eq (h : s.Core n) (hstep : machine.step s a = .next t)
    (hhandler : a ≠ .timerHandler)
    (hset : ∀ object timeout interval created, a ≠ .setTimer object timeout interval created) :
    t.registration = s.registration := by
  rcases h.step hstep with ⟨d, he⟩ | ⟨id, -, u, -, -, -, rfl⟩
  · cases he <;> first | rfl | exact absurd rfl hhandler | exact absurd rfl (hset _ _ _ _)
  · rfl

end Timers

namespace Calling

variable {s t : Calling} {n : Int}

structure Inv (s : Calling) : Prop where
  core : ∃ n, s.timers.Core n
  setting : ∀ g c, s.timers.registration = some g → s.call = some c → g.it = c.setting
  valid : ∀ g, s.timers.registration = some g → g.stage ≠ .created → g.it.valid
  returned : ∀ r ∈ s.returned,
    r.it = r.call.setting ∧ r.flags = intervalFlags r.it ∧ r.it.valid

theorem inv_init : init.Inv where
  core := ⟨0, Timers.inv_init.core⟩
  setting := by simp [init, Timers.init]
  valid := by simp [init, Timers.init]
  returned := by simp [init]

/-- A call of `timerHandler` with safe integers starts. -/
theorem Inv.call (h : s.Inv) {c : TimerCall} {created : Option TimerId}
    (hstep : machine.step s (.call c created) = .next t) : t.Inv := by
  obtain ⟨n, hcore⟩ := h.core
  simp only [machine, step, c.act_eq] at hstep
  obtain ⟨timers, htimers, heq⟩ := Outcome.bind_eq_next.mp hstep
  obtain rfl := Outcome.next.inj heq
  have hreg := hcore.setTimer_registration htimers
  refine ⟨hcore.of_step htimers, ?_, ?_, h.returned⟩
  · rintro g c' hg hc'
    obtain rfl := Option.some.inj hc'
    exact (hreg g hg).1
  · exact fun g hg hstage => absurd (hreg g hg).2 hstage

/-- The next step of the call in progress, with which it may return. -/
theorem Inv.timerHandler (h : s.Inv)
    (hstep : machine.step s (.other .timerHandler) = .next t) : t.Inv := by
  obtain ⟨n, hcore⟩ := h.core
  obtain ⟨timers, htimers, heq⟩ := Outcome.bind_eq_next.mp hstep
  obtain rfl := Outcome.next.inj heq
  obtain ⟨g, hreg, hnext⟩ := Timers.timerHandler_registration htimers
  refine ⟨hcore.of_step htimers, ?_, ?_, ?_⟩
  · intro g' c hg' hc
    exact (hnext g' hg').1.trans (h.setting g c hreg hc)
  · intro g' hg' hstage
    obtain ⟨hit, hvalid⟩ := hnext g' hg'
    rw [hit]
    by_cases hcreated : g.stage = .created
    · exact hvalid hcreated
    · exact h.valid g hreg hcreated
  · intro r hr
    rcases List.mem_append.mp hr with hr | hr
    · exact h.returned r hr
    · -- the context has the flags it was made with
      obtain ⟨u, ctx, -, hg⟩ := hcore.registering g hreg
      obtain ⟨stage, p, it⟩ := g
      simp only [returns, hreg] at hr
      split at hr
      · next p' it' call heq hcall =>
        obtain ⟨rfl, rfl, rfl⟩ := NoJs.Timer.Registration.mk.inj (Option.some.inj heq)
        rw [show s.timers.contexts.get? p = some ctx from hg.context] at hr
        obtain rfl := List.mem_singleton.mp hr
        exact ⟨h.setting _ _ hreg hcall, hg.flags, h.valid _ hreg (by simp)⟩
      · exact absurd hr List.not_mem_nil

theorem keeps_inv : machine.Keeps Inv := by
  intro s a t h hstep
  cases a with
  | call c created => exact h.call hstep
  | other a =>
      by_cases hhandler : a = .timerHandler
      · subst hhandler
        exact h.timerHandler hstep
      obtain ⟨n, hcore⟩ := h.core
      obtain ⟨timers, htimers, heq⟩ := Outcome.bind_eq_next.mp hstep
      obtain rfl := Outcome.next.inj heq
      have hreturned : ∀ r ∈ s.returned ++ s.returns a,
          r.it = r.call.setting ∧ r.flags = intervalFlags r.it ∧ r.it.valid := by
        have hnone : s.returns a = [] := by
          cases a <;> first | rfl | exact absurd rfl hhandler
        rw [hnone, List.append_nil]
        exact h.returned
      by_cases hset : ∃ object timeout interval created,
          a = .setTimer object timeout interval created
      · -- a call without safe integers is not one of those observed
        obtain ⟨object, timeout, interval, created, rfl⟩ := hset
        have hreg := hcore.setTimer_registration htimers
        exact ⟨hcore.of_step htimers, fun g c _ hc => absurd hc (by simp [callAfter]),
          fun g hg hstage => absurd (hreg g hg).2 hstage, hreturned⟩
      · have hreg : timers.registration = s.timers.registration :=
          hcore.registration_eq htimers hhandler fun object timeout interval created heq =>
            hset ⟨object, timeout, interval, created, heq⟩
        have hcall : s.callAfter a = s.call := by
          cases a <;> first | rfl | exact absurd ⟨_, _, _, _, rfl⟩ hset
        refine ⟨hcore.of_step htimers, ?_, ?_, hreturned⟩
        · intro g c hg hc
          exact h.setting g c (hreg ▸ hg) (hcall ▸ hc)
        · exact fun g hg => h.valid g (hreg ▸ hg)

/-! ## Every run -/

/-- The call `c` from the start of the main script, with nothing in between. -/
def callActs (c : TimerCall) : List Act :=
  [.call c (some 1), .other .timerHandler, .other .timerHandler, .other .timerHandler]

/-- The call returns an id if timer_settime takes its setting. -/
theorem run_callActs {c : TimerCall} (h : c.Nonneg) :
    ∃ s, machine.run (callActs c) = .next s ∧
      s.returned = [⟨c, 1, c.setting, intervalFlags c.setting⟩] := by
  have hvalid : (c.setting.it_value.valid && c.setting.it_interval.valid) = true :=
    c.setting_valid_iff.mpr h
  have hcall : ∃ s₁, machine.step init (.call c (some 1)) = .next s₁ ∧
      s₁.timers.registration = some ⟨.created, 0, c.setting⟩ ∧
      s₁.timers.contexts.get? 0 = some ⟨some c.callback, intervalFlags c.setting, 1⟩ ∧
      s₁.call = some c ∧ s₁.returned = [] := by
    simp only [machine, step, c.act_eq]
    exact ⟨_, rfl, rfl, rfl, rfl, rfl⟩
  obtain ⟨s₁, hs₁, hreg, hctx, hc, hnone⟩ := hcall
  rw [callActs, run, runFrom_cons, show machine.init = init from rfl, hs₁, Outcome.bind_next]
  -- timer_settime, the insertion, and the return
  simp [runFrom, machine, step, Timers.machine, Timers.step, Timers.timerHandler,
    Timers.timerSettime, Timers.timerInsert, Timers.timerReturn, returns, callAfter, hreg, hctx,
    hvalid, hc, hnone]

/-- **Timeouts are converted without loss** where timeout and interval fit an `int`
    and the timeout is not zero, and nowhere else unless timer_settime rejects what is
    left of them, so that no id is returned. -/
theorem timeouts_converted_iff (c : TimerCall) :
    (∀ as s, machine.run as = .next s → ∀ r ∈ s.returned, r.call = c → r.Converted) ↔
      c.InRange ∨ ¬ c.Nonneg := by
  constructor
  · intro h
    by_cases hnonneg : c.Nonneg
    · obtain ⟨s, hrun, hreturned⟩ := run_callActs hnonneg
      have hconverted := h _ s hrun _ (hreturned ▸ List.mem_singleton_self _) rfl
      exact Or.inl ((Returned.converted_iff rfl rfl).mp hconverted)
    · exact Or.inr hnonneg
  · -- what has returned has a setting that timer_settime took
    rintro hcond as s hrun r hr rfl
    obtain ⟨hit, hflags, hvalid⟩ := (keeps_inv.run inv_init hrun).returned r hr
    rcases hcond with hrange | hneg
    · exact (Returned.converted_iff hit hflags).mpr hrange
    · exact absurd (r.call.setting_valid_iff.mp (hit ▸ hvalid)) hneg

/-- `setTimeout(f, 0)`. -/
def timeoutZero : TimerCall where
  callback := 0
  timeout := 0
  interval := none
  timeout_safe := Nat.two_pow_pos 53
  interval_safe := by simp

/-- The call returns an id, and its timer is not armed. -/
theorem timeout_zero_disarmed :
    ¬ ∀ (c : TimerCall) (as : List Act) (s : Calling), machine.run as = .next s →
      ∀ r ∈ s.returned, r.call = c → r.Converted := by
  intro h
  have hnonneg : timeoutZero.Nonneg := by
    simp [TimerCall.Nonneg, TimerCall.intervalMs, timeoutZero]
  obtain ⟨s, hrun, hreturned⟩ := run_callActs hnonneg
  have hconverted := h _ _ s hrun _ (hreturned ▸ List.mem_singleton_self _) rfl
  exact absurd hconverted.armed (by decide)

end Calling

end NoJs.Timer
