/-
  NoJs.Signal.Dispositions

  `core/timer.cc` and `core/signal.cc` in one process.

  Each module installs a handler of its own in the process-wide table of signal
  dispositions: `initTimer` the one for SIGUSR2, `RegisterSignal` one for every
  signal that gets its first listener.  Nothing keeps the two apart, and nothing
  gives a signal back: `UnRegisterSignal` only forgets the listeners.

  The timers and the loop are those of NoJs.Timer.Machine.  No signal is sent
  but the SIGUSR2 of an expiry, so a run without `signal.on` and `signal.off` is
  a run of that machine, and the two are compared label by label.
-/

import NoJs.Signal.Machine
import NoJs.Timer.Invariant

namespace NoJs.Signal

open Machine IoUring Timer

/-! ## The table of dispositions -/

def SIGKILL : Int32 := 9

def SIGUSR2 : Int32 := 12

def SIGSTOP : Int32 := 19

/-- What a signal does to the process. -/
inductive Disposition where
  /-- The default action. -/
  | dfl
  /-- `signalHandler` of `core/timer.cc`. -/
  | timer
  /-- `signalHandler` of `core/signal.cc`. -/
  | signal
  deriving DecidableEq, Repr

abbrev Dispositions := Int32 → Disposition

/-- The signals a handler can be installed for: the C library keeps 32 and 33
    to itself. -/
def catchable (sig : Int32) : Bool :=
  decide (1 ≤ sig ∧ sig ≤ 64 ∧ sig ≠ SIGKILL ∧ sig ≠ SIGSTOP ∧ sig ≠ 32 ∧ sig ≠ 33)

/-- `signal(sig, handler)` and `sigaction`, which fail without an effect. -/
def Dispositions.install (d : Dispositions) (sig : Int32) (handler : Disposition) :
    Dispositions :=
  if catchable sig then Function.update d sig handler else d

/-! ## The process -/

structure Process where
  timers : Timers
  contexts : Heap SignalRequestContext
  signalMap : SignalMap
  dispositions : Dispositions
  /-- In `signal_cb` of the request, at the JavaScript call for the context. -/
  listener : Option (Ptr × Ptr)

namespace Process

/-- `Timer::Init` calls `initTimer`. -/
def init : Process where
  timers := .init
  contexts := .empty
  signalMap := ∅
  dispositions := Dispositions.install (fun _ => .dfl) SIGUSR2 .timer
  listener := none

/-- The outcome of a function of `core/timer.cc`. -/
def lift (s : Process) (o : Outcome Timers) : Outcome Process :=
  o.bind fun timers => .next { s with timers }

/-- What `core/signal.cc` uses. -/
def signals (s : Process) : Signals where
  env := s.timers.env
  contexts := s.contexts
  signalMap := s.signalMap
  installed := []
  ctl := .inner
  invoked := []

/-- The signals it called `signal` for get its handler. -/
def withSignals (s : Process) (u : Signals) : Process :=
  { s with
    timers := { s.timers with env := u.env }
    contexts := u.contexts
    signalMap := u.signalMap
    dispositions := u.installed.foldl (fun d sig => d.install sig .signal) s.dispositions }

/-- Whether JavaScript is running, outside `timerHandler`. -/
def runsJs (s : Process) : Bool :=
  s.timers.runsJs || s.timers.registration.isNone &&
    match s.listener with
    | some (_, c) => (s.contexts.get? c).any (·.object.isSome)
    | none => false

def owned (s : Process) (ctx : Ptr) : Bool := s.signals.owned ctx

/-! ## signal.cc -/

def RegisterSignal (object : Option JsFunction) (sig : Int32) (s : Process) : Process :=
  s.withSignals (s.signals.RegisterSignal object sig)

def UnRegisterSignal (signal : Int32) (s : Process) : Process :=
  s.withSignals (s.signals.UnRegisterSignal signal)

/-- `signalHandler`, of `core/signal.cc`. -/
def handleSignal (signum : Int32) (s : Process) : Outcome Process :=
  (s.signals.handleSignal signum).bind fun u => .next (s.withSignals u)

/-- `signal_cb(req)` up to the JavaScript call. -/
def signal_cb (p : Ptr) (req : Request) (s : Process) : Outcome Process :=
  (s.signals.signal_cb p req).bind fun u => .next
    { s.withSignals u with
      listener :=
        match u.ctl with
        | .callback p ctx => some (p, ctx)
        | _ => none }

/-- `signal_cb` after the JavaScript call. -/
def signal_cb_return (p : Ptr) (s : Process) : Outcome Process :=
  (s.signals.signal_cb_return p).bind fun u => .next { s.withSignals u with listener := none }

/-! ## The kernel and the loop -/

/-- An armed timer goes off, and its SIGUSR2 takes the way the table says. -/
def expire (id : TimerId) (s : Process) : Outcome Process :=
  match s.dispositions SIGUSR2 with
  -- the default action ends the process
  | .dfl => .disabled
  | .timer => s.lift (s.timers.expire id)
  | .signal =>
      match s.timers.kernel id with
      | none => .disabled
      | some t =>
          if t.arming.armed then
            handleSignal SIGUSR2
              { s with timers := { s.timers with
                  kernel := Function.update s.timers.kernel id (some (Timers.expiry t))
                  trace := { s.timers.trace with
                    expired := s.timers.trace.expired ++ [id] } } }
          else .disabled

/-- One round of the inner loop of `RunIOUring`. -/
def innerLoop (s : Process) : Outcome Process :=
  match io_uring_peek_cqe s.timers.env.io_uring_data.ring with
  | none => .next { s with timers := { s.timers with ctl := .outer } }
  | some c =>
      (s.timers.env.reap c).bind fun (req, env) =>
        match req.cb with
        | none => .next { s with timers := { s.timers with env } }
        | some .timer_cb => s.lift (Timers.timer_cb c.user_data req { s.timers with env })
        | some .signal_cb => signal_cb c.user_data req { s with timers := { s.timers with env } }
        | some _ => .fault

inductive Act where
  /-- `signal.on`. -/
  | on (object : Option JsFunction) (sig : Int32)
  /-- `signal.off`. -/
  | off (sig : Int32)
  /-- The JavaScript callback of a signal returns. -/
  | signalRet
  /-- The timer functions, the loop and the kernel. -/
  | timers (a : Timers.Act)

def step (s : Process) : Act → Outcome Process
  | .on object sig => if s.runsJs then .next (s.RegisterSignal object sig) else .disabled
  | .off sig => if s.runsJs then .next (s.UnRegisterSignal sig) else .disabled
  | .signalRet =>
      match s.listener with
      | some (p, _) => if s.timers.registration = none then s.signal_cb_return p else .disabled
      | none => .disabled
  | .timers (.setTimer object timeout interval created) =>
      if s.runsJs then s.lift (s.timers.timerCreate object timeout interval created)
      else .disabled
  | .timers (.clearTimer arg) =>
      if s.runsJs && s.timers.deletable (UInt64.ofInt arg) then s.lift (s.timers.clearTimer arg)
      else .disabled
  | .timers .stop =>
      if s.runsJs then
        .next { s with timers := { s.timers with env := { s.timers.env with
          io_uring_data := Stop s.timers.env.io_uring_data } } }
      else .disabled
  | .timers .inner =>
      -- the loop waits for the callback of a signal, too
      if s.timers.ctl = .inner ∧ s.listener = none then s.innerLoop else .disabled
  | .timers (.expire id) => s.expire id
  | .timers a => s.lift (Timers.step s.timers a)

/-- The process, from the start of the main script. -/
def machine : Machine Process Act := ⟨init, step⟩

/-- The run without the calls of `signal.on` and `signal.off`. -/
def timerActs (as : List Act) : List Timers.Act :=
  as.filterMap fun
    | .timers a => some a
    | _ => none

/-! ## What the functions of signal.cc change -/

theorem RegisterSignal_first (s : Process) (object : Option JsFunction) {sig : Int32}
    (hfind : s.signalMap.find sig = none) :
    s.RegisterSignal object sig =
      { s with
        contexts := s.contexts.alloc { object, sig }
        dispositions := s.dispositions.install sig .signal
        signalMap := s.signalMap.insert sig [s.contexts.top] } := by
  simp only [RegisterSignal, Signals.RegisterSignal, signals, hfind]
  rfl

theorem RegisterSignal_more (s : Process) (object : Option JsFunction) {sig : Int32}
    {vec : List Ptr} (hfind : s.signalMap.find sig = some vec) :
    s.RegisterSignal object sig =
      { s with
        contexts := s.contexts.alloc { object, sig }
        signalMap := s.signalMap.update sig (vec ++ [s.contexts.top]) } := by
  simp only [RegisterSignal, Signals.RegisterSignal, signals, hfind]
  rfl

theorem UnRegisterSignal_eq (s : Process) (sig : Int32) :
    s.UnRegisterSignal sig = { s with signalMap := s.signalMap.erase sig } := rfl

theorem handleSignal_eq (s : Process) (sig : Int32) :
    s.handleSignal sig =
      (submitAll (Tables.requests ⟨∅, s.signalMap⟩ (.signal sig)) s.timers.env).bind fun env =>
        .next { s with timers := { s.timers with env } } := by
  rw [handleSignal, Signals.handleSignal, Outcome.bind_assoc]
  rfl

/-- The callback is called for a context that is owned, or memory that is gone is read. -/
theorem signal_cb_eq (s : Process) (p : Ptr) (req : Request) :
    s.signal_cb p req =
      if s.owned req.data ∧ (s.contexts.get? req.data).isSome then
        .next { s with listener := some (p, req.data) }
      else .fault := by
  have hcontexts : s.signals.contexts = s.contexts := rfl
  rw [signal_cb, Signals.signal_cb, hcontexts, owned]
  cases howned : s.signals.owned req.data with
  | false => simp
  | true =>
      cases hctx : s.contexts.get? req.data with
      | none => simp
      | some ctx =>
          simp only [if_true, Outcome.bind_next, Option.isSome_some, and_self]
          rfl

theorem signal_cb_return_eq (s : Process) (p : Ptr) :
    s.signal_cb_return p = (s.timers.env.free p).bind fun env =>
      .next { s with timers := { s.timers with env }, listener := none } := by
  rw [signal_cb_return, Signals.signal_cb_return, Outcome.bind_assoc]
  rfl

/-! ## What an expiry is to result in -/

/-- A new NOP request that carries `id` was handed to the kernel. -/
structure Notifies (id : TimerId) (s t : Process) : Prop where
  request : t.timers.env.heap.get? s.timers.env.heap.top = some (Timers.timerRequest id)
  outstanding : s.timers.env.heap.top ∈ t.timers.env.outstanding

/-- The expiry of `id` in the state `s`, which the run `as` reached: the request
    is submitted, and the timers stand as in the run without the calls. -/
def Undisturbed (as : List Act) (s : Process) (id : TimerId) : Prop :=
  ∃ t, machine.step s (.timers (.expire id)) = .next t ∧ Notifies id s t ∧
    Timers.machine.run (timerActs (as ++ [.timers (.expire id)])) = .next t.timers

/-! ## The expiry of a registered timer -/

/-- In the timers alone the expiry of a timer in `timerMap` submits its NOP. -/
theorem expire_registered {s : Timers} {n : Int} (h : s.Core n) {id : TimerId} {c : Ptr}
    {u : PosixTimer} (hfind : s.timerMap.find id = some c) (hu : s.kernel id = some u)
    (harmed : u.arming.armed = true) :
    ∃ t, s.expire id = .next t ∧ t.env.heap.get? s.env.heap.top = some (Timers.timerRequest id) ∧
      s.env.heap.top ∈ t.env.outstanding := by
  obtain ⟨ctx, hctx, rfl, -⟩ := h.context id u hu
  -- the entry is that of this timer, and holds its context
  obtain ⟨u', hu', rfl⟩ := h.entry _ c hfind
  obtain rfl := Option.some.inj (hu.symm.trans hu')
  have hvalue := StdMap.mem_values_of_find hfind
  have hheld : s.held u.sival = true := by simp [Timers.held, hvalue]
  obtain ⟨env, henv, -, hheap, hsub⟩ :=
    h.sound.submitNew _ (timerRequest_supported ctx.timer_id)
  have hsize : s.timerMap.size ≠ 0 := fun hzero =>
    absurd ((StdMap.size_eq_zero.mp hzero _).symm.trans hfind) (by simp)
  simp only [Timers.held] at hheld
  simp only [Timers.expire, hu, harmed, if_true, Timers.signalHandler, hsize, if_false, Timers.held,
    hheld, hctx, hfind, henv, Outcome.bind_next, Outcome.next.injEq, exists_eq_left']
  refine ⟨by rw [hheap, Heap.get?_alloc_top], ?_⟩
  exact hsub.outstanding.mem_iff.mpr (List.mem_cons_self ..)

/-- The core of the timers' invariant holds in every run. -/
theorem timers_core {as : List Timers.Act} {s : Timers} (hrun : Timers.machine.run as = .next s) :
    ∃ n, s.Core n := by
  have hkeeps : Timers.machine.Keeps fun s => ∃ n, s.Core n := by
    rintro s a t ⟨n, h⟩ hstep
    rcases h.step hstep with ⟨d, he⟩ | ⟨id, -, hm⟩
    · exact ⟨_, he.core h⟩
    · exact ⟨_, h.missed hm⟩
  exact hkeeps.run ⟨0, Timers.inv_init.core⟩ hrun

/-! ## While SIGUSR2 has its own handler -/

variable {s t : Process}

/-- The process and the timers alone are in step. -/
structure Aligned (as : List Act) (s : Process) : Prop where
  run : Timers.machine.run (timerActs as) = .next s.timers
  handler : s.dispositions SIGUSR2 = .timer
  idle : s.listener = none

theorem runsJs_idle (h : s.listener = none) : s.runsJs = s.timers.runsJs := by
  rw [runsJs, h]
  simp

/-- Every completion is that of a timer, so the loop calls `timer_cb`. -/
theorem innerLoop_lift {n : Int} (h : s.timers.Core n) :
    s.innerLoop = s.lift s.timers.innerLoop := by
  rw [innerLoop, Timers.innerLoop]
  cases hc : io_uring_peek_cqe s.timers.env.io_uring_data.ring with
  | none => rfl
  | some c =>
      obtain ⟨req, env, hreq, henv, -, hreaps⟩ := h.sound.reap hc
      obtain ⟨id, hid⟩ := h.request c.user_data
        (hreaps.outstanding.mem_iff.mpr (List.mem_cons_self ..))
      obtain rfl := Option.some.inj (hreq.symm.trans hid)
      simp only [henv, Outcome.bind_next, Timers.timerRequest]

/-- The timer functions do what they do alone. -/
theorem step_timers {n : Int} (hcore : s.timers.Core n) (hhandler : s.dispositions SIGUSR2 = .timer)
    (hidle : s.listener = none) (a : Timers.Act) :
    machine.step s (.timers a) = s.lift (Timers.machine.step s.timers a) := by
  cases a with
  | setTimer object timeout interval created =>
      simp only [machine, step, Timers.machine, Timers.step, runsJs_idle hidle]
      split
      · rfl
      · rfl
  | clearTimer arg =>
      simp only [machine, step, Timers.machine, Timers.step, runsJs_idle hidle]
      split
      · rfl
      · rfl
  | stop =>
      simp only [machine, step, Timers.machine, Timers.step, runsJs_idle hidle]
      split
      · rfl
      · rfl
  | inner =>
      simp only [machine, step, Timers.machine, Timers.step, hidle, and_true]
      split
      · exact innerLoop_lift hcore
      · rfl
  | expire id =>
      simp only [machine, step, expire, hhandler]
      rfl
  | _ => rfl

theorem timerActs_concat (as : List Act) (a : Timers.Act) :
    timerActs (as ++ [.timers a]) = timerActs as ++ [a] := by
  simp [timerActs]

theorem Aligned.timers {as : List Act} (h : Aligned as s) {a : Timers.Act}
    (hstep : machine.step s (.timers a) = .next t) : Aligned (as ++ [.timers a]) t := by
  obtain ⟨n, hcore⟩ := timers_core h.run
  rw [step_timers hcore h.handler h.idle] at hstep
  obtain ⟨u, hu, ht⟩ := Outcome.bind_eq_next.mp hstep
  obtain rfl := Outcome.next.inj ht
  refine ⟨?_, h.handler, h.idle⟩
  rw [timerActs_concat, Machine.run_concat, h.run, Outcome.bind_next, hu]

/-- A handler for another signal leaves that of SIGUSR2. -/
theorem handler_register (s : Process) (object : Option JsFunction) {sig : Int32}
    (hsig : sig ≠ SIGUSR2) :
    (s.RegisterSignal object sig).dispositions SIGUSR2 = s.dispositions SIGUSR2 := by
  cases hfind : s.signalMap.find sig with
  | none =>
      rw [RegisterSignal_first s object hfind]
      simp only [Dispositions.install]
      split
      · exact Function.update_of_ne hsig.symm _ _
      · rfl
  | some vec => rw [RegisterSignal_more s object hfind]

theorem timers_register (s : Process) (object : Option JsFunction) (sig : Int32) :
    (s.RegisterSignal object sig).timers = s.timers ∧
      (s.RegisterSignal object sig).listener = s.listener := by
  cases hfind : s.signalMap.find sig with
  | none =>
      rw [RegisterSignal_first s object hfind]
      exact ⟨rfl, rfl⟩
  | some vec =>
      rw [RegisterSignal_more s object hfind]
      exact ⟨rfl, rfl⟩

theorem Aligned.step {as : List Act} (h : Aligned as s) {a : Act}
    (ha : ∀ object, a ≠ .on object SIGUSR2) (hstep : machine.step s a = .next t) :
    Aligned (as ++ [a]) t := by
  cases a with
  | on object sig =>
      have hsig : sig ≠ SIGUSR2 := fun heq => ha object (by rw [heq])
      simp only [machine, Process.step] at hstep
      split at hstep
      · obtain rfl := Outcome.next.inj hstep
        obtain ⟨htimers, hlistener⟩ := timers_register s object sig
        refine ⟨?_, (handler_register s object hsig).trans h.handler, hlistener.trans h.idle⟩
        rw [htimers, ← h.run]
        simp [timerActs]
      · exact absurd hstep (by simp)
  | off sig =>
      simp only [machine, Process.step] at hstep
      split at hstep
      · obtain rfl := Outcome.next.inj hstep
        refine ⟨?_, h.handler, h.idle⟩
        rw [UnRegisterSignal_eq, ← h.run]
        simp [timerActs]
      · exact absurd hstep (by simp)
  | signalRet =>
      simp only [machine, Process.step, h.idle] at hstep
      exact absurd hstep (by simp)
  | timers a => exact h.timers hstep

theorem aligned_run (as : List Act) (hon : ∀ object, Act.on object SIGUSR2 ∉ as)
    (hrun : machine.run as = .next s) : Aligned as s := by
  refine Machine.of_history (R := fun as s => (∀ object, Act.on object SIGUSR2 ∉ as) → Aligned as s)
    (fun _ => ⟨rfl, by decide, rfl⟩) ?_ as s hrun hon
  intro as s a t h hstep hon
  have halign := h fun object hin => hon object (by simp [hin])
  exact halign.step (fun object heq => hon object (by simp [heq])) hstep

/-! ## After signal.on(SIGUSR2, cb) -/

/-- The handler of SIGUSR2 is that of `core/signal.cc`; with no listener for it
    that has not happened yet. -/
def Taken (s : Process) : Prop := s.dispositions SIGUSR2 = .signal

def Aware (s : Process) : Prop := (s.signalMap.find SIGUSR2).isSome → s.Taken

/-- Neither table of `core/signal.cc`'s changed. -/
def SameTables (s t : Process) : Prop :=
  t.dispositions = s.dispositions ∧ t.signalMap = s.signalMap

theorem lift_tables {o : Outcome Timers} (h : s.lift o = .next t) : s.SameTables t := by
  obtain ⟨timers, -, ht⟩ := Outcome.bind_eq_next.mp h
  obtain rfl := Outcome.next.inj ht
  exact ⟨rfl, rfl⟩

theorem handleSignal_tables {sig : Int32} (h : s.handleSignal sig = .next t) :
    s.SameTables t := by
  rw [handleSignal_eq] at h
  obtain ⟨env, -, ht⟩ := Outcome.bind_eq_next.mp h
  obtain rfl := Outcome.next.inj ht
  exact ⟨rfl, rfl⟩

theorem signal_cb_tables {p : Ptr} {req : Request} (h : s.signal_cb p req = .next t) :
    s.SameTables t := by
  rw [signal_cb_eq] at h
  split at h
  · obtain rfl := Outcome.next.inj h
    exact ⟨rfl, rfl⟩
  · exact absurd h (by simp)

theorem expire_tables {id : TimerId} (h : s.expire id = .next t) : s.SameTables t := by
  rw [expire] at h
  split at h
  · exact absurd h (by simp)
  · exact lift_tables h
  · split at h
    · exact absurd h (by simp)
    · split at h
      · have hsame := handleSignal_tables h
        exact ⟨hsame.1, hsame.2⟩
      · exact absurd h (by simp)

theorem innerLoop_tables (h : s.innerLoop = .next t) : s.SameTables t := by
  rw [innerLoop] at h
  split at h
  · obtain rfl := Outcome.next.inj h
    exact ⟨rfl, rfl⟩
  · obtain ⟨⟨req, env⟩, -, hcb⟩ := Outcome.bind_eq_next.mp h
    simp only at hcb
    split at hcb
    · obtain rfl := Outcome.next.inj hcb
      exact ⟨rfl, rfl⟩
    · exact lift_tables hcb
    · have hsame := signal_cb_tables hcb
      exact ⟨hsame.1, hsame.2⟩
    · exact absurd hcb (by simp)

/-- The timer functions, the loop and the kernel change neither table. -/
theorem timers_tables {a : Timers.Act} (h : machine.step s (.timers a) = .next t) :
    s.SameTables t := by
  simp only [machine] at h
  cases a with
  | setTimer object timeout interval created =>
      simp only [step] at h
      split at h
      · exact lift_tables h
      · exact absurd h (by simp)
  | clearTimer arg =>
      simp only [step] at h
      split at h
      · exact lift_tables h
      · exact absurd h (by simp)
  | stop =>
      simp only [step] at h
      split at h
      · obtain rfl := Outcome.next.inj h
        exact ⟨rfl, rfl⟩
      · exact absurd h (by simp)
  | inner =>
      simp only [step] at h
      split at h
      · exact innerLoop_tables h
      · exact absurd h (by simp)
  | expire id => exact expire_tables h
  | _ => exact lift_tables h

theorem Taken.of_same (h : s.Taken) (hsame : s.SameTables t) : t.Taken :=
  (congrFun hsame.1 SIGUSR2).trans h

theorem Aware.of_same (h : s.Aware) (hsame : s.SameTables t) : t.Aware := by
  intro hsome
  rw [hsame.2] at hsome
  exact (h hsome).of_same hsame

/-- The first listener of SIGUSR2 takes the signal, any other leaves it. -/
theorem register_usr2 (h : s.Aware) (object : Option JsFunction) :
    (s.RegisterSignal object SIGUSR2).Taken := by
  cases hfind : s.signalMap.find SIGUSR2 with
  | none =>
      simp only [Taken, RegisterSignal_first s object hfind, Dispositions.install]
      rw [if_pos (by decide), Function.update_self]
  | some vec =>
      have htaken : s.Taken := h (by rw [hfind]; rfl)
      rwa [Taken, RegisterSignal_more s object hfind]

theorem taken_register (h : s.Taken) (object : Option JsFunction) (sig : Int32) :
    (s.RegisterSignal object sig).Taken := by
  -- sigaction is called for the signal registered only
  by_cases hsig : sig = SIGUSR2
  · subst hsig
    exact register_usr2 (fun _ => h) object
  · exact (handler_register s object hsig).trans h

theorem aware_register (h : s.Aware) (object : Option JsFunction) (sig : Int32) :
    (s.RegisterSignal object sig).Aware := by
  by_cases hsig : sig = SIGUSR2
  · subst hsig
    exact fun _ => register_usr2 h object
  · intro hsome
    -- the vector of SIGUSR2 is the one it was
    have hsame : (s.RegisterSignal object sig).signalMap.find SIGUSR2
        = s.signalMap.find SIGUSR2 := by
      cases hfind : s.signalMap.find sig with
      | none =>
          rw [RegisterSignal_first s object hfind]
          exact (StdMap.find_insert hfind).trans (if_neg (Ne.symm hsig))
      | some vec =>
          rw [RegisterSignal_more s object hfind]
          exact (StdMap.find_update (by rw [hfind]; rfl)).trans (if_neg (Ne.symm hsig))
    rw [hsame] at hsome
    exact (handler_register s object hsig).trans (h hsome)

/-- Once taken, SIGUSR2 is never given back. -/
theorem step_taken {a : Act} (haware : s.Aware) (hstep : machine.step s a = .next t) :
    t.Aware ∧ (s.Taken → t.Taken) ∧ ((∃ object, a = .on object SIGUSR2) → t.Taken) := by
  cases a with
  | on object sig =>
      simp only [machine, step] at hstep
      split at hstep
      · obtain rfl := Outcome.next.inj hstep
        refine ⟨aware_register haware object sig, fun h => taken_register h object sig, ?_⟩
        rintro ⟨object', heq⟩
        injection heq with _ hsig
        subst hsig
        exact register_usr2 haware object
      · exact absurd hstep (by simp)
  | off sig =>
      simp only [machine, step] at hstep
      split at hstep
      · obtain rfl := Outcome.next.inj hstep
        refine ⟨fun hsome => haware ?_, id, by simp⟩
        simp only [UnRegisterSignal_eq, StdMap.find_erase] at hsome
        split at hsome
        · exact absurd hsome (by simp)
        · exact hsome
      · exact absurd hstep (by simp)
  | signalRet =>
      simp only [machine, step] at hstep
      split at hstep
      · split at hstep
        · rw [signal_cb_return_eq] at hstep
          obtain ⟨env, -, ht⟩ := Outcome.bind_eq_next.mp hstep
          obtain rfl := Outcome.next.inj ht
          exact ⟨haware, id, by simp⟩
        · exact absurd hstep (by simp)
      · exact absurd hstep (by simp)
  | timers a =>
      have hsame := timers_tables hstep
      exact ⟨haware.of_same hsame, fun h => h.of_same hsame, by simp⟩

theorem taken_run (as : List Act) (hrun : machine.run as = .next s) :
    s.Aware ∧ ((∃ object, Act.on object SIGUSR2 ∈ as) → s.Taken) := by
  refine Machine.of_history (R := fun as s => s.Aware ∧ ((∃ object, Act.on object SIGUSR2 ∈ as) →
    s.Taken)) ⟨fun hsome => absurd hsome (by simp [machine, init]), by simp⟩ ?_ as s hrun
  rintro as s a t ⟨haware, htaken⟩ hstep
  obtain ⟨haware', hkeeps, htakes⟩ := step_taken haware hstep
  refine ⟨haware', ?_⟩
  rintro ⟨object, hin⟩
  rcases List.mem_append.mp hin with hin | hin
  · exact hkeeps (htaken ⟨object, hin⟩)
  · exact htakes ⟨object, (List.mem_singleton.mp hin).symm⟩

/-- What `signalHandler` of `core/signal.cc` allocates is no timer's request. -/
theorem submitAll_heap {reqs : List Request} {env env' : Environment}
    (h : submitAll reqs env = .next env') {p : Ptr} {req : Request}
    (hp : env'.heap.get? p = some req) : env.heap.get? p = some req ∨ req ∈ reqs := by
  induction reqs generalizing env with
  | nil =>
      obtain rfl := Outcome.next.inj h
      exact .inl hp
  | cons r reqs ih =>
      obtain ⟨env₁, hnew, hall⟩ := Outcome.bind_eq_next.mp h
      have hheap : env₁.heap = env.heap.alloc r := by
        obtain ⟨info, -, henv⟩ := Outcome.bind_eq_next.mp hnew
        exact (Outcome.next.inj henv) ▸ rfl
      rcases ih hall with hold | hin
      · rw [hheap, Heap.get?_alloc] at hold
        split at hold
        · exact .inr (by rw [Option.some.inj hold]; exact List.mem_cons_self ..)
        · exact .inl hold
      · exact .inr (List.mem_cons_of_mem _ hin)

theorem taken_silent (h : s.Taken) {id : TimerId}
    (hstep : machine.step s (.timers (.expire id)) = .next t) : ¬ Notifies id s t := by
  intro hnotifies
  simp only [machine, step, expire, show s.dispositions SIGUSR2 = .signal from h] at hstep
  split at hstep
  · exact absurd hstep (by simp)
  · split at hstep
    · rw [handleSignal_eq] at hstep
      obtain ⟨env, henv, ht⟩ := Outcome.bind_eq_next.mp hstep
      obtain rfl := Outcome.next.inj ht
      -- the new block is free, or holds the request of a listener
      rcases submitAll_heap henv hnotifies.request with hold | hin
      · exact Nat.lt_irrefl _ (Heap.lt_top_of_get? hold)
      · simp only [Tables.requests] at hin
        split at hin
        · exact absurd hin (by simp)
        · obtain ⟨c, -, hc⟩ := List.mem_map.mp hin
          have hcb := congrArg Request.cb hc
          exact absurd hcb (by simp [signalRequest, Timers.timerRequest])
    · exact absurd hstep (by simp)

/-- An expiry is left alone exactly when nobody has listened for SIGUSR2. -/
theorem signals_spare_timers (as : List Act) (s : Process) (hrun : machine.run as = .next s)
    (id : TimerId) (c : Ptr) (hfind : s.timers.timerMap.find id = some c) (u : PosixTimer)
    (hu : s.timers.kernel id = some u) (harmed : u.arming.armed = true) :
    Undisturbed as s id ↔ ∀ object, Act.on object SIGUSR2 ∉ as := by
  constructor
  · rintro ⟨t, hstep, hnotifies, -⟩ object hin
    exact taken_silent ((taken_run as hrun).2 ⟨object, hin⟩) hstep hnotifies
  · intro hon
    have halign := aligned_run as hon hrun
    obtain ⟨n, hcore⟩ := timers_core halign.run
    obtain ⟨timers, hexpire, hrequest, hout⟩ := expire_registered hcore hfind hu harmed
    have hstep : machine.step s (.timers (.expire id)) = .next { s with timers } := by
      rw [step_timers hcore halign.handler halign.idle]
      show s.lift (s.timers.expire id) = _
      rw [hexpire]
      rfl
    exact ⟨_, hstep, ⟨hrequest, hout⟩, (halign.timers hstep).run⟩

/-- `setTimeout` and a listener for `sig`. -/
def listenActs (sig : Int32) : List Act :=
  [.timers (.setTimer (some 0) 1000 0 (some 7)), .timers .timerHandler, .timers .timerHandler,
    .timers .timerHandler, .on (some 1) sig]

/-- The state a run reaches, for a run that goes through. -/
def reached (as : List Act) : Process :=
  match machine.run as with
  | .next s => s
  | _ => init

/-- A listener for SIGINT. -/
theorem signals_spare_timers_sigint : Undisturbed (listenActs 2) (reached (listenActs 2)) 7 := by
  apply (signals_spare_timers (listenActs 2) _ rfl 7 0 rfl ⟨0, .once⟩ rfl rfl).mpr
  intro object hin
  simp only [listenActs, List.mem_cons, List.not_mem_nil, reduceCtorEq, or_false, false_or,
    Act.on.injEq] at hin
  exact absurd hin.2 (by decide)

/-- A listener for SIGUSR2: the timer goes off and nothing is submitted for it. -/
theorem signals_disturb_timers :
    ¬ ∀ as s, machine.run as = .next s → ∀ id c, s.timers.timerMap.find id = some c →
      ∀ u, s.timers.kernel id = some u → u.arming.armed = true → Undisturbed as s id := by
  intro h
  obtain ⟨t, hstep, hnotifies, -⟩ :=
    h (listenActs SIGUSR2) (reached (listenActs SIGUSR2)) rfl 7 0 rfl ⟨0, .once⟩ rfl rfl
  exact taken_silent (s := reached (listenActs SIGUSR2)) rfl hstep hnotifies

end Process

end NoJs.Signal
