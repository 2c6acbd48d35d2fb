/-
  NoJs.Timer.Machine

  `core/timer.cc` and the event loop as a machine.

  `timerHandler` is the step sequence timer_create, timer_settime,
  timerMap.insert, incPending: JavaScript is inside the call until the last of
  them, but the kernel may deliver the expiry of any armed timer between any two
  steps, and `signalHandler` then runs to completion.  `timer_cb` is cut at the
  JavaScript call, as `makeCallback` is in NoJs.IoUring.Loop.

  A context lives as long as some `shared_ptr` to it (`held`); `signalHandler`
  looks up the id that it reads through the raw pointer of the `sigevent`, and
  reading a context that nobody holds is a fault.  In an empty map `std::map::find`
  compares no key, so nothing is read there.

  The runs of `machine` are those in which the process lives: a `clearTimer` whose
  timer_delete follows a pointer that is none is no step of it.

  `Trace` is ghost state: the expiries delivered and the requests
  `signalHandler` submitted.
-/

import NoJs.IoUring.Environment
import NoJs.Lib.StdMap

namespace NoJs.Timer

open Machine IoUring

/-- `timer_t`. -/
abbrev TimerId := UInt64

/-! ## Data -/

structure Timespec where
  tv_sec : Int
  tv_nsec : Int
  deriving DecidableEq, Repr

structure Itimerspec where
  it_interval : Timespec
  it_value : Timespec
  deriving DecidableEq, Repr

/-- `int second = ms / 1000; int nsecond = (ms % 1000) * 1000 * 1000`. -/
def timespec (ms : Int32) : Timespec where
  tv_sec := (ms / 1000).toInt
  tv_nsec := (ms % 1000 * 1000 * 1000).toInt

def Timespec.zero (t : Timespec) : Bool := t.tv_sec == 0 && t.tv_nsec == 0

/-- What `timer_settime` accepts. -/
def Timespec.valid (t : Timespec) : Bool :=
  decide (0 ≤ t.tv_sec ∧ 0 ≤ t.tv_nsec ∧ t.tv_nsec < 1000000000)

def itimerspec (timeout interval : Int32) : Itimerspec where
  it_interval := timespec interval
  it_value := timespec timeout

/-- `TimerRequestContext::INTERVAL`. -/
def INTERVAL : Int32 := 1

/-- `TimerRequestContext`.  `object` is the `ontimeout` property of its object,
    `some f` when that is a function. -/
structure TimerRequestContext where
  object : Option JsFunction
  flags : Int32
  timer_id : TimerId
  deriving DecidableEq, Repr

/-- `!(ctx->flags & TimerRequestContext::INTERVAL)`. -/
def TimerRequestContext.oneShot (ctx : TimerRequestContext) : Bool := ctx.flags &&& INTERVAL == 0

/-- `interval_second || interval_nsecond ? TimerRequestContext::INTERVAL : 0`. -/
def intervalFlags (it : Itimerspec) : Int32 := if it.it_interval.zero then 0 else INTERVAL

/-- What the kernel keeps of a timer's setting.  A one-shot timer that has gone
    off is `expired`. -/
inductive Arming where
  | idle
  | once
  | periodic
  | expired
  deriving DecidableEq, Repr

def Arming.armed : Arming → Bool
  | once => true
  | periodic => true
  | _ => false

/-- The effect of `timer_settime(id, 0, &it, 0)`. -/
def Itimerspec.arming (it : Itimerspec) : Arming :=
  if it.it_value.zero then .idle else if it.it_interval.zero then .once else .periodic

/-- A POSIX timer: the `sival_ptr` of its `sigevent`, and its setting. -/
structure PosixTimer where
  sival : Ptr
  arming : Arming
  deriving DecidableEq, Repr

/-- Where `timerHandler` stands, after the step named. -/
inductive Stage where
  | created
  | settime
  | inserted
  deriving DecidableEq, Repr

/-- The locals of a `timerHandler` call in progress. -/
structure Registration where
  stage : Stage
  ctx : Ptr
  it : Itimerspec
  deriving DecidableEq, Repr

inductive Ctl where
  | script
  | outer
  | inner
  /-- In `timer_cb` of the request `p`, which found the context `ctx` under
      `id`; the JavaScript function runs if there is one. -/
  | callback (p : Ptr) (id : TimerId) (ctx : Ptr)
  | exited
  deriving DecidableEq, Repr

structure Trace where
  /-- Timers whose expiry was delivered. -/
  expired : List TimerId
  /-- Requests `signalHandler` submitted. -/
  submitted : List Request

structure Timers where
  env : Environment
  contexts : Heap TimerRequestContext
  timerMap : StdMap TimerId Ptr
  kernel : TimerId → Option PosixTimer
  registration : Option Registration
  ctl : Ctl
  trace : Trace

namespace Timers

def init : Timers where
  env := .init
  contexts := .empty
  timerMap := ∅
  kernel := fun _ => none
  registration := none
  ctl := .script
  trace := ⟨[], []⟩

/-- Whether a `shared_ptr` to the context exists: in `timerMap`, in a
    `timerHandler` call or in `timer_cb`. -/
def held (s : Timers) (ctx : Ptr) : Bool :=
  s.timerMap.values.contains ctx || s.registration.any (·.ctx == ctx) ||
    match s.ctl with
    | .callback _ _ c => c == ctx
    | _ => false

/-- Whether JavaScript is running, outside `timerHandler`. -/
def runsJs (s : Timers) : Bool :=
  s.registration.isNone &&
    match s.ctl with
    | .script => true
    | .callback _ _ c => (s.contexts.get? c).any (·.object.isSome)
    | _ => false

/-! ## timerHandler -/

/-- `timerHandler` up to `timer_create`, whose answer is `created`: the id of
    the new timer, or nothing when it fails. -/
def timerCreate (object : Option JsFunction) (timeout interval : Int32)
    (created : Option TimerId) (s : Timers) : Outcome Timers :=
  let it := itimerspec timeout interval
  let ctx : TimerRequestContext := { object, flags := intervalFlags it, timer_id := -1 }
  match created with
  | none => .next { s with contexts := s.contexts.alloc ctx }
  | some id =>
      -- an id in use is not handed out again
      if (s.kernel id).isSome then .disabled
      else .next
        { s with
          contexts := s.contexts.alloc { ctx with timer_id := id }
          kernel := Function.update s.kernel id (some ⟨s.contexts.top, .idle⟩)
          registration := some ⟨.created, s.contexts.top, it⟩ }

/-- `timer_settime((*ctx).timer_id, 0, &it, 0)`, with the early return when it
    fails. -/
def timerSettime (g : Registration) (s : Timers) : Outcome Timers :=
  match s.contexts.get? g.ctx with
  | none => .fault
  | some ctx =>
      if g.it.it_value.valid && g.it.it_interval.valid then .next
        { s with
          kernel := Function.update s.kernel ctx.timer_id
            ((s.kernel ctx.timer_id).map fun t => { t with arming := g.it.arming })
          registration := some { g with stage := .settime } }
      else .next { s with registration := none }

/-- `timerMap.insert(…::value_type((*ctx).timer_id, ctx))`. -/
def timerInsert (g : Registration) (s : Timers) : Outcome Timers :=
  match s.contexts.get? g.ctx with
  | none => .fault
  | some ctx => .next
      { s with
        timerMap := s.timerMap.insert ctx.timer_id g.ctx
        registration := some { g with stage := .inserted } }

/-- `incPending(env->GetIOUringData())` and the return of the id. -/
def timerReturn (s : Timers) : Timers := { s with env := s.env.inc, registration := none }

/-- The next step of the call in progress. -/
def timerHandler (s : Timers) : Outcome Timers :=
  match s.registration with
  | none => .disabled
  | some g =>
      match g.stage with
      | .created => s.timerSettime g
      | .settime => s.timerInsert g
      | .inserted => .next s.timerReturn

/-! ## The other functions of timer.cc -/

/-- `timerMap.erase(id)`. -/
def timerErase (id : TimerId) (s : Timers) : Timers := { s with timerMap := s.timerMap.erase id }

/-- Whether `timer_delete(id)` returns.  An id with its top bit set stands for a pointer to a
    timer of the C library, which follows it; -1, which `timerHandler` returns for a failure, is
    such an id. -/
def deletable (id : TimerId) (s : Timers) : Bool :=
  (s.kernel id).isSome || decide (id.toNat < 2 ^ 63)

/-- What `timer_delete(id)` and `decPending` change. -/
def timerDelete (id : TimerId) (s : Timers) : Timers :=
  { s with kernel := Function.update s.kernel id none, env := s.env.dec }

/-- `clearTimer`; the argument is a BigInt, read by `Uint64Value`. -/
def clearTimer (arg : Int) (s : Timers) : Outcome Timers :=
  let id : TimerId := UInt64.ofInt arg
  if s.deletable id then .next ((s.timerErase id).timerDelete id) else .fault

/-- The request `signalHandler` fills. -/
def timerRequest (id : TimerId) : Request :=
  { kind := .nop, cb := some .timer_cb, data := id.toNat }

/-- `signalHandler`; `sival` is `si->si_value.sival_ptr`. -/
def signalHandler (sival : Ptr) (s : Timers) : Outcome Timers :=
  -- `timerMap.find(ctx->timer_id)` reads the id when there is a key to compare it with
  if s.timerMap.size = 0 then .next s
  else if s.held sival then
    match s.contexts.get? sival with
    | none => .fault
    | some ctx =>
        match s.timerMap.find ctx.timer_id with
        | none => .next s
        | some _ => (s.env.submitNew (timerRequest ctx.timer_id)).bind fun env => .next
            { s with
              env
              trace := { s.trace with
                submitted := s.trace.submitted ++ [timerRequest ctx.timer_id] } }
  else .fault

/-- A timer after its expiry: a one-shot timer is done. -/
def expiry (t : PosixTimer) : PosixTimer :=
  if t.arming = .once then { t with arming := .expired } else t

/-- The kernel delivers the expiry of an armed timer. -/
def expire (id : TimerId) (s : Timers) : Outcome Timers :=
  match s.kernel id with
  | none => .disabled
  | some t =>
      if t.arming.armed then
        signalHandler t.sival
          { s with
            kernel := Function.update s.kernel id (some (expiry t))
            trace := { s.trace with expired := s.trace.expired ++ [id] } }
      else .disabled

/-- `timer_cb(req)` up to the JavaScript call. -/
def timer_cb (p : Ptr) (req : Request) (s : Timers) : Outcome Timers :=
  let id : TimerId := UInt64.ofNat req.data
  match s.timerMap.find id with
  | some ctx => .next { s with ctl := .callback p id ctx }
  | none => (s.env.free p).bind fun env => .next { s with env, ctl := .inner }

/-- `timer_cb` after the JavaScript call. -/
def timer_cb_return (p : Ptr) (id : TimerId) (c : Ptr) (s : Timers) : Outcome Timers :=
  match s.contexts.get? c with
  | none => .fault
  | some ctx =>
      let s' := if ctx.oneShot then { s with timerMap := s.timerMap.erase id, env := s.env.dec }
        else s
      (s'.env.free p).bind fun env => .next { s' with env, ctl := .inner }

/-! ## The loop -/

/-- One round of the inner loop of `RunIOUring`. -/
def innerLoop (s : Timers) : Outcome Timers :=
  match io_uring_peek_cqe s.env.io_uring_data.ring with
  | none => .next { s with ctl := .outer }
  | some c =>
      (s.env.reap c).bind fun (req, env) =>
        match req.cb with
        | none => .next { s with env }
        | some .timer_cb => timer_cb c.user_data req { s with env }
        | some _ => .fault

/-- One test of the outer loop of `RunIOUring`, with `io_uring_submit_and_wait`. -/
def outerLoop (s : Timers) : Timers :=
  if s.env.goesOn then { s with env := s.env.submitAndWait, ctl := .inner }
  else { s with ctl := .exited }

inductive Act where
  /-- `setTimeout` and `setInterval`, up to `timer_create`. -/
  | setTimer (object : Option JsFunction) (timeout interval : Int32) (created : Option TimerId)
  /-- The next step of `timerHandler`. -/
  | timerHandler
  /-- `clearTimeout` and `clearInterval`. -/
  | clearTimer (arg : Int)
  | stop
  /-- The main script ends and `RunIOUring` is called. -/
  | run
  | outer
  | inner
  /-- The JavaScript callback returns. -/
  | ret
  /-- The kernel delivers an expiry. -/
  | expire (id : TimerId)
  /-- The kernel finishes a request. -/
  | complete (i : Nat) (res : Int32)

def step (s : Timers) : Act → Outcome Timers
  | .setTimer object timeout interval created =>
      if s.runsJs then s.timerCreate object timeout interval created else .disabled
  | .timerHandler => s.timerHandler
  | .clearTimer arg =>
      if s.runsJs && s.deletable (UInt64.ofInt arg) then s.clearTimer arg else .disabled
  | .stop =>
      if s.runsJs then
        .next { s with env := { s.env with io_uring_data := Stop s.env.io_uring_data } }
      else .disabled
  | .run => if s.ctl = .script ∧ s.registration = none then .next { s with ctl := .outer }
      else .disabled
  | .outer => if s.ctl = .outer then .next s.outerLoop else .disabled
  | .inner => if s.ctl = .inner then s.innerLoop else .disabled
  | .ret =>
      match s.ctl with
      | .callback p id c => if s.registration = none then s.timer_cb_return p id c else .disabled
      | _ => .disabled
  | .expire id => s.expire id
  | .complete i res => (s.env.complete i res).bind fun env => .next { s with env }

/-- The timers and the event loop, from the start of the main script. -/
def machine : Machine Timers Act := ⟨init, step⟩

end Timers

end NoJs.Timer
