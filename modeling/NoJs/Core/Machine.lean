/-
  NoJs.Core.Machine

  The whole process: every native module that `register_builtins` of
  `core/core.cc` puts under `No.buildin` and that submits requests, on the one
  ring, the one counter and the one loop that `No::Core::Run` runs.

  The functions are those of NoJs.Async.Machine, NoJs.Timer.Machine,
  NoJs.Inotify.Machine and NoJs.Signal.Dispositions, each applied to the part of
  the process that its module reads and writes.  What a machine of one module
  leaves open is decided here: which completion function runs is read from the
  request, JavaScript may call any module wherever it runs, and a signal takes
  the way that the table of dispositions says.

  `Stop` is not among the steps: nothing in the repository calls it.  Signals are
  delivered between two steps, of which `clearTimer` is one, and `inotifyHandler`
  is cut at its change callbacks, as in the machines of the modules.
-/

import NoJs.Async.Machine
import NoJs.Inotify.Machine
import NoJs.Signal.Dispositions

namespace NoJs.Core

open Machine IoUring Timer Inotify Signal

/-! ## The state -/

inductive Ctl where
  /-- In the main script, before `RunIOUring`. -/
  | script
  /-- At the condition of the outer loop. -/
  | outer
  /-- Before `io_uring_peek_cqe` in the inner loop. -/
  | inner
  /-- In the JavaScript callback of the asynchronous operation with request `p`. -/
  | callback (p : Ptr)
  /-- In `timer_cb` of the request `p`, which found the context `ctx` under `id`. -/
  | timer (p : Ptr) (id : TimerId) (ctx : Ptr)
  /-- In `signal_cb` of the request `p`, at the JavaScript call for `ctx`. -/
  | signal (p : Ptr) (ctx : Ptr)
  /-- In `inotifyHandler` of the request `p`, at its change callbacks. -/
  | handler (p : Ptr)
  | exited
  deriving DecidableEq, Repr

/-- The request whose completion is being handled. -/
def Ctl.running : Ctl → Option Ptr
  | callback p => some p
  | timer p _ _ => some p
  | signal p _ => some p
  | handler p => some p
  | _ => none

structure Process where
  env : Environment
  ctl : Ctl
  /-- The contexts of asynchronous operations. -/
  contexts : Heap Async.RequestContext
  timerContexts : Heap TimerRequestContext
  timerMap : StdMap TimerId Ptr
  /-- The POSIX timers. -/
  kernel : TimerId → Option PosixTimer
  registration : Option Registration
  inotify_fd : Int32
  needSubmit : Bool
  inotifyMap : StdMap Int32 (List InotifyRequestContext)
  count : Int32
  lastId : UInt64
  buffers : Nat
  /-- The watches the kernel holds. -/
  watches : Int32 → Bool
  signalContexts : Heap SignalRequestContext
  signalMap : SignalMap
  dispositions : Dispositions

namespace Process

/-- After `Environment::Environment` and `register_builtins`; `fd` is the answer of
    `inotify_init1`. -/
def init (fd : Int32) : Process where
  env := .init
  ctl := .script
  contexts := .empty
  timerContexts := .empty
  timerMap := ∅
  kernel := fun _ => none
  registration := none
  inotify_fd := fd
  needSubmit := true
  inotifyMap := ∅
  count := 0
  lastId := 0
  buffers := 0
  watches := fun _ => false
  signalContexts := .empty
  signalMap := ∅
  dispositions := Dispositions.install (fun _ => .dfl) SIGUSR2 .timer

/-! ## The modules' parts -/

/-- What `core/async.h` and the entry points use. -/
def async (s : Process) : Async.Runtime where
  env := s.env
  contexts := s.contexts
  ctl := .inner
  trace := ⟨[], [], [], [], []⟩

def withAsync (s : Process) (r : Async.Runtime) : Process :=
  { s with env := r.env, contexts := r.contexts }

/-- What `core/timer.cc` uses; a `shared_ptr` may be one of `timer_cb`. -/
def timers (s : Process) : Timers where
  env := s.env
  contexts := s.timerContexts
  timerMap := s.timerMap
  kernel := s.kernel
  registration := s.registration
  ctl :=
    match s.ctl with
    | .timer p id ctx => .callback p id ctx
    | _ => .inner
  trace := ⟨[], []⟩

def withTimers (s : Process) (t : Timers) : Process :=
  { s with
    env := t.env
    timerContexts := t.contexts
    timerMap := t.timerMap
    kernel := t.kernel
    registration := t.registration }

/-- What `core/signal.cc` uses, with the handler of `core/timer.cc` beside its own. -/
def signals (s : Process) : Signal.Process where
  timers := s.timers
  contexts := s.signalContexts
  signalMap := s.signalMap
  dispositions := s.dispositions
  listener := none

def withSignals (s : Process) (u : Signal.Process) : Process :=
  { s.withTimers u.timers with
    signalContexts := u.contexts
    signalMap := u.signalMap
    dispositions := u.dispositions }

/-- What `core/inotify.cc` uses. -/
def watcher (s : Process) : Watcher where
  env := s.env
  inotify_fd := s.inotify_fd
  needSubmit := s.needSubmit
  inotifyMap := s.inotifyMap
  count := s.count
  lastId := s.lastId
  buffers := s.buffers
  watches := s.watches
  ctl := .inner

def withWatcher (s : Process) (w : Watcher) : Process :=
  { s with
    env := w.env
    needSubmit := w.needSubmit
    inotifyMap := w.inotifyMap
    count := w.count
    lastId := w.lastId
    buffers := w.buffers
    watches := w.watches }

/-- Whether JavaScript is running, outside `timerHandler`. -/
def runsJs (s : Process) : Bool :=
  s.registration.isNone &&
    match s.ctl with
    | .script => true
    | .callback _ => true
    | .handler _ => true
    | .timer _ _ c => (s.timerContexts.get? c).any (·.object.isSome)
    | .signal _ c => (s.signalContexts.get? c).any (·.object.isSome)
    | _ => false

/-! ## The loop -/

/-- Where the loop goes on after a function of an asynchronous operation. -/
def afterAsync (s : Process) (o : Outcome Async.Runtime) : Outcome Process :=
  o.bind fun r => .next
    { s.withAsync r with
      ctl :=
        match r.ctl with
        | .callback p => .callback p
        | _ => .inner }

/-- Where it goes on after a function of `core/timer.cc`. -/
def afterTimers (s : Process) (o : Outcome Timers) : Outcome Process :=
  o.bind fun t => .next
    { s.withTimers t with
      ctl :=
        match t.ctl with
        | .callback p id ctx => .timer p id ctx
        | _ => .inner }

/-- Where it goes on after a function of `core/signal.cc`. -/
def afterSignals (s : Process) (o : Outcome Signal.Process) : Outcome Process :=
  o.bind fun u => .next
    { s.withSignals u with
      ctl :=
        match u.listener with
        | some (p, ctx) => .signal p ctx
        | none => .inner }

/-- `req->cb((void *)req)`, on the request `p` with its contents `req`. -/
def call (p : Ptr) (req : Request) (s : Process) : Outcome Process :=
  match req.cb with
  | none => .next s
  | some (.makeCallback event) => s.afterAsync (s.async.makeCallback event p)
  | some .openAfter => s.afterAsync (s.async.openAfter p)
  | some .timer_cb => s.afterTimers (s.timers.timer_cb p req)
  | some .signal_cb => s.afterSignals (s.signals.signal_cb p req)
  | some .inotifyHandler => .next { s with ctl := .handler p }

/-- One round of the inner loop of `RunIOUring`. -/
def innerLoop (s : Process) : Outcome Process :=
  match io_uring_peek_cqe s.env.io_uring_data.ring with
  | none => .next { s with ctl := .outer }
  | some c => (s.env.reap c).bind fun (req, env) => call c.user_data req { s with env }

/-- One test of the outer loop of `RunIOUring`, with `io_uring_submit_and_wait`. -/
def outerLoop (s : Process) : Process :=
  if s.env.goesOn then { s with env := s.env.submitAndWait, ctl := .inner }
  else { s with ctl := .exited }

/-- The JavaScript callback, or the loop of change callbacks, ends. -/
def ret (s : Process) : Outcome Process :=
  match s.ctl with
  | .callback p => s.afterAsync (s.async.finishCallback p)
  | .timer p id c => s.afterTimers (s.timers.timer_cb_return p id c)
  | .signal p _ => s.afterSignals (s.signals.signal_cb_return p)
  | .handler p =>
      (s.watcher.inotifyHandler_return p).bind fun w => .next { s.withWatcher w with ctl := .inner }
  | _ => .disabled

/-! ## The kernel -/

/-- A signal is sent to the process, by `signal.kill` or from outside. -/
def deliver (sig : Int32) (s : Process) : Outcome Process :=
  match s.dispositions sig with
  | .dfl => .disabled
  -- the handler of the timers looks up what it reads through a `sival_ptr` that the sender
  -- did not set
  | .timer => if s.timerMap.size = 0 then .next s else .fault
  | .signal => (s.signals.handleSignal sig).bind fun u => .next (s.withSignals u)

/-! ## The machine -/

inductive Act where
  /-- JavaScript calls one of the entry points of NoJs.Async.EntryPoints. -/
  | start (c : Async.Call)
  /-- `setTimeout` and `setInterval`, up to `timer_create`. -/
  | setTimer (object : Option JsFunction) (timeout interval : Int32) (created : Option TimerId)
  /-- The next step of `timerHandler`. -/
  | timerHandler
  /-- `clearTimeout` and `clearInterval`. -/
  | clearTimer (arg : Int)
  /-- `inotify.on` and `inotify.off`. -/
  | watch (object : Option JsFunction) (id : Int32)
  | unwatch (watchId funcId : Option Int32)
  /-- `signal.on` and `signal.off`. -/
  | on (object : Option JsFunction) (sig : Int32)
  | off (sig : Int32)
  /-- The main script ends and `RunIOUring` is called. -/
  | run
  | outer
  | inner
  /-- The callback or handler running ends. -/
  | ret
  /-- The kernel drops a watch. -/
  | dropped (id : Int32)
  /-- The kernel delivers an expiry. -/
  | expire (id : TimerId)
  /-- The kernel delivers a signal that was sent. -/
  | deliver (sig : Int32)
  /-- The kernel finishes a request. -/
  | complete (i : Nat) (res : Int32)

def step (s : Process) : Act → Outcome Process
  | .start c =>
      if s.runsJs then (s.async.start c).bind fun r => .next (s.withAsync r) else .disabled
  | .setTimer object timeout interval created =>
      if s.runsJs then
        (s.timers.timerCreate object timeout interval created).bind fun t =>
          .next (s.withTimers t)
      else .disabled
  | .timerHandler => s.timers.timerHandler.bind fun t => .next (s.withTimers t)
  | .clearTimer arg =>
      if s.runsJs then (s.timers.clearTimer arg).bind fun t => .next (s.withTimers t)
      else .disabled
  | .watch object id =>
      if s.runsJs then (s.watcher.On object id).bind fun w => .next (s.withWatcher w)
      else .disabled
  | .unwatch watchId funcId =>
      if s.runsJs then .next (s.withWatcher (s.watcher.Off watchId funcId)) else .disabled
  | .on object sig =>
      if s.runsJs then .next (s.withSignals (s.signals.RegisterSignal object sig)) else .disabled
  | .off sig =>
      if s.runsJs then .next (s.withSignals (s.signals.UnRegisterSignal sig)) else .disabled
  | .run => if s.ctl = .script ∧ s.registration = none then .next { s with ctl := .outer }
      else .disabled
  | .outer => if s.ctl = .outer then .next s.outerLoop else .disabled
  | .inner => if s.ctl = .inner then s.innerLoop else .disabled
  | .ret => if s.registration = none then s.ret else .disabled
  | .dropped id => .next { s with watches := Function.update s.watches id false }
  | .expire id => (s.signals.expire id).bind fun u => .next (s.withSignals u)
  | .deliver sig => s.deliver sig
  | .complete i res => (s.env.complete i res).bind fun env => .next { s with env }

/-- The process, from the start of the main script. -/
def machine (fd : Int32) : Machine Process Act := ⟨init fd, step⟩

end Process

end NoJs.Core
