/-
  NoJs.Async.Machine

  The asynchronous operations of NoJs.Async.EntryPoints under the event loop,
  as a machine: JavaScript calls entry points wherever it runs, the kernel
  finishes requests in any order, and `RunIOUring` runs the completion function
  of each request it reaps, which is `makeCallback<event>` of `core/async.h` or
  `openAfter` of `core/fs.cc`.

  The object of a context is reached by JavaScript only as the receiver of the
  callback, and is taken to keep the callback it was made with.

  `Trace` is ghost state: what was started, posted, reaped, invoked, destroyed.
-/

import NoJs.Async.EntryPoints

namespace NoJs.Async

open Machine NoJs.IoUring

/-- A call that made a request: its block and the block of its context. -/
structure Started where
  call : Call
  async : AsyncRequest
  block : Ptr
  context : Ptr

/-- A callback invoked for the completion `res` of the request `block`. -/
structure Invocation where
  block : Ptr
  f : JsFunction
  res : Int32
  deriving DecidableEq, Repr

structure Trace where
  started : List Started
  /-- Completions the kernel posted. -/
  posted : List Cqe
  /-- Completions the loop took from the completion queue. -/
  reaped : List Cqe
  invoked : List Invocation
  /-- Contexts given to `delete`. -/
  destroyed : List Ptr

structure Runtime where
  env : Environment
  contexts : Heap RequestContext
  ctl : Ctl
  trace : Trace

namespace Runtime

def init : Runtime where
  env := .init
  contexts := .empty
  ctl := .script
  trace := ⟨[], [], [], [], []⟩

/-- A call of an entry point: `new RequestContext`, the request, `SubmitRequest`. -/
def start (c : Call) (s : Runtime) : Outcome Runtime :=
  match c.start with
  | none => .disabled
  | some a =>
      (s.env.submitNew (a.request s.contexts.top)).bind fun env => .next
        { s with
          env
          contexts := s.contexts.alloc a.context
          trace := { s.trace with
            started := s.trace.started ++ [⟨c, a, s.env.heap.top, s.contexts.top⟩] } }

/-- `makeCallback` from `if (_req->flag & IO_URING_REQUEST_AGAIN)` on. -/
def finishCallback (p : Ptr) (s : Runtime) : Outcome Runtime :=
  match s.env.heap.get? p with
  | none => .fault
  | some req =>
      match s.contexts.get? req.data with
      | none => .fault
      | some _ =>
          if req.again then
            (s.env.resubmit p).bind fun env => .next { s with env, ctl := .inner }
          else
            (s.env.free p).bind fun env => .next
              { s with
                env
                contexts := s.contexts.free req.data
                ctl := .inner
                trace := { s.trace with destroyed := s.trace.destroyed ++ [req.data] } }

/-- `makeCallback<event>(void * req)`. -/
def makeCallback (event : EventName) (p : Ptr) (s : Runtime) : Outcome Runtime :=
  match s.env.heap.get? p with
  | none => .fault
  | some req =>
      match s.contexts.get? req.data with
      | none => .fault
      | some ctx =>
          match ctx.lookup event with
          | none => s.finishCallback p
          | some f => .next
              { s with
                ctl := .callback p
                trace := { s.trace with invoked := s.trace.invoked ++ [⟨p, f, req.res⟩] } }

/-- `openAfter`: `printf` of the result, `free(req)`. -/
def openAfter (p : Ptr) (s : Runtime) : Outcome Runtime :=
  (s.env.free p).bind fun env => .next { s with env }

/-- One round of the inner loop of `RunIOUring`. -/
def innerLoop (s : Runtime) : Outcome Runtime :=
  match io_uring_peek_cqe s.env.io_uring_data.ring with
  | none => .next { s with ctl := .outer }
  | some c =>
      (s.env.reap c).bind fun (req, env) =>
        let s' := { s with env, trace := { s.trace with reaped := s.trace.reaped ++ [c] } }
        match req.cb with
        | none => .next s'
        | some (.makeCallback event) => s'.makeCallback event c.user_data
        | some .openAfter => s'.openAfter c.user_data
        -- the callbacks of the other subsystems
        | some _ => .fault

/-- One test of the outer loop of `RunIOUring`, with `io_uring_submit_and_wait`. -/
def outerLoop (s : Runtime) : Runtime :=
  if s.env.goesOn then { s with env := s.env.submitAndWait, ctl := .inner }
  else { s with ctl := .exited }

/-- The kernel finishes the `i`-th request it holds. -/
def complete (i : Nat) (res : Int32) (s : Runtime) : Outcome Runtime :=
  match s.env.io_uring_data.ring.kernel[i]? with
  | none => .disabled
  | some sqe => (s.env.complete i res).bind fun env => .next
      { s with env, trace := { s.trace with posted := s.trace.posted ++ [⟨sqe.user_data, res⟩] } }

inductive Act where
  /-- JavaScript calls an entry point. -/
  | start (c : Call)
  /-- `No::io_uring::Stop`. -/
  | stop
  /-- The main script ends and `RunIOUring` is called. -/
  | run
  | outer
  | inner
  /-- The JavaScript callback returns. -/
  | ret
  /-- The kernel finishes a request. -/
  | complete (i : Nat) (res : Int32)

def step (s : Runtime) : Act → Outcome Runtime
  | .start c => if s.ctl.runsJs then s.start c else .disabled
  | .stop =>
      if s.ctl.runsJs then
        .next { s with env := { s.env with io_uring_data := Stop s.env.io_uring_data } }
      else .disabled
  | .run => if s.ctl = .script then .next { s with ctl := .outer } else .disabled
  | .outer => if s.ctl = .outer then .next s.outerLoop else .disabled
  | .inner => if s.ctl = .inner then s.innerLoop else .disabled
  | .ret =>
      match s.ctl with
      | .callback p => s.finishCallback p
      | _ => .disabled
  | .complete i res => s.complete i res

/-- The runtime, from the start of the main script. -/
def machine : Machine Runtime Act := ⟨init, step⟩

/-- What a step that goes through does, and where it is taken. -/
def Takes (s t : Runtime) : Act → Prop
  | .start c => s.ctl.runsJs = true ∧ s.start c = .next t
  | .stop => s.ctl.runsJs = true ∧
      t = { s with env := { s.env with io_uring_data := Stop s.env.io_uring_data } }
  | .run => s.ctl = .script ∧ t = { s with ctl := .outer }
  | .outer => s.ctl = .outer ∧ t = s.outerLoop
  | .inner => s.ctl = .inner ∧ s.innerLoop = .next t
  | .ret => ∃ p, s.ctl = .callback p ∧ s.finishCallback p = .next t
  | .complete i res => s.complete i res = .next t

theorem step_cases {s t : Runtime} {a : Act} (h : s.step a = .next t) : s.Takes t a := by
  cases a with
  | complete i res => exact h
  | ret =>
      simp only [step] at h
      split at h
      · next p hctl => exact ⟨p, hctl, h⟩
      · exact absurd h (by simp)
  | start c | inner =>
      simp only [step] at h
      split at h
      · next hctl => exact ⟨hctl, h⟩
      · exact absurd h (by simp)
  | stop | run | outer =>
      simp only [step] at h
      split at h
      · next hctl => exact ⟨hctl, (Outcome.next.inj h).symm⟩
      · exact absurd h (by simp)

end Runtime

/-! ## What an operation is to report -/

/-- The results for the request `p` among completions, in order. -/
def results (p : Ptr) (l : List Cqe) : List Int32 :=
  (l.filter (·.user_data == p)).map (·.res)

namespace Runtime

variable (s : Runtime) (x : Started)

/-- The results the kernel has posted for a request. -/
def posted : List Int32 := results x.block s.trace.posted

/-- Those of them still in the completion queue. -/
def waiting : List Int32 := results x.block s.env.io_uring_data.ring.cq

/-- What was invoked for a request, in order. -/
def invocations : List Invocation := s.trace.invoked.filter (·.block == x.block)

/-- The operation reports to `f`: for every completion it has had, but those the
    loop has not reached, `f` was invoked once with the result.  A request that
    is not armed again completes at most once, and then its context is destroyed
    once, when the callback has returned. -/
structure Reports (f : JsFunction) : Prop where
  invoked : s.invocations x ++ (s.waiting x).map (⟨x.block, f, ·⟩)
    = (s.posted x).map (⟨x.block, f, ·⟩)
  once : x.async.again = false → (s.posted x).length ≤ 1
  destroyed : x.async.again = false →
    s.trace.destroyed.count x.context + (s.waiting x).length
      + (if s.ctl.running = some x.block then 1 else 0) = (s.posted x).length

end Runtime

end NoJs.Async
