/-
  NoJs.IoUring.Loop

  The event loop: `RunIOUring` of `core/io_uring.cc` with `makeCallback<event>`
  of `core/async.h` as the callback of every request, as a machine.

  JavaScript runs in the main script and inside completion callbacks; wherever
  it runs it may start any number of asynchronous operations.  The kernel may
  finish any request it holds at any time.  The two loops of `RunIOUring` and
  the two halves of `makeCallback` (before and after the JavaScript call) are
  separate steps, so a run is any interleaving of these.

  `Trace` is ghost state: what was submitted, posted, called back and freed.
-/

import NoJs.IoUring.Environment

namespace NoJs.IoUring

open Machine

/-- `RequestContext`.  `object` is `none` for an empty handle; otherwise it is
    the object's event property, `some f` when that is a function. -/
structure RequestContext where
  object : Option (Option JsFunction)
  deriving DecidableEq, Repr

/-- An asynchronous call of JavaScript code. -/
structure Operation where
  kind : Kind
  event : EventName
  flag : Int32
  object : Option (Option JsFunction)

/-- The request an operation allocates, with its context in block `ctx`. -/
def Operation.request (o : Operation) (ctx : Ptr) : Request :=
  { kind := o.kind, cb := some (.makeCallback o.event), data := ctx, flag := o.flag }

/-- Where the program stands. -/
inductive Ctl where
  /-- In the main script, before `RunIOUring`. -/
  | script
  /-- At the condition of the outer loop. -/
  | outer
  /-- Before `io_uring_peek_cqe` in the inner loop. -/
  | inner
  /-- In the JavaScript callback of the request `p`. -/
  | callback (p : Ptr)
  /-- `RunIOUring` has returned. -/
  | exited
  deriving DecidableEq, Repr

/-- Whether JavaScript code is running. -/
def Ctl.runsJs : Ctl → Bool
  | script => true
  | callback _ => true
  | _ => false

structure Trace where
  /-- Requests handed to `SubmitRequest`, with their contents. -/
  submitted : List (Ptr × Request)
  /-- Completions the kernel posted. -/
  posted : List Cqe
  /-- Requests whose `cb` was run, with the contents it was run on. -/
  ran : List (Ptr × Request)
  freed : List Ptr

namespace Trace

def submit (t : Trace) (p : Ptr) (r : Request) : Trace :=
  { t with submitted := t.submitted ++ [(p, r)] }

def post (t : Trace) (c : Cqe) : Trace := { t with posted := t.posted ++ [c] }

def run (t : Trace) (p : Ptr) (r : Request) : Trace := { t with ran := t.ran ++ [(p, r)] }

def free (t : Trace) (p : Ptr) : Trace := { t with freed := t.freed ++ [p] }

end Trace

structure Loop where
  env : Environment
  contexts : Heap RequestContext
  ctl : Ctl
  trace : Trace

namespace Loop

def init : Loop where
  env := .init
  contexts := .empty
  ctl := .script
  trace := ⟨[], [], [], []⟩

/-- The entry points: a request, its context, `SubmitRequest`. -/
def startOperation (o : Operation) (s : Loop) : Outcome Loop :=
  (s.env.submitNew (o.request s.contexts.top)).bind fun env => .next
    { s with
      env
      contexts := s.contexts.alloc ⟨o.object⟩
      trace := s.trace.submit s.env.heap.top (o.request s.contexts.top) }

/-- `makeCallback` from `if (_req->flag & IO_URING_REQUEST_AGAIN)` on. -/
def finishCallback (p : Ptr) (s : Loop) : Outcome Loop :=
  match s.env.heap.get? p with
  | none => .fault
  | some req =>
      if req.again then
        (s.env.resubmit p).bind fun env => .next
          { s with env, ctl := .inner, trace := s.trace.submit p req }
      else
        match s.contexts.get? req.data with
        | none => .fault
        | some _ => (s.env.free p).bind fun env => .next
            { s with
              env
              contexts := s.contexts.free req.data
              ctl := .inner
              trace := s.trace.free p }

/-- `makeCallback<event>(void * req)`. -/
def makeCallback (p : Ptr) (s : Loop) : Outcome Loop :=
  match s.env.heap.get? p with
  | none => .fault
  | some req =>
      match s.contexts.get? req.data with
      | none => .fault
      | some ctx =>
          match ctx.object with
          | some (some _) => .next { s with ctl := .callback p }
          | _ => s.finishCallback p

/-- One round of the inner loop of `RunIOUring`. -/
def innerLoop (s : Loop) : Outcome Loop :=
  match io_uring_peek_cqe s.env.io_uring_data.ring with
  | none => .next { s with ctl := .outer }
  | some c =>
      (s.env.reap c).bind fun (req, env) =>
        let s' := { s with env, trace := s.trace.run c.user_data req }
        match req.cb with
        | none => .next s'
        | some (.makeCallback _) => s'.makeCallback c.user_data
        -- the callbacks of the other subsystems
        | some _ => .fault

/-- One test of the outer loop of `RunIOUring`, with `io_uring_submit_and_wait`. -/
def outerLoop (s : Loop) : Loop :=
  if s.env.goesOn then { s with env := s.env.submitAndWait, ctl := .inner }
  else { s with ctl := .exited }

/-- The kernel finishes the `i`-th request it holds. -/
def complete (i : Nat) (res : Int32) (s : Loop) : Outcome Loop :=
  match s.env.io_uring_data.ring.kernel[i]? with
  | none => .disabled
  | some sqe => (s.env.complete i res).bind fun env => .next
      { s with env, trace := s.trace.post ⟨sqe.user_data, res⟩ }

inductive Act where
  /-- JavaScript starts an operation. -/
  | start (o : Operation)
  /-- `No::io_uring::Stop`. -/
  | stop
  /-- The main script ends and `RunIOUring` is called. -/
  | run
  | outer
  | inner
  /-- The JavaScript callback returns. -/
  | ret
  /-- The kernel finishes a request. -/
  | complete (i : Nat) (res : Int32)

def step (s : Loop) : Act → Outcome Loop
  | .start o =>
      if s.ctl.runsJs && o.kind.op ∈ switchOps then s.startOperation o else .disabled
  | .stop =>
      if s.ctl.runsJs then
        .next { s with env := { s.env with io_uring_data := Stop s.env.io_uring_data } }
      else .disabled
  | .run => if s.ctl = .script then .next { s with ctl := .outer } else .disabled
  | .outer => if s.ctl = .outer then .next s.outerLoop else .disabled
  | .inner => if s.ctl = .inner then s.innerLoop else .disabled
  | .ret =>
      match s.ctl with
      | .callback p => s.finishCallback p
      | _ => .disabled
  | .complete i res => s.complete i res

/-- The event loop, from the start of the main script. -/
def machine : Machine Loop Act := ⟨init, step⟩

end Loop

end NoJs.IoUring
