/-
  NoJs.Inotify.Machine

  `core/inotify.cc` and the event loop as a machine.

  One read of the inotify descriptor is kept in flight; `inotifyHandler` handles
  its completion and submits the next.  JavaScript may call `on` and `off` in the
  main script, in the change callbacks `inotifyHandler` makes and in the
  callbacks of other operations.  Which listeners a batch of events calls does
  not matter here, so the handler is a state in which JavaScript may do anything.
  Its loops over the events and the listeners, and whether their iterators
  survive an `off` in a change callback, are not part of the machine.

  The kernel's side is the set of its watches: `inotify_add_watch` answers with
  any descriptor, and the kernel may drop a watch whose file is gone.
-/

import NoJs.IoUring.Environment
import NoJs.Lib.StdMap

namespace NoJs.Inotify

open Machine IoUring

/-- `InotifyRequestContext`.  `object` is the `onchange` property of its object,
    `some f` when that is a function. -/
structure InotifyRequestContext where
  object : Option JsFunction
  id : Int32
  deriving DecidableEq, Repr

inductive Ctl where
  | script
  | outer
  | inner
  /-- In the JavaScript callback of another operation's request. -/
  | callback (p : Ptr)
  /-- In `inotifyHandler` of the request `p`, at its change callbacks. -/
  | handler (p : Ptr)
  | exited
  deriving DecidableEq, Repr

def Ctl.runsJs : Ctl → Bool
  | script => true
  | callback _ => true
  | handler _ => true
  | _ => false

structure Watcher where
  env : Environment
  inotify_fd : Int32
  needSubmit : Bool
  inotifyMap : StdMap Int32 (List InotifyRequestContext)
  count : Int32
  /-- `globalIdGenerator`. -/
  lastId : UInt64
  /-- Read buffers allocated so far; none is freed. -/
  buffers : Nat
  /-- The watches the kernel holds. -/
  watches : Int32 → Bool
  ctl : Ctl

namespace Watcher

def init (fd : Int32) : Watcher where
  env := .init
  inotify_fd := fd
  needSubmit := true
  inotifyMap := ∅
  count := 0
  lastId := 0
  buffers := 0
  watches := fun _ => false
  ctl := .script

/-- The request `SubmitReadRequest` fills. -/
def readRequest (fd : Int32) (buf : Ptr) : Request :=
  { kind := .read { fd, offset := 0, buf, len := 4096 }, cb := some .inotifyHandler }

def SubmitReadRequest (s : Watcher) : Outcome Watcher :=
  if s.needSubmit then
    (s.env.submitNew (readRequest s.inotify_fd s.buffers)).bind fun env => .next
      { s with env, needSubmit := false, buffers := s.buffers + 1 }
  else .next s

/-- `Inotify::On` from `inotifyMap.find(id)` on: the new listener's context goes
    to the end of the vector of its watch. -/
def addListener (object : Option JsFunction) (id : Int32) (s : Watcher) : Watcher :=
  let ctx : InotifyRequestContext := { object, id := (s.lastId + 1).toUInt32.toInt32 }
  { s with
    lastId := s.lastId + 1
    inotifyMap :=
      match s.inotifyMap.find id with
      | none => s.inotifyMap.insert id [ctx]
      | some vec => s.inotifyMap.update id (vec ++ [ctx]) }

/-- `Inotify::On`; `id` is the answer of `inotify_add_watch`. -/
def On (object : Option JsFunction) (id : Int32) (s : Watcher) : Outcome Watcher :=
  if id = -1 then .next s
  else
    (SubmitReadRequest
        { s with watches := Function.update s.watches id true, count := s.count + 1 }).bind
      fun s => .next (s.addListener object id)

/-- `Inotify::Off` from `REMOVE_WATCH` on: `inotify_rm_watch` fails when the
    kernel has dropped the watch. -/
def removeWatch (id : Int32) (s : Watcher) : Watcher :=
  let s := { s with inotifyMap := s.inotifyMap.erase id }
  if s.watches id then
    let s := { s with watches := Function.update s.watches id false, count := s.count - 1 }
    if s.count = 0 then { s with env := s.env.dec } else s
  else s

/-- `Inotify::Off`; the properties of its argument, `none` when not a number. -/
def Off (watchId funcId : Option Int32) (s : Watcher) : Watcher :=
  match watchId with
  | none => s
  | some id =>
      match s.inotifyMap.find id with
      | none => s
      | some listeners =>
          match funcId with
          | none => s.removeWatch id
          | some f =>
              let listeners := listeners.eraseP (·.id == f)
              let s := { s with inotifyMap := s.inotifyMap.update id listeners }
              if 0 < listeners.length then s else s.removeWatch id

/-- `inotifyHandler` after its change callbacks.  It reads the environment's
    pointer out of the request it has just freed; there is one environment, and
    the pointer is taken to be intact. -/
def inotifyHandler_return (p : Ptr) (s : Watcher) : Outcome Watcher :=
  (s.env.free p).bind fun env =>
    SubmitReadRequest { s with env, needSubmit := true, ctl := .inner }

/-- `makeCallback` after the JavaScript call of another operation, but for the
    operation's context. -/
def finishCallback (p : Ptr) (s : Watcher) : Outcome Watcher :=
  match s.env.heap.get? p with
  | none => .fault
  | some req =>
      (if req.again then s.env.resubmit p else s.env.free p).bind fun env => .next
        { s with env, ctl := .inner }

/-- One round of the inner loop of `RunIOUring`. -/
def innerLoop (s : Watcher) : Outcome Watcher :=
  match io_uring_peek_cqe s.env.io_uring_data.ring with
  | none => .next { s with ctl := .outer }
  | some c =>
      (s.env.reap c).bind fun (req, env) =>
        match req.cb with
        | none => .next { s with env }
        | some .inotifyHandler => .next { s with env, ctl := .handler c.user_data }
        | some (.makeCallback _) => .next { s with env, ctl := .callback c.user_data }
        | some _ => .fault

/-- One test of the outer loop of `RunIOUring`, with `io_uring_submit_and_wait`. -/
def outerLoop (s : Watcher) : Watcher :=
  if s.env.goesOn then { s with env := s.env.submitAndWait, ctl := .inner }
  else { s with ctl := .exited }

inductive Act where
  | on (object : Option JsFunction) (id : Int32)
  | off (watchId funcId : Option Int32)
  /-- The kernel drops a watch. -/
  | dropped (id : Int32)
  /-- JavaScript starts another asynchronous operation. -/
  | start (kind : Kind) (event : EventName) (flag : Int32)
  | stop
  /-- The main script ends and `RunIOUring` is called. -/
  | run
  | outer
  | inner
  /-- The callback or handler running ends. -/
  | ret
  /-- The kernel finishes a request. -/
  | complete (i : Nat) (res : Int32)

def step (s : Watcher) : Act → Outcome Watcher
  | .on object id => if s.ctl.runsJs then s.On object id else .disabled
  | .off watchId funcId => if s.ctl.runsJs then .next (s.Off watchId funcId) else .disabled
  | .dropped id => .next { s with watches := Function.update s.watches id false }
  | .start kind event flag =>
      if s.ctl.runsJs && kind.op ∈ switchOps then
        (s.env.submitNew { kind, cb := some (.makeCallback event), flag }).bind fun env =>
          .next { s with env }
      else .disabled
  | .stop =>
      if s.ctl.runsJs then
        .next { s with env := { s.env with io_uring_data := Stop s.env.io_uring_data } }
      else .disabled
  | .run => if s.ctl = .script then .next { s with ctl := .outer } else .disabled
  | .outer => if s.ctl = .outer then .next s.outerLoop else .disabled
  | .inner => if s.ctl = .inner then s.innerLoop else .disabled
  | .ret =>
      match s.ctl with
      | .callback p => s.finishCallback p
      | .handler p => s.inotifyHandler_return p
      | _ => .disabled
  | .complete i res => (s.env.complete i res).bind fun env => .next { s with env }

/-- The watches and the event loop, from the start of the main script. -/
def machine (fd : Int32) : Machine Watcher Act := ⟨init fd, step⟩

end Watcher

end NoJs.Inotify
