/-
  NoJs.Signal.Machine

  `core/signal.cc` and the event loop as a machine.

  `signalHandler` submits one NOP for each listener of a signal, which carries a
  bare pointer to the listener's context; `signal_cb` reads the context through
  it when the NOP has completed.  Only the vectors of `signalMap` own contexts,
  so reading one that is in no vector is a fault.  A signal is delivered between
  two steps; NoJs.Signal.Interrupt is about a delivery inside one.

  What else keeps the loop running (a timer, say) is a reference that JavaScript
  takes and drops.  `invoked` is ghost state.
-/

import NoJs.Signal.Interrupt

namespace NoJs.Signal

open Machine IoUring

/-- `SignalRequestContext`.  `object` is the `onsignal` property of its object,
    `some f` when that is a function. -/
structure SignalRequestContext where
  object : Option JsFunction
  sig : Int32
  deriving DecidableEq, Repr

inductive Ctl where
  | script
  | outer
  | inner
  /-- In `signal_cb` of the request `p`, at the JavaScript call for `ctx`. -/
  | callback (p : Ptr) (ctx : Ptr)
  | exited
  deriving DecidableEq, Repr

structure Signals where
  env : Environment
  contexts : Heap SignalRequestContext
  signalMap : SignalMap
  /-- The signals `signalHandler` is installed for. -/
  installed : List Int32
  ctl : Ctl
  /-- The contexts `signal_cb` called makeCallback on, in order. -/
  invoked : List Ptr

namespace Signals

def init : Signals where
  env := .init
  contexts := .empty
  signalMap := ∅
  installed := []
  ctl := .script
  invoked := []

/-- The vector of a signal, empty when it has none. -/
def listeners (s : Signals) (sig : Int32) : List Ptr := (s.signalMap.find sig).getD []

/-- Whether a vector of `signalMap` holds a `shared_ptr` to the context. -/
def owned (s : Signals) (ctx : Ptr) : Bool := s.signalMap.values.any (·.contains ctx)

/-- Whether JavaScript is running. -/
def runsJs (s : Signals) : Bool :=
  match s.ctl with
  | .script => true
  | .callback _ c => (s.contexts.get? c).any (·.object.isSome)
  | _ => false

/-! ## signal.cc -/

def RegisterSignal (object : Option JsFunction) (sig : Int32) (s : Signals) : Signals :=
  let ctx := s.contexts.top
  let s := { s with contexts := s.contexts.alloc { object, sig } }
  match s.signalMap.find sig with
  | none =>
      { s with
        installed := s.installed ++ [sig]
        signalMap := s.signalMap.insert sig [ctx] }
  | some vec => { s with signalMap := s.signalMap.update sig (vec ++ [ctx]) }

def UnRegisterSignal (signal : Int32) (s : Signals) : Signals :=
  { s with signalMap := s.signalMap.erase signal }

/-- `signalHandler`, of `core/signal.cc`. -/
def handleSignal (signum : Int32) (s : Signals) : Outcome Signals :=
  (signalHandler ⟨∅, s.signalMap⟩ (.signal signum) s.env).bind fun env => .next { s with env }

/-- `signal_cb(req)` up to the JavaScript call of `makeCallback<onsignal>`. -/
def signal_cb (p : Ptr) (req : Request) (s : Signals) : Outcome Signals :=
  let ctx : Ptr := req.data
  if s.owned ctx then
    match s.contexts.get? ctx with
    | none => .fault
    | some _ => .next { s with ctl := .callback p ctx, invoked := s.invoked ++ [ctx] }
  else .fault

/-- `signal_cb` after the JavaScript call, which does not touch the context. -/
def signal_cb_return (p : Ptr) (s : Signals) : Outcome Signals :=
  (s.env.free p).bind fun env => .next { s with env, ctl := .inner }

/-! ## The loop -/

/-- One round of the inner loop of `RunIOUring`. -/
def innerLoop (s : Signals) : Outcome Signals :=
  match io_uring_peek_cqe s.env.io_uring_data.ring with
  | none => .next { s with ctl := .outer }
  | some c =>
      (s.env.reap c).bind fun (req, env) =>
        match req.cb with
        | none => .next { s with env }
        | some .signal_cb => signal_cb c.user_data req { s with env }
        | some _ => .fault

/-- One test of the outer loop of `RunIOUring`, with `io_uring_submit_and_wait`. -/
def outerLoop (s : Signals) : Signals :=
  if s.env.goesOn then { s with env := s.env.submitAndWait, ctl := .inner }
  else { s with ctl := .exited }

inductive Act where
  /-- `signal.on`. -/
  | on (object : Option JsFunction) (sig : Int32)
  /-- `signal.off`. -/
  | off (sig : Int32)
  /-- Another subsystem takes a reference. -/
  | ref
  /-- It drops one. -/
  | unref
  | stop
  /-- The main script ends and `RunIOUring` is called. -/
  | run
  | outer
  | inner
  /-- The JavaScript callback returns. -/
  | ret
  /-- The kernel delivers a signal. -/
  | deliver (sig : Int32)
  /-- The kernel finishes a request. -/
  | complete (i : Nat) (res : Int32)
  deriving DecidableEq

def step (s : Signals) : Act → Outcome Signals
  | .on object sig => if s.runsJs then .next (s.RegisterSignal object sig) else .disabled
  | .off sig => if s.runsJs then .next (s.UnRegisterSignal sig) else .disabled
  | .ref => if s.runsJs then .next { s with env := s.env.inc } else .disabled
  | .unref => if s.runsJs then .next { s with env := s.env.dec } else .disabled
  | .stop =>
      if s.runsJs then
        .next { s with env := { s.env with io_uring_data := Stop s.env.io_uring_data } }
      else .disabled
  | .run => if s.ctl = .script then .next { s with ctl := .outer } else .disabled
  | .outer => if s.ctl = .outer then .next s.outerLoop else .disabled
  | .inner => if s.ctl = .inner then s.innerLoop else .disabled
  | .ret =>
      match s.ctl with
      | .callback p _ => s.signal_cb_return p
      | _ => .disabled
  | .deliver sig => if sig ∈ s.installed then s.handleSignal sig else .disabled
  | .complete i res => (s.env.complete i res).bind fun env => .next { s with env }

/-- The listeners and the event loop, from the start of the main script. -/
def machine : Machine Signals Act := ⟨init, step⟩

/-! ## The table -/

variable {s : Signals} {sig : Int32} {c : Ptr}

/-- Both branches of `RegisterSignal` put the new context at the end of the
    vector of its signal. -/
theorem listeners_register (s : Signals) (object : Option JsFunction) (sig q : Int32) :
    (s.RegisterSignal object sig).listeners q
      = if q = sig then s.listeners sig ++ [s.contexts.top] else s.listeners q := by
  rw [RegisterSignal]
  cases hfind : s.signalMap.find sig with
  | none =>
      simp only [listeners, hfind, StdMap.find_insert hfind]
      split
      · rfl
      · rfl
  | some vec =>
      have hsome : (s.signalMap.find sig).isSome := by rw [hfind]; rfl
      simp only [listeners, hfind, StdMap.find_update hsome]
      split
      · rfl
      · rfl

@[simp] theorem contexts_register (s : Signals) (object : Option JsFunction) (sig : Int32) :
    (s.RegisterSignal object sig).contexts = s.contexts.alloc { object, sig } := by
  rw [RegisterSignal]
  split
  · rfl
  · rfl

theorem frame_register (s : Signals) (object : Option JsFunction) (sig : Int32) :
    (s.RegisterSignal object sig).env = s.env ∧ (s.RegisterSignal object sig).ctl = s.ctl ∧
      (s.RegisterSignal object sig).invoked = s.invoked := by
  rw [RegisterSignal]
  split
  · exact ⟨rfl, rfl, rfl⟩
  · exact ⟨rfl, rfl, rfl⟩

theorem listeners_unregister (s : Signals) (sig q : Int32) :
    (s.UnRegisterSignal sig).listeners q = if q = sig then [] else s.listeners q := by
  simp only [listeners, UnRegisterSignal, StdMap.find_erase]
  split
  · rfl
  · rfl

/-- What is left of the table after `signal.off`. -/
theorem of_mem_unregister {q : Int32} (h : c ∈ (s.UnRegisterSignal sig).listeners q) :
    q ≠ sig ∧ c ∈ s.listeners q := by
  rw [listeners_unregister] at h
  split at h
  · simp at h
  · next hne => exact ⟨hne, h⟩

theorem owned_of_mem (h : c ∈ s.listeners sig) : s.owned c = true := by
  rw [listeners] at h
  cases hfind : s.signalMap.find sig with
  | none => simp [hfind] at h
  | some vec =>
      rw [hfind, Option.getD_some] at h
      exact List.any_eq_true.mpr ⟨vec, StdMap.mem_values_of_find hfind, by simpa using h⟩

end Signals

/-! ## Submitting for every listener -/

/-- What submitting the requests `reqs` changes. -/
structure SubmitsAll (reqs : List Request) (env env' : Environment) : Prop where
  tally : ∀ f, env'.tally f = env.tally f + reqs.countP f
  heap : ∀ p req, env.heap.get? p = some req → env'.heap.get? p = some req
  outstanding : ∀ p ∈ env'.outstanding, p ∈ env.outstanding ∨
    env.heap.top ≤ p ∧ ∃ req ∈ reqs, env'.heap.get? p = some req

theorem submitAll_sound {reqs : List Request} {env : Environment} {n : Int} (h : env.Sound n)
    (hreqs : ∀ req ∈ reqs, req.supported) :
    ∃ env', submitAll reqs env = .next env' ∧ env'.Sound n ∧ SubmitsAll reqs env env' := by
  induction reqs generalizing env with
  | nil =>
      exact ⟨env, rfl, h, fun f => by simp, fun _ _ hp => hp, fun _ hp => Or.inl hp⟩
  | cons req reqs ih =>
      obtain ⟨env₁, hnew, hsound₁, hheap, hsub⟩ := h.submitNew req (hreqs req (by simp))
      obtain ⟨env₂, hall, hsound₂, hsubs⟩ := ih hsound₁ fun r hr => hreqs r (by simp [hr])
      refine ⟨env₂, by rw [submitAll, hnew, Outcome.bind_next, hall], hsound₂, ?_, ?_, ?_⟩
      · intro f
        rw [hsubs.tally, Environment.tally_submit h hheap hsub, List.countP_cons]
        omega
      · intro p r hp
        exact hsubs.heap p r (by rw [hheap]; exact Heap.get?_alloc_of_some hp)
      · intro p hp
        rcases hsubs.outstanding p hp with hp | ⟨htop, r, hr, hget⟩
        · -- an old request, or the one submitted first
          rcases List.mem_cons.mp (hsub.outstanding.mem_iff.mp hp) with rfl | hp
          · refine Or.inr ⟨Nat.le_refl _, req, by simp, hsubs.heap _ _ ?_⟩
            rw [hheap, Heap.get?_alloc_top]
          · exact Or.inl hp
        · rw [hheap, Heap.top_alloc] at htop
          exact Or.inr ⟨Nat.le_of_succ_le htop, r, by simp [hr], hget⟩

end NoJs.Signal
