/-
  NoJs.Signal.Listeners

  The listeners of signals against the NOPs in flight.

  `Inv` says that every NOP in flight carries a context some vector owns, so
  `signal_cb` reads a live one; `signal.off` of a signal one of whose NOPs is in
  flight is the only step that breaks it.  While it holds, the callbacks made
  for a listener and its NOPs in flight together are the deliveries of its signal
  since it was registered.
-/

import NoJs.Signal.Machine

namespace NoJs.Signal

open Machine IoUring

namespace Signals

/-- How many NOPs in flight carry the context. -/
def carriers (s : Signals) (ctx : Ptr) : Nat := s.env.tally fun req => req.data == ctx

/-- The invariant, with `n` references. -/
structure Inv (s : Signals) (n : Int) : Prop where
  sound : s.env.Sound n
  request : ∀ p ∈ s.env.outstanding,
    ∃ sig, ∃ c ∈ s.listeners sig, s.env.heap.get? p = some (signalRequest c)
  running : ∀ p c, s.ctl = .callback p c →
    (s.env.heap.get? p).isSome ∧ p ∉ s.env.outstanding
  listed : ∀ sig, ∀ c ∈ s.listeners sig, ∃ ctx, s.contexts.get? c = some ctx ∧ ctx.sig = sig
  invoked : ∀ c ∈ s.invoked, c < s.contexts.top

/-! ## What a step can do -/

/-- The outcomes of a step from a state with `n` references; the number is what
    the step adds to the references. -/
inductive Effect (s : Signals) (n : Int) : Act → Int → Signals → Prop where
  | registered {object sig} : Effect s n (.on object sig) 0 (s.RegisterSignal object sig)
  | unregistered {sig} : Effect s n (.off sig) 0 (s.UnRegisterSignal sig)
  | ref : Effect s n .ref 1 { s with env := s.env.inc }
  | unref : Effect s n .unref (-1) { s with env := s.env.dec }
  | stopped : Effect s n .stop 0
      { s with env := { s.env with io_uring_data := Stop s.env.io_uring_data } }
  | started (hctl : s.ctl = .script) : Effect s n .run 0 { s with ctl := .outer }
  | waited (hctl : s.ctl = .outer) (hgoes : s.env.goesOn = true) :
      Effect s n .outer 0 { s with env := s.env.submitAndWait, ctl := .inner }
  | left (hctl : s.ctl = .outer) (hgoes : s.env.goesOn = false) :
      Effect s n .outer 0 { s with ctl := .exited }
  | drained (hctl : s.ctl = .inner) : Effect s n .inner 0 { s with ctl := .outer }
  | called {c ctx sig env} (hctl : s.ctl = .inner)
      (hreq : s.env.heap.get? c.user_data = some (signalRequest ctx))
      (hmem : ctx ∈ s.listeners sig) (hsound : env.Sound n) (hreaps : s.env.Reaps c env) :
      Effect s n .inner 0
        { s with env, ctl := .callback c.user_data ctx, invoked := s.invoked ++ [ctx] }
  | returned {p c} (hctl : s.ctl = .callback p c) :
      Effect s n .ret 0 { s with env := { s.env with heap := s.env.heap.free p }, ctl := .inner }
  | delivered {sig env} (hsound : env.Sound n)
      (hsubs : SubmitsAll ((s.listeners sig).map signalRequest) s.env env) :
      Effect s n (.deliver sig) 0 { s with env }
  | completed {i res env} (hsound : env.Sound n) (hheap : env.heap = s.env.heap)
      (hout : env.outstanding.Perm s.env.outstanding) :
      Effect s n (.complete i res) 0 { s with env }

variable {s t : Signals} {n d : Int} {a : Act}

theorem requests_signal (s : Signals) (sig : Int32) :
    Tables.requests ⟨∅, s.signalMap⟩ (.signal sig) = (s.listeners sig).map signalRequest := by
  rw [Tables.requests, listeners]
  cases s.signalMap.find sig with
  | none => rfl
  | some vec => rfl

namespace Inv

theorem innerLoop (h : s.Inv n) (hctl : s.ctl = .inner) :
    s.innerLoop.Holds fun t => ∃ d, Effect s n .inner d t := by
  rw [Signals.innerLoop]
  cases hc : io_uring_peek_cqe s.env.io_uring_data.ring with
  | none => exact ⟨_, Effect.drained hctl⟩
  | some c =>
      obtain ⟨req, env, hreq, henv, hsound, hreaps⟩ := h.sound.reap hc
      -- every request in flight is a NOP for a listener, whose context is owned
      obtain ⟨sig, ctx, hmem, hnop⟩ := h.request c.user_data
        (hreaps.outstanding.mem_iff.mpr (List.mem_cons_self ..))
      obtain rfl := Option.some.inj (hreq.symm.trans hnop)
      obtain ⟨w, hw, -⟩ := h.listed sig ctx hmem
      have howned : owned { s with env } ctx = true := owned_of_mem hmem
      simp only [henv, Outcome.bind_next, signalRequest, signal_cb, howned, if_true, hw]
      exact ⟨_, Effect.called hctl hreq hmem hsound hreaps⟩

theorem handleSignal (h : s.Inv n) (sig : Int32) :
    (s.handleSignal sig).Holds fun t => ∃ d, Effect s n (.deliver sig) d t := by
  have hreqs := requests_supported ⟨∅, s.signalMap⟩ (.signal sig)
  rw [requests_signal] at hreqs
  obtain ⟨env, hall, hsound, hsubs⟩ := submitAll_sound h.sound hreqs
  rw [Signals.handleSignal, signalHandler, requests_signal, hall]
  exact ⟨_, Effect.delivered hsound hsubs⟩

/-- The step lemma. -/
theorem effect (h : s.Inv n) (a : Act) :
    (machine.step s a).Holds fun t => ∃ d, Effect s n a d t := by
  cases a with
  | on object sig =>
      simp only [machine, step]
      split
      · exact ⟨_, Effect.registered⟩
      · trivial
  | off sig =>
      simp only [machine, step]
      split
      · exact ⟨_, Effect.unregistered⟩
      · trivial
  | ref =>
      simp only [machine, step]
      split
      · exact ⟨_, Effect.ref⟩
      · trivial
  | unref =>
      simp only [machine, step]
      split
      · exact ⟨_, Effect.unref⟩
      · trivial
  | stop =>
      simp only [machine, step]
      split
      · exact ⟨_, Effect.stopped⟩
      · trivial
  | run =>
      simp only [machine, step]
      split
      · next hctl => exact ⟨_, Effect.started hctl⟩
      · trivial
  | outer =>
      simp only [machine, step]
      split
      · next hctl =>
        rw [outerLoop]
        cases hgoes : s.env.goesOn with
        | true => exact ⟨_, Effect.waited hctl hgoes⟩
        | false => exact ⟨_, Effect.left hctl hgoes⟩
      · trivial
  | inner =>
      simp only [machine, step]
      split
      · next hctl => exact h.innerLoop hctl
      · trivial
  | ret =>
      simp only [machine, step]
      split
      · next p c hctl =>
        obtain ⟨hp, hout⟩ := h.running p c hctl
        obtain ⟨req, hreq⟩ := Option.isSome_iff_exists.mp hp
        rw [signal_cb_return, (h.sound.free hreq hout).1]
        exact ⟨_, Effect.returned hctl⟩
      · trivial
  | deliver sig =>
      simp only [machine, step]
      split
      · exact h.handleSignal sig
      · trivial
  | complete i res =>
      simp only [machine, step]
      apply h.sound.complete_holds i res
      intro env hsound hheap hout
      exact ⟨_, Effect.completed hsound hheap hout⟩

end Inv

/-! ## The invariant -/

/-- `signal.off` takes no context away that a NOP in flight carries. -/
def Guarded (s : Signals) : Act → Bool
  | .off sig => (s.listeners sig).all fun c => s.carriers c == 0
  | _ => true

theorem carriers_pos {p : Ptr} {c : Ptr} (hp : p ∈ s.env.outstanding)
    (hreq : s.env.heap.get? p = some (signalRequest c)) : 0 < s.carriers c :=
  List.countP_pos_iff.mpr ⟨p, hp, by simp [hreq, signalRequest]⟩

namespace Inv

theorem inv_init : init.Inv 0 where
  sound := Environment.sound_init
  request := by simp [init, Environment.init, Environment.outstanding]
  running := by simp [init]
  listed := by simp [init, listeners]
  invoked := by simp [init]

/-- A step that only touches the requests. -/
private theorem setEnv (h : s.Inv n) {env : Environment} {n' : Int} (hsound : env.Sound n')
    (hrequest : ∀ p ∈ env.outstanding,
      ∃ sig, ∃ c ∈ s.listeners sig, env.heap.get? p = some (signalRequest c))
    (hrunning : ∀ p c, s.ctl = .callback p c → (env.heap.get? p).isSome ∧ p ∉ env.outstanding) :
    Inv { s with env } n' :=
  ⟨hsound, hrequest, hrunning, h.listed, h.invoked⟩

/-- A step that leaves the requests in flight and the heap as they are. -/
private theorem setLedger (h : s.Inv n) {env : Environment} {n' : Int} (hsound : env.Sound n')
    (hheap : env.heap = s.env.heap) (hout : ∀ p, p ∈ env.outstanding ↔ p ∈ s.env.outstanding) :
    Inv { s with env } n' := by
  apply h.setEnv hsound
  · intro p hp
    rw [hheap]
    exact h.request p ((hout p).mp hp)
  · intro p c hctl
    rw [hheap, hout]
    exact h.running p c hctl

/-- A step that only moves the program counter, and not into a callback. -/
private theorem setCtl (h : s.Inv n) {c : Ctl} (hc : ∀ p ctx, c ≠ .callback p ctx) :
    Inv { s with ctl := c } n :=
  ⟨h.sound, h.request, fun p ctx heq => absurd heq (hc p ctx), h.listed, h.invoked⟩

private theorem registered (h : s.Inv n) (object : Option JsFunction) (sig : Int32) :
    (s.RegisterSignal object sig).Inv n := by
  obtain ⟨henv, hctl, hinvoked⟩ := frame_register s object sig
  refine ⟨by rw [henv]; exact h.sound, ?_, by rw [henv, hctl]; exact h.running, ?_, ?_⟩
  · intro p hp
    rw [henv] at hp ⊢
    obtain ⟨q, c, hc, hget⟩ := h.request p hp
    refine ⟨q, c, ?_, hget⟩
    rw [listeners_register]
    split
    · next heq => exact List.mem_append_left _ (heq ▸ hc)
    · exact hc
  · intro q c hc
    rw [contexts_register]
    rw [listeners_register] at hc
    split at hc
    · next heq =>
      subst heq
      rcases List.mem_append.mp hc with hc | hc
      · obtain ⟨ctx, hctx, hsig⟩ := h.listed q c hc
        exact ⟨ctx, Heap.get?_alloc_of_some hctx, hsig⟩
      · obtain rfl := List.mem_singleton.mp hc
        exact ⟨_, Heap.get?_alloc_top _ _, rfl⟩
    · obtain ⟨ctx, hctx, hsig⟩ := h.listed q c hc
      exact ⟨ctx, Heap.get?_alloc_of_some hctx, hsig⟩
  · intro c hc
    rw [hinvoked] at hc
    rw [contexts_register, Heap.top_alloc]
    exact Nat.lt_succ_of_lt (h.invoked c hc)

private theorem unregistered (h : s.Inv n) {sig : Int32} (hguarded : s.Guarded (.off sig)) :
    (s.UnRegisterSignal sig).Inv n := by
  refine ⟨h.sound, ?_, h.running, ?_, h.invoked⟩
  · intro p hp
    obtain ⟨q, c, hc, hget⟩ := h.request p hp
    refine ⟨q, c, ?_, hget⟩
    rw [listeners_unregister]
    split
    · next heq =>
      -- a NOP of the signal is in flight, and `off` may not be called
      have hzero : s.carriers c = 0 := by simpa using List.all_eq_true.mp hguarded c (heq ▸ hc)
      have hpos : 0 < s.carriers c := carriers_pos hp hget
      exact absurd hzero (Nat.ne_of_gt hpos)
    · exact hc
  · intro q c hc
    exact h.listed q c (of_mem_unregister hc).2

private theorem called (h : s.Inv n) {c : Cqe} {ctx : Ptr} {sig : Int32} {env : Environment}
    (hreq : s.env.heap.get? c.user_data = some (signalRequest ctx))
    (hmem : ctx ∈ s.listeners sig) (hsound : env.Sound n) (hreaps : s.env.Reaps c env) :
    Inv { s with env, ctl := .callback c.user_data ctx, invoked := s.invoked ++ [ctx] } n := by
  refine ⟨hsound, ?_, ?_, h.listed, ?_⟩
  · intro p hp
    have hne : p ≠ c.user_data := fun heq => hreaps.reaped (heq ▸ hp)
    rw [hreaps.heap, Heap.get?_modify_ne hne]
    exact h.request p (hreaps.outstanding.mem_iff.mpr (List.mem_cons_of_mem _ hp))
  · intro p ctx' hctl
    obtain ⟨rfl, rfl⟩ := Ctl.callback.inj hctl
    refine ⟨?_, hreaps.reaped⟩
    rw [hreaps.heap, Heap.get?_modify_self hreq]
    rfl
  · intro c' hc'
    rcases List.mem_append.mp hc' with hc' | hc'
    · exact h.invoked c' hc'
    · obtain rfl := List.mem_singleton.mp hc'
      obtain ⟨w, hw, -⟩ := h.listed sig c' hmem
      exact Heap.lt_top_of_get? hw

private theorem returned (h : s.Inv n) {p c : Ptr} (hctl : s.ctl = .callback p c) :
    Inv { s with env := { s.env with heap := s.env.heap.free p }, ctl := .inner } n := by
  obtain ⟨hp, hout⟩ := h.running p c hctl
  obtain ⟨req, hreq⟩ := Option.isSome_iff_exists.mp hp
  refine ⟨(h.sound.free hreq hout).2, ?_, by simp, h.listed, h.invoked⟩
  intro q hq
  have hne : q ≠ p := fun heq => hout (heq ▸ hq)
  rw [Heap.get?_free_ne hne]
  exact h.request q hq

private theorem delivered (h : s.Inv n) {sig : Int32} {env : Environment} (hsound : env.Sound n)
    (hsubs : SubmitsAll ((s.listeners sig).map signalRequest) s.env env) :
    Inv { s with env } n := by
  apply h.setEnv hsound
  · intro p hp
    rcases hsubs.outstanding p hp with hp | ⟨-, req, hreq, hget⟩
    · obtain ⟨q, c, hc, hget⟩ := h.request p hp
      exact ⟨q, c, hc, hsubs.heap p _ hget⟩
    · obtain ⟨c, hc, rfl⟩ := List.mem_map.mp hreq
      exact ⟨sig, c, hc, hget⟩
  · intro p c hctl
    obtain ⟨hp, hout⟩ := h.running p c hctl
    obtain ⟨req, hreq⟩ := Option.isSome_iff_exists.mp hp
    refine ⟨by rw [hsubs.heap p req hreq]; rfl, fun hp => ?_⟩
    rcases hsubs.outstanding p hp with hp | ⟨htop, -⟩
    · exact hout hp
    · exact absurd htop (Nat.not_le_of_lt (Heap.lt_top_of_get? hreq))

end Inv

/-- A guarded step keeps the invariant. -/
theorem Effect.inv (he : Effect s n a d t) (h : s.Inv n) (hguarded : s.Guarded a) :
    t.Inv (n + d) := by
  have hkeep : ∀ {u : Signals}, u.Inv n → u.Inv (n + 0) := fun hu => by rwa [Int.add_zero]
  cases he with
  | registered => exact hkeep (h.registered _ _)
  | unregistered => exact hkeep (h.unregistered hguarded)
  | ref => exact h.setLedger h.sound.inc rfl fun _ => Iff.rfl
  | unref => exact h.setLedger h.sound.dec rfl fun _ => Iff.rfl
  | stopped => exact hkeep (h.setLedger h.sound.stop rfl fun _ => Iff.rfl)
  | started hctl => exact hkeep (h.setCtl (by simp))
  | waited hctl hgoes =>
      have hout := h.sound.submitAndWait.2
      have hinv := h.setLedger h.sound.submitAndWait.1 rfl fun _ => by rw [hout]
      exact hkeep (hinv.setCtl (by simp))
  | left hctl hgoes => exact hkeep (h.setCtl (by simp))
  | drained hctl => exact hkeep (h.setCtl (by simp))
  | called hctl hreq hmem hsound hreaps => exact hkeep (h.called hreq hmem hsound hreaps)
  | returned hctl => exact hkeep (h.returned hctl)
  | delivered hsound hsubs => exact hkeep (h.delivered hsound hsubs)
  | completed hsound hheap hout =>
      exact hkeep (h.setLedger hsound hheap fun _ => hout.mem_iff)

theorem preserves_inv :
    machine.PreservesWhen (fun s a => s.Guarded a) fun s => ∃ n, s.Inv n := by
  rintro s a ⟨n, h⟩ hguarded
  exact (h.effect a).imp fun t ⟨d, he⟩ => ⟨_, he.inv h hguarded⟩

theorem effect_of_step (h : s.Inv n) (hstep : machine.step s a = .next t) :
    ∃ d, Effect s n a d t := (h.effect a).of_next hstep

/-! ## Removing listeners -/

/-- What holds at the end of the run `as`. -/
structure Consistent (as : List Act) (s : Signals) : Prop where
  /-- The context of every NOP in flight, for which `signal_cb` may run next. -/
  owned : ∀ p ∈ s.env.outstanding, ∀ req, s.env.heap.get? p = some req → s.owned req.data = true
  /-- No listener from before a `signal.off` of its signal is invoked after it. -/
  silent : ∀ pre sig post, as = pre ++ .off sig :: post →
    ∀ s₁, machine.run (pre ++ [.off sig]) = .next s₁ →
      ∀ c ctx, s₁.contexts.get? c = some ctx → ctx.sig = sig →
        s.invoked.count c = s₁.invoked.count c

/-- The context `c` is in no vector, now and later, and was invoked `k` times. -/
structure Removed (c : Ptr) (k : Nat) (s : Signals) : Prop where
  inv : ∃ n, s.Inv n
  absent : ∀ sig, c ∉ s.listeners sig
  allocated : c < s.contexts.top
  count : s.invoked.count c = k

theorem keeps_removed (c : Ptr) (k : Nat) :
    machine.KeepsWhen (fun s a => s.Guarded a) (Removed c k) := by
  rintro s a t ⟨⟨n, h⟩, habsent, halloc, hcount⟩ hguarded hstep
  obtain ⟨d, he⟩ := effect_of_step h hstep
  have hinv := he.inv h hguarded
  cases he with
  | @registered object sig =>
      obtain ⟨-, -, hinvoked⟩ := frame_register s object sig
      refine ⟨⟨_, hinv⟩, ?_, ?_, by rw [hinvoked, hcount]⟩
      · intro q hq
        rw [listeners_register] at hq
        split at hq
        · rcases List.mem_append.mp hq with hq | hq
          · exact habsent sig hq
          · exact Nat.ne_of_lt halloc (List.mem_singleton.mp hq)
        · exact habsent q hq
      · rw [contexts_register, Heap.top_alloc]
        exact Nat.lt_succ_of_lt halloc
  | unregistered =>
      refine ⟨⟨_, hinv⟩, ?_, halloc, hcount⟩
      exact fun q hq => habsent q (of_mem_unregister hq).2
  | @called _ ctx sig _ hctl hreq hmem hsound hreaps =>
      -- what is invoked is in a vector
      have hne : ctx ≠ c := fun heq => habsent sig (heq ▸ hmem)
      exact ⟨⟨_, hinv⟩, habsent, halloc, by simpa [hne] using hcount⟩
  | _ => exact ⟨⟨_, hinv⟩, habsent, halloc, hcount⟩

/-- `signal.off` removes every listener of its signal. -/
theorem removed_of_off {sig : Int32} (h : s.Inv n) (hguarded : s.Guarded (.off sig))
    (hstep : machine.step s (.off sig) = .next t) {c : Ptr} {ctx : SignalRequestContext}
    (hctx : t.contexts.get? c = some ctx) (hsig : ctx.sig = sig) :
    Removed c (t.invoked.count c) t := by
  obtain ⟨d, he⟩ := effect_of_step h hstep
  have hinv := he.inv h hguarded
  cases he with
  | unregistered =>
      refine ⟨⟨_, hinv⟩, ?_, Heap.lt_top_of_get? hctx, rfl⟩
      intro q hq
      obtain ⟨hne, hmem⟩ := of_mem_unregister hq
      obtain ⟨w, hw, hwsig⟩ := h.listed q c hmem
      obtain rfl := Option.some.inj (hctx.symm.trans hw)
      exact hne (hwsig.symm.trans hsig)

/-- **Removed listeners.**  In a run where `signal.off` is called only while no
    NOP for a listener of that signal is in flight, `signal_cb` always reads a
    context that `signalMap` owns, and a listener that was removed is not invoked
    again. -/
theorem removed_listeners (as : List Act) (h : machine.StepsMeet (fun s a => s.Guarded a) init as) :
    (machine.run as).Holds (Consistent as) := by
  have hrun := preserves_inv.run ⟨0, Inv.inv_init⟩ as h
  cases hs : machine.run as with
  | disabled => trivial
  | fault => rw [hs] at hrun; exact hrun
  | next s =>
      obtain ⟨n, hinv⟩ := hrun.of_next hs
      refine ⟨?_, ?_⟩
      · intro p hp req hreq
        obtain ⟨sig, c, hc, hget⟩ := hinv.request p hp
        obtain rfl := Option.some.inj (hreq.symm.trans hget)
        exact owned_of_mem hc
      · rintro pre sig post rfl s₁ hs₁ c ctx hctx hsig
        -- the run up to the `off`, the `off` itself, and what comes after it
        obtain ⟨hpre, hrest⟩ := h.of_append
        rw [run_split, hs₁, Outcome.bind_next] at hs
        rw [run_concat] at hs₁
        obtain ⟨s₀, hs₀, hoff⟩ := Outcome.bind_eq_next.mp hs₁
        obtain ⟨hguarded, hpost⟩ := hrest s₀ hs₀
        obtain ⟨m, hinv₀⟩ := (preserves_inv.run ⟨0, Inv.inv_init⟩ pre hpre).of_next hs₀
        have hremoved := removed_of_off hinv₀ hguarded hoff hctx hsig
        exact ((keeps_removed c _).runFrom post s₁ s hremoved (hpost s₁ hoff) hs).count

/-- SIGUSR1 reaches two listeners, the second of which removes both. -/
def offActs : List Act :=
  [.on (some 0) 10, .on (some 1) 10, .deliver 10, .run, .outer, .complete 0 0, .complete 0 0,
    .inner, .ret, .inner, .off 10, .deliver 10, .ret, .inner]

theorem removed_listeners_off :
    machine.StepsMeet (fun s a => s.Guarded a) init offActs ∧
      ∃ s, machine.run offActs = .next s ∧ s.invoked = [0, 1] ∧ Consistent offActs s :=
  have h : machine.StepsMeet (fun s a => s.Guarded a) init offActs := by decide
  ⟨h, _, rfl, rfl, (removed_listeners offActs h).of_next rfl⟩

/-- `signal.off` between a delivery and the completion of its NOP. -/
def lateActs : List Act :=
  [.on (some 0) 10, .deliver 10, .off 10, .run, .outer, .complete 0 0, .inner]

theorem removed_listener_read : ¬ ∀ as, (machine.run as).Holds (Consistent as) := by
  intro h
  have hfault : machine.run lateActs = .fault := rfl
  have hrun := h lateActs
  rw [hfault] at hrun
  exact hrun

/-! ## Every delivery reaches every listener -/

/-- How often `sig` is delivered in the steps `as`. -/
def deliveries (sig : Int32) (as : List Act) : Nat := as.count (.deliver sig)

/-- In the run `as` that led to `s`, every listener was invoked once for each
    delivery of its signal after its registration, and for no other. -/
def ReachedOnce (as : List Act) (s : Signals) : Prop :=
  ∀ pre object sig post, as = pre ++ .on object sig :: post →
    ∀ s₁, machine.run pre = .next s₁ →
      s.invoked.count s₁.contexts.top = deliveries sig post

/-- The context `c` listens to `sig`; its callbacks and its NOPs in flight are
    `k` together. -/
structure Listening (c : Ptr) (sig : Int32) (k : Nat) (s : Signals) : Prop where
  inv : ∃ n, s.Inv n
  once : (s.listeners sig).count c = 1
  reached : s.invoked.count c + s.carriers c = k

namespace Listening

variable {c : Ptr} {sig : Int32} {k : Nat}

theorem mem (h : Listening c sig k s) : c ∈ s.listeners sig :=
  List.count_pos_iff.mp (by rw [h.once]; exact Nat.one_pos)

/-- A context listens to one signal. -/
theorem other (h : Listening c sig k s) {q : Int32} (hq : q ≠ sig) : c ∉ s.listeners q := by
  intro hmem
  obtain ⟨n, hinv⟩ := h.inv
  obtain ⟨ctx, hctx, hsig⟩ := hinv.listed sig c h.mem
  obtain ⟨w, hw, hwsig⟩ := hinv.listed q c hmem
  obtain rfl := Option.some.inj (hctx.symm.trans hw)
  exact hq (hwsig.symm.trans hsig)

/-- A step that neither invokes nor submits for the listener. -/
theorem frame (h : Listening c sig k s) (hinv : ∃ n, t.Inv n)
    (honce : (t.listeners sig).count c = (s.listeners sig).count c)
    (hinvoked : t.invoked = s.invoked) (hcarriers : t.carriers c = s.carriers c) :
    Listening c sig k t :=
  ⟨hinv, honce.trans h.once, by rw [hinvoked, hcarriers]; exact h.reached⟩

/-- One NOP for each listener of the signal, so one for this one or none. -/
theorem carriers_delivered (h : Listening c sig k s) {q : Int32} {env : Environment}
    (hsubs : SubmitsAll ((s.listeners q).map signalRequest) s.env env) :
    carriers { s with env } c = s.carriers c + if q = sig then 1 else 0 := by
  have hcount : ((s.listeners q).map signalRequest).countP (fun req => req.data == c)
      = (s.listeners q).count c := by
    rw [List.countP_map]
    rfl
  rw [carriers, hsubs.tally, hcount, carriers]
  split
  · next heq => rw [heq, h.once]
  · next hne => rw [List.count_eq_zero_of_not_mem (h.other hne)]

theorem effect (h : Listening c sig k s) (he : Effect s n a d t) (hinv : ∃ n, t.Inv n)
    (hsound : s.Inv n) (hoff : ∀ q, a ≠ .off q) :
    Listening c sig (k + deliveries sig [a]) t := by
  cases he with
  | @registered object q =>
      obtain ⟨henv, -, hinvoked⟩ := frame_register s object q
      refine h.frame hinv ?_ hinvoked (by rw [carriers, henv, carriers])
      obtain ⟨ctx, hctx, -⟩ := hsound.listed sig c h.mem
      have hne : s.contexts.top ≠ c := (Nat.ne_of_lt (Heap.lt_top_of_get? hctx)).symm
      rw [listeners_register]
      split
      · next heq => simp [heq, hne]
      · rfl
  | unregistered => exact absurd rfl (hoff _)
  | waited hctl hgoes =>
      have hout := hsound.sound.submitAndWait.2
      exact h.frame hinv rfl rfl (Environment.tally_congr (by rw [hout]) fun _ _ => rfl)
  | @called cqe ctx q env hctl hreq hmem hsound' hreaps =>
      -- a callback in exchange for a NOP with the same context
      have hreap : s.carriers c = env.tally (fun req => req.data == c) + if ctx = c then 1 else 0 := by
        rw [carriers, Environment.tally_reap hreq hreaps]
        simp [signalRequest]
      have hinvoked : (s.invoked ++ [ctx]).count c = s.invoked.count c + if ctx = c then 1 else 0 := by
        simp [List.count_singleton]
      refine ⟨hinv, h.once, ?_⟩
      have hreached := h.reached
      show (s.invoked ++ [ctx]).count c + env.tally (fun req => req.data == c) = k + 0
      omega
  | returned hctl =>
      exact h.frame hinv rfl rfl (Environment.tally_free (hsound.running _ _ hctl).2)
  | @delivered q env hsound' hsubs =>
      have hcarriers := h.carriers_delivered hsubs
      refine ⟨hinv, h.once, ?_⟩
      rw [hcarriers, ← Nat.add_assoc, h.reached]
      simp [deliveries, List.count_singleton]
  | completed hsound' hheap hout =>
      exact h.frame hinv rfl rfl (Environment.tally_congr hout fun p _ => by rw [hheap])
  | _ => exact h.frame hinv rfl rfl rfl

end Listening

theorem guarded_of_not_off (h : ∀ q, a ≠ .off q) : s.Guarded a := by
  cases a with
  | off q => exact absurd rfl (h q)
  | _ => rfl

/-- A new listener of the signal, with nothing in flight. -/
theorem listening_of_on {object : Option JsFunction} {sig : Int32} (h : s.Inv n)
    (hstep : machine.step s (.on object sig) = .next t) :
    Listening s.contexts.top sig 0 t := by
  obtain ⟨d, he⟩ := effect_of_step h hstep
  have hinv := he.inv h rfl
  cases he with
  | registered =>
      obtain ⟨henv, -, hinvoked⟩ := frame_register s object sig
      refine ⟨⟨_, hinv⟩, ?_, ?_⟩
      · have hnew : s.contexts.top ∉ s.listeners sig := by
          intro hmem
          obtain ⟨ctx, hctx, -⟩ := h.listed sig _ hmem
          exact Nat.lt_irrefl _ (Heap.lt_top_of_get? hctx)
        rw [listeners_register, if_pos rfl, List.count_append,
          List.count_eq_zero_of_not_mem hnew, List.count_singleton_self]
      · have hquiet : s.invoked.count s.contexts.top = 0 :=
          List.count_eq_zero_of_not_mem fun hmem => Nat.lt_irrefl _ (h.invoked _ hmem)
        have hnone : s.carriers s.contexts.top = 0 := by
          apply List.countP_eq_zero.mpr
          intro p hp
          obtain ⟨q, c, hc, hget⟩ := h.request p hp
          obtain ⟨ctx, hctx, -⟩ := h.listed q c hc
          have hne : c ≠ s.contexts.top := Nat.ne_of_lt (Heap.lt_top_of_get? hctx)
          simpa [hget, signalRequest] using hne
        rw [hinvoked, hquiet, carriers, henv]
        exact (Nat.zero_add _).trans hnone

theorem Listening.runFrom {c : Ptr} {sig : Int32} :
    ∀ (as : List Act) (k : Nat) (s t : Signals), Listening c sig k s → (∀ q, Act.off q ∉ as) →
      machine.runFrom s as = .next t → Listening c sig (k + deliveries sig as) t := by
  intro as
  induction as with
  | nil =>
      rintro k s t h - hrun
      exact Outcome.next.inj hrun ▸ h
  | cons a as ih =>
      intro k s t h hoff hrun
      rw [runFrom_cons] at hrun
      obtain ⟨u, hstep, hrest⟩ := Outcome.bind_eq_next.mp hrun
      have hnot : ∀ q, a ≠ .off q := fun q heq => hoff q (heq ▸ List.mem_cons_self ..)
      obtain ⟨n, hinv⟩ := h.inv
      obtain ⟨d, he⟩ := effect_of_step hinv hstep
      have hu := h.effect he ⟨_, he.inv hinv (guarded_of_not_off hnot)⟩ hinv hnot
      have ht := ih _ u t hu (fun q hq => hoff q (List.mem_cons_of_mem _ hq)) hrest
      rwa [show k + deliveries sig (a :: as) = k + deliveries sig [a] + deliveries sig as by
        rw [Nat.add_assoc, deliveries, ← List.singleton_append, List.count_append]; rfl]

/-- **Each delivery reaches each listener once.**  In a run without `signal.off`,
    whenever no NOP is in flight, every listener has been invoked once for each
    delivery of its signal after its registration. -/
theorem listeners_reached (as : List Act) (h : ∀ sig, Act.off sig ∉ as) :
    (machine.run as).Holds fun s => s.env.outstanding = [] → ReachedOnce as s := by
  have hmeet : machine.StepsMeet (fun s a => s.Guarded a) init as :=
    StepsMeet.of_mem (fun a ha s => guarded_of_not_off fun q heq => h q (heq ▸ ha)) init
  have hrun := preserves_inv.run ⟨0, Inv.inv_init⟩ as hmeet
  cases hs : machine.run as with
  | disabled => trivial
  | fault => rw [hs] at hrun; exact hrun
  | next s =>
      rintro hidle pre object sig post rfl s₁ hs₁
      -- the run up to the registration, the registration, and what comes after it
      rw [run_split, run_concat, hs₁, Outcome.bind_next] at hs
      obtain ⟨s₂, hon, hpost⟩ := Outcome.bind_eq_next.mp hs
      obtain ⟨n, hinv⟩ := (preserves_inv.run ⟨0, Inv.inv_init⟩ pre hmeet.of_append.1).of_next hs₁
      have hoff : ∀ q, Act.off q ∉ post := fun q hq => h q (by simp [hq])
      have hreached := ((listening_of_on hinv hon).runFrom post 0 s₂ s hoff hpost).reached
      -- with nothing in flight the callbacks alone make up the count
      have hnone : s.carriers s₁.contexts.top = 0 := by
        rw [carriers, Environment.tally, hidle, List.countP_nil]
      rwa [hnone, Nat.add_zero, Nat.zero_add] at hreached

/-- Two listeners of SIGUSR1, the second registered between two deliveries, and
    one of SIGHUP. -/
def onActs : List Act :=
  [.on (some 0) 10, .on none 1, .deliver 10, .on (some 1) 10, .deliver 10, .run, .outer,
    .complete 1 0, .complete 0 0, .complete 0 0, .inner, .ret, .inner, .ret, .inner, .ret]

theorem listeners_reached_twice :
    ∃ s, machine.run onActs = .next s ∧ s.env.outstanding = [] ∧ s.invoked = [0, 0, 2] ∧
      ReachedOnce onActs s :=
  ⟨_, rfl, rfl, rfl, (listeners_reached onActs (by simp [onActs])).of_next rfl rfl⟩

end Signals

end NoJs.Signal
