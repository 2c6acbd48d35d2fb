/-
  NoJs.Timer.Finality

  Clearing a timer is final, one-shot timers fire at most once, and no callback
  runs more often than its expiry was handled.

  A NOP carries the id of its timer, not its context, so several NOPs of a timer
  that was cleared or has fired may still be in flight; what keeps them from
  starting a callback is that `timer_cb` looks the id up.  `Observed` is the
  machine of NoJs.Timer.Machine with the ghost records this is stated about, and
  `Ledger` the invariant: per entry of `timerMap`, the callbacks started and the
  NOPs in flight with its id together are at most the expiries handled.

  A timer is identified by its context, which is a new block for each call; the
  id may be handed out again, but not while a NOP in flight carries it.
-/

import NoJs.Timer.Invariant

namespace NoJs.Timer

open Machine IoUring

namespace Timers

/-- How many requests in flight carry `id`. -/
def carriers (s : Timers) (id : TimerId) : Nat :=
  s.env.tally fun req => UInt64.ofNat req.data == id

/-- A context that is out of `timerMap` for good. -/
structure Dead (s : Timers) (c : Ptr) : Prop where
  absent : ∀ id, s.timerMap.find id ≠ some c
  dropped : ∀ g, s.registration = some g → g.ctx ≠ c
  allocated : c < s.contexts.top

end Timers

structure Observed where
  timers : Timers
  /-- The context of every timer that `timer_create` made, with its interval. -/
  created : List (Ptr × Int32)
  /-- The contexts whose expiry `signalHandler` was run for. -/
  handled : List Ptr
  /-- The contexts `timer_cb` found, once for each time it called makeCallback. -/
  started : List Ptr

namespace Observed

def init : Observed := ⟨.init, [], [], []⟩

/-- The timer a step creates. -/
def creates (s : Observed) : Timers.Act → List (Ptr × Int32)
  | .setTimer _ _ interval (some _) => [(s.timers.contexts.top, interval)]
  | _ => []

/-- The context whose expiry a step handles. -/
def handles (s : Observed) : Timers.Act → List Ptr
  | .expire id => ((s.timers.kernel id).map (·.sival)).toList
  | _ => []

/-- The context whose callback a step into `t` starts. -/
def starts (t : Timers) : Timers.Act → List Ptr
  | .inner =>
      match t.ctl with
      | .callback _ _ c => [c]
      | _ => []
  | _ => []

def step (s : Observed) (a : Timers.Act) : Outcome Observed :=
  (Timers.machine.step s.timers a).bind fun t => .next
    { timers := t
      created := s.created ++ s.creates a
      handled := s.handled ++ s.handles a
      started := s.started ++ starts t a }

/-- The timers with what is observed of them. -/
def machine : Machine Observed Timers.Act := ⟨init, step⟩

/-- `timer_create` does not return an id that a NOP request in flight carries. -/
def Fresh (s : Observed) : Timers.Act → Prop
  | .setTimer _ _ _ (some id) => s.timers.carriers id = 0
  | _ => True

instance (s : Observed) : ∀ a, Decidable (s.Fresh a)
  | .setTimer _ _ _ (some _) => inferInstanceAs (Decidable (_ = _))
  | .setTimer _ _ _ none => isTrue trivial
  | .timerHandler => isTrue trivial
  | .clearTimer _ => isTrue trivial
  | .stop => isTrue trivial
  | .run => isTrue trivial
  | .outer => isTrue trivial
  | .inner => isTrue trivial
  | .ret => isTrue trivial
  | .expire _ => isTrue trivial
  | .complete _ _ => isTrue trivial

/-- What holds at the end of the run `as`. -/
structure Final (as : List Timers.Act) (s : Observed) : Prop where
  /-- No timer of the id starts its callback after the `clearTimer` of the id. -/
  cleared : ∀ pre arg post, as = pre ++ .clearTimer arg :: post →
    ∀ s₁, machine.run (pre ++ [.clearTimer arg]) = .next s₁ →
      ∀ c ctx, s₁.timers.contexts.get? c = some ctx → ctx.timer_id = UInt64.ofInt arg →
        s.started.count c = s₁.started.count c
  once : ∀ c, (c, 0) ∈ s.created → s.started.count c ≤ 1
  handled : ∀ c, s.started.count c ≤ s.handled.count c

end Observed

namespace Timers

/-! ## NOPs in flight -/

variable {s t : Timers} {n d : Int} {a : Act} {q : TimerId}

theorem carriers_congr (henv : t.env.outstanding.Perm s.env.outstanding)
    (hheap : ∀ p ∈ s.env.outstanding, t.env.heap.get? p = s.env.heap.get? p) :
    t.carriers q = s.carriers q :=
  Environment.tally_congr henv hheap

theorem carriers_submit (h : s.env.Sound n) {id : TimerId}
    (hheap : t.env.heap = s.env.heap.alloc (timerRequest id))
    (hsub : Environment.Submits s.env.heap.top s.env t.env) :
    t.carriers q = s.carriers q + if id = q then 1 else 0 := by
  rw [carriers, Environment.tally_submit h hheap hsub, carriers]
  simp [timerRequest]

theorem carriers_reap {id : TimerId} {c : Cqe}
    (hreq : s.env.heap.get? c.user_data = some (timerRequest id))
    (hreaps : s.env.Reaps c t.env) : s.carriers q = t.carriers q + if id = q then 1 else 0 := by
  rw [carriers, Environment.tally_reap hreq hreaps, carriers]
  simp [timerRequest]

/-! ## Contexts that are out of the map -/

/-- The context an entry points to is that of its id. -/
theorem Core.find_context (h : s.Core n) {id : TimerId} {c : Ptr}
    (hfind : s.timerMap.find id = some c) :
    ∃ ctx, s.contexts.get? c = some ctx ∧ ctx.timer_id = id := by
  obtain ⟨u, hu, rfl⟩ := h.entry id c hfind
  obtain ⟨ctx, hctx, hid, -⟩ := h.context id u hu
  exact ⟨ctx, hctx, hid⟩

theorem Effect.contexts_top (he : Effect s n a d t) : s.contexts.top ≤ t.contexts.top := by
  cases he with
  | createFailed hreg => exact Nat.le_succ _
  | created hreg hfree hid hflags => exact Nat.le_succ _
  | _ => exact Nat.le_refl _

/-- Only a new context enters the map. -/
theorem Effect.dead (he : Effect s n a d t) {c : Ptr} (h : s.Dead c) : t.Dead c := by
  have htop := Nat.lt_of_lt_of_le h.allocated he.contexts_top
  cases he with
  | created hreg hfree hid hflags =>
      refine ⟨h.absent, ?_, htop⟩
      intro g hg
      obtain rfl := Option.some.inj hg
      exact Nat.ne_of_gt h.allocated
  | @settime g _ ctx hreg hstage ht hg =>
      refine ⟨h.absent, ?_, htop⟩
      intro g' hg'
      obtain rfl := Option.some.inj hg'
      exact h.dropped g hreg
  | settimeFailed hreg hstage => exact ⟨h.absent, by simp, htop⟩
  | @inserted g t ctx hreg hstage ht hg =>
      refine ⟨?_, ?_, htop⟩
      · intro id hid
        simp only [StdMap.find_insert (hg.find_none (.inr hstage))] at hid
        split at hid
        · exact h.dropped g hreg (Option.some.inj hid)
        · exact h.absent id hid
      · intro g' hg'
        obtain rfl := Option.some.inj hg'
        exact h.dropped g hreg
  | returned hreg hstage => exact ⟨h.absent, by simp [timerReturn], htop⟩
  | cleared hreg =>
      refine ⟨?_, h.dropped, htop⟩
      intro id hid
      exact h.absent id (StdMap.of_find_erase hid).2
  | fired hctl hreg hctx hone =>
      refine ⟨?_, h.dropped, htop⟩
      intro id hid
      exact h.absent id (StdMap.of_find_erase hid).2
  | _ => exact ⟨h.absent, h.dropped, htop⟩

/-- Erasing an id takes the contexts of the id out of the map. -/
theorem Core.dead_of_erase (h : s.Core n) {id : TimerId} {c : Ptr} {ctx : TimerRequestContext}
    (hctx : s.contexts.get? c = some ctx) (hid : ctx.timer_id = id)
    (hmap : t.timerMap = s.timerMap.erase id) (hreg : t.registration = none)
    (hcontexts : t.contexts = s.contexts) : t.Dead c := by
  refine ⟨?_, by simp [hreg], hcontexts ▸ Heap.lt_top_of_get? hctx⟩
  intro q hq
  rw [hmap] at hq
  obtain ⟨hne, hfind⟩ := StdMap.of_find_erase hq
  obtain ⟨ctx', hctx', hq'⟩ := h.find_context hfind
  obtain rfl := Option.some.inj (hctx.symm.trans hctx')
  exact hne (hq'.symm.trans hid)

/-- An expiry without an entry touches neither the map nor the contexts. -/
theorem Missed.dead {id : TimerId} (hm : s.Missed id t) {c : Ptr} (h : s.Dead c) : t.Dead c := by
  obtain ⟨u, -, -, -, rfl⟩ := hm
  exact ⟨h.absent, h.dropped, h.allocated⟩

end Timers

namespace Observed

variable {s t : Observed} {n : Int} {a : Timers.Act}

theorem step_timers (hstep : machine.step s a = .next t) :
    ∃ u, Timers.machine.step s.timers a = .next u ∧
      t = ⟨u, s.created ++ s.creates a, s.handled ++ s.handles a, s.started ++ starts u a⟩ := by
  obtain ⟨u, hu, ht⟩ := Outcome.bind_eq_next.mp hstep
  exact ⟨u, hu, (Outcome.next.inj ht).symm⟩

/-- A callback starts only for the context the map has. -/
theorem starts_effect {u v : Timers} {d : Int} (he : Timers.Effect u n a d v) :
    starts v a = [] ∨ ∃ id c, u.timerMap.find id = some c ∧ starts v a = [c] := by
  cases he with
  | @called _ id c _ hctl hreq hfind hsound hreaps => exact Or.inr ⟨id, c, hfind, rfl⟩
  | ignored hctl hreq hfind hsound hreaps => simp [starts, hctl]
  | _ => exact Or.inl rfl

theorem keeps_core : machine.Keeps fun s => ∃ n, s.timers.Core n := by
  rintro s a t ⟨n, h⟩ hstep
  obtain ⟨u, hu, rfl⟩ := step_timers hstep
  exact h.of_step hu

/-! ## Clearing is final -/

/-- The context `c` is out of the map for good, and its callback was started
    `k` times. -/
structure Closed (c : Ptr) (k : Nat) (s : Observed) : Prop where
  core : ∃ n, s.timers.Core n
  dead : s.timers.Dead c
  count : s.started.count c = k

theorem keeps_closed (c : Ptr) (k : Nat) : machine.Keeps (Closed c k) := by
  rintro s a t ⟨⟨n, h⟩, hdead, hcount⟩ hstep
  have hcore := keeps_core s a t ⟨n, h⟩ hstep
  obtain ⟨u, hu, rfl⟩ := step_timers hstep
  rcases h.step hu with ⟨d, he⟩ | ⟨id, rfl, hm⟩
  · refine ⟨hcore, he.dead hdead, ?_⟩
    rcases starts_effect he with hnone | ⟨q, c', hfind, hone⟩
    · simpa [hnone] using hcount
    · -- a context that is started is in the map
      have hne : c' ≠ c := fun heq => hdead.absent q (heq ▸ hfind)
      simpa [hone, List.count_cons, hne] using hcount
  · exact ⟨hcore, hm.dead hdead, by simpa [starts] using hcount⟩

/-- `clearTimer` closes every context of its id. -/
theorem closed_of_clear {arg : Int} (h : s.timers.Core n)
    (hstep : machine.step s (.clearTimer arg) = .next t) {c : Ptr} {ctx : TimerRequestContext}
    (hctx : t.timers.contexts.get? c = some ctx) (hid : ctx.timer_id = UInt64.ofInt arg) :
    Closed c (t.started.count c) t := by
  have hcore := keeps_core s _ t ⟨n, h⟩ hstep
  obtain ⟨u, hu, rfl⟩ := step_timers hstep
  rcases h.step hu with ⟨d, he⟩ | ⟨id, heq, -⟩
  · cases he with
    | cleared hreg =>
        exact ⟨hcore, Timers.Core.dead_of_erase h hctx hid rfl hreg rfl, rfl⟩
  · exact absurd heq (by simp)

theorem cleared (pre post : List Timers.Act) (arg : Int) {s₁ : Observed}
    (hpre : machine.run (pre ++ [.clearTimer arg]) = .next s₁)
    (hpost : machine.runFrom s₁ post = .next s) {c : Ptr} {ctx : TimerRequestContext}
    (hctx : s₁.timers.contexts.get? c = some ctx) (hid : ctx.timer_id = UInt64.ofInt arg) :
    s.started.count c = s₁.started.count c := by
  rw [run_concat] at hpre
  obtain ⟨s₀, hs₀, hclear⟩ := Outcome.bind_eq_next.mp hpre
  obtain ⟨n, hcore⟩ := keeps_core.run ⟨0, Timers.inv_init.core⟩ hs₀
  have hclosed := closed_of_clear hcore hclear hctx hid
  exact ((keeps_closed c _).runFrom hclosed hpost).count

/-! ## Expiries handled -/

/-- What the kernel's timers say about the expiries handled. -/
structure Expiries (s : Observed) : Prop where
  allocated : ∀ c, s.timers.contexts.top ≤ c → s.handled.count c = 0
  waiting : ∀ id t, s.timers.kernel id = some t → t.arming = .idle ∨ t.arming = .once →
    s.handled.count t.sival = 0
  once : ∀ c ctx, s.timers.contexts.get? c = some ctx → ctx.oneShot = true →
    s.handled.count c ≤ 1
  created : ∀ c, (c, 0) ∈ s.created →
    ∃ ctx, s.timers.contexts.get? c = some ctx ∧ ctx.oneShot = true

namespace Expiries

/-- A step that handles no expiry, creates no timer and sets none. -/
theorem frame (h : s.Expiries) (hkernel : ∀ id u, t.timers.kernel id = some u →
      s.timers.kernel id = some u)
    (hcontexts : t.timers.contexts = s.timers.contexts) (hcreated : t.created = s.created)
    (hhandled : t.handled = s.handled) : t.Expiries := by
  refine ⟨?_, ?_, ?_, ?_⟩
  · rw [hcontexts, hhandled]
    exact h.allocated
  · intro id u hu hset
    rw [hhandled]
    exact h.waiting id u (hkernel id u hu) hset
  · rw [hcontexts, hhandled]
    exact h.once
  · rw [hcontexts, hcreated]
    exact h.created

/-- A new context. -/
theorem alloc (h : s.Expiries) {ctx : TimerRequestContext} {new : List (Ptr × Int32)}
    (hcontexts : t.timers.contexts = s.timers.contexts.alloc ctx)
    (hcreated : t.created = s.created ++ new) (hhandled : t.handled = s.handled)
    (hnew : ∀ c, (c, 0) ∈ new → c = s.timers.contexts.top ∧ ctx.oneShot = true)
    (hkernel : ∀ id u, t.timers.kernel id = some u →
      s.timers.kernel id = some u ∨ u.sival = s.timers.contexts.top) : t.Expiries := by
  have hfresh := h.allocated s.timers.contexts.top (Nat.le_refl _)
  refine ⟨?_, ?_, ?_, ?_⟩
  · intro c hc
    rw [hcontexts] at hc
    rw [hhandled]
    exact h.allocated c (Nat.le_of_succ_le hc)
  · intro id u hu hset
    rw [hhandled]
    rcases hkernel id u hu with hold | hsival
    · exact h.waiting id u hold hset
    · rwa [hsival]
  · intro c w hw hone
    rw [hhandled]
    rw [hcontexts, Heap.get?_alloc] at hw
    split at hw
    · next heq => simp [heq, hfresh]
    · exact h.once c w hw hone
  · intro c hc
    rw [hcontexts]
    rcases List.mem_append.mp (hcreated ▸ hc) with hc | hc
    · obtain ⟨w, hw, hone⟩ := h.created c hc
      exact ⟨w, Heap.get?_alloc_of_some hw, hone⟩
    · obtain ⟨rfl, hone⟩ := hnew c hc
      exact ⟨ctx, Heap.get?_alloc_top _ _, hone⟩

/-- The expiry of a timer: a one-shot timer had none before. -/
theorem expiry (h : s.Expiries) (hcore : s.timers.Core n) {id : TimerId} {u : PosixTimer}
    (hu : s.timers.kernel id = some u) (harmed : u.arming.armed = true)
    (hkernel : t.timers.kernel = Function.update s.timers.kernel id (some (Timers.expiry u)))
    (hcontexts : t.timers.contexts = s.timers.contexts) (hcreated : t.created = s.created)
    (hhandled : t.handled = s.handled ++ [u.sival]) : t.Expiries := by
  obtain ⟨ctx, hctx, hid, hagrees⟩ := hcore.context id u hu
  have hother : ∀ c, c ≠ u.sival → t.handled.count c = s.handled.count c := by
    intro c hc
    simp [hhandled, Ne.symm hc]
  refine ⟨?_, ?_, ?_, ?_⟩
  · intro c hc
    rw [hcontexts] at hc
    rw [hother c (Nat.ne_of_gt (Nat.lt_of_lt_of_le (Heap.lt_top_of_get? hctx) hc))]
    exact h.allocated c hc
  · intro q u' hu' hset
    rw [hkernel] at hu'
    by_cases hq : q = id
    · -- after its expiry the timer is neither idle nor waiting for its only one
      subst hq
      rw [Function.update_self, Option.some.injEq, Timers.expiry] at hu'
      exfalso
      subst hu'
      split at hset
      · simp at hset
      · next honce =>
        rcases hset with hidle | hset
        · simp [hidle, Arming.armed] at harmed
        · exact honce hset
    · rw [Function.update_of_ne hq] at hu'
      have hne : u'.sival ≠ u.sival := by
        intro heq
        obtain ⟨ctx', hctx', hid', -⟩ := hcore.context q u' hu'
        rw [heq, hctx] at hctx'
        exact hq (hid'.symm.trans ((Option.some.inj hctx') ▸ hid))
      rw [hother _ hne]
      exact h.waiting q u' hu' hset
  · intro c w hw hone
    rw [hcontexts] at hw
    by_cases hc : c = u.sival
    · -- a one-shot timer that is armed has not gone off yet
      subst hc
      obtain rfl := Option.some.inj (hctx.symm.trans hw)
      have hset : u.arming = .once := by
        cases hset : u.arming with
        | idle => simp [hset, Arming.armed] at harmed
        | once => rfl
        | periodic => simp [hset, Arming.Agrees, hone] at hagrees
        | expired => simp [hset, Arming.armed] at harmed
      have hzero := h.waiting id u hu (Or.inr hset)
      simp [hhandled, hzero]
    · rw [hother c hc]
      exact h.once c w hw hone
  · rw [hcontexts, hcreated]
    exact h.created

theorem step (h : s.Expiries) (hcore : s.timers.Core n) (hstep : machine.step s a = .next t) :
    t.Expiries := by
  obtain ⟨u, hu, rfl⟩ := step_timers hstep
  rcases hcore.step hu with ⟨d, he⟩ | ⟨id, rfl, u', hu', harmed, -, rfl⟩
  · cases he with
    | createFailed hreg =>
        exact h.alloc rfl rfl (List.append_nil _) (by simp [creates]) fun _ _ hk => Or.inl hk
    | @created _ timeout interval id ctx hreg hfree hid hflags =>
        refine h.alloc rfl rfl (List.append_nil _) ?_ ?_
        · intro c hc
          obtain ⟨rfl, rfl⟩ : c = s.timers.contexts.top ∧ 0 = interval := by
            simpa [creates] using hc
          exact ⟨rfl, oneShot_iff hflags⟩
        · intro q v hv
          by_cases hq : q = id
          · subst hq
            simp only [Function.update_self, Option.some.injEq] at hv
            exact Or.inr (hv ▸ rfl)
          · simp only [Function.update_of_ne hq] at hv
            exact Or.inl hv
    | @settime g v ctx hreg hstage ht hg =>
        -- the timer was idle, so none of its expiries was handled
        refine ⟨?_, ?_, ?_, ?_⟩
        · simpa [handles] using h.allocated
        · intro q w hw hset
          by_cases hq : q = ctx.timer_id
          · subst hq
            simp only [Function.update_self, Option.some.injEq] at hw
            subst hw
            simpa [handles] using h.waiting _ v ht (Or.inl (hg.created hstage))
          · simp only [Function.update_of_ne hq] at hw
            simpa [handles] using h.waiting q w hw hset
        · simpa [handles] using h.once
        · simpa [creates] using h.created
    | cleared hreg =>
        exact h.frame (fun _ _ hk => (Timers.of_update_none hk).2) rfl (List.append_nil _)
          (List.append_nil _)
    | notified ht harmed hfind hsound hheap hsub =>
        exact h.expiry hcore ht harmed rfl rfl (List.append_nil _) (by simp [handles, ht])
    | lost ht harmed hwin =>
        exact h.expiry hcore ht harmed rfl rfl (List.append_nil _) (by simp [handles, ht])
    | _ => exact h.frame (fun _ _ hk => hk) rfl (List.append_nil _) (List.append_nil _)
  · exact h.expiry hcore hu' harmed rfl rfl (List.append_nil _) (by simp [handles, hu'])

end Expiries

/-! ## Callbacks started -/

/-- Callbacks started, NOPs in flight and expiries handled. -/
structure Ledger (s : Observed) : Prop where
  entry : ∀ id c, s.timers.timerMap.find id = some c →
    s.started.count c + s.timers.carriers id ≤ s.handled.count c
  registering : ∀ g ctx, s.timers.registration = some g → g.stage ≠ .inserted →
    s.timers.contexts.get? g.ctx = some ctx →
    s.timers.carriers ctx.timer_id = 0 ∧ s.started.count g.ctx = 0
  handled : ∀ c, s.started.count c ≤ s.handled.count c

namespace Ledger

/-- A step that starts no callback, submits nothing and adds no entry. -/
theorem frame (h : s.Ledger)
    (hmap : ∀ id c, t.timers.timerMap.find id = some c → s.timers.timerMap.find id = some c)
    (hreg : ∀ g, t.timers.registration = some g → g.stage ≠ .inserted →
      ∃ g', s.timers.registration = some g' ∧ g'.stage ≠ .inserted ∧ g'.ctx = g.ctx ∧
        t.timers.contexts.get? g.ctx = s.timers.contexts.get? g.ctx)
    (hcarriers : ∀ id, t.timers.carriers id ≤ s.timers.carriers id)
    (hhandled : ∀ c, s.handled.count c ≤ t.handled.count c)
    (hstarted : t.started = s.started) : t.Ledger := by
  refine ⟨?_, ?_, ?_⟩
  · intro id c hfind
    have hentry := h.entry id c (hmap id c hfind)
    have hle := hcarriers id
    have hmore := hhandled c
    rw [hstarted]
    omega
  · intro g ctx hg hstage hctx
    obtain ⟨g', hg', hstage', hsame, hget⟩ := hreg g hg hstage
    have hzero := h.registering g' ctx hg' hstage' (by rw [hsame, ← hget]; exact hctx)
    rw [hsame] at hzero
    exact ⟨Nat.le_zero.mp (hzero.1 ▸ hcarriers _), hstarted ▸ hzero.2⟩
  · intro c
    rw [hstarted]
    exact Nat.le_trans (h.handled c) (hhandled c)

/-- The step of a call in progress that keeps its context. -/
private theorem same_registration (h : t.timers.registration = s.timers.registration)
    (hcontexts : t.timers.contexts = s.timers.contexts) :
    ∀ g, t.timers.registration = some g → g.stage ≠ .inserted →
      ∃ g', s.timers.registration = some g' ∧ g'.stage ≠ .inserted ∧ g'.ctx = g.ctx ∧
        t.timers.contexts.get? g.ctx = s.timers.contexts.get? g.ctx :=
  fun g hg hstage => ⟨g, h ▸ hg, hstage, rfl, by rw [hcontexts]⟩

/-- A call in progress has a new context, and an id no NOP in flight carries. -/
theorem created (h : s.Ledger) (hexpiries : s.Expiries) {g : Registration}
    {ctx : TimerRequestContext} (hmap : t.timers.timerMap = s.timers.timerMap)
    (hcontexts : t.timers.contexts = s.timers.contexts.alloc ctx)
    (hreg : t.timers.registration = some g) (hg : g.ctx = s.timers.contexts.top)
    (hcarriers : ∀ id, t.timers.carriers id = s.timers.carriers id)
    (hfresh : s.timers.carriers ctx.timer_id = 0)
    (hhandled : t.handled = s.handled) (hstarted : t.started = s.started) : t.Ledger := by
  refine ⟨?_, ?_, ?_⟩
  · intro id c hfind
    rw [hstarted, hhandled, hcarriers]
    exact h.entry id c (hmap ▸ hfind)
  · intro g' ctx' hg' hstage hctx'
    obtain rfl := Option.some.inj (hreg.symm.trans hg')
    rw [hcontexts, hg, Heap.get?_alloc_top, Option.some.injEq] at hctx'
    subst hctx'
    have hnone := hexpiries.allocated _ (Nat.le_refl _)
    have hle := h.handled s.timers.contexts.top
    rw [hcarriers, hstarted, hg]
    exact ⟨hfresh, by omega⟩
  · rw [hstarted, hhandled]
    exact h.handled

/-- The new entry starts with nothing in flight. -/
theorem inserted (h : s.Ledger) {g : Registration} {u : PosixTimer} {ctx : TimerRequestContext}
    (hreg : s.timers.registration = some g) (hstage : g.stage = .settime)
    (hg : Timers.Registering s.timers.contexts s.timers.timerMap g u ctx)
    (hmap : t.timers.timerMap = s.timers.timerMap.insert ctx.timer_id g.ctx)
    (hreg' : ∀ g', t.timers.registration = some g' → g'.stage = .inserted)
    (hcarriers : ∀ id, t.timers.carriers id = s.timers.carriers id)
    (hhandled : t.handled = s.handled) (hstarted : t.started = s.started) : t.Ledger := by
  have hne : g.stage ≠ .inserted := by rw [hstage]; decide
  refine ⟨?_, fun g' _ hg' hstage' => absurd (hreg' g' hg') hstage', ?_⟩
  · intro id c hfind
    rw [hmap, StdMap.find_insert (hg.absent hne)] at hfind
    rw [hstarted, hhandled, hcarriers]
    split at hfind
    · next heq =>
      subst heq
      obtain rfl := Option.some.inj hfind
      obtain ⟨hzero, hnone⟩ := h.registering g ctx hreg hne hg.context
      rw [hzero, hnone]
      exact Nat.zero_le _
    · exact h.entry id c hfind
  · rw [hstarted, hhandled]
    exact h.handled

/-- A callback starts in exchange for a NOP with the id of its entry. -/
theorem called (h : s.Ledger) (hcore : s.timers.Core n) {id : TimerId} {c : Ptr}
    (hfind : s.timers.timerMap.find id = some c) (hmap : t.timers.timerMap = s.timers.timerMap)
    (hcontexts : t.timers.contexts = s.timers.contexts)
    (hreg : t.timers.registration = s.timers.registration)
    (hcarriers : ∀ q, s.timers.carriers q = t.timers.carriers q + if id = q then 1 else 0)
    (hhandled : t.handled = s.handled) (hstarted : t.started = s.started ++ [c]) : t.Ledger := by
  obtain ⟨ctx, hctx, hid⟩ := hcore.find_context hfind
  have hother : ∀ c', c' ≠ c → t.started.count c' = s.started.count c' := by
    intro c' hc
    simp [hstarted, Ne.symm hc]
  have hself : t.started.count c = s.started.count c + 1 := by simp [hstarted]
  have hentry := h.entry id c hfind
  have hnop := hcarriers id
  rw [if_pos rfl] at hnop
  refine ⟨?_, ?_, ?_⟩
  · intro q c' hfind'
    rw [hmap] at hfind'
    rw [hhandled]
    by_cases hq : id = q
    · subst hq
      obtain rfl := Option.some.inj (hfind.symm.trans hfind')
      omega
    · -- another entry has another context
      have hne : c' ≠ c := by
        rintro rfl
        obtain ⟨ctx', hctx', hq'⟩ := hcore.find_context hfind'
        obtain rfl := Option.some.inj (hctx.symm.trans hctx')
        exact hq (hid.symm.trans hq')
      have hsame := hcarriers q
      rw [if_neg hq, Nat.add_zero] at hsame
      rw [hother c' hne, ← hsame]
      exact h.entry q c' hfind'
  · intro g ctx' hg hstage hctx'
    rw [hreg] at hg
    rw [hcontexts] at hctx'
    obtain ⟨hzero, hnone⟩ := h.registering g ctx' hg hstage hctx'
    have hle := hcarriers ctx'.timer_id
    -- the context of the call in progress has no entry yet
    have hne : g.ctx ≠ c := by
      rintro rfl
      obtain ⟨u, w, hu, hw⟩ := hcore.registering g hg
      obtain rfl := Option.some.inj (hctx.symm.trans hw.context)
      exact absurd ((hid ▸ hw.absent hstage).symm.trans hfind) (by simp)
    rw [hother _ hne]
    exact ⟨by omega, hnone⟩
  · intro c'
    rw [hhandled]
    by_cases hc : c' = c
    · subst hc
      omega
    · rw [hother c' hc]
      exact h.handled c'

/-- A NOP is submitted for an expiry of the entry's own timer. -/
theorem notified (h : s.Ledger) (hcore : s.timers.Core n) {id : TimerId} {c : Ptr}
    (hfind : s.timers.timerMap.find id = some c) (hmap : t.timers.timerMap = s.timers.timerMap)
    (hcontexts : t.timers.contexts = s.timers.contexts)
    (hreg : t.timers.registration = s.timers.registration)
    (hcarriers : ∀ q, t.timers.carriers q = s.timers.carriers q + if id = q then 1 else 0)
    (hhandled : t.handled = s.handled ++ [c]) (hstarted : t.started = s.started) : t.Ledger := by
  have hmore : ∀ c', s.handled.count c' ≤ t.handled.count c' := by
    intro c'
    rw [hhandled, List.count_append]
    exact Nat.le_add_right _ _
  have hself : t.handled.count c = s.handled.count c + 1 := by simp [hhandled]
  refine ⟨?_, ?_, ?_⟩
  · intro q c' hfind'
    rw [hmap] at hfind'
    have hentry := h.entry q c' hfind'
    rw [hstarted, hcarriers]
    split
    · next hq =>
      subst hq
      obtain rfl := Option.some.inj (hfind.symm.trans hfind')
      omega
    · exact Nat.le_trans hentry (hmore c')
  · intro g ctx hg hstage hctx
    rw [hreg] at hg
    rw [hcontexts] at hctx
    obtain ⟨hzero, hnone⟩ := h.registering g ctx hg hstage hctx
    -- the id of the call in progress has no entry yet
    have hne : id ≠ ctx.timer_id := by
      rintro rfl
      obtain ⟨u, w, hu, hw⟩ := hcore.registering g hg
      obtain rfl := Option.some.inj (hctx.symm.trans hw.context)
      exact absurd ((hw.absent hstage).symm.trans hfind) (by simp)
    rw [hstarted, hcarriers, if_neg hne]
    exact ⟨hzero, hnone⟩
  · intro c'
    rw [hstarted]
    exact Nat.le_trans (h.handled c') (hmore c')

theorem step (h : s.Ledger) (hcore : s.timers.Core n) (hexpiries : s.Expiries)
    (hfresh : s.Fresh a) (hstep : machine.step s a = .next t) : t.Ledger := by
  obtain ⟨u, hu, rfl⟩ := step_timers hstep
  have hmore : ∀ new c, s.handled.count c ≤ (s.handled ++ new).count c := by
    intro new c
    rw [List.count_append]
    exact Nat.le_add_right _ _
  have hle : ∀ q, s.timers.carriers q ≤ s.timers.carriers q := fun _ => Nat.le_refl _
  rcases hcore.step hu with ⟨d, he⟩ | ⟨id, rfl, u', hu', harmed, -, rfl⟩
  · cases he with
    | createFailed hreg =>
        exact h.frame (fun _ _ hf => hf) (fun g hg => absurd (hreg.symm.trans hg) (by simp))
          hle (hmore _) (List.append_nil _)
    | created hreg hfree hid hflags =>
        subst hid
        exact h.created hexpiries rfl rfl rfl rfl (fun _ => rfl) hfresh (List.append_nil _)
          (List.append_nil _)
    | @settime g v ctx hreg hstage ht hg =>
        refine h.frame (fun _ _ hf => hf) ?_ hle (hmore _) (List.append_nil _)
        rintro g' hg' -
        obtain rfl := Option.some.inj hg'
        exact ⟨g, hreg, by rw [hstage]; decide, rfl, rfl⟩
    | settimeFailed hreg hstage =>
        exact h.frame (fun _ _ hf => hf) (by simp) hle (hmore _) (List.append_nil _)
    | inserted hreg hstage ht hg =>
        refine h.inserted hreg hstage hg rfl ?_ (fun _ => rfl) (List.append_nil _)
          (List.append_nil _)
        intro g' hg'
        obtain rfl := Option.some.inj hg'
        rfl
    | returned hreg hstage =>
        exact h.frame (fun _ _ hf => hf) (by simp [Timers.timerReturn]) hle (hmore _)
          (List.append_nil _)
    | cleared hreg =>
        exact h.frame (fun _ _ hf => (StdMap.of_find_erase hf).2) (same_registration rfl rfl) hle
          (hmore _) (List.append_nil _)
    | waited hctl hgoes =>
        have hout := hcore.sound.submitAndWait.2
        refine h.frame (fun _ _ hf => hf) (same_registration rfl rfl) (fun q => ?_) (hmore _)
          (List.append_nil _)
        exact Nat.le_of_eq (Timers.carriers_congr (by rw [hout]) fun _ _ => rfl)
    | called hctl hreq hfind hsound hreaps =>
        exact h.called hcore hfind rfl rfl rfl (fun q => Timers.carriers_reap hreq hreaps)
          (List.append_nil _) rfl
    | @ignored c id env hctl hreq hfind hsound hreaps =>
        refine h.frame (fun _ _ hf => hf) (same_registration rfl rfl) (fun q => ?_) (hmore _)
          (by simp [starts, hctl])
        -- the request leaves the flight, then its block is freed
        have hreap := Timers.carriers_reap (q := q) (t := { s.timers with env }) hreq hreaps
        have hfree := Environment.tally_free (f := fun req => UInt64.ofNat req.data == q)
          hreaps.reaped
        exact Nat.le_trans (Nat.le_of_eq hfree) (Nat.le_of_add_right_le (Nat.le_of_eq hreap.symm))
    | @fired p id c ctx hctl hreg hctx hone =>
        refine h.frame (fun _ _ hf => (StdMap.of_find_erase hf).2) (same_registration rfl rfl)
          (fun q => ?_) (hmore _) (List.append_nil _)
        exact Nat.le_of_eq (Environment.tally_free (hcore.running p id c hctl).2.1)
    | @repeats p id c ctx hctl hreg hctx hone =>
        refine h.frame (fun _ _ hf => hf) (same_registration rfl rfl) (fun q => ?_) (hmore _)
          (List.append_nil _)
        exact Nat.le_of_eq (Environment.tally_free (hcore.running p id c hctl).2.1)
    | notified ht harmed hfind hsound hheap hsub =>
        exact h.notified hcore hfind rfl rfl rfl
          (fun q => Timers.carriers_submit hcore.sound hheap hsub) (by simp [handles, ht])
          (List.append_nil _)
    | completed hsound hheap hout =>
        refine h.frame (fun _ _ hf => hf) (same_registration rfl rfl) (fun q => ?_) (hmore _)
          (List.append_nil _)
        exact Nat.le_of_eq (Timers.carriers_congr hout fun p _ => by rw [hheap])
    | _ =>
        exact h.frame (fun _ _ hf => hf) (same_registration rfl rfl) hle (hmore _)
          (List.append_nil _)
  · exact h.frame (fun _ _ hf => hf) (same_registration rfl rfl) hle (hmore _) (List.append_nil _)

end Ledger

/-! ## Every run -/

/-- The invariant of a run in which no id of a NOP in flight is handed out. -/
structure Fair (s : Observed) : Prop where
  core : ∃ n, s.timers.Core n
  expiries : s.Expiries
  ledger : s.Ledger

theorem fair_init : init.Fair where
  core := ⟨0, Timers.inv_init.core⟩
  expiries := ⟨by simp [init], by simp [init], by simp [init], by simp [init]⟩
  ledger := ⟨by simp [init, Timers.init], by simp [init, Timers.init], by simp [init]⟩

theorem keeps_fair : machine.KeepsWhen Fresh Fair := by
  rintro s a t ⟨⟨n, hcore⟩, hexpiries, hledger⟩ hfresh hstep
  exact ⟨keeps_core s a t ⟨n, hcore⟩ hstep, hexpiries.step hcore hstep,
    hledger.step hcore hexpiries hfresh hstep⟩

/-- A one-shot timer's expiry is handled at most once, so its callback starts
    at most once. -/
theorem Fair.once (h : s.Fair) {c : Ptr} (hc : (c, 0) ∈ s.created) : s.started.count c ≤ 1 := by
  obtain ⟨ctx, hctx, hone⟩ := h.expiries.created c hc
  exact Nat.le_trans (h.ledger.handled c) (h.expiries.once c ctx hctx hone)

/-- **Timers end.**  In a run where `timer_create` returns no id that a NOP in
    flight carries, a timer that was cleared never starts its callback again, a
    timer with interval zero starts it at most once, and every timer at most as
    often as its expiry was handled. -/
theorem timers_final (as : List Timers.Act) (h : machine.StepsMeet Fresh init as) (s : Observed)
    (hrun : machine.run as = .next s) : s.Final as := by
  have hfair := keeps_fair.runFrom as init s fair_init h hrun
  refine ⟨?_, fun c hc => hfair.once hc, hfair.ledger.handled⟩
  rintro pre arg post rfl s₁ hs₁ c ctx hctx hid
  have hpost : machine.runFrom s₁ post = .next s := by
    rwa [run_split, hs₁, Outcome.bind_next] at hrun
  exact cleared pre post arg hs₁ hpost hctx hid

/-- `setInterval(f, 1000)` goes off twice before the first of its NOPs comes
    back; the callback clears it. -/
def intervalActs : List Timers.Act :=
  [.setTimer (some 0) 1000 1000 (some 1), .timerHandler, .timerHandler, .timerHandler, .run,
    .outer, .expire 1, .expire 1, .complete 0 0, .complete 0 0, .inner, .clearTimer 1, .ret, .inner]

theorem timers_final_interval :
    ∃ s, machine.run intervalActs = .next s ∧ s.handled = [0, 0] ∧ s.started = [0] ∧
      s.Final intervalActs :=
  ⟨_, rfl, rfl, rfl, timers_final intervalActs (by decide) _ rfl⟩

end Observed

end NoJs.Timer
