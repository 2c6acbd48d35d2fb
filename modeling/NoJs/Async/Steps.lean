/-
  NoJs.Async.Steps

  What a step of the runtime does to a group of requests that report to
  callbacks of one owner: nothing, or it takes the completion of one of them and
  calls its callback, or that callback returns.

  A group is a predicate on blocks.  A block handed out later is not in it, so a
  call of an entry point leaves the group alone, and the owner that makes the
  call goes on with a larger group.
-/

import NoJs.Async.Reports

namespace NoJs.Async

open Machine NoJs.IoUring

namespace Runtime

variable (own : Ptr → Bool) (s : Runtime)

/-- The completions the loop has taken for the group, in order. -/
def taken : List Cqe := s.trace.reaped.filter fun c => own c.user_data

/-- The requests of the group in flight. -/
def flying : List Ptr := s.env.outstanding.filter own

/-- The request of the group whose callback is running. -/
def handling : Option Ptr := s.ctl.running.filter own

/-- The group consists of operations of one kind. -/
structure Group (P : Started → Prop) : Prop where
  each : ∀ x ∈ s.trace.started, own x.block = true → P x
  started : ∀ p, own p = true → ∃ x ∈ s.trace.started, x.block = p

/-- An operation with a callback, which `makeCallback` finds. -/
def Callable (x : Started) : Prop := x.call.entry ≠ .openat ∧ ∃ f, x.call.callback = some f

variable {own s} {t : Runtime} {p : Ptr}

/-- What a step does to a group. -/
inductive Progress (own : Ptr → Bool) (s t : Runtime) : Act → Prop where
  | same {a : Act} (taken : t.taken own = s.taken own)
      (flying : (t.flying own).Perm (s.flying own))
      (handling : t.handling own = s.handling own)
      (idle : a = .inner ∨ a = .ret → s.handling own = none) : Progress own s t a
  /-- The loop takes a completion and calls the callback with its result. -/
  | called (p : Ptr) (res : Int32) (mem : own p = true)
      (taken : t.taken own = s.taken own ++ [⟨p, res⟩])
      (flying : (s.flying own).Perm (p :: t.flying own))
      (idle : s.handling own = none)
      (ctl : t.ctl = .callback p)
      (res_eq : (t.env.heap.get? p).map (·.res) = some res) : Progress own s t .inner
  /-- The callback returns, and the request is armed again or freed. -/
  | returned (x : Started) (started : x ∈ s.trace.started) (mem : own x.block = true)
      (taken : t.taken own = s.taken own)
      (flying : (t.flying own).Perm
        (if x.async.again then x.block :: s.flying own else s.flying own))
      (running : s.handling own = some x.block)
      (ctl : t.ctl = .inner) : Progress own s t .ret

theorem handling_none (h : s.ctl.running = none) : s.handling own = none := by
  rw [handling, h]
  rfl

theorem handling_own (h : s.ctl.running = some p) (hown : own p = true) :
    s.handling own = some p := by
  rw [handling, h, Option.filter_some, if_pos hown]

theorem handling_other (h : s.ctl.running = some p) (hown : own p = false) :
    s.handling own = none := by
  rw [handling, h, Option.filter_some, if_neg (by simp [hown])]

/-- A callback that is running is JavaScript. -/
theorem runsJs_of_handling {own : Ptr → Bool} (h : (s.handling own).isSome) :
    s.ctl.runsJs = true := by
  rw [handling] at h
  cases hctl : s.ctl <;> simp [hctl, Ctl.running] at h ⊢
  rfl

theorem taken_own {c : Cqe} (h : t.trace.reaped = s.trace.reaped ++ [c])
    (hown : own c.user_data = true) : t.taken own = s.taken own ++ [c] := by
  rw [taken, taken, h, List.filter_append, List.filter_singleton, hown]
  rfl

theorem taken_other {c : Cqe} (h : t.trace.reaped = s.trace.reaped ++ [c])
    (hown : own c.user_data = false) : t.taken own = s.taken own := by
  rw [taken, taken, h, List.filter_append, List.filter_singleton, hown]
  exact List.append_nil _

theorem flying_own {l : List Ptr} (h : t.env.outstanding.Perm (p :: l)) (hown : own p = true) :
    (t.flying own).Perm (p :: l.filter own) := by
  have hperm := h.filter own
  rwa [List.filter_cons_of_pos hown] at hperm

theorem flying_other {l : List Ptr} (h : t.env.outstanding.Perm (p :: l)) (hown : own p = false) :
    (t.flying own).Perm (l.filter own) := by
  have hperm := h.filter own
  rwa [List.filter_cons_of_neg (by simp [hown])] at hperm

/-- A step that changes neither the records nor the requests in flight. -/
theorem Progress.of_frame {a : Act} (hreaped : t.trace.reaped = s.trace.reaped)
    (hout : t.env.outstanding.Perm s.env.outstanding) (hctl : t.ctl.running = s.ctl.running)
    (hidle : a = .inner ∨ a = .ret → s.handling own = none) : Progress own s t a := by
  refine .same ?_ (hout.filter own) ?_ hidle
  · rw [taken, taken, hreaped]
  · rw [handling, handling, hctl]

/-! ## The operations there are -/

theorem finishCallback_started (hstep : s.finishCallback p = .next t) :
    t.trace.started = s.trace.started := by
  rw [finishCallback] at hstep
  split at hstep
  · exact absurd hstep (by simp)
  split at hstep
  · exact absurd hstep (by simp)
  split at hstep
  all_goals
    obtain ⟨env, -, heq⟩ := Outcome.bind_eq_next.mp hstep
    obtain rfl := Outcome.next.inj heq
    rfl

theorem makeCallback_started {event : EventName} (hstep : s.makeCallback event p = .next t) :
    t.trace.started = s.trace.started := by
  rw [makeCallback] at hstep
  split at hstep
  · exact absurd hstep (by simp)
  split at hstep
  · exact absurd hstep (by simp)
  split at hstep
  · exact finishCallback_started hstep
  · obtain rfl := Outcome.next.inj hstep
    rfl

theorem innerLoop_started (hstep : s.innerLoop = .next t) :
    t.trace.started = s.trace.started := by
  rw [innerLoop] at hstep
  split at hstep
  · obtain rfl := Outcome.next.inj hstep
    rfl
  obtain ⟨⟨req, env⟩, -, hcase⟩ := Outcome.bind_eq_next.mp hstep
  simp only at hcase
  split at hcase
  · obtain rfl := Outcome.next.inj hcase
    rfl
  · exact (makeCallback_started hcase).trans rfl
  · obtain ⟨env', -, heq⟩ := Outcome.bind_eq_next.mp hcase
    obtain rfl := Outcome.next.inj heq
    rfl
  · exact absurd hcase (by simp)

/-- A step that calls no entry point starts no operation. -/
theorem step_started {a : Act} (ha : ∀ c, a ≠ .start c) (hstep : s.step a = .next t) :
    t.trace.started = s.trace.started := by
  have htakes := step_cases hstep
  cases a with
  | start c => exact absurd rfl (ha c)
  | complete i res =>
      simp only [Takes, complete] at htakes
      split at htakes
      · exact absurd htakes (by simp)
      obtain ⟨env, -, heq⟩ := Outcome.bind_eq_next.mp htakes
      obtain rfl := Outcome.next.inj heq
      rfl
  | stop | run =>
      obtain ⟨-, rfl⟩ := htakes
      rfl
  | outer =>
      obtain ⟨-, rfl⟩ := htakes
      unfold outerLoop
      split <;> rfl
  | inner => exact innerLoop_started htakes.2
  | ret =>
      obtain ⟨p, -, hfinish⟩ := htakes
      exact finishCallback_started hfinish

/-! ## Starting an operation -/

/-- What a call of an entry point changes. -/
structure Starts (c : Call) (s t : Runtime) : Prop where
  started : ∃ x, t.trace.started = s.trace.started ++ [x] ∧ x.call = c ∧
    x.block = s.env.heap.top ∧ c.start = some x.async
  reaped : t.trace.reaped = s.trace.reaped
  ctl : t.ctl = s.ctl
  outstanding : t.env.outstanding.Perm (s.env.heap.top :: s.env.outstanding)

theorem AtRest.starts (h : s.AtRest) {c : Call} (hstep : s.step (.start c) = .next t) :
    s.Starts c t := by
  obtain ⟨-, hstep⟩ := step_cases hstep
  rw [Runtime.start] at hstep
  cases hc : c.start with
  | none =>
      rw [hc] at hstep
      exact absurd hstep (by simp)
  | some a =>
      obtain ⟨env, henv, -, -, hsub⟩ :=
        h.sound.submitNew (a.request s.contexts.top) (Call.start_wired hc).1
      simp only [hc, henv, Outcome.bind_next, Outcome.next.injEq] at hstep
      subst hstep
      exact ⟨⟨_, rfl, rfl, rfl, hc⟩, rfl, rfl, hsub.outstanding⟩

/-- A call that makes a request goes through wherever JavaScript runs. -/
theorem AtRest.start_next (h : s.AtRest) (hjs : s.ctl.runsJs = true) {c : Call}
    {a : AsyncRequest} (hc : c.start = some a) : ∃ t, s.step (.start c) = .next t := by
  obtain ⟨env, henv, -, -, -⟩ :=
    h.sound.submitNew (a.request s.contexts.top) (Call.start_wired hc).1
  simp only [Runtime.step, hjs, if_true, Runtime.start, hc, henv, Outcome.bind_next]
  exact ⟨_, rfl⟩

/-- The block of the new request is in no group there is. -/
theorem Starts.progress {c : Call} (h : s.Starts c t) (hnew : own s.env.heap.top = false) :
    Progress own s t (.start c) := by
  refine .same ?_ ?_ ?_ (by simp)
  · rw [taken, taken, h.reaped]
  · exact flying_other h.outstanding hnew
  · rw [handling, handling, h.ctl]

theorem Group.lt_top {P : Started → Prop} (h : s.Group own P) (hat : s.AtRest)
    (hp : own p = true) : p < s.env.heap.top := by
  obtain ⟨x, hx, rfl⟩ := h.started p hp
  exact (hat.tracks x hx).block_lt

theorem Group.imp {P Q : Started → Prop} (h : s.Group own P) (hPQ : ∀ x, P x → Q x) :
    s.Group own Q := ⟨fun x hx hown => hPQ x (h.each x hx hown), h.started⟩

/-- A group stays of its kind. -/
theorem Group.step {P : Started → Prop} (h : s.Group own P) (hat : s.AtRest) {a : Act}
    (hstep : s.step a = .next t) : t.Group own P := by
  by_cases ha : ∃ c, a = .start c
  · obtain ⟨c, rfl⟩ := ha
    obtain ⟨y, hy, -, hblock, -⟩ := (hat.starts hstep).started
    refine ⟨fun x hx hown => ?_, fun p hp => ?_⟩
    · rw [hy] at hx
      rcases List.mem_append.mp hx with hx | hx
      · exact h.each x hx hown
      · -- the new block is above those of the group
        rw [List.mem_singleton.mp hx, hblock] at hown
        exact absurd (h.lt_top hat hown) (Nat.lt_irrefl _)
    · obtain ⟨x, hx, hp⟩ := h.started p hp
      exact ⟨x, hy ▸ List.mem_append_left _ hx, hp⟩
  · have hsame := step_started (fun c hc => ha ⟨c, hc⟩) hstep
    exact ⟨fun x hx => h.each x (hsame ▸ hx), fun p hp => hsame ▸ h.started p hp⟩

/-- The group with a new request of the kind in it. -/
theorem Starts.group {P : Started → Prop} {own' : Ptr → Bool} {c : Call} (h : s.Starts c t)
    (hgroup : s.Group own P)
    (hmem : ∀ p, own' p = true ↔ own p = true ∨ p = s.env.heap.top) (hat : s.AtRest)
    (hnew : ∀ x : Started, x.call = c → c.start = some x.async → P x) : t.Group own' P := by
  obtain ⟨y, hy, hcall, hblock, hstart⟩ := h.started
  refine ⟨fun x hx hown => ?_, fun p hp => ?_⟩
  · rw [hy] at hx
    rcases List.mem_append.mp hx with hx | hx
    · -- an operation there was has a block below the new one
      refine hgroup.each x hx (((hmem _).mp hown).resolve_right fun htop => ?_)
      exact Nat.lt_irrefl _ (htop ▸ (hat.tracks x hx).block_lt)
    · rw [List.mem_singleton.mp hx]
      exact hnew y hcall hstart
  · rw [hy]
    rcases (hmem p).mp hp with hp | rfl
    · obtain ⟨x, hx, hp⟩ := hgroup.started p hp
      exact ⟨x, List.mem_append_left _ hx, hp⟩
    · exact ⟨y, List.mem_append_right _ (List.mem_singleton_self y), hblock⟩

/-- The group with the new request in it. -/
theorem Starts.extend {own' : Ptr → Bool} {c : Call} (h : s.Starts c t) (hat : s.AtRest)
    (hmem : ∀ p, own' p = true ↔ own p = true ∨ p = s.env.heap.top) :
    t.taken own' = s.taken own ∧
      (t.flying own').Perm (s.env.heap.top :: s.flying own) ∧
      t.handling own' = s.handling own := by
  -- the groups differ in the new block only
  have hsame : ∀ p, p < s.env.heap.top → own' p = own p := by
    intro p hp
    rw [Bool.eq_iff_iff, hmem, or_iff_left (Nat.ne_of_lt hp)]
  refine ⟨?_, ?_, ?_⟩
  · rw [taken, taken, h.reaped]
    exact List.filter_congr fun c hc => hsame _ (hat.past.reaped c hc)
  · have hflying := flying_own h.outstanding ((hmem _).mpr (Or.inr rfl))
    refine hflying.trans (List.Perm.cons _ ?_)
    rw [flying, List.filter_congr fun p hp => hsame p (hat.sound.lt_top hp)]
  · rw [handling, handling, h.ctl]
    cases hrun : s.ctl.running with
    | none => rfl
    | some p =>
        obtain ⟨x, hx, hblock⟩ := hat.known p (Or.inr hrun)
        rw [Option.filter_some, Option.filter_some, hsame p (hblock ▸ (hat.tracks x hx).block_lt)]

/-! ## Handling a completion -/

/-- What `makeCallback` does after the JavaScript call. -/
theorem Inv.finishCallback_frame {x : Started} (h : s.Inv (some p)) (hx : x ∈ s.trace.started)
    (hblock : x.block = p) (hstep : s.finishCallback p = .next t) :
    t.trace.reaped = s.trace.reaped ∧ t.ctl = .inner ∧
      t.env.outstanding.Perm
        (if x.async.again then p :: s.env.outstanding else s.env.outstanding) := by
  -- while the callback runs, the request and its context are those of the entry point
  obtain ⟨⟨res, hreq⟩, hctx⟩ := (h.tracks x hx).live (Or.inr (congrArg some hblock.symm))
  rw [hblock] at hreq
  have hdata : s.contexts.get? ({ x.request with res } : Request).data = some x.async.context :=
    hctx
  have hagain : ({ x.request with res } : Request).again = x.async.again := rfl
  simp only [Runtime.finishCallback, hreq, hdata, hagain] at hstep
  by_cases hflag : x.async.again = true
  · rw [if_pos hflag] at hstep ⊢
    obtain ⟨env, henv, -, -, hsub⟩ :=
      h.sound.resubmit hreq (Call.start_wired (h.started x hx)).1 (h.reaped p rfl)
    simp only [henv, Outcome.bind_next, Outcome.next.injEq] at hstep
    subst hstep
    exact ⟨rfl, rfl, hsub.outstanding⟩
  · rw [if_neg hflag] at hstep ⊢
    simp only [(h.sound.free hreq (h.reaped p rfl)).1, Outcome.bind_next,
      Outcome.next.injEq] at hstep
    subst hstep
    exact ⟨rfl, rfl, List.Perm.refl _⟩

/-- `openAfter` only frees the request. -/
theorem openAfter_frame (hstep : s.openAfter p = .next t) :
    t.trace.reaped = s.trace.reaped ∧ t.ctl = s.ctl ∧
      t.env.outstanding = s.env.outstanding := by
  obtain ⟨env, henv, heq⟩ := Outcome.bind_eq_next.mp hstep
  obtain rfl := Outcome.next.inj heq
  rw [Environment.free] at henv
  split at henv
  · exact absurd henv (by simp)
  · obtain rfl := Outcome.next.inj henv
    exact ⟨rfl, rfl, rfl⟩

/-- The loop takes the completion `c` of the operation `x`, and `rest` stays in
    flight. -/
structure Completes (s t : Runtime) (c : Cqe) (x : Started) (rest : List Ptr) : Prop where
  started : x ∈ s.trace.started
  block : x.block = c.user_data
  outstanding : s.env.outstanding.Perm (c.user_data :: rest)
  reaped : t.trace.reaped = s.trace.reaped ++ [c]

/-- What one round of the inner loop does. -/
inductive Round (s t : Runtime) : Prop where
  | empty (eq : t = { s with ctl := .outer })
  /-- It enters the callback of the operation. -/
  | called (c : Cqe) (x : Started) (rest : List Ptr) (takes : Completes s t c x rest)
      (outstanding : t.env.outstanding = rest)
      (ctl : t.ctl = .callback c.user_data)
      (res_eq : (t.env.heap.get? c.user_data).map (·.res) = some c.res)
  /-- The operation has no callback that the completion function finds. -/
  | silent (c : Cqe) (x : Started) (rest : List Ptr) (takes : Completes s t c x rest)
      (none : ¬ Callable x)
      (outstanding : t.env.outstanding.Perm
        (if x.async.again then c.user_data :: rest else rest))
      (ctl : t.ctl = .inner)

theorem Inv.innerLoop_round (h : s.Inv none) (hctl : s.ctl = .inner)
    (hstep : s.innerLoop = .next t) : Round s t := by
  cases hpeek : io_uring_peek_cqe s.env.io_uring_data.ring with
  | none =>
      rw [Runtime.innerLoop, hpeek] at hstep
      exact .empty (Outcome.next.inj hstep).symm
  | some c =>
      obtain ⟨x, env, hx, hblock, hreaps, hget, hinv, heq⟩ := h.innerLoop_eq hctl hpeek
      rw [heq, handle] at hstep
      by_cases hentry : x.call.entry = .openat
      · rw [if_pos hentry] at hstep
        obtain ⟨hreaped, hrest, hout⟩ := openAfter_frame hstep
        have hwired := (Call.start_wired (h.started x hx)).2
        rw [if_pos hentry] at hwired
        refine .silent c x _ ⟨hx, hblock, hreaps.outstanding, hreaped⟩
          (fun hcall => hcall.1 hentry) ?_ (hrest.trans hctl)
        rw [hwired.2, if_neg (by simp), hout]
        exact List.Perm.refl _
      · rw [if_neg hentry] at hstep
        by_cases hf : x.call.callback = none
        · rw [if_pos hf] at hstep
          obtain ⟨hreaped, hrest, hout⟩ := hinv.finishCallback_frame hx hblock hstep
          refine .silent c x _ ⟨hx, hblock, hreaps.outstanding, hreaped⟩ ?_ hout hrest
          rintro ⟨-, f, hsome⟩
          exact absurd (hf.symm.trans hsome) (by simp)
        · rw [if_neg hf] at hstep
          obtain rfl := Outcome.next.inj hstep
          refine .called c x _ ⟨hx, hblock, hreaps.outstanding, rfl⟩ rfl rfl ?_
          show (env.heap.get? c.user_data).map (·.res) = some c.res
          simp only [hget, Option.map_some]

/-- A round for another request leaves the group as it was. -/
theorem Round.progress_other {c : Cqe} {x : Started} {rest : List Ptr} {again : Bool}
    (htakes : Completes s t c x rest) (hown : own c.user_data = false)
    (hctl : s.ctl = .inner)
    (hout : t.env.outstanding.Perm (if again then c.user_data :: rest else rest))
    (hhandling : t.handling own = none) : Progress own s t .inner := by
  have hidle : s.handling own = none := handling_none (congrArg Ctl.running hctl)
  have hbefore := flying_other htakes.outstanding hown
  have hafter : (t.flying own).Perm (rest.filter own) := by
    split at hout
    · exact flying_other hout hown
    · exact hout.filter own
  exact .same (taken_other htakes.reaped hown) (hafter.trans hbefore.symm)
    (hhandling.trans hidle.symm) fun _ => hidle

theorem Round.progress (h : Round s t) (hctl : s.ctl = .inner) (hcall : s.Group own Callable) :
    Progress own s t .inner := by
  have hidle : s.handling own = none := handling_none (congrArg Ctl.running hctl)
  cases h with
  | empty heq =>
      subst heq
      exact .of_frame rfl (List.Perm.refl _) (by rw [hctl]; rfl) fun _ => hidle
  | silent c x rest htakes hnone hout hrest =>
      -- the group has callbacks, so the operation is not of it
      have hown : own c.user_data = false := by
        by_contra hmem
        rw [← htakes.block, Bool.not_eq_false] at hmem
        exact hnone (hcall.each x htakes.started hmem)
      exact progress_other htakes hown hctl hout (handling_none (congrArg Ctl.running hrest))
  | called c x rest htakes hout hrest hres =>
      have hrunning : t.ctl.running = some c.user_data := congrArg Ctl.running hrest
      cases hown : own c.user_data with
      | true =>
          refine .called c.user_data c.res hown (taken_own htakes.reaped hown) ?_ hidle hrest hres
          rw [flying, flying, hout]
          exact flying_own htakes.outstanding hown
      | false =>
          have hsame : t.env.outstanding.Perm (if false then c.user_data :: rest else rest) :=
            hout ▸ List.Perm.refl _
          exact progress_other htakes hown hctl hsame (handling_other hrunning hown)

theorem Inv.ret_progress (h : s.Inv (some p)) (hctl : s.ctl = .callback p)
    (hstep : s.finishCallback p = .next t) : Progress own s t .ret := by
  obtain ⟨x, hx, hblock⟩ := h.known p (Or.inr rfl)
  obtain ⟨hreaped, hrest, hout⟩ := h.finishCallback_frame hx hblock hstep
  have htaken : t.taken own = s.taken own := by rw [taken, taken, hreaped]
  have hrunning : s.ctl.running = some p := congrArg Ctl.running hctl
  cases hown : own p with
  | true =>
      refine .returned x hx (hblock ▸ hown) htaken ?_ (hblock ▸ handling_own hrunning hown) hrest
      by_cases hagain : x.async.again = true
      · rw [if_pos hagain] at hout ⊢
        exact hblock ▸ flying_own hout hown
      · rw [if_neg hagain] at hout ⊢
        exact hout.filter own
  | false =>
      have hidle := handling_other hrunning hown
      refine .same htaken ?_ (hidle ▸ handling_none (congrArg Ctl.running hrest)) fun _ => hidle
      split at hout
      · exact flying_other hout hown
      · exact hout.filter own

/-- What a step does to a group of requests that have callbacks. -/
theorem AtRest.progress (h : s.AtRest) (hcall : s.Group own Callable) {a : Act}
    (hstep : s.step a = .next t) : Progress own s t a := by
  have htakes := step_cases hstep
  cases a with
  | start c =>
      refine (h.starts hstep).progress ?_
      by_contra hnew
      rw [Bool.not_eq_false] at hnew
      exact Nat.lt_irrefl _ (hcall.lt_top h hnew)
  | complete i res =>
      simp only [Takes, Runtime.complete] at htakes
      cases hsqe : s.env.io_uring_data.ring.kernel[i]? with
      | none =>
          rw [hsqe] at htakes
          exact absurd htakes (by simp)
      | some sqe =>
          obtain ⟨env, henv, -, -, -, -, hperm⟩ := h.sound.complete res hsqe
          simp only [hsqe, henv, Outcome.bind_next, Outcome.next.injEq] at htakes
          subst htakes
          exact .of_frame rfl hperm rfl (by simp)
  | stop =>
      obtain ⟨-, rfl⟩ := htakes
      exact .of_frame rfl (List.Perm.refl _) rfl (by simp)
  | run =>
      obtain ⟨hctl, rfl⟩ := htakes
      exact .of_frame rfl (List.Perm.refl _) (by rw [hctl]; rfl) (by simp)
  | outer =>
      obtain ⟨hctl, rfl⟩ := htakes
      unfold Runtime.outerLoop
      split
      · exact .of_frame rfl (by rw [h.sound.submitAndWait.2]) (by rw [hctl]; rfl) (by simp)
      · exact .of_frame rfl (List.Perm.refl _) (by rw [hctl]; rfl) (by simp)
  | inner =>
      obtain ⟨hctl, hloop⟩ := htakes
      rw [AtRest, hctl] at h
      exact (h.innerLoop_round hctl hloop).progress hctl hcall
  | ret =>
      obtain ⟨p, hctl, hfinish⟩ := htakes
      rw [AtRest, hctl] at h
      exact h.ret_progress hctl hfinish

end Runtime

end NoJs.Async
