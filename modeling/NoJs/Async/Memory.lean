/-
  NoJs.Async.Memory

  What the asynchronous operations own.

  A request block lives from its entry point until its completion has been
  handled, and a request that is armed again never ends.  Its `RequestContext`
  goes with it, but for `openat`: `openAfter` frees the request alone, and nothing
  else has the context's address.

  A step leaves the blocks as they are, hands out those of a new operation or
  gives back those of the one whose completion was handled (`memory_step`); the
  ledger of the whole run is an induction on that.
-/

import NoJs.Async.Reports

namespace NoJs.Async

open Machine NoJs.IoUring

namespace Runtime

/-! ## Who owns what -/

/-- The request is in flight, or its completion is being handled. -/
def Busy (s : Runtime) (p : Ptr) : Prop := p ∈ s.env.outstanding ∨ s.ctl.running = some p

/-- Every block that is live belongs to an operation that needs it, or is the
    context of an `openat`; and no two operations ever have one context. -/
structure Ledger (s : Runtime) : Prop where
  blocks : ∀ p, (s.env.heap.get? p).isSome ↔ s.Busy p
  owner : ∀ p, s.Busy p → ∃ x ∈ s.trace.started, x.block = p
  contexts : ∀ d, (s.contexts.get? d).isSome ↔
    ∃ x ∈ s.trace.started, x.context = d ∧ (s.Busy x.block ∨ x.call.entry = .openat)
  distinct : (s.trace.started.map (·.context)).Nodup

/-- What a step does to the blocks. -/
inductive Memory (s t : Runtime) : Prop where
  | same (heap : ∀ p, (t.env.heap.get? p).isSome ↔ (s.env.heap.get? p).isSome)
      (contexts : t.contexts = s.contexts) (started : t.trace.started = s.trace.started)
      (busy : ∀ p, t.Busy p ↔ s.Busy p)
  /-- A call of an entry point. -/
  | started (x : Started) (req : Request) (started : t.trace.started = s.trace.started ++ [x])
      (block : x.block = s.env.heap.top) (context : x.context = s.contexts.top)
      (heap : t.env.heap = s.env.heap.alloc req)
      (contexts : t.contexts = s.contexts.alloc x.async.context)
      (busy : ∀ p, t.Busy p ↔ p = x.block ∨ s.Busy p)
  /-- The completion of an operation was handled. -/
  | released (x : Started) (mem : x ∈ s.trace.started)
      (started : t.trace.started = s.trace.started)
      (heap : ∀ p, (t.env.heap.get? p).isSome ↔ p ≠ x.block ∧ (s.env.heap.get? p).isSome)
      (contexts : t.contexts =
        if x.call.entry = .openat then s.contexts else s.contexts.free x.context)
      (busy : ∀ p, t.Busy p ↔ p ≠ x.block ∧ s.Busy p)

variable {s t : Runtime} {p : Ptr}

/-! ## The end of `makeCallback` -/

/-- What `makeCallback` does after the JavaScript call: the request is armed
    again, or given back with its context. -/
theorem Inv.finishCallback_eq {x : Started} (h : s.Inv (some p)) (hx : x ∈ s.trace.started)
    (hblock : x.block = p) :
    (∃ env, env.heap = s.env.heap ∧ Environment.Submits p s.env env ∧
      s.finishCallback p = .next { s with env, ctl := .inner }) ∨
    s.finishCallback p = .next
      { s with
        env := { s.env with heap := s.env.heap.free p }
        contexts := s.contexts.free x.context
        ctl := .inner
        trace := { s.trace with destroyed := s.trace.destroyed ++ [x.context] } } := by
  obtain ⟨⟨res, hreq⟩, hctx⟩ := (h.tracks x hx).live (Or.inr (congrArg some hblock.symm))
  rw [hblock] at hreq
  have hdata : s.contexts.get? ({ x.request with res } : Request).data = some x.async.context :=
    hctx
  have hagain : ({ x.request with res } : Request).again = x.async.again := rfl
  simp only [Runtime.finishCallback, hreq, hdata, hagain]
  by_cases hflag : x.async.again = true
  · obtain ⟨env, henv, -, hheap, hsub⟩ :=
      h.sound.resubmit hreq (Call.start_wired (h.started x hx)).1 (h.reaped p rfl)
    rw [if_pos hflag, henv]
    exact .inl ⟨env, hheap, hsub, rfl⟩
  · rw [if_neg hflag, (h.sound.free hreq (h.reaped p rfl)).1]
    exact .inr rfl

/-- The request that was being handled is in flight again or given back. -/
theorem Inv.finishCallback_memory {x : Started} (h : s.Inv (some p)) (hx : x ∈ s.trace.started)
    (hblock : x.block = p) (hentry : x.call.entry ≠ .openat) {u : Runtime}
    (hheap : ∀ q, (s.env.heap.get? q).isSome ↔ (u.env.heap.get? q).isSome)
    (hcontexts : s.contexts = u.contexts) (hstarted : s.trace.started = u.trace.started)
    (hbusy : ∀ q, u.Busy q ↔ q = p ∨ q ∈ s.env.outstanding)
    (hstep : s.finishCallback p = .next t) : Memory u t := by
  have hout := h.reaped p rfl
  obtain ⟨env, hsame, hsub, heq⟩ | heq := h.finishCallback_eq hx hblock
  · obtain rfl := Outcome.next.inj (heq.symm.trans hstep)
    refine .same (fun q => ?_) hcontexts hstarted fun q => ?_
    · show (env.heap.get? q).isSome ↔ _
      rw [hsame]
      exact hheap q
    · show q ∈ env.outstanding ∨ none = some q ↔ _
      rw [hbusy, hsub.outstanding.mem_iff, List.mem_cons]
      simp
  · obtain rfl := Outcome.next.inj (heq.symm.trans hstep)
    refine .released x (hstarted ▸ hx) hstarted (fun q => ?_) ?_ fun q => ?_
    · show ((s.env.heap.free p).get? q).isSome ↔ _
      rw [Heap.isSome_get?_free, hblock, hheap]
    · rw [if_neg hentry, ← hcontexts]
    · show q ∈ s.env.outstanding ∨ none = some q ↔ _
      rw [hbusy, hblock]
      refine ⟨fun hq => ?_, fun hq => .inl (hq.2.resolve_left hq.1)⟩
      have hq := hq.resolve_right (by simp)
      exact ⟨fun heq => hout (heq ▸ hq), .inr hq⟩

/-! ## The steps -/

theorem AtRest.start_memory (h : s.AtRest) {c : Call} (hstep : s.start c = .next t) :
    Memory s t := by
  rw [Runtime.start] at hstep
  cases hc : c.start with
  | none => simp [hc] at hstep
  | some a =>
      obtain ⟨env, henv, -, hheap, hsub⟩ :=
        h.sound.submitNew (a.request s.contexts.top) (Call.start_wired hc).1
      simp only [hc, henv, Outcome.bind_next, Outcome.next.injEq] at hstep
      subst hstep
      refine .started ⟨c, a, s.env.heap.top, s.contexts.top⟩ _ rfl rfl rfl hheap rfl fun p => ?_
      show p ∈ env.outstanding ∨ _ ↔ _
      rw [hsub.outstanding.mem_iff, List.mem_cons, or_assoc]
      exact Iff.rfl

theorem Inv.innerLoop_memory (h : s.Inv none) (hctl : s.ctl = .inner)
    (hstep : s.innerLoop = .next t) : Memory s t := by
  have hrest : ∀ p, s.Busy p ↔ p ∈ s.env.outstanding := fun p => by
    rw [Busy, hctl]
    simp [Ctl.running]
  cases hpeek : io_uring_peek_cqe s.env.io_uring_data.ring with
  | none =>
      rw [Runtime.innerLoop, hpeek] at hstep
      obtain rfl := Outcome.next.inj hstep
      refine .same (fun _ => Iff.rfl) rfl rfl fun p => ?_
      rw [hrest, Busy]
      simp [Ctl.running]
  | some c =>
      obtain ⟨x, env, hx, hblock, hreaps, -, hinv, heq⟩ := h.innerLoop_eq hctl hpeek
      rw [heq, handle] at hstep
      -- the request is out of flight now, and the block still there
      have hheap : ∀ p, ((s.counted x c env).env.heap.get? p).isSome ↔
          (s.env.heap.get? p).isSome := fun p => by
        show (env.heap.get? p).isSome ↔ _
        rw [hreaps.heap, Heap.isSome_get?_modify]
      have hbusy : ∀ p, s.Busy p ↔ p = c.user_data ∨ p ∈ env.outstanding := fun p => by
        rw [hrest, hreaps.outstanding.mem_iff, List.mem_cons]
      by_cases hentry : x.call.entry = .openat
      · rw [if_pos hentry] at hstep
        obtain ⟨⟨res, hreq⟩, -⟩ := (hinv.tracks x hx).live (Or.inr (congrArg some hblock.symm))
        rw [hblock] at hreq
        rw [Runtime.openAfter, (hinv.sound.free hreq (hinv.reaped _ rfl)).1] at hstep
        obtain rfl := Outcome.next.inj hstep
        refine .released x hx rfl (fun p => ?_) (if_pos hentry).symm fun p => ?_
        · show ((env.heap.free c.user_data).get? p).isSome ↔ _
          rw [Heap.isSome_get?_free, hblock]
          exact and_congr_right fun _ => hheap p
        · show p ∈ env.outstanding ∨ s.ctl.running = some p ↔ _
          rw [hbusy, hblock, hctl]
          refine ⟨fun hp => ?_, fun hp => .inl (hp.2.resolve_left hp.1)⟩
          have hp := hp.resolve_right (by simp [Ctl.running])
          exact ⟨fun heq => hreaps.reaped (heq ▸ hp), .inr hp⟩
      · rw [if_neg hentry] at hstep
        split at hstep
        · exact hinv.finishCallback_memory hx hblock hentry hheap rfl rfl hbusy hstep
        · obtain rfl := Outcome.next.inj hstep
          refine .same hheap rfl rfl fun p => ?_
          show p ∈ env.outstanding ∨ some c.user_data = some p ↔ _
          rw [hbusy, Option.some.injEq, or_comm, eq_comm]

/-- The step lemma: every step of a run moves the blocks of one operation or of
    none. -/
theorem AtRest.memory_step (h : s.AtRest) {a : Act} (hstep : s.step a = .next t) :
    Memory s t := by
  have htakes := step_cases hstep
  cases a with
  | start c => exact h.start_memory htakes.2
  | stop =>
      obtain ⟨-, rfl⟩ := htakes
      exact .same (fun _ => Iff.rfl) rfl rfl fun _ => Iff.rfl
  | run =>
      obtain ⟨hctl, rfl⟩ := htakes
      refine .same (fun _ => Iff.rfl) rfl rfl fun p => ?_
      rw [Busy, Busy, hctl]
      rfl
  | outer =>
      obtain ⟨hctl, rfl⟩ := htakes
      rw [outerLoop]
      split
      · obtain ⟨-, hout⟩ := h.sound.submitAndWait
        refine .same (fun _ => Iff.rfl) rfl rfl fun p => ?_
        show p ∈ s.env.submitAndWait.outstanding ∨ _ ↔ _
        rw [hout, Busy, hctl]
        rfl
      · refine .same (fun _ => Iff.rfl) rfl rfl fun p => ?_
        rw [Busy, Busy, hctl]
        rfl
  | inner =>
      obtain ⟨hctl, hinner⟩ := htakes
      rw [AtRest, hctl] at h
      exact h.innerLoop_memory hctl hinner
  | ret =>
      obtain ⟨p, hctl, hret⟩ := htakes
      rw [AtRest, hctl] at h
      obtain ⟨x, hx, hblock⟩ := h.known p (Or.inr rfl)
      have hentry : x.call.entry ≠ .openat := fun hopen => by
        have hinner := (h.tracks x hx).silent hopen (congrArg some hblock.symm)
        rw [hctl] at hinner
        exact absurd hinner (by simp)
      refine h.finishCallback_memory hx hblock hentry (fun _ => Iff.rfl) rfl rfl (fun q => ?_) hret
      rw [Busy, hctl, or_comm]
      show some p = some q ∨ _ ↔ _
      rw [Option.some.injEq, eq_comm]
  | complete i res =>
      have hcomplete : s.complete i res = .next t := htakes
      rw [Runtime.complete] at hcomplete
      cases hsqe : s.env.io_uring_data.ring.kernel[i]? with
      | none => simp [hsqe] at hcomplete
      | some sqe =>
          obtain ⟨env, henv, -, hheap, -, -, hperm⟩ := h.sound.complete res hsqe
          simp only [hsqe, henv, Outcome.bind_next, Outcome.next.injEq] at hcomplete
          subst hcomplete
          refine .same (fun p => ?_) rfl rfl fun p => ?_
          · show (env.heap.get? p).isSome ↔ _
            rw [hheap]
          · show p ∈ env.outstanding ∨ _ ↔ _
            rw [hperm.mem_iff]
            exact Iff.rfl

/-! ## The ledger -/

theorem ledger_init : init.Ledger where
  blocks p := by simp [init, Environment.init, Busy, Environment.outstanding, Ctl.running]
  owner p hp := by simp [init, Environment.init, Busy, Environment.outstanding, Ctl.running] at hp
  contexts d := by simp [init]
  distinct := by simp [init]

theorem Memory.ledger (hm : Memory s t) (h : s.Ledger) (hat : s.AtRest) : t.Ledger := by
  cases hm with
  | same hheap hcontexts hstarted hbusy =>
      refine ⟨fun p => ?_, fun p hp => ?_, fun d => ?_, hstarted ▸ h.distinct⟩
      · rw [hheap, h.blocks, hbusy]
      · rw [hstarted]
        exact h.owner p ((hbusy p).mp hp)
      · rw [hcontexts, h.contexts, hstarted]
        simp only [hbusy]
  | started x req hstarted hblock hcontext hheap hcontexts hbusy =>
      refine ⟨fun p => ?_, fun p hp => ?_, fun d => ?_, ?_⟩
      · rw [hheap, Heap.get?_alloc, hbusy, hblock]
        split
        · next heq => simp [heq]
        · next hne => simp [hne, h.blocks]
      · rw [hstarted]
        obtain rfl | hp := (hbusy p).mp hp
        · exact ⟨x, by simp, rfl⟩
        · obtain ⟨y, hy, hyblock⟩ := h.owner p hp
          exact ⟨y, List.mem_append_left _ hy, hyblock⟩
      · rw [hcontexts, Heap.get?_alloc, hstarted]
        -- the operations there were have other blocks
        have hold : ∀ y ∈ s.trace.started, (t.Busy y.block ↔ s.Busy y.block) := fun y hy => by
          rw [hbusy, hblock]
          exact or_iff_right (Nat.ne_of_lt (hat.tracks y hy).block_lt)
        split
        · next heq =>
          refine ⟨fun _ => ⟨x, by simp, hcontext.trans heq.symm, .inl ?_⟩, fun _ => rfl⟩
          exact (hbusy _).mpr (.inl rfl)
        · next hne =>
          rw [h.contexts]
          constructor
          · rintro ⟨y, hy, hd, hlive⟩
            exact ⟨y, List.mem_append_left _ hy, hd, hlive.imp_left (hold y hy).mpr⟩
          · rintro ⟨y, hy, hd, hlive⟩
            obtain hy | hy := List.mem_append.mp hy
            · exact ⟨y, hy, hd, hlive.imp_left (hold y hy).mp⟩
            · obtain rfl := List.mem_singleton.mp hy
              exact absurd (hd.symm.trans hcontext) hne
      · -- the new context is above all those handed out
        have hnew : x.context ∉ s.trace.started.map (·.context) := fun hin => by
          obtain ⟨y, hy, hsame⟩ := List.mem_map.mp hin
          have hlt := (hat.tracks y hy).context_lt
          exact Nat.ne_of_lt hlt (hsame.trans hcontext)
        rw [hstarted, List.map_append]
        exact List.nodup_append_comm.mp (List.nodup_cons.mpr ⟨hnew, h.distinct⟩)
  | released x hx hstarted hheap hcontexts hbusy =>
      refine ⟨fun p => ?_, fun p hp => ?_, fun d => ?_, hstarted ▸ h.distinct⟩
      · rw [hheap, h.blocks, hbusy]
      · rw [hstarted]
        exact h.owner p ((hbusy p).mp hp).2
      · rw [hcontexts, hstarted]
        by_cases hentry : x.call.entry = .openat
        · rw [if_pos hentry, h.contexts]
          refine exists_congr fun y => and_congr_right fun hy => and_congr_right fun _ => ?_
          rw [hbusy]
          refine ⟨fun hlive => ?_, fun hlive => hlive.imp_left And.right⟩
          by_cases hsame : y.block = x.block
          · obtain rfl := hat.distinct y hy x hx (.inl hsame)
            exact .inr hentry
          · exact hlive.imp_left fun hbusy => ⟨hsame, hbusy⟩
        · rw [if_neg hentry, Heap.isSome_get?_free, h.contexts]
          constructor
          · rintro ⟨hne, y, hy, hd, hlive⟩
            refine ⟨y, hy, hd, hlive.imp_left fun hb => (hbusy _).mpr ⟨fun hsame => ?_, hb⟩⟩
            obtain rfl := hat.distinct y hy x hx (.inl hsame)
            exact hne hd.symm
          · rintro ⟨y, hy, hd, hlive⟩
            refine ⟨fun heq => ?_, y, hy, hd, hlive.imp_left fun hb => ((hbusy _).mp hb).2⟩
            -- the context that was given back is that of no other operation
            obtain rfl := hat.distinct y hy x hx (.inr (hd.trans heq))
            exact hlive.elim (fun hb => ((hbusy _).mp hb).1 rfl) hentry

/-- The invariant of the run. -/
theorem preserves_ledger : machine.Preserves fun s => s.AtRest ∧ s.Ledger := by
  intro s a ⟨hat, h⟩
  have hrest : (machine.step s a).Holds AtRest := preserves s a hat
  cases hstep : machine.step s a with
  | disabled => trivial
  | fault =>
      rw [hstep] at hrest
      exact hrest
  | next t => exact ⟨hrest.of_next hstep, (hat.memory_step hstep).ledger h hat⟩

/-! ## The end of the loop -/

/-- When `RunIOUring` leaves its outer loop by itself, nothing is in flight. -/
theorem AtRest.outstanding_nil (h : s.AtRest) (hstep : s.step .outer = .next t)
    (hexited : t.ctl = .exited) (hstop : s.env.io_uring_data.stop ≠ 1)
    (hlt : s.env.outstanding.length < 2 ^ 32) :
    s.env.outstanding = [] ∧ t = { s with ctl := .exited } := by
  obtain ⟨-, rfl⟩ := step_cases hstep
  rw [outerLoop] at hexited ⊢
  split at hexited
  · exact absurd hexited (by simp)
  · next hgoes =>
    obtain hstopped | hdvd := h.sound.goesOn_iff.mp (Bool.eq_false_iff.mpr hgoes)
    · exact absurd hstopped hstop
    · have hzero : s.env.outstanding.length = 0 := by omega
      rw [if_neg hgoes]
      exact ⟨List.eq_nil_of_length_eq_zero hzero, rfl⟩

/-- **Nothing is lost but the contexts of `openat`.**  In every run the live request
    blocks are those in flight or being handled, and the live contexts are theirs
    and those of the `openat` calls made so far, each its own.  So when the loop ends
    by itself no request is left, and one context for every `openat`. -/
theorem operations_own_blocks (as : List Act) : (machine.run as).Holds fun s =>
    s.Ledger ∧ ∀ t, s.step .outer = .next t → t.ctl = .exited →
      s.env.io_uring_data.stop ≠ 1 → s.env.outstanding.length < 2 ^ 32 →
      (∀ p, t.env.heap.get? p = none) ∧
      ∀ d, (t.contexts.get? d).isSome ↔
        ∃ x ∈ t.trace.started, x.context = d ∧ x.call.entry = .openat := by
  refine (preserves_ledger.run ⟨inv_init, ledger_init⟩ as).imp fun s ⟨hat, h⟩ => ⟨h, ?_⟩
  intro t hstep hexited hstop hlt
  obtain ⟨hnil, rfl⟩ := hat.outstanding_nil hstep hexited hstop hlt
  have hidle : ∀ p, ¬ s.Busy p := fun p hp => by
    obtain ⟨hctl, -⟩ := step_cases hstep
    rw [Busy, hnil, hctl] at hp
    exact absurd hp (by simp [Ctl.running])
  refine ⟨fun p => ?_, fun d => ?_⟩
  · have hdead := mt (h.blocks p).mp (hidle p)
    exact Option.not_isSome_iff_eq_none.mp hdead
  · rw [show ((_ : Runtime).contexts.get? d).isSome ↔ _ from h.contexts d]
    simp only [hidle, false_or]

/-- Two calls of `openat` and one of `close`, which finish in another order. -/
def openActs : List Act :=
  [.start ⟨.openat, [.null, .other], 0, fun _ _ => 0⟩,
    .start ⟨.openat, [.number 4, .other], 0, fun _ _ => 0⟩,
    .start ⟨.close, [.number 7, .function 3], 0, fun _ _ => 0⟩, .run, .outer, .complete 1 5,
    .complete 1 0, .complete 0 4, .inner, .inner, .ret, .inner, .inner]

theorem operations_own_blocks_open :
    ∃ s t, machine.run openActs = .next s ∧ s.Ledger ∧ s.step .outer = .next t ∧
      t.ctl = .exited ∧ (∀ p, t.env.heap.get? p = none) ∧
      ∀ d, (t.contexts.get? d).isSome ↔
        ∃ x ∈ t.trace.started, x.context = d ∧ x.call.entry = .openat := by
  obtain ⟨hledger, hends⟩ := (operations_own_blocks openActs).of_next rfl
  exact ⟨_, _, rfl, hledger, rfl, rfl, hends _ rfl rfl (by decide) (by decide)⟩

end Runtime

end NoJs.Async
