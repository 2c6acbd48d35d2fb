/-
  NoJs.IoUring.Conservation

  Conservation and exactly-once completion of the event loop.

  `Inv s running` is the invariant, with the request whose completion is being
  handled as a parameter: between the reap and the end of `makeCallback` that
  request is live but not in flight.  It ties the heap to the ring (a block is
  live exactly while it is in flight or running) and the trace to both.  Each
  operation of the loop has one lemma; `Loop.preserves` assembles them into the
  step lemma and the run lemma of NoJs.Lib.Machine does the induction.
-/

import Mathlib.Data.List.Nodup
import NoJs.IoUring.Loop

namespace NoJs.IoUring

open Machine

/-- A request but for the result slot that each completion overwrites. -/
def Request.withoutRes (r : Request) : Request := { r with res := 0 }

theorem Request.again_of_withoutRes {r r' : Request} (h : r.withoutRes = r'.withoutRes) :
    r.again = r'.again := by
  have hagain := congrArg Request.again h
  exact hagain

/-- The request whose JavaScript callback is running. -/
def Ctl.running : Ctl → Option Ptr
  | callback p => some p
  | _ => none

namespace Trace

/-- How often `p` was handed to the kernel. -/
def submits (t : Trace) (p : Ptr) : Nat := (t.submitted.map (·.1)).count p

/-- How often the callback of `p` was run. -/
def runs (t : Trace) (p : Ptr) : Nat := (t.ran.map (·.1)).count p

variable (t : Trace) (p q : Ptr) (r : Request)

theorem submits_submit :
    (t.submit p r).submits q = t.submits q + if p = q then 1 else 0 := by
  simp [submits, submit, List.count_cons]

theorem runs_run : (t.run p r).runs q = t.runs q + if p = q then 1 else 0 := by
  simp [runs, run, List.count_cons]

@[simp] theorem submits_run : (t.run p r).submits q = t.submits q := rfl

@[simp] theorem runs_submit : (t.submit p r).runs q = t.runs q := rfl

theorem mem_submit {x : Ptr × Request} :
    x ∈ (t.submit p r).submitted ↔ x ∈ t.submitted ∨ x = (p, r) := by
  simp [submit]

theorem mem_run {x : Ptr × Request} : x ∈ (t.run p r).ran ↔ x ∈ t.ran ∨ x = (p, r) := by
  simp [run]

theorem mem_free : q ∈ (t.free p).freed ↔ q ∈ t.freed ∨ q = p := by
  simp [free]

end Trace

namespace Loop

/-- The invariant, while the completion of `running` is being handled. -/
structure Inv (s : Loop) (running : Option Ptr) : Prop where
  sound : s.env.Sound 0
  live_iff : ∀ p, (s.env.heap.get? p).isSome ↔ p ∈ s.env.outstanding ∨ running = some p
  reaped : ∀ p, running = some p → p ∉ s.env.outstanding
  request : ∀ p r, s.env.heap.get? p = some r →
    r.supported ∧ (∃ e, r.cb = some (.makeCallback e)) ∧ (s.contexts.get? r.data).isSome
  context_inj : ∀ p q r r', s.env.heap.get? p = some r → s.env.heap.get? q = some r' →
    r.data = r'.data → p = q
  contents : ∀ p r r', (p, r) ∈ s.trace.submitted → s.env.heap.get? p = some r' →
    r.withoutRes = r'.withoutRes
  submitted_iff : ∀ p, p < s.env.heap.top ↔ ∃ r, (p, r) ∈ s.trace.submitted
  ran_contents : ∀ p r, (p, r) ∈ s.trace.ran →
    ∃ r', (p, r') ∈ s.trace.submitted ∧ r.withoutRes = r'.withoutRes
  delivered : s.trace.posted
    = s.trace.ran.map (fun x => ⟨x.1, x.2.res⟩) ++ s.env.io_uring_data.ring.cq
  count : ∀ p, s.trace.submits p = s.trace.runs p + s.env.outstanding.count p
  freed_iff : ∀ p, p ∈ s.trace.freed ↔ p < s.env.heap.top ∧ s.env.heap.get? p = none
  freed_nodup : s.trace.freed.Nodup
  once : ∀ p r, (p, r) ∈ s.trace.submitted → r.again = false → s.trace.submits p = 1
  kept : ∀ p r, (p, r) ∈ s.trace.submitted → r.again = true → p ∉ s.trace.freed

/-- The invariant at the points between two steps. -/
def AtRest (s : Loop) : Prop := s.Inv s.ctl.running

theorem inv_init : init.Inv none where
  sound := Environment.sound_init
  live_iff := by simp [init, Environment.init, Environment.outstanding]
  reaped := by simp
  request := by simp [init, Environment.init]
  context_inj := by simp [init, Environment.init]
  contents := by simp [init]
  submitted_iff := by simp [init, Environment.init]
  ran_contents := by simp [init]
  delivered := rfl
  count := by
    simp [init, Trace.submits, Trace.runs, Environment.init, Environment.outstanding]
  freed_iff := by simp [init, Environment.init]
  freed_nodup := List.nodup_nil
  once := by simp [init]
  kept := by simp [init]

namespace Inv

variable {s : Loop} {running : Option Ptr}

/-- A submitted request that was never freed is live. -/
theorem not_freed (h : s.Inv running) {p : Ptr} {r : Request} (hp : s.env.heap.get? p = some r) :
    p ∉ s.trace.freed := by
  intro hfreed
  have hnone := ((h.freed_iff p).mp hfreed).2
  rw [hp] at hnone
  exact absurd hnone (by simp)

theorem submits_top (h : s.Inv running) : s.trace.submits s.env.heap.top = 0 := by
  refine List.count_eq_zero.mpr fun hmem => ?_
  obtain ⟨⟨p, r⟩, hpr, rfl⟩ := List.mem_map.mp hmem
  exact Nat.lt_irrefl _ ((h.submitted_iff _).mpr ⟨r, hpr⟩)

/-- Changing only `ctl` keeps the invariant. -/
theorem setCtl (h : s.Inv running) (c : Ctl) : Inv { s with ctl := c } running :=
  ⟨h.sound, h.live_iff, h.reaped, h.request, h.context_inj, h.contents, h.submitted_iff,
    h.ran_contents, h.delivered, h.count, h.freed_iff, h.freed_nodup, h.once, h.kept⟩

theorem startOperation (h : s.Inv running) {o : Operation} (ho : o.kind.op ∈ switchOps) :
    (s.startOperation o).Holds fun t => t.Inv running ∧ t.ctl = s.ctl := by
  obtain ⟨env, henv, hsound, hheap, hsub⟩ :=
    h.sound.submitNew (o.request s.contexts.top) ho
  -- the new block is neither live nor in the trace
  have hold : ∀ p r, s.env.heap.get? p = some r → p ≠ s.env.heap.top :=
    fun p r hp => Nat.ne_of_lt (Heap.lt_top_of_get? hp)
  have holdTrace : ∀ p r, (p, r) ∈ s.trace.submitted → p ≠ s.env.heap.top :=
    fun p r hp => Nat.ne_of_lt ((h.submitted_iff p).mpr ⟨r, hp⟩)
  have hmem : ∀ p, p ∈ env.outstanding ↔ p = s.env.heap.top ∨ p ∈ s.env.outstanding := by
    intro p
    rw [hsub.outstanding.mem_iff, List.mem_cons]
  have hget : ∀ p, env.heap.get? p
      = if p = s.env.heap.top then some (o.request s.contexts.top) else s.env.heap.get? p := by
    intro p
    rw [hheap, Heap.get?_alloc]
  -- nor does a live request point to the new context
  have hfresh : ∀ p r, s.env.heap.get? p = some r → r.data ≠ s.contexts.top := by
    intro p r hp
    obtain ⟨c, hc⟩ := Option.isSome_iff_exists.mp (h.request p r hp).2.2
    exact Nat.ne_of_lt (Heap.lt_top_of_get? hc)
  rw [Loop.startOperation, henv]
  refine ⟨⟨hsound, ?_, ?_, ?_, ?_, ?_, ?_, ?_, ?_, ?_, ?_, h.freed_nodup, ?_, ?_⟩, rfl⟩
  · -- live_iff
    intro p
    have hlive := h.live_iff p
    simp only [hmem, hget]
    grind
  · -- reaped
    intro p hp
    have hreaped := h.reaped p hp
    obtain ⟨r, hr⟩ := Option.isSome_iff_exists.mp ((h.live_iff p).mpr (Or.inr hp))
    simp only [hmem]
    exact fun hor => hor.elim (hold p r hr) hreaped
  · -- request
    intro p r hp
    simp only [hget] at hp
    by_cases htop : p = s.env.heap.top
    · rw [if_pos htop] at hp
      obtain rfl := Option.some.inj hp
      exact ⟨ho, ⟨o.event, rfl⟩, by simp [Operation.request]⟩
    · rw [if_neg htop] at hp
      obtain ⟨hsupp, hcb, hctx⟩ := h.request p r hp
      obtain ⟨c, hc⟩ := Option.isSome_iff_exists.mp hctx
      exact ⟨hsupp, hcb, by simp [Heap.get?_alloc_of_some hc]⟩
  · -- context_inj
    intro p q r r' hp hq
    simp only [hget] at hp hq
    have hdata : (o.request s.contexts.top).data = s.contexts.top := rfl
    have := h.context_inj p q r r'
    have := hfresh p r
    have := hfresh q r'
    grind
  · -- contents
    intro p r r' hp hr'
    simp only [hget] at hr'
    rcases (Trace.mem_submit _ _ _).mp hp with hp | hp
    · rw [if_neg (holdTrace p r hp)] at hr'
      exact h.contents p r r' hp hr'
    · obtain ⟨rfl, rfl⟩ := Prod.mk.inj hp
      rw [if_pos rfl] at hr'
      rw [Option.some.inj hr']
  · -- submitted_iff
    intro p
    have hiff := h.submitted_iff p
    simp only [hheap, Heap.top_alloc, Trace.mem_submit, Prod.mk.injEq]
    constructor
    · intro hlt
      by_cases htop : p = s.env.heap.top
      · exact ⟨_, Or.inr ⟨htop, rfl⟩⟩
      · obtain ⟨r, hr⟩ := hiff.mp (by omega)
        exact ⟨r, Or.inl hr⟩
    · rintro ⟨r, hr | ⟨hr, -⟩⟩
      · have := hiff.mpr ⟨r, hr⟩
        omega
      · omega
  · -- ran_contents
    intro p r hp
    obtain ⟨r', hr', heq⟩ := h.ran_contents p r hp
    exact ⟨r', (Trace.mem_submit _ _ _).mpr (Or.inl hr'), heq⟩
  · -- delivered
    rw [hsub.cq]
    exact h.delivered
  · -- count
    intro p
    have hcount := h.count p
    simp only [Trace.submits_submit, Trace.runs_submit, hsub.outstanding.count_eq,
      List.count_cons, beq_iff_eq]
    omega
  · -- freed_iff
    intro p
    have hiff := h.freed_iff p
    simp only [hheap, Heap.top_alloc, Trace.submit]
    grind
  · -- once
    intro p r hp hagain
    have htop := h.submits_top
    simp only [Trace.submits_submit]
    rcases (Trace.mem_submit _ _ _).mp hp with hp | hp
    · rw [if_neg (Ne.symm (holdTrace p r hp))]
      exact h.once p r hp hagain
    · obtain ⟨rfl, rfl⟩ := Prod.mk.inj hp
      rw [if_pos rfl, htop]
  · -- kept
    intro p r hp hagain
    rcases (Trace.mem_submit _ _ _).mp hp with hp | hp
    · exact h.kept p r hp hagain
    · obtain ⟨rfl, rfl⟩ := Prod.mk.inj hp
      exact fun hfreed => Nat.lt_irrefl _ ((h.freed_iff _).mp hfreed).1

/-- Changes of the ring that keep the outstanding requests keep the invariant. -/
theorem setEnv (h : s.Inv running) {env : Environment} {posted : List Cqe}
    (hsound : env.Sound 0) (hheap : env.heap = s.env.heap)
    (hperm : env.outstanding.Perm s.env.outstanding)
    (hposted : posted
      = s.trace.ran.map (fun x => ⟨x.1, x.2.res⟩) ++ env.io_uring_data.ring.cq) :
    Inv { s with env, trace := { s.trace with posted } } running := by
  refine ⟨hsound, ?_, ?_, ?_, ?_, ?_, ?_, h.ran_contents, hposted, ?_, ?_, h.freed_nodup,
    h.once, h.kept⟩
  · intro p
    rw [hheap, h.live_iff, hperm.mem_iff]
  · intro p hp
    rw [hperm.mem_iff]
    exact h.reaped p hp
  · rw [hheap]
    exact h.request
  · rw [hheap]
    exact h.context_inj
  · rw [hheap]
    exact h.contents
  · rw [hheap]
    exact h.submitted_iff
  · intro p
    rw [hperm.count_eq]
    exact h.count p
  · rw [hheap]
    exact h.freed_iff

theorem complete (h : s.Inv running) (i : Nat) (res : Int32) :
    (s.complete i res).Holds fun t => t.Inv running ∧ t.ctl = s.ctl := by
  rw [Loop.complete]
  cases hsqe : s.env.io_uring_data.ring.kernel[i]? with
  | none => trivial
  | some sqe =>
      obtain ⟨env, henv, hsound, hheap, -, hcq, hperm⟩ := h.sound.complete res hsqe
      simp only [henv, Outcome.bind_next, Outcome.holds_next]
      refine ⟨h.setEnv hsound hheap hperm ?_, trivial⟩
      rw [hcq, h.delivered, List.append_assoc]

theorem stop (h : s.Inv running) :
    Inv { s with env := { s.env with io_uring_data := Stop s.env.io_uring_data } } running :=
  h.setEnv h.sound.stop rfl (List.Perm.refl _) h.delivered

theorem submitAndWait (h : s.Inv running) : Inv { s with env := s.env.submitAndWait } running := by
  obtain ⟨hsound, hout⟩ := h.sound.submitAndWait
  exact h.setEnv hsound rfl (hout ▸ List.Perm.refl _) h.delivered

/-- A request with IO_URING_REQUEST_AGAIN goes back in flight. -/
private theorem finish_again (h : s.Inv running) {p : Ptr} {req : Request}
    (hrun : running = some p) (hreq : s.env.heap.get? p = some req) (hagain : req.again = true) :
    (s.finishCallback p).Holds fun t => t.Inv none ∧ t.ctl = .inner := by
  obtain ⟨hsupp, -, -⟩ := h.request p req hreq
  obtain ⟨env, henv, hsound, hheap, hsub⟩ := h.sound.resubmit hreq hsupp (h.reaped p hrun)
  -- the heap stays as it is: only the ring and the trace change
  have hmem : ∀ q, q ∈ env.outstanding ↔ q = p ∨ q ∈ s.env.outstanding := by
    intro q
    rw [hsub.outstanding.mem_iff, List.mem_cons]
  simp only [finishCallback, hreq, hagain, if_true, henv, Outcome.bind_next, Outcome.holds_next]
  refine ⟨⟨hsound, ?_, ?_, ?_, ?_, ?_, ?_, ?_, ?_, ?_, ?_, h.freed_nodup, ?_, ?_⟩, trivial⟩
  · -- live_iff
    intro q
    have hlive := h.live_iff q
    simp only [hheap, hmem]
    grind
  · -- reaped
    simp
  · -- request
    rw [hheap]
    exact h.request
  · -- context_inj
    rw [hheap]
    exact h.context_inj
  · -- contents
    intro q r r' hq hr'
    rw [hheap] at hr'
    rcases (Trace.mem_submit _ _ _).mp hq with hq | hq
    · exact h.contents q r r' hq hr'
    · obtain ⟨rfl, rfl⟩ := Prod.mk.inj hq
      rw [Option.some.inj (hreq.symm.trans hr')]
  · -- submitted_iff
    intro q
    have hiff := h.submitted_iff q
    have hp := (h.submitted_iff p).mp (Heap.lt_top_of_get? hreq)
    simp only [hheap, Trace.mem_submit, Prod.mk.injEq]
    grind
  · -- ran_contents
    intro q r hq
    obtain ⟨r', hr', heq⟩ := h.ran_contents q r hq
    exact ⟨r', (Trace.mem_submit _ _ _).mpr (Or.inl hr'), heq⟩
  · -- delivered
    rw [hsub.cq]
    exact h.delivered
  · -- count
    intro q
    have hcount := h.count q
    simp only [Trace.submits_submit, Trace.runs_submit, hsub.outstanding.count_eq,
      List.count_cons, beq_iff_eq]
    omega
  · -- freed_iff
    rw [hheap]
    exact h.freed_iff
  · -- once
    intro q r hq hnot
    -- a request that was submitted again has the flag, and its contents never lose it
    have hne : p ≠ q := by
      rintro rfl
      rcases (Trace.mem_submit _ _ _).mp hq with hq | hq
      · have := Request.again_of_withoutRes (h.contents _ _ _ hq hreq)
        simp [hnot, hagain] at this
      · obtain ⟨-, rfl⟩ := Prod.mk.inj hq
        simp [hnot] at hagain
    rcases (Trace.mem_submit _ _ _).mp hq with hq | hq
    · rw [Trace.submits_submit, if_neg hne]
      exact h.once q r hq hnot
    · exact absurd (Prod.mk.inj hq).1.symm hne
  · -- kept
    intro q r hq hyes
    rcases (Trace.mem_submit _ _ _).mp hq with hq | hq
    · exact h.kept q r hq hyes
    · obtain ⟨rfl, -⟩ := Prod.mk.inj hq
      exact h.not_freed hreq

/-- A request without it is freed, with its context. -/
private theorem finish_free (h : s.Inv running) {p : Ptr} {req : Request}
    (hrun : running = some p) (hreq : s.env.heap.get? p = some req) (hagain : req.again = false) :
    (s.finishCallback p).Holds fun t => t.Inv none ∧ t.ctl = .inner := by
  obtain ⟨-, -, hctx⟩ := h.request p req hreq
  obtain ⟨ctx, hctx⟩ := Option.isSome_iff_exists.mp hctx
  obtain ⟨hfree, hsound⟩ := h.sound.free hreq (h.reaped p hrun)
  simp only [finishCallback, hreq, hagain, Bool.false_eq_true, if_false, hctx, hfree,
    Outcome.bind_next, Outcome.holds_next]
  refine ⟨⟨hsound, ?_, ?_, ?_, ?_, ?_, h.submitted_iff, h.ran_contents, h.delivered, h.count, ?_,
    ?_, h.once, ?_⟩, trivial⟩
  · -- live_iff
    intro q
    have hlive := h.live_iff q
    have hreaped := h.reaped p hrun
    simp only [Heap.get?_free, Environment.outstanding] at hlive hreaped ⊢
    grind
  · -- reaped
    simp
  · -- request
    intro q r hq
    simp only [Heap.get?_free] at hq
    by_cases hqp : q = p
    · simp [hqp] at hq
    · rw [if_neg hqp] at hq
      -- no other request shares the context that is freed with this one
      have hne : r.data ≠ req.data := fun heq => hqp (h.context_inj q p r req hq hreq heq)
      obtain ⟨hsupp, hcb, hlive⟩ := h.request q r hq
      exact ⟨hsupp, hcb, by rwa [Heap.get?_free_ne hne]⟩
  · -- context_inj
    intro q q' r r' hq hq'
    simp only [Heap.get?_free] at hq hq'
    have := h.context_inj q q' r r'
    grind
  · -- contents
    intro q r r' hq hr'
    simp only [Heap.get?_free] at hr'
    have := h.contents q r r' hq
    grind
  · -- freed_iff
    intro q
    have hiff := h.freed_iff q
    have htop := Heap.lt_top_of_get? hreq
    simp only [Trace.mem_free, Heap.get?_free, Heap.top_free]
    grind
  · -- freed_nodup
    exact List.Nodup.append h.freed_nodup (List.nodup_singleton p)
      (List.disjoint_singleton.mpr (h.not_freed hreq))
  · -- kept
    intro q r hq hyes hfreed
    rcases (Trace.mem_free _ _ _).mp hfreed with hfreed | rfl
    · exact h.kept q r hq hyes hfreed
    · have := Request.again_of_withoutRes (h.contents _ _ _ hq hreq)
      simp [hyes, hagain] at this

theorem finishCallback (h : s.Inv running) {p : Ptr} (hrun : running = some p) :
    (s.finishCallback p).Holds fun t => t.Inv none ∧ t.ctl = .inner := by
  obtain ⟨req, hreq⟩ := Option.isSome_iff_exists.mp ((h.live_iff p).mpr (Or.inr hrun))
  cases hagain : req.again with
  | true => exact h.finish_again hrun hreq hagain
  | false => exact h.finish_free hrun hreq hagain

theorem makeCallback (h : s.Inv running) {p : Ptr} (hrun : running = some p) :
    (s.makeCallback p).Holds AtRest := by
  obtain ⟨req, hreq⟩ := Option.isSome_iff_exists.mp ((h.live_iff p).mpr (Or.inr hrun))
  obtain ⟨-, -, hctx⟩ := h.request p req hreq
  obtain ⟨ctx, hctx⟩ := Option.isSome_iff_exists.mp hctx
  have hfinish : (s.finishCallback p).Holds AtRest :=
    (h.finishCallback hrun).imp fun t ht => by rw [AtRest, ht.2]; exact ht.1
  simp only [Loop.makeCallback, hreq, hctx]
  split
  · subst hrun
    exact h.setCtl (.callback p)
  · exact hfinish

/-- Reaping the oldest completion makes its request the running one. -/
theorem reap (h : s.Inv none) {c : Cqe}
    (hc : io_uring_peek_cqe s.env.io_uring_data.ring = some c) :
    ∃ req env, s.env.reap c = .next (req, env) ∧ (∃ e, req.cb = some (.makeCallback e)) ∧
      Inv { s with env, trace := s.trace.run c.user_data req } (some c.user_data) := by
  obtain ⟨req, env, hreq, henv, hsound, hheap, -, hring, hperm, hout⟩ := h.sound.reap hc
  obtain ⟨hsupp, hcb, hctx⟩ := h.request _ req hreq
  -- the reap takes the head of the completion queue and writes one block
  have hcq : s.env.io_uring_data.ring.cq = c :: env.io_uring_data.ring.cq := by
    obtain ⟨cs, hcs⟩ := List.head?_eq_some_iff.mp hc
    rw [hring, io_uring_cq_advance, hcs]
    rfl
  have hmem : ∀ q, q ∈ s.env.outstanding ↔ q = c.user_data ∨ q ∈ env.outstanding := by
    intro q
    rw [hperm.mem_iff, List.mem_cons]
  have hget : ∀ q, env.heap.get? q = if q = c.user_data then some { req with res := c.res }
      else s.env.heap.get? q := by
    intro q
    rw [hheap, Heap.get?_modify]
    split
    · next heq => rw [heq, hreq]; rfl
    · rfl
  refine ⟨_, env, henv, hcb, hsound, ?_, ?_, ?_, ?_, ?_, ?_, ?_, ?_, ?_, ?_, h.freed_nodup,
    h.once, h.kept⟩
  · -- live_iff
    intro q
    have hlive := h.live_iff q
    simp only [hmem, hget] at hlive ⊢
    grind
  · -- reaped
    intro q hq
    obtain rfl := Option.some.inj hq
    exact hout
  · -- request
    intro q r hq
    simp only [hget] at hq
    by_cases hqc : q = c.user_data
    · rw [if_pos hqc] at hq
      obtain rfl := Option.some.inj hq
      exact ⟨hsupp, hcb, hctx⟩
    · rw [if_neg hqc] at hq
      exact h.request q r hq
  · -- context_inj
    intro q q' r r' hq hq'
    simp only [hget] at hq hq'
    have := h.context_inj q q'
    grind
  · -- contents
    intro q r r' hq hr'
    simp only [hget] at hr'
    by_cases hqc : q = c.user_data
    · rw [if_pos hqc] at hr'
      obtain rfl := Option.some.inj hr'
      exact h.contents q r req hq (hqc ▸ hreq)
    · rw [if_neg hqc] at hr'
      exact h.contents q r r' hq hr'
  · -- submitted_iff
    rw [hheap]
    exact h.submitted_iff
  · -- ran_contents
    intro q r hq
    rcases (Trace.mem_run _ _ _).mp hq with hq | hq
    · exact h.ran_contents q r hq
    · obtain ⟨rfl, rfl⟩ := Prod.mk.inj hq
      obtain ⟨r', hr'⟩ := (h.submitted_iff _).mp (Heap.lt_top_of_get? hreq)
      exact ⟨r', hr', (h.contents _ _ _ hr' hreq).symm⟩
  · -- delivered
    have hdelivered := h.delivered
    rw [hcq] at hdelivered
    simp [Trace.run, hdelivered]
  · -- count
    intro q
    have hcount := h.count q
    simp only [hperm.count_eq, List.count_cons, beq_iff_eq] at hcount
    simp only [Trace.submits_run, Trace.runs_run]
    omega
  · -- freed_iff
    intro q
    have hiff := h.freed_iff q
    simp only [hheap, Heap.top_modify, Trace.run]
    grind

theorem innerLoop (h : s.Inv none) : s.innerLoop.Holds AtRest := by
  rw [Loop.innerLoop]
  cases hc : io_uring_peek_cqe s.env.io_uring_data.ring with
  | none => exact h.setCtl .outer
  | some c =>
      obtain ⟨req, env, henv, ⟨e, hcb⟩, hinv⟩ := h.reap hc
      simp only [henv, Outcome.bind_next, hcb]
      exact hinv.makeCallback rfl

theorem outerLoop (h : s.Inv none) : s.outerLoop.AtRest := by
  rw [Loop.outerLoop]
  split
  · exact h.submitAndWait.setCtl .inner
  · exact h.setCtl .exited

end Inv

/-- The step lemma: every step keeps the invariant and faults nowhere. -/
theorem preserves : machine.Preserves AtRest := by
  intro s a h
  have hkeep : ∀ {o : Outcome Loop},
      (o.Holds fun t => t.Inv s.ctl.running ∧ t.ctl = s.ctl) → o.Holds AtRest := by
    intro o ho
    exact ho.imp fun t ht => by rw [AtRest, ht.2]; exact ht.1
  cases a with
  | start o =>
      simp only [machine, step]
      split
      · next hcond =>
        simp only [Bool.and_eq_true, decide_eq_true_eq] at hcond
        exact hkeep (h.startOperation hcond.2)
      · trivial
  | stop =>
      simp only [machine, step]
      split
      · exact h.stop
      · trivial
  | run =>
      simp only [machine, step]
      split
      · next hctl =>
        rw [AtRest, hctl] at h
        exact h.setCtl .outer
      · trivial
  | outer =>
      simp only [machine, step]
      split
      · next hctl =>
        rw [AtRest, hctl] at h
        exact h.outerLoop
      · trivial
  | inner =>
      simp only [machine, step]
      split
      · next hctl =>
        rw [AtRest, hctl] at h
        exact h.innerLoop
      · trivial
  | ret =>
      simp only [machine, step]
      split
      · next p hctl =>
        rw [AtRest, hctl] at h
        exact (h.finishCallback rfl).imp fun t ht => by rw [AtRest, ht.2]; exact ht.1
      · trivial
  | complete i res => exact hkeep (h.complete i res)

/-- The run lemma. -/
theorem run_atRest (as : List Act) : (machine.run as).Holds AtRest :=
  preserves.run inv_init as

/-! ## What the invariant says about a run -/

/-- Callbacks are run on the posted completions, in order and with their
    results, each on a request as it was submitted; a request was submitted once
    for every run of its callback and once more while it is outstanding. -/
structure DeliversExactly (s : Loop) : Prop where
  in_order : s.trace.posted
    = s.trace.ran.map (fun x => ⟨x.1, x.2.res⟩) ++ s.env.io_uring_data.ring.cq
  same_request : ∀ p r, (p, r) ∈ s.trace.ran →
    ∃ r', (p, r') ∈ s.trace.submitted ∧ r.withoutRes = r'.withoutRes
  count : ∀ p, s.trace.submits p = s.trace.runs p + s.env.outstanding.count p

/-- No request is in flight twice or freed twice.  One without
    IO_URING_REQUEST_AGAIN is submitted once, and freed exactly when its
    callback is over; one with it is never freed and, but for the time of its
    callback, always in flight. -/
structure OwnsExactly (s : Loop) : Prop where
  in_flight_once : s.env.outstanding.Nodup
  freed_once : s.trace.freed.Nodup
  single : ∀ p r, (p, r) ∈ s.trace.submitted → r.again = false →
    s.trace.submits p = 1 ∧
    (p ∈ s.trace.freed ↔ p ∉ s.env.outstanding ∧ s.ctl.running ≠ some p) ∧
    (p ∈ s.trace.freed → s.trace.runs p = 1)
  again : ∀ p r, (p, r) ∈ s.trace.submitted → r.again = true →
    p ∉ s.trace.freed ∧ (p ∈ s.env.outstanding ∨ s.ctl.running = some p)

theorem AtRest.deliversExactly {s : Loop} (h : s.AtRest) : s.DeliversExactly :=
  ⟨h.delivered, h.ran_contents, h.count⟩

theorem AtRest.ownsExactly {s : Loop} (h : s.AtRest) : s.OwnsExactly where
  in_flight_once := h.sound.nodup
  freed_once := h.freed_nodup
  single := by
    intro p r hp hagain
    have hfreed : p ∈ s.trace.freed ↔ p ∉ s.env.outstanding ∧ s.ctl.running ≠ some p := by
      rw [h.freed_iff, and_iff_right ((h.submitted_iff p).mpr ⟨r, hp⟩),
        ← Option.not_isSome_iff_eq_none, h.live_iff, not_or]
    refine ⟨h.once p r hp hagain, hfreed, fun hin => ?_⟩
    have hcount := h.count p
    -- submitted once and no longer in flight: its callback was run once
    rw [h.once p r hp hagain, List.count_eq_zero.mpr (hfreed.mp hin).1] at hcount
    omega
  again := by
    intro p r hp hagain
    have hkept := h.kept p r hp hagain
    refine ⟨hkept, (h.live_iff p).mp ?_⟩
    -- a dead block below the top was freed, which this one never is
    by_contra hnone
    exact hkept ((h.freed_iff p).mpr
      ⟨(h.submitted_iff p).mpr ⟨r, hp⟩, by simpa using hnone⟩)

theorem AtRest.pending {s : Loop} (h : s.AtRest) :
    s.env.io_uring_data.pending = Int32.ofNat s.env.outstanding.length := by
  rw [h.sound.accounts.pending, Int.add_zero, Int32.ofInt_eq_ofNat]
  rfl

/-- `RunIOUring` leaves its outer loop when it is stopped or the count of
    outstanding requests is zero as a 32-bit number. -/
theorem AtRest.leaves {s t : Loop} (h : s.AtRest) (hstep : machine.step s .outer = .next t) :
    t.ctl = .exited ↔
      s.env.io_uring_data.stop = 1 ∨ 2 ^ 32 ∣ s.env.outstanding.length := by
  have hgoes := h.sound.goesOn_iff
  simp only [machine, step] at hstep
  split at hstep
  · obtain rfl := Outcome.next.inj hstep
    -- the loop holds no references of its own
    have hcast : (2 ^ 32 : Int) ∣ s.env.outstanding.length + 0 ↔
        2 ^ 32 ∣ s.env.outstanding.length := by omega
    rw [← hcast, ← hgoes, outerLoop]
    cases s.env.goesOn <;> simp
  · exact absurd hstep (by simp)

/-- **Conservation and exactly-once completion.**  In every run of the event
    loop, and with no fault on the way: `pending` is the number of requests
    submitted and not yet reaped, as an `int32_t`; completions are delivered
    exactly; requests are owned exactly; and `RunIOUring` leaves its outer loop
    when it is stopped or nothing is in flight.  Below 2^31 outstanding requests
    the 32-bit equations are equations between numbers. -/
theorem event_loop_conservation (as : List Act) :
    (machine.run as).Holds fun s =>
      (s.env.io_uring_data.pending = Int32.ofNat s.env.outstanding.length ∧
        (s.env.outstanding.length < 2 ^ 31 →
          s.env.io_uring_data.pending.toInt = s.env.outstanding.length)) ∧
      s.DeliversExactly ∧ s.OwnsExactly ∧
      ∀ t, machine.step s .outer = .next t →
        (t.ctl = .exited ↔ s.env.io_uring_data.stop = 1 ∨ 2 ^ 32 ∣ s.env.outstanding.length) ∧
        (s.env.outstanding.length < 2 ^ 31 →
          (t.ctl = .exited ↔ s.env.io_uring_data.stop = 1 ∨ s.env.outstanding = [])) := by
  refine (run_atRest as).imp fun s h => ⟨⟨h.pending, fun hlt => ?_⟩, h.deliversExactly,
    h.ownsExactly, fun t hstep => ⟨h.leaves hstep, fun hlt => ?_⟩⟩
  · rw [h.pending, Int32.toInt_ofNat_of_lt hlt]
  · rw [h.leaves hstep, ← List.length_eq_zero_iff]
    refine or_congr Iff.rfl ⟨fun hdvd => Nat.eq_zero_of_dvd_of_lt hdvd (by omega), ?_⟩
    intro hzero
    rw [hzero]
    exact Nat.dvd_zero _

/-! ## The range of the counter -/

/-- Starting an operation adds one outstanding request. -/
theorem Inv.startOperation_length {s : Loop} {running : Option Ptr} (h : s.Inv running)
    {o : Operation} (ho : o.kind.op ∈ switchOps) :
    ∃ t, s.startOperation o = .next t ∧ t.ctl = s.ctl ∧
      t.env.outstanding.length = s.env.outstanding.length + 1 := by
  obtain ⟨env, henv, -, -, hsub⟩ := h.sound.submitNew (o.request s.contexts.top) ho
  rw [Loop.startOperation, henv]
  exact ⟨_, rfl, rfl, by simp [hsub.outstanding.length_eq]⟩

/-- A main script may start any number of operations. -/
theorem run_starts {o : Operation} (ho : o.kind.op ∈ switchOps) (n : Nat) :
    ∃ s, machine.run (List.replicate n (.start o)) = .next s ∧ s.ctl = .script ∧
      s.env.outstanding.length = n := by
  induction n with
  | zero => exact ⟨init, rfl, rfl, rfl⟩
  | succ n ih =>
      obtain ⟨s, hrun, hctl, hlen⟩ := ih
      have hinv := (run_atRest _).of_next hrun
      obtain ⟨t, ht, htctl, htlen⟩ := Inv.startOperation_length hinv ho
      refine ⟨t, ?_, htctl.trans hctl, by rw [htlen, hlen]⟩
      rw [List.replicate_succ', run_concat, hrun, Outcome.bind_next]
      simp [machine, step, hctl, Ctl.runsJs, ho, ht]

/-- `fs.close(-1)` without a callback. -/
def closeOperation : Operation :=
  { kind := .close { fd := -1 }, event := .onclose, flag := 0, object := none }

/-- With 2^31 operations in flight `pending` is negative, so it does not equal
    their number. -/
theorem event_loop_count_overflows :
    ¬ ∀ as : List Act, (machine.run as).Holds fun s =>
      s.ctl.running = none → s.env.io_uring_data.pending.toInt = s.env.outstanding.length := by
  intro h
  -- the run is not evaluated: its length alone fixes the counter
  obtain ⟨s, hrun, hctl, hlen⟩ := run_starts (o := closeOperation) (by decide) (2 ^ 31)
  have hpending := ((run_atRest _).of_next hrun).pending
  have heq := (h _).of_next hrun (by rw [hctl]; rfl)
  rw [hpending, hlen] at heq
  exact absurd heq (by decide)

end Loop

end NoJs.IoUring
