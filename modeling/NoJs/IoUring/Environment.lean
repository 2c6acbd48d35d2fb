/-
  NoJs.IoUring.Environment

  The `Environment` of `core/env.cc`: the ring with one submission entry and the
  heap its requests live on, with the operations every subsystem performs on
  them.  A new request is a fresh block (`malloc`, `memset`) handed to
  `SubmitRequest`; reaping is the body of the inner loop of `RunIOUring` up to
  the callback.

  `Sound env n` is what the subsystems rely on: the ledger with `n` references,
  and a live, unshared block behind every outstanding request.  Each operation
  has one lemma that says what it does and that it keeps `Sound`.
-/

import NoJs.IoUring.Submit
import NoJs.Lib.Heap

namespace NoJs.IoUring

open Machine

structure Environment where
  io_uring_data : IoUringInfo
  heap : Heap Request

namespace Environment

/-- `Environment::Environment`: a zeroed `io_uring_info` and
    `io_uring_queue_init(1, …)`. -/
def init : Environment where
  io_uring_data := { pending := 0, ring := io_uring_queue_init 1, stop := 0 }
  heap := .empty

/-- The requests submitted and not yet reaped. -/
def outstanding (env : Environment) : List Ptr := env.io_uring_data.ring.outstanding

/-- `malloc` and `memset` of a request, its fields, and `SubmitRequest`. -/
def submitNew (req : Request) (env : Environment) : Outcome Environment :=
  (SubmitRequest true env.heap.top req env.io_uring_data).bind fun info =>
    .next { io_uring_data := info, heap := env.heap.alloc req }

/-- `SubmitRequest` of a request object that exists. -/
def resubmit (p : Ptr) (env : Environment) : Outcome Environment :=
  match env.heap.get? p with
  | none => .fault
  | some req => (SubmitRequest true p req env.io_uring_data).bind fun info =>
      .next { env with io_uring_data := info }

/-- `free(req)`. -/
def free (p : Ptr) (env : Environment) : Outcome Environment :=
  match env.heap.get? p with
  | none => .fault
  | some _ => .next { env with heap := env.heap.free p }

/-- The kernel posts the completion of the `i`-th request it holds. -/
def complete (i : Nat) (res : Int32) (env : Environment) : Outcome Environment :=
  match env.io_uring_data.ring.complete i res with
  | none => .disabled
  | some ring => .next { env with io_uring_data := { env.io_uring_data with ring } }

/-- `--pending`, `req = cqe->user_data`, `req->res = cqe->res` and
    `io_uring_cq_advance(ring, 1)`: the request the callback is run on. -/
def reap (c : Cqe) (env : Environment) : Outcome (Request × Environment) :=
  match env.heap.get? c.user_data with
  | none => .fault
  | some req =>
      let info := decPending env.io_uring_data
      .next ({ req with res := c.res },
        { io_uring_data := { info with ring := io_uring_cq_advance info.ring }
          heap := env.heap.modify c.user_data fun r => { r with res := c.res } })

/-- `io_uring_submit_and_wait(ring, 1)`.  The wait ends with a completion or,
    interrupted by a signal, without one, so it leaves nothing to record. -/
def submitAndWait (env : Environment) : Environment :=
  { env with io_uring_data := submit true env.io_uring_data }

/-- The condition of the outer loop of `RunIOUring`. -/
def goesOn (env : Environment) : Bool :=
  env.io_uring_data.stop != 1 && env.io_uring_data.pending != 0

def inc (env : Environment) : Environment :=
  { env with io_uring_data := incPending env.io_uring_data }

def dec (env : Environment) : Environment :=
  { env with io_uring_data := decPending env.io_uring_data }

/-! ## What the subsystems rely on -/

structure Sound (env : Environment) (n : Int) : Prop where
  accounts : env.io_uring_data.Accounts n
  live : ∀ p ∈ env.outstanding, (env.heap.get? p).isSome
  nodup : env.outstanding.Nodup

theorem sound_init : init.Sound 0 where
  accounts := ⟨Ring.quiescent_init, rfl⟩
  live := by intro p hp; simp [outstanding, init] at hp
  nodup := List.nodup_nil

/-- What handing the request `p` to the kernel changes. -/
structure Submits (p : Ptr) (env env' : Environment) : Prop where
  stop : env'.io_uring_data.stop = env.io_uring_data.stop
  cq : env'.io_uring_data.ring.cq = env.io_uring_data.ring.cq
  outstanding : env'.outstanding.Perm (p :: env.outstanding)

/-- What reaping the completion `c` changes. -/
structure Reaps (c : Cqe) (env env' : Environment) : Prop where
  heap : env'.heap = env.heap.modify c.user_data fun r => { r with res := c.res }
  stop : env'.io_uring_data.stop = env.io_uring_data.stop
  ring : env'.io_uring_data.ring = io_uring_cq_advance env.io_uring_data.ring
  outstanding : env.outstanding.Perm (c.user_data :: env'.outstanding)
  reaped : c.user_data ∉ env'.outstanding

namespace Sound

variable {env : Environment} {n : Int}

theorem lt_top (h : env.Sound n) {p : Ptr} (hp : p ∈ env.outstanding) : p < env.heap.top := by
  obtain ⟨req, hreq⟩ := Option.isSome_iff_exists.mp (h.live p hp)
  exact Heap.lt_top_of_get? hreq

/-- The ring after `SubmitRequest` of a supported request. -/
private theorem submit_ring (h : env.Sound n) {p : Ptr} {req : Request} (hreq : req.supported) :
    ∃ info, SubmitRequest true p req env.io_uring_data = .next info ∧ info.Accounts n ∧
      ∀ heap, Submits p env ⟨info, heap⟩ := by
  obtain ⟨sqe, hsqe⟩ := Option.isSome_iff_exists.mp ((prep_isSome_iff p req.kind).mpr hreq)
  obtain ⟨ring, hsub, hkernel, hcq, hq⟩ := SubmitRequest_quiescent h.accounts.quiescent hsqe
  have hperm : ring.outstanding.Perm (p :: env.outstanding) := by
    simp only [outstanding, Ring.outstanding, hkernel, hcq, List.map_append, List.map_cons,
      List.map_nil, List.append_assoc, List.singleton_append]
    exact List.perm_middle
  refine ⟨_, hsub, ⟨hq, ?_⟩, fun _ => ⟨rfl, hcq, hperm⟩⟩
  -- `++pending` against one request more
  rw [h.accounts.pending, hperm.length_eq, List.length_cons]
  rw [show (env.outstanding.length + 1 : Nat) + n = env.outstanding.length + n + 1 by omega,
    Int32.ofInt_add _ 1]
  rfl

/-- Submitting a new request: it is outstanding, under a fresh block. -/
theorem submitNew (h : env.Sound n) (req : Request) (hreq : req.supported) :
    ∃ env', env.submitNew req = .next env' ∧ env'.Sound n ∧
      env'.heap = env.heap.alloc req ∧ Submits env.heap.top env env' := by
  obtain ⟨info, hsub, hacc, hsubmits⟩ := h.submit_ring (p := env.heap.top) hreq
  have hperm := (hsubmits (env.heap.alloc req)).outstanding
  -- the blocks in flight stay live, and the fresh one is not among them
  refine ⟨⟨info, env.heap.alloc req⟩, ?_, ⟨hacc, ?_, ?_⟩, rfl, hsubmits _⟩
  · rw [Environment.submitNew, hsub]
    rfl
  · intro p hp
    rcases List.mem_cons.mp (hperm.mem_iff.mp hp) with rfl | hp
    · simp
    · obtain ⟨r, hr⟩ := Option.isSome_iff_exists.mp (h.live p hp)
      simp [Heap.get?_alloc_of_some hr]
  · refine hperm.nodup_iff.mpr (List.nodup_cons.mpr ⟨?_, h.nodup⟩)
    exact fun hp => Nat.lt_irrefl _ (h.lt_top hp)

/-- Submitting an existing request that is not in flight. -/
theorem resubmit (h : env.Sound n) {p : Ptr} {req : Request} (hp : env.heap.get? p = some req)
    (hreq : req.supported) (hout : p ∉ env.outstanding) :
    ∃ env', env.resubmit p = .next env' ∧ env'.Sound n ∧ env'.heap = env.heap ∧
      Submits p env env' := by
  obtain ⟨info, hsub, hacc, hsubmits⟩ := h.submit_ring (p := p) hreq
  have hperm := (hsubmits env.heap).outstanding
  refine ⟨{ env with io_uring_data := info }, ?_, ⟨hacc, ?_, ?_⟩, rfl, hsubmits _⟩
  · simp only [Environment.resubmit, hp, hsub, Outcome.bind_next]
  · intro q hq
    rcases List.mem_cons.mp (hperm.mem_iff.mp hq) with rfl | hq
    · simp [hp]
    · exact h.live q hq
  · exact hperm.nodup_iff.mpr (List.nodup_cons.mpr ⟨hout, h.nodup⟩)

/-- Freeing a live request that is not in flight. -/
theorem free (h : env.Sound n) {p : Ptr} {req : Request} (hp : env.heap.get? p = some req)
    (hout : p ∉ env.outstanding) :
    env.free p = .next { env with heap := env.heap.free p } ∧
      Sound { env with heap := env.heap.free p } n := by
  refine ⟨by simp only [Environment.free, hp], h.accounts, ?_, h.nodup⟩
  intro q hq
  have hne : q ≠ p := fun heq => hout (heq ▸ hq)
  rw [Heap.get?_free_ne hne]
  exact h.live q hq

/-- A completion leaves the outstanding requests what they are. -/
theorem complete (h : env.Sound n) {i : Nat} {sqe : Sqe} (res : Int32)
    (hsqe : env.io_uring_data.ring.kernel[i]? = some sqe) :
    ∃ env', env.complete i res = .next env' ∧ env'.Sound n ∧ env'.heap = env.heap ∧
      env'.io_uring_data.stop = env.io_uring_data.stop ∧
      env'.io_uring_data.ring.cq = env.io_uring_data.ring.cq ++ [⟨sqe.user_data, res⟩] ∧
      env'.outstanding.Perm env.outstanding := by
  have hring : ∃ ring, env.io_uring_data.ring.complete i res = some ring ∧
      ring.cq = env.io_uring_data.ring.cq ++ [⟨sqe.user_data, res⟩] := by
    rw [Ring.complete, hsqe]
    exact ⟨_, rfl, rfl⟩
  obtain ⟨ring, hring, hcq⟩ := hring
  have hperm := Ring.complete_outstanding hring
  refine ⟨{ env with io_uring_data := { env.io_uring_data with ring } }, ?_,
    ⟨⟨Ring.complete_quiescent hring h.accounts.quiescent, ?_⟩, ?_, ?_⟩, rfl, rfl, hcq, hperm⟩
  · simp only [Environment.complete, hring]
  · simp only [h.accounts.pending, hperm.length_eq]
  · exact fun p hp => h.live p (hperm.mem_iff.mp hp)
  · exact hperm.nodup_iff.mpr h.nodup

/-- The kernel's step, for what the heap and the requests in flight decide. -/
theorem complete_holds {σ : Type} (h : env.Sound n) (i : Nat) (res : Int32)
    {f : Environment → σ} {I : σ → Prop}
    (hnext : ∀ env' : Environment, env'.Sound n → env'.heap = env.heap →
      env'.outstanding.Perm env.outstanding → I (f env')) :
    ((env.complete i res).bind fun env' => .next (f env')).Holds I := by
  cases hsqe : env.io_uring_data.ring.kernel[i]? with
  | none =>
      have hdis : env.complete i res = .disabled := by
        simp [Environment.complete, Ring.complete, hsqe]
      rw [hdis]
      trivial
  | some sqe =>
      obtain ⟨env', henv, hsound, hheap, -, -, hperm⟩ := h.complete res hsqe
      rw [henv]
      exact hnext env' hsound hheap hperm

/-- Reaping takes the request out of flight, with the completion's result in
    its `res`, and hands the callback the object that was submitted. -/
theorem reap (h : env.Sound n) {c : Cqe} (hc : io_uring_peek_cqe env.io_uring_data.ring = some c) :
    ∃ req env', env.heap.get? c.user_data = some req ∧
      env.reap c = .next ({ req with res := c.res }, env') ∧ env'.Sound n ∧
      Reaps c env env' := by
  have hperm := io_uring_cq_advance_outstanding hc
  have hnodup := List.nodup_cons.mp (hperm.nodup_iff.mp h.nodup)
  obtain ⟨req, hreq⟩ := Option.isSome_iff_exists.mp
    (h.live c.user_data (hperm.mem_iff.mpr (List.mem_cons_self ..)))
  -- `--pending` against one request less, and a store to a live block
  let env' : Environment :=
    { io_uring_data := { decPending env.io_uring_data with
        ring := io_uring_cq_advance env.io_uring_data.ring }
      heap := env.heap.modify c.user_data fun r => { r with res := c.res } }
  refine ⟨req, env', hreq, ?_, ⟨⟨?_, ?_⟩, ?_, hnodup.2⟩, rfl, rfl, rfl, hperm, hnodup.1⟩
  · simp only [Environment.reap, hreq]
    rfl
  · exact io_uring_cq_advance_quiescent h.accounts.quiescent
  · have hlen : env.io_uring_data.ring.outstanding.length
        = (io_uring_cq_advance env.io_uring_data.ring).outstanding.length + 1 := by
      rw [hperm.length_eq, List.length_cons]
    simp only [env', IoUring.decPending, h.accounts.pending, hlen]
    rw [show ((io_uring_cq_advance env.io_uring_data.ring).outstanding.length : Int) + n
        = ((io_uring_cq_advance env.io_uring_data.ring).outstanding.length + 1 : Nat) + n - 1
        by omega, Int32.ofInt_sub _ 1]
    rfl
  · intro p hp
    have hne : p ≠ c.user_data := fun heq => hnodup.1 (heq ▸ hp)
    simp only [env']
    rw [Heap.get?_modify_ne hne]
    exact h.live p (hperm.mem_iff.mpr (List.mem_cons_of_mem _ hp))

theorem stop (h : env.Sound n) : Sound { env with io_uring_data := Stop env.io_uring_data } n :=
  ⟨⟨h.accounts.quiescent, h.accounts.pending⟩, h.live, h.nodup⟩

/-- With nothing queued there is nothing for the loop to submit. -/
theorem submitAndWait (h : env.Sound n) :
    env.submitAndWait.Sound n ∧ env.submitAndWait.outstanding = env.outstanding := by
  have hqueued : env.io_uring_data.ring.queued = [] := by
    simp [Ring.queued, h.accounts.quiescent.drained]
  have hout : env.submitAndWait.outstanding = env.outstanding := by
    simp only [outstanding, Environment.submitAndWait, submit, io_uring_submit, if_true,
      Ring.outstanding, hqueued, List.append_nil]
  refine ⟨⟨⟨⟨h.accounts.quiescent.single, rfl⟩, ?_⟩, ?_, ?_⟩, hout⟩
  · exact h.accounts.pending.trans (by rw [← outstanding, ← outstanding, hout])
  · rw [hout]
    exact h.live
  · rw [hout]
    exact h.nodup

theorem inc (h : env.Sound n) : env.inc.Sound (n + 1) :=
  ⟨h.accounts.incPending, h.live, h.nodup⟩

theorem dec (h : env.Sound n) : env.dec.Sound (n - 1) :=
  ⟨h.accounts.decPending, h.live, h.nodup⟩

/-- The outer loop stops by itself only when the count is a multiple of 2^32. -/
theorem goesOn_iff (h : env.Sound n) :
    env.goesOn = false ↔
      env.io_uring_data.stop = 1 ∨ (2 ^ 32 : Int) ∣ env.outstanding.length + n := by
  have hzero : env.io_uring_data.pending = 0 ↔
      (2 ^ 32 : Int) ∣ env.outstanding.length + n := by
    rw [h.accounts.pending, Int32.ofInt_eq_iff_bmod_eq_toInt]
    exact Int.dvd_iff_bmod_eq_zero.symm
  rw [← hzero, goesOn]
  simp only [Bool.and_eq_false_iff, bne_eq_false_iff_eq]

end Sound

/-! ## Counting the requests in flight -/

/-- How many outstanding requests satisfy `f`. -/
def tally (f : Request → Bool) (env : Environment) : Nat :=
  env.outstanding.countP fun p => (env.heap.get? p).any f

variable {env env' : Environment} {f : Request → Bool}

/-- Counting again where the requests in flight are the same objects. -/
theorem tally_congr (hout : env'.outstanding.Perm env.outstanding)
    (hheap : ∀ p ∈ env.outstanding, env'.heap.get? p = env.heap.get? p) :
    env'.tally f = env.tally f := by
  rw [tally, hout.countP_eq, tally]
  apply List.countP_congr
  intro p hp
  rw [hheap p hp]

/-- Counting with the request `p` taken apart. -/
theorem tally_cons {p : Ptr} {req : Request} (hout : env'.outstanding.Perm (p :: env.outstanding))
    (hp : env'.heap.get? p = some req)
    (hheap : ∀ q ∈ env.outstanding, env'.heap.get? q = env.heap.get? q) :
    env'.tally f = env.tally f + if f req then 1 else 0 := by
  rw [tally, hout.countP_eq, List.countP_cons, tally, hp, Option.any_some]
  congr 1
  apply List.countP_congr
  intro q hq
  rw [hheap q hq]

theorem tally_submit {n : Int} (h : env.Sound n) {req : Request}
    (hheap : env'.heap = env.heap.alloc req) (hsub : Submits env.heap.top env env') :
    env'.tally f = env.tally f + if f req then 1 else 0 := by
  refine tally_cons hsub.outstanding (by rw [hheap, Heap.get?_alloc_top]) fun q hq => ?_
  obtain ⟨r, hr⟩ := Option.isSome_iff_exists.mp (h.live q hq)
  rw [hheap, Heap.get?_alloc_of_some hr, hr]

theorem tally_reap {c : Cqe} {req : Request} (hreq : env.heap.get? c.user_data = some req)
    (hreaps : Reaps c env env') : env.tally f = env'.tally f + if f req then 1 else 0 := by
  apply tally_cons hreaps.outstanding hreq
  intro q hq
  have hne : q ≠ c.user_data := fun heq => hreaps.reaped (heq ▸ hq)
  rw [hreaps.heap, Heap.get?_modify_ne hne]

theorem tally_free {p : Ptr} (hp : p ∉ env.outstanding) :
    tally f { env with heap := env.heap.free p } = env.tally f := by
  refine tally_congr (List.Perm.refl _) fun q hq => ?_
  have hne : q ≠ p := fun heq => hp (heq ▸ hq)
  exact Heap.get?_free_ne hne

/-- Every outstanding request is counted, by `f` or by its negation. -/
theorem tally_add_tally_not {n : Int} (h : env.Sound n) :
    env.tally f + env.tally (fun r => !f r) = env.outstanding.length := by
  rw [List.length_eq_countP_add_countP fun p => (env.heap.get? p).any f, tally, tally]
  congr 1
  apply List.countP_congr
  intro p hp
  obtain ⟨r, hr⟩ := Option.isSome_iff_exists.mp (h.live p hp)
  simp [hr]

end Environment

end NoJs.IoUring
