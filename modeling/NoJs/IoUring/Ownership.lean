/-
  NoJs.IoUring.Ownership

  Who owns the request blocks of an `Environment`, whatever subsystems share it.

  A block is live exactly while its request is in flight or its completion is
  being handled: `Owns env running n` says so, beside `Sound`.  Submitting adds a
  block, reaping moves one from the ring into the hands of its completion
  function, and that gives it back or arms it again; each operation has its lemma.

  `inFlight` is what the requests in flight contain, in some order.
-/

import NoJs.IoUring.Environment

namespace NoJs.IoUring

open Machine

namespace Environment

/-- With `n` references, and the completion of `running` being handled. -/
structure Owns (env : Environment) (running : Option Ptr) (n : Int) : Prop where
  sound : env.Sound n
  live_iff : ∀ p, (env.heap.get? p).isSome ↔ p ∈ env.outstanding ∨ running = some p
  apart : ∀ p, running = some p → p ∉ env.outstanding

theorem owns_init : init.Owns none 0 where
  sound := sound_init
  live_iff p := by simp [init, outstanding]
  apart p hp := absurd hp (by simp)

namespace Owns

variable {env env' : Environment} {running : Option Ptr} {n : Int} {p : Ptr}

/-- The object of the request at hand. -/
theorem at_hand (h : env.Owns (some p) n) : ∃ req, env.heap.get? p = some req :=
  Option.isSome_iff_exists.mp ((h.live_iff p).mpr (Or.inr rfl))

/-- The same blocks and the same requests in flight. -/
theorem frame (h : env.Owns running n) {m : Int} (hsound : env'.Sound m)
    (hheap : env'.heap = env.heap) (hout : env'.outstanding.Perm env.outstanding) :
    env'.Owns running m where
  sound := hsound
  live_iff q := by rw [hheap, hout.mem_iff, h.live_iff]
  apart q hq := by
    rw [hout.mem_iff]
    exact h.apart q hq

theorem submitNew (h : env.Owns running n) (req : Request) (hreq : req.supported) :
    ∃ env', env.submitNew req = .next env' ∧ env'.Owns running n ∧
      env'.heap = env.heap.alloc req ∧ Submits env.heap.top env env' := by
  obtain ⟨env', henv, hsound, hheap, hsub⟩ := h.sound.submitNew req hreq
  have hlt : ∀ q, running = some q → q < env.heap.top := fun q hq => by
    obtain ⟨r, hr⟩ := Option.isSome_iff_exists.mp ((h.live_iff q).mpr (Or.inr hq))
    exact Heap.lt_top_of_get? hr
  refine ⟨env', henv, ⟨hsound, fun q => ?_, fun q hq => ?_⟩, hheap, hsub⟩
  · rw [hheap, Heap.get?_alloc, hsub.outstanding.mem_iff, List.mem_cons]
    split
    · next heq => simp [heq]
    · next hne =>
      rw [h.live_iff, or_assoc]
      exact (or_iff_right hne).symm
  · rw [hsub.outstanding.mem_iff, List.mem_cons]
    exact fun hor => hor.elim (fun heq => Nat.ne_of_lt (hlt q hq) heq) (h.apart q hq)

/-- The request at hand goes in flight again. -/
theorem resubmit (h : env.Owns (some p) n) {req : Request} (hp : env.heap.get? p = some req)
    (hreq : req.supported) :
    ∃ env', env.resubmit p = .next env' ∧ env'.Owns none n ∧ env'.heap = env.heap ∧
      Submits p env env' := by
  obtain ⟨env', henv, hsound, hheap, hsub⟩ := h.sound.resubmit hp hreq (h.apart p rfl)
  refine ⟨env', henv, ⟨hsound, fun q => ?_, fun q hq => absurd hq (by simp)⟩, hheap, hsub⟩
  rw [hheap, hsub.outstanding.mem_iff, List.mem_cons, h.live_iff, Option.some.injEq, or_comm,
    eq_comm]
  simp

/-- The block at hand is given back. -/
theorem free (h : env.Owns (some p) n) :
    env.free p = .next { env with heap := env.heap.free p } ∧
      Owns { env with heap := env.heap.free p } none n := by
  obtain ⟨req, hreq⟩ := h.at_hand
  obtain ⟨hfree, hsound⟩ := h.sound.free hreq (h.apart p rfl)
  refine ⟨hfree, hsound, fun q => ?_, fun q hq => absurd hq (by simp)⟩
  show ((env.heap.free p).get? q).isSome ↔ q ∈ env.outstanding ∨ none = some q
  rw [Heap.isSome_get?_free, h.live_iff, Option.some.injEq]
  constructor
  · rintro ⟨hne, hq | heq⟩
    · exact .inl hq
    · exact absurd heq.symm hne
  · rintro (hq | hq)
    · exact ⟨fun heq => h.apart p rfl (heq ▸ hq), .inl hq⟩
    · exact absurd hq (by simp)

/-- A completion is taken, and its request is at hand, with the result. -/
theorem reap (h : env.Owns none n) {c : Cqe}
    (hc : io_uring_peek_cqe env.io_uring_data.ring = some c) :
    ∃ req env', env.heap.get? c.user_data = some req ∧
      env.reap c = .next ({ req with res := c.res }, env') ∧
      env'.heap.get? c.user_data = some { req with res := c.res } ∧
      env'.Owns (some c.user_data) n ∧ Reaps c env env' := by
  obtain ⟨req, env', hreq, henv, hsound, hreaps⟩ := h.sound.reap hc
  refine ⟨req, env', hreq, henv, ?_, ⟨hsound, fun q => ?_, fun q hq => ?_⟩, hreaps⟩
  · rw [hreaps.heap, Heap.get?_modify_self hreq]
  · rw [hreaps.heap, Heap.isSome_get?_modify, h.live_iff, hreaps.outstanding.mem_iff,
      List.mem_cons, Option.some.injEq, eq_comm, or_comm (a := c.user_data = q)]
    simp
  · obtain rfl := Option.some.inj hq
    exact hreaps.reaped

end Owns

/-! ## What is in flight -/

/-- The requests submitted and not yet reaped, as the heap has them. -/
def inFlight (env : Environment) : List Request := env.outstanding.filterMap env.heap.get?

variable {env env' : Environment} {p : Ptr} {req : Request} {n : Int}

theorem inFlight_congr (hout : env'.outstanding.Perm env.outstanding)
    (hheap : ∀ q ∈ env.outstanding, env'.heap.get? q = env.heap.get? q) :
    env'.inFlight.Perm env.inFlight := by
  refine (hout.filterMap env'.heap.get?).trans ?_
  rw [inFlight, List.filterMap_congr hheap]

/-- The request `p` taken apart. -/
theorem inFlight_cons (hout : env'.outstanding.Perm (p :: env.outstanding))
    (hp : env'.heap.get? p = some req)
    (hheap : ∀ q ∈ env.outstanding, env'.heap.get? q = env.heap.get? q) :
    env'.inFlight.Perm (req :: env.inFlight) := by
  refine (hout.filterMap env'.heap.get?).trans ?_
  rw [List.filterMap_cons, hp, inFlight, List.filterMap_congr hheap]

theorem inFlight_submit (h : env.Sound n) (hheap : env'.heap = env.heap.alloc req)
    (hsub : Submits env.heap.top env env') : env'.inFlight.Perm (req :: env.inFlight) := by
  refine inFlight_cons hsub.outstanding (by rw [hheap, Heap.get?_alloc_top]) fun q hq => ?_
  obtain ⟨r, hr⟩ := Option.isSome_iff_exists.mp (h.live q hq)
  rw [hheap, Heap.get?_alloc_of_some hr, hr]

theorem inFlight_reap {c : Cqe} (hreq : env.heap.get? c.user_data = some req)
    (hreaps : Reaps c env env') : env.inFlight.Perm (req :: env'.inFlight) := by
  refine inFlight_cons hreaps.outstanding hreq fun q hq => ?_
  have hne : q ≠ c.user_data := fun heq => hreaps.reaped (heq ▸ hq)
  rw [hreaps.heap, Heap.get?_modify_ne hne]

theorem inFlight_free (hp : p ∉ env.outstanding) :
    inFlight { env with heap := env.heap.free p } = env.inFlight := by
  refine List.filterMap_congr fun q hq => ?_
  have hne : q ≠ p := fun heq => hp (heq ▸ hq)
  exact Heap.get?_free_ne hne

theorem length_inFlight (h : env.Sound n) : env.inFlight.length = env.outstanding.length := by
  rw [inFlight, List.length_filterMap_eq_countP, List.countP_eq_length]
  exact fun q hq => h.live q hq

end Environment

end NoJs.IoUring
