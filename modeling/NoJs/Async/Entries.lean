/-
  NoJs.Async.Entries

  Which entries of a group the kernel holds.  Only a completion takes one away,
  and only the owner's own calls add one: what goes back to the kernel by itself
  is armed again, and the requests of the group are not.
-/

import NoJs.Async.Kernel
import NoJs.Async.Steps

namespace NoJs.Async

open Machine NoJs.IoUring

namespace Runtime

variable {own : Ptr → Bool} {s t : Runtime} {p : Ptr} {a : Act}

/-- An operation that completes once, and has a callback. -/
def Single (x : Started) : Prop := Callable x ∧ x.async.again = false

/-! ## The completions posted -/

theorem finishCallback_posted (hstep : s.finishCallback p = .next t) :
    t.trace.posted = s.trace.posted := by
  rw [finishCallback] at hstep
  split at hstep
  · exact absurd hstep (by simp)
  split at hstep
  · exact absurd hstep (by simp)
  split at hstep
  all_goals
    obtain ⟨env, -, heq⟩ := Outcome.bind_eq_next.mp hstep
    obtain rfl := Outcome.next.inj heq
    rfl

theorem Inv.innerLoop_posted (h : s.Inv none) (hctl : s.ctl = .inner)
    (hstep : s.innerLoop = .next t) : t.trace.posted = s.trace.posted := by
  cases hpeek : io_uring_peek_cqe s.env.io_uring_data.ring with
  | none =>
      rw [Runtime.innerLoop, hpeek] at hstep
      obtain rfl := Outcome.next.inj hstep
      rfl
  | some c =>
      obtain ⟨x, env, -, -, -, -, -, heq⟩ := h.innerLoop_eq hctl hpeek
      rw [heq, handle] at hstep
      split at hstep
      · obtain ⟨env', -, heq⟩ := Outcome.bind_eq_next.mp hstep
        obtain rfl := Outcome.next.inj heq
        rfl
      split at hstep
      · exact (finishCallback_posted (s := s.counted x c env) hstep).trans rfl
      · obtain rfl := Outcome.next.inj hstep
        rfl

/-- Only the kernel posts completions. -/
theorem AtRest.step_posted (h : s.AtRest) (ha : ∀ i res, a ≠ .complete i res)
    (hstep : s.step a = .next t) : t.trace.posted = s.trace.posted := by
  have htakes := step_cases hstep
  cases a with
  | complete i res => exact absurd rfl (ha i res)
  | start c =>
      obtain ⟨-, hstart⟩ := htakes
      rw [Runtime.start] at hstart
      split at hstart
      · exact absurd hstart (by simp)
      · obtain ⟨env, -, heq⟩ := Outcome.bind_eq_next.mp hstart
        obtain rfl := Outcome.next.inj heq
        rfl
  | stop | run =>
      obtain ⟨-, rfl⟩ := htakes
      rfl
  | outer =>
      obtain ⟨-, rfl⟩ := htakes
      unfold outerLoop
      split <;> rfl
  | inner =>
      obtain ⟨hctl, hloop⟩ := htakes
      rw [AtRest, hctl] at h
      exact h.innerLoop_posted hctl hloop
  | ret =>
      obtain ⟨q, -, hfinish⟩ := htakes
      exact finishCallback_posted hfinish

/-- The completion that the kernel posts. -/
theorem complete_posted {i : Nat} {res : Int32} {sqe : Sqe} (hsqe : s.kernel[i]? = some sqe)
    (hstep : s.step (.complete i res) = .next t) :
    t.trace.posted = s.trace.posted ++ [⟨sqe.user_data, res⟩] := by
  have hcomplete : s.complete i res = .next t := hstep
  have hget : s.env.io_uring_data.ring.kernel[i]? = some sqe := hsqe
  simp only [complete, hget] at hcomplete
  obtain ⟨env, -, heq⟩ := Outcome.bind_eq_next.mp hcomplete
  obtain rfl := Outcome.next.inj heq
  rfl

/-! ## The group's entries -/

/-- The completions of the group that the loop has not reached. -/
def queued (own : Ptr → Bool) (s : Runtime) : List Cqe :=
  s.env.io_uring_data.ring.cq.filter fun c => own c.user_data

/-- Those posted have been taken or are in the queue. -/
theorem AtRest.posted_group (h : s.AtRest) (own : Ptr → Bool) :
    (s.trace.posted.filter fun c => own c.user_data) = s.taken own ++ s.queued own := by
  rw [h.delivered, List.filter_append]
  rfl

theorem flying_eq : s.flying own =
    (s.kernel.map (·.user_data)).filter own ++ (s.queued own).map (·.user_data) := by
  have hcq : (s.env.io_uring_data.ring.cq.map (·.user_data)).filter own =
      (s.queued own).map (·.user_data) := by
    rw [queued, List.filter_map]
    rfl
  rw [flying, Environment.outstanding, Ring.outstanding, List.filter_append, hcq]
  rfl

/-- The group's entries are the same before and after. -/
theorem Progress.entries (h : Progress own s t a) (hat : s.AtRest) (hat' : t.AtRest)
    (hgroup : s.Group own Single) (hposted : t.trace.posted = s.trace.posted) :
    ((t.kernel.map (·.user_data)).filter own).Perm ((s.kernel.map (·.user_data)).filter own) := by
  have hsplit := hat'.posted_group own
  rw [hposted, hat.posted_group own] at hsplit
  cases h with
  | same htaken hflying hhandling hidle =>
      have hqueued := List.append_cancel_left (htaken ▸ hsplit)
      rw [flying_eq, flying_eq, hqueued] at hflying
      exact (List.perm_append_right_iff _).mp hflying
  | called q res hmem htaken hflying hidle hctl hres =>
      -- the completion that is taken was the first of the group's in the queue
      rw [htaken, List.append_assoc] at hsplit
      have hqueued := List.append_cancel_left hsplit
      rw [flying_eq, flying_eq, hqueued, List.map_append] at hflying
      have hperm := hflying.trans (List.perm_middle (a := q)).symm
      exact ((List.perm_append_right_iff _).mp hperm).symm
  | returned x hx hmem htaken hflying hrunning hctl =>
      have hqueued := List.append_cancel_left (htaken ▸ hsplit)
      rw [(hgroup.each x hx hmem).2, if_neg (by simp), flying_eq, flying_eq, hqueued] at hflying
      exact (List.perm_append_right_iff _).mp hflying

/-- A step that is no completion adds entries, and none of the group. -/
theorem AtRest.entries_added (h : s.AtRest) (hgroup : s.Group own Single)
    (ha : ∀ i res, a ≠ .complete i res) (hstep : s.step a = .next t) :
    ∃ added, t.kernel = s.kernel ++ added ∧ ∀ e ∈ added, own e.user_data = false := by
  have hadded : ∃ added, t.kernel = s.kernel ++ added := by
    have hmoves := step_kernel h hstep
    cases a with
    | complete i res => exact absurd rfl (ha i res)
    | start c =>
        obtain ⟨b, q, sqe, -, -, hkernel⟩ := hmoves
        exact ⟨_, hkernel⟩
    | stop | run | outer | inner | ret =>
        obtain ⟨added, hkernel, -⟩ := hmoves
        exact ⟨added, hkernel⟩
  obtain ⟨added, hkernel⟩ := hadded
  have hperm := (h.progress (hgroup.imp fun x hx => hx.1) hstep).entries h
    ((h.step a).of_next hstep) hgroup (h.step_posted ha hstep)
  have hlength := hperm.length_eq
  rw [hkernel, List.map_append, List.filter_append, List.length_append] at hlength
  have hnone : (added.map (·.user_data)).filter own = [] := List.eq_nil_of_length_eq_zero (by omega)
  refine ⟨added, hkernel, fun e he => ?_⟩
  have hown := List.filter_eq_nil_iff.mp hnone _ (List.mem_map_of_mem he)
  simpa using hown

/-- The entry of a new request has the request's block. -/
theorem AtRest.start_entry (h : s.AtRest) {c : Call} (hstep : s.step (.start c) = .next t) :
    ∃ b sqe, c.start = some b ∧ prep s.env.heap.top b.kind = some sqe ∧
      t.kernel = s.kernel ++ [{ sqe with user_data := s.env.heap.top }] := by
  obtain ⟨b, q, sqe, hc, hsqe, hkernel⟩ := step_kernel h hstep
  have hstarts := h.starts hstep
  have hat := (h.step _).of_next hstep
  -- nothing was posted and nothing taken
  have hcq : t.env.io_uring_data.ring.cq = s.env.io_uring_data.ring.cq := by
    have hposted := h.step_posted (by simp) hstep
    rw [hat.delivered, h.delivered, hstarts.reaped] at hposted
    exact List.append_cancel_left hposted
  have hout : t.env.outstanding = (s.kernel.map (·.user_data) ++ [q]) ++
      s.env.io_uring_data.ring.cq.map (·.user_data) := by
    rw [Environment.outstanding, Ring.outstanding, hcq,
      show t.env.io_uring_data.ring.kernel = _ from hkernel, List.map_append]
    rfl
  have hperm := hstarts.outstanding
  rw [hout, List.append_assoc] at hperm
  have hblock : q = s.env.heap.top := by
    have hmiddle := List.perm_middle.symm.trans hperm
    have hcons := (List.perm_append_right_iff
      (s.kernel.map (·.user_data) ++ s.env.io_uring_data.ring.cq.map (·.user_data))).mp
      (show ([q] ++ _).Perm ([s.env.heap.top] ++ _) from hmiddle)
    exact List.singleton_inj.mp (List.perm_singleton.mp hcons)
  exact ⟨b, sqe, hc, hblock ▸ hsqe, hblock ▸ hkernel⟩

/-- The requests that the kernel holds beside the `i`-th are others. -/
theorem AtRest.entry_apart (h : s.AtRest) {i : Nat} {sqe : Sqe}
    (hsqe : s.kernel[i]? = some sqe) : ∀ e ∈ s.kernel.eraseIdx i, e.user_data ≠ sqe.user_data := by
  obtain ⟨hi, rfl⟩ := List.getElem?_eq_some_iff.mp hsqe
  have hnodup : (s.kernel.map (·.user_data)).Nodup := (List.nodup_append.mp h.sound.nodup).1
  have hperm := (List.getElem_cons_eraseIdx_perm hi).map (·.user_data)
  intro e he heq
  refine (List.nodup_cons.mp (hperm.nodup_iff.mpr hnodup)).1 ?_
  exact List.mem_map.mpr ⟨e, he, heq⟩

/-- A request of the group that the kernel holds has no completion yet. -/
theorem AtRest.not_posted (h : s.AtRest) (hgroup : s.Group own Single) {sqe : Sqe}
    (hsqe : sqe ∈ s.kernel) (hown : own sqe.user_data = true) :
    ∀ c ∈ s.trace.posted, c.user_data ≠ sqe.user_data := by
  intro c hc heq
  have hheld : sqe.user_data ∈ s.kernel.map (·.user_data) := List.mem_map_of_mem hsqe
  have hout : sqe.user_data ∈ s.env.outstanding := List.mem_append_left _ hheld
  rw [h.delivered, List.mem_append] at hc
  rcases hc with hc | hc
  · -- the loop has taken a completion of it, and it completes once
    obtain ⟨x, hx, hblock⟩ := hgroup.started _ hown
    have honce := (h.tracks x hx).once (hgroup.each x hx (hblock ▸ hown)).2
    have htaken : c.res ∈ results x.block s.trace.reaped :=
      List.mem_map_of_mem (List.mem_filter.mpr ⟨hc, by simp [heq, hblock]⟩)
    have hpositive := List.length_pos_of_mem htaken
    have hcount := List.count_pos_iff.mpr (hblock.symm ▸ hout)
    omega
  · -- it would be in flight twice
    refine (List.nodup_append.mp h.sound.nodup).2.2 _ hheld c.user_data ?_ heq.symm
    exact List.mem_map_of_mem hc

end Runtime

end NoJs.Async
