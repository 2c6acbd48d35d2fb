/-
  NoJs.Async.Kernel

  What a step of the runtime changes about the entries the kernel holds: a call
  of an entry point adds one, a completion removes one, and the only request
  that goes back by itself is an `accept`.
-/

import NoJs.Async.Reports

namespace NoJs.Async

open Machine NoJs.IoUring

/-- The entries with the kernel. -/
def Runtime.kernel (s : Runtime) : List Sqe := s.env.io_uring_data.ring.kernel

/-- Only `Listen` sets IO_URING_REQUEST_AGAIN. -/
theorem Call.start_again {c : Call} {a : AsyncRequest} (h : c.start = some a)
    (hagain : a.again = true) : ∃ r, a.kind = .accept r := by
  have hflag : ∀ b : AsyncRequest, b.flag = 0 → b.again = false := by
    intro b hb
    simp [AsyncRequest.again, AsyncRequest.request, Request.again, hb]
  have hzero : a.flag = 0 ∨ ∃ r, a.kind = .accept r := by
    rw [Call.start] at h
    split at h
    all_goals
      simp only [read_write_request, Close, Connect, UnixConnect, Listen, OpenAt,
        Option.bind_eq_bind, Option.bind_eq_some_iff, Option.pure_def, Option.some.injEq] at h
    case h_8 =>
      obtain ⟨fd, -, backlog, -, hrest⟩ := h
      split at hrest
      · exact absurd hrest (by simp)
      · obtain rfl := Option.some.inj hrest
        exact Or.inr ⟨_, rfl⟩
    case h_1 | h_2 | h_3 | h_4 => obtain ⟨fd, -, backing, -, rfl⟩ := h; exact Or.inl rfl
    case h_5 | h_7 => obtain ⟨fd, -, rfl⟩ := h; exact Or.inl rfl
    case h_6 => obtain ⟨fd, -, port, -, rfl⟩ := h; exact Or.inl rfl
    case h_9 => obtain ⟨dirFd, -, flags, -, mode, -, rfl⟩ := h; exact Or.inl rfl
  refine hzero.resolve_left fun hnone => ?_
  rw [hflag a hnone] at hagain
  exact absurd hagain (by simp)

/-- `SubmitRequest` adds the entry of the request. -/
theorem SubmitRequest_kernel {p : Ptr} {req : Request} {info info' : IoUringInfo}
    (hq : info.ring.Quiescent) (hreq : req.supported)
    (hsub : SubmitRequest true p req info = .next info') :
    ∃ sqe, prep p req.kind = some sqe ∧
      info'.ring.kernel = info.ring.kernel ++ [{ sqe with user_data := p }] := by
  obtain ⟨sqe, hsqe⟩ := Option.isSome_iff_exists.mp ((prep_isSome_iff p req.kind).mpr hreq)
  obtain ⟨ring, hrun, hkernel, -, -⟩ := SubmitRequest_quiescent hq hsqe
  rw [hrun] at hsub
  obtain rfl := Outcome.next.inj hsub
  exact ⟨sqe, hsqe, hkernel⟩

namespace Runtime

variable {s t : Runtime}

theorem AtRest.step (h : s.AtRest) (a : Act) : (s.step a).Holds AtRest := preserves s a h

/-- The entries a step adds by itself: a re-armed `accept` or nothing. -/
def Rearms (s t : Runtime) : Prop :=
  ∃ added, t.kernel = s.kernel ++ added ∧ ∀ sqe ∈ added, sqe.opcode = IORING_OP_ACCEPT

theorem Rearms.of_eq (h : t.kernel = s.kernel) : Rearms s t := ⟨[], by simp [h], by simp⟩

theorem start_kernel (h : s.AtRest) {c : Call} (hstep : s.start c = .next t) :
    ∃ a p sqe, c.start = some a ∧ prep p a.kind = some sqe ∧
      t.kernel = s.kernel ++ [{ sqe with user_data := p }] := by
  rw [start] at hstep
  cases hc : c.start with
  | none =>
      rw [hc] at hstep
      exact absurd hstep (by simp)
  | some a =>
      simp only [hc] at hstep
      obtain ⟨env, henv, heq⟩ := Outcome.bind_eq_next.mp hstep
      obtain rfl := Outcome.next.inj heq
      obtain ⟨info, hinfo, heq⟩ := Outcome.bind_eq_next.mp henv
      obtain rfl := Outcome.next.inj heq
      have hsupported : (a.request s.contexts.top).supported := (Call.start_wired hc).1
      obtain ⟨sqe, hsqe, hkernel⟩ :=
        SubmitRequest_kernel h.sound.accounts.quiescent hsupported hinfo
      exact ⟨a, _, sqe, rfl, hsqe, hkernel⟩

/-- A request that is armed again is an `accept`. -/
theorem Inv.accept {running : Option Ptr} (h : s.Inv running) {p : Ptr}
    (hp : p ∈ s.env.outstanding ∨ running = some p) {req : Request}
    (hreq : s.env.heap.get? p = some req) (hagain : req.again = true) :
    ∃ r, req.kind = .accept r := by
  obtain ⟨x, hx, rfl⟩ := h.known p hp
  obtain ⟨⟨res, hget⟩, -⟩ := (h.tracks x hx).live hp
  obtain rfl := Option.some.inj (hget.symm.trans hreq)
  exact Call.start_again (h.started x hx) hagain

theorem finishCallback_kernel {p : Ptr} (h : s.Inv (some p))
    (hstep : s.finishCallback p = .next t) : Rearms s t := by
  rw [finishCallback] at hstep
  split at hstep
  · exact absurd hstep (by simp)
  next req hreq =>
  split at hstep
  · exact absurd hstep (by simp)
  split at hstep
  · -- the request goes back to the kernel
    next hagain =>
    obtain ⟨env, henv, heq⟩ := Outcome.bind_eq_next.mp hstep
    obtain rfl := Outcome.next.inj heq
    obtain ⟨r, hr⟩ := h.accept (Or.inr rfl) hreq hagain
    simp only [Environment.resubmit, hreq] at henv
    obtain ⟨info, hinfo, heq⟩ := Outcome.bind_eq_next.mp henv
    obtain rfl := Outcome.next.inj heq
    have hsupported : req.supported := by
      simp [Request.supported, hr, Kind.op, switchOps]
    obtain ⟨sqe, hsqe, hkernel⟩ := SubmitRequest_kernel h.sound.accounts.quiescent hsupported hinfo
    refine ⟨_, hkernel, fun e he => ?_⟩
    rw [List.mem_singleton.mp he]
    have hop := prep_opcode hsqe
    rw [hr] at hop
    exact hop
  · obtain ⟨env, henv, heq⟩ := Outcome.bind_eq_next.mp hstep
    obtain rfl := Outcome.next.inj heq
    simp only [Environment.free, hreq, Outcome.next.injEq] at henv
    obtain rfl := henv
    exact Rearms.of_eq rfl

theorem openAfter_kernel {p : Ptr} (hstep : s.openAfter p = .next t) : t.kernel = s.kernel := by
  obtain ⟨env, henv, heq⟩ := Outcome.bind_eq_next.mp hstep
  obtain rfl := Outcome.next.inj heq
  rw [Environment.free] at henv
  split at henv
  · exact absurd henv (by simp)
  · obtain rfl := Outcome.next.inj henv
    rfl

theorem innerLoop_kernel (h : s.Inv none) (hctl : s.ctl = .inner)
    (hstep : s.innerLoop = .next t) : Rearms s t := by
  cases hpeek : io_uring_peek_cqe s.env.io_uring_data.ring with
  | none =>
      rw [innerLoop, hpeek] at hstep
      obtain rfl := Outcome.next.inj hstep
      exact Rearms.of_eq rfl
  | some c =>
      obtain ⟨x, env, -, -, hreaps, -, hinv, heq⟩ := h.innerLoop_eq hctl hpeek
      have hkernel : (s.counted x c env).kernel = s.kernel := by
        show env.io_uring_data.ring.kernel = s.kernel
        rw [hreaps.ring]
        rfl
      rw [heq, handle] at hstep
      split at hstep
      · exact Rearms.of_eq ((openAfter_kernel hstep).trans hkernel)
      split at hstep
      · obtain ⟨added, hadded, hop⟩ := finishCallback_kernel hinv hstep
        exact ⟨added, hadded.trans (congrArg (· ++ added) hkernel), hop⟩
      · obtain rfl := Outcome.next.inj hstep
        exact Rearms.of_eq hkernel

theorem outerLoop_kernel (hq : s.env.io_uring_data.ring.Quiescent) :
    s.outerLoop.kernel = s.kernel := by
  have hdrained := hq.drained
  unfold outerLoop
  split
  · simp [kernel, Environment.submitAndWait, submit, io_uring_submit, Ring.queued, hdrained]
  · rfl

/-- What a step does to the entries with the kernel. -/
def Moves (s t : Runtime) : Act → Prop
  | .start c => ∃ async p sqe, c.start = some async ∧ prep p async.kind = some sqe ∧
      t.kernel = s.kernel ++ [{ sqe with user_data := p }]
  | .complete i _ => t.kernel = s.kernel.eraseIdx i
  | _ => Rearms s t

theorem step_kernel (h : s.AtRest) {a : Act} (hstep : s.step a = .next t) : Moves s t a := by
  have htakes := step_cases hstep
  cases a with
  | start c => exact start_kernel h htakes.2
  | complete i res =>
      simp only [Takes, complete] at htakes
      split at htakes
      · exact absurd htakes (by simp)
      next sqe hsqe =>
      obtain ⟨env, henv, heq⟩ := Outcome.bind_eq_next.mp htakes
      obtain rfl := Outcome.next.inj heq
      simp only [Environment.complete, Ring.complete, hsqe, Option.map_some,
        Outcome.next.injEq] at henv
      obtain rfl := henv
      rfl
  | stop =>
      obtain ⟨-, rfl⟩ := htakes
      exact Rearms.of_eq rfl
  | run =>
      obtain ⟨-, rfl⟩ := htakes
      exact Rearms.of_eq rfl
  | outer =>
      obtain ⟨-, rfl⟩ := htakes
      exact Rearms.of_eq (outerLoop_kernel h.sound.accounts.quiescent)
  | inner =>
      obtain ⟨hctl, hloop⟩ := htakes
      rw [AtRest, hctl] at h
      exact innerLoop_kernel h hctl hloop
  | ret =>
      obtain ⟨p, hctl, hfinish⟩ := htakes
      rw [AtRest, hctl] at h
      exact finishCallback_kernel h hfinish

end Runtime

end NoJs.Async
