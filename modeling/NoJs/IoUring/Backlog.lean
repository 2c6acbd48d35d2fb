/-
  NoJs.IoUring.Backlog

  `SubmitRequest` several times before the loop reaps anything, with every answer
  of `io_uring_submit`.

  The ring has one entry.  While every `io_uring_submit` goes through, each call
  finds that entry free.  A failed one leaves it queued, `SubmitRequest` does not
  look at the result, and the next call gets NULL from `io_uring_get_sqe` and
  fills it.
-/

import Mathlib.Data.List.Infix
import NoJs.IoUring.Submit

namespace NoJs.IoUring

open Machine

/-- Whose an entry is. -/
def Sqe.key (e : Sqe) : Int32 × Ptr := (e.opcode, e.user_data)

/-- The entries that are with the kernel or queued for it. -/
def Ring.entered (r : Ring) : List Sqe := r.kernel ++ r.queued

/-- Completions the kernel posts, by the position of the entry it holds; a
    position it does not hold posts nothing. -/
def kernelPosts : List (Nat × Int32) → Ring → Ring
  | [], r => r
  | (i, res) :: posted, r => kernelPosts posted ((r.complete i res).getD r)

/-- A call of `SubmitRequest`, with what the kernel does about it: the
    completions it posts before the call, and its answer to `io_uring_submit`. -/
structure Submission where
  posted : List (Nat × Int32)
  block : Ptr
  request : Request
  accepts : Bool

def Submission.key (s : Submission) : Int32 × Ptr := (s.request.kind.op, s.block)

/-- The calls one after the other. -/
def submitAll : List Submission → IoUringInfo → Outcome IoUringInfo
  | [], info => .next info
  | s :: calls, info =>
      (SubmitRequest s.accepts s.block s.request
        { info with ring := kernelPosts s.posted info.ring }).bind (submitAll calls)

/-- What is to hold after the calls: `pending` has counted each, and each is with
    the kernel or queued under its own opcode and `user_data`, or the kernel has
    posted its completion. -/
structure InPlace (calls : List Submission) (info info' : IoUringInfo) : Prop where
  pending : info'.pending = info.pending + Int32.ofNat calls.length
  placed : ∃ done : List (Int32 × Ptr),
    (info'.ring.entered.map Sqe.key ++ done).Perm
      (info.ring.entered.map Sqe.key ++ calls.map Submission.key) ∧
    info'.ring.cq.map (·.user_data) = info.ring.cq.map (·.user_data) ++ done.map (·.2)

/-- No call of the sequence writes through NULL, and after each of them every
    request is in place. -/
def NeverOverruns (calls : List Submission) (info : IoUringInfo) : Prop :=
  ∀ pre, pre <+: calls → ∃ info', submitAll pre info = .next info' ∧ InPlace pre info info'

/-! ## The kernel's completions -/

/-- What posting completions changes. -/
structure Posts (r r' : Ring) (done : List Sqe) : Prop where
  entries : r'.entries = r.entries
  sqes : r'.sqes = r.sqes
  khead : r'.khead = r.khead
  sqe_tail : r'.sqe_tail = r.sqe_tail
  kernel : (r'.kernel ++ done).Perm r.kernel
  cq : r'.cq.map (·.user_data) = r.cq.map (·.user_data) ++ done.map (·.user_data)

theorem complete_posts (r : Ring) (i : Nat) (res : Int32) :
    ∃ done, Posts r ((r.complete i res).getD r) done := by
  rw [Ring.complete]
  cases hsqe : r.kernel[i]? with
  | none => exact ⟨[], rfl, rfl, rfl, rfl, by simp, by simp⟩
  | some sqe =>
      obtain ⟨hi, hget⟩ := List.getElem?_eq_some_iff.mp hsqe
      refine ⟨[sqe], rfl, rfl, rfl, rfl, ?_, by simp⟩
      have hperm := List.getElem_cons_eraseIdx_perm hi
      rw [hget] at hperm
      exact (List.perm_append_singleton _ _).trans hperm

theorem kernelPosts_posts (posted : List (Nat × Int32)) (r : Ring) :
    ∃ done, Posts r (kernelPosts posted r) done := by
  induction posted generalizing r with
  | nil => exact ⟨[], rfl, rfl, rfl, rfl, by simp [kernelPosts], by simp [kernelPosts]⟩
  | cons post posted ih =>
      obtain ⟨i, res⟩ := post
      obtain ⟨done, hfirst⟩ := complete_posts r i res
      obtain ⟨rest, hrest⟩ := ih ((r.complete i res).getD r)
      refine ⟨done ++ rest, hrest.entries.trans hfirst.entries, hrest.sqes.trans hfirst.sqes,
        hrest.khead.trans hfirst.khead, hrest.sqe_tail.trans hfirst.sqe_tail, ?_, ?_⟩
      · rw [kernelPosts]
        apply (List.Perm.append_left _ List.perm_append_comm).trans
        rw [← List.append_assoc]
        exact (hrest.kernel.append_right done).trans hfirst.kernel
      · rw [kernelPosts, hrest.cq, hfirst.cq, List.map_append, List.append_assoc]

namespace Posts

variable {r r' : Ring} {done : List Sqe}

theorem queued (h : Posts r r' done) : r'.queued = r.queued := by
  rw [Ring.queued, Ring.queued, h.sqe_tail, h.khead, h.sqes, h.entries]

theorem quiescent (h : Posts r r' done) (hq : r.Quiescent) : r'.Quiescent :=
  ⟨h.entries.trans hq.single, by rw [h.khead, h.sqe_tail, hq.drained]⟩

theorem entered (h : Posts r r' done) : (r'.entered ++ done).Perm r.entered := by
  rw [Ring.entered, Ring.entered, h.queued, List.append_assoc]
  apply (List.Perm.append_left _ List.perm_append_comm).trans
  rw [← List.append_assoc]
  exact h.kernel.append_right r.queued

end Posts

/-! ## One call -/

/-- A ring whose only entry is handed out and not consumed. -/
structure Ring.Full (r : Ring) : Prop where
  single : r.entries = 1
  taken : r.sqe_tail = r.khead + 1

/-- With the entry free it is filled and stays queued unless the kernel takes it. -/
theorem SubmitRequest_free {p : Ptr} {req : Request} {info : IoUringInfo} (accepts : Bool)
    (hq : info.ring.Quiescent) (hreq : req.supported) :
    ∃ ring, SubmitRequest accepts p req info
        = .next { info with pending := info.pending + 1, ring := ring } ∧
      ring.entered.map Sqe.key = info.ring.entered.map Sqe.key ++ [(req.kind.op, p)] ∧
      ring.cq = info.ring.cq ∧ if accepts then ring.Quiescent else ring.Full := by
  obtain ⟨sqe, hsqe⟩ := Option.isSome_iff_exists.mp ((prep_isSome_iff p req.kind).mpr hreq)
  have hget : getSqe info = (some (info.ring.sqe_tail % info.ring.entries),
      { info with ring := { info.ring with sqe_tail := info.ring.sqe_tail + 1 } }) := by
    rw [getSqe, io_uring_get_sqe_quiescent hq]
  let slot := info.ring.sqe_tail % info.ring.entries
  let taken : Ring := { info.ring with sqe_tail := info.ring.sqe_tail + 1 }
  let filled := (taken.write slot sqe).write slot { sqe with user_data := p }
  have hidle : info.ring.queued = [] := by simp [Ring.queued, hq.drained]
  have hqueued : filled.queued = [{ sqe with user_data := p }] := by
    have hone : info.ring.sqe_tail + 1 - info.ring.sqe_tail = 1 := by omega
    simp [filled, taken, slot, Ring.queued, Ring.write, hq.drained, hone]
  have hkey : Sqe.key { sqe with user_data := p } = (req.kind.op, p) := by
    rw [Sqe.key, ← prep_opcode hsqe]
  refine ⟨io_uring_submit accepts filled, ?_, ?_, ?_, ?_⟩
  · simp only [SubmitRequest, hsqe, hget, fillSqe, setData, incPending, submit,
      Outcome.bind_next, Ring.write, Function.update_self, filled, taken, slot]
  · cases accepts with
    | true =>
        -- the entry moves from the queue to the kernel
        have hnone : (io_uring_submit true filled).queued = [] := by
          simp [io_uring_submit, Ring.queued]
        have hkernel : (io_uring_submit true filled).kernel
            = info.ring.kernel ++ [{ sqe with user_data := p }] := by
          simp only [io_uring_submit, if_true, hqueued]
          rfl
        rw [Ring.entered, hnone, hkernel, Ring.entered, hidle]
        simp [hkey]
    | false =>
        have hsame : io_uring_submit false filled = filled := rfl
        rw [hsame, Ring.entered, hqueued, Ring.entered, hidle]
        simp [filled, taken, Ring.write, hkey]
  · cases accepts <;> rfl
  · cases accepts with
    | true => exact ⟨hq.single, rfl⟩
    | false => exact ⟨hq.single, congrArg (· + 1) hq.drained.symm⟩

/-- With the entry taken the request is written through NULL. -/
theorem SubmitRequest_full {p : Ptr} {req : Request} {info : IoUringInfo} (accepts : Bool)
    (hfull : info.ring.Full) (hreq : req.supported) :
    SubmitRequest accepts p req info = .fault := by
  obtain ⟨sqe, hsqe⟩ := Option.isSome_iff_exists.mp ((prep_isSome_iff p req.kind).mpr hreq)
  have hlate : ¬ info.ring.sqe_tail + 1 - info.ring.khead ≤ info.ring.entries := by
    have hsingle := hfull.single
    have htaken := hfull.taken
    omega
  have hslot : (getSqe info).1 = none := by
    rw [getSqe, io_uring_get_sqe, if_neg hlate]
  simp only [SubmitRequest, hsqe, hslot, fillSqe, Outcome.bind_fault]

/-! ## All of them -/

namespace InPlace

variable {s : Submission} {calls : List Submission} {info info₁ info₂ : IoUringInfo}

theorem nil (info : IoUringInfo) : InPlace [] info info :=
  ⟨(Int32.add_zero _).symm, [], by simp, by simp⟩

theorem cons (h : InPlace [s] info info₁) (hrest : InPlace calls info₁ info₂) :
    InPlace (s :: calls) info info₂ := by
  obtain ⟨done, hplaced, hcq⟩ := h.placed
  obtain ⟨rest, hplaced', hcq'⟩ := hrest.placed
  refine ⟨?_, done ++ rest, ?_, ?_⟩
  · rw [hrest.pending, h.pending, Int32.add_assoc]
    congr 1
    rw [← Int32.ofNat_add, List.length_singleton, Nat.add_comm, List.length_cons]
  · -- what is in place after the first call, less its completions, is where the rest starts
    calc
      (info₂.ring.entered.map Sqe.key ++ (done ++ rest)).Perm
          (info₂.ring.entered.map Sqe.key ++ rest ++ done) := by
        rw [List.append_assoc]
        exact List.Perm.append_left _ List.perm_append_comm
      (info₂.ring.entered.map Sqe.key ++ rest ++ done).Perm
          (info₁.ring.entered.map Sqe.key ++ calls.map Submission.key ++ done) :=
        hplaced'.append_right done
      (info₁.ring.entered.map Sqe.key ++ calls.map Submission.key ++ done).Perm
          (info₁.ring.entered.map Sqe.key ++ done ++ calls.map Submission.key) := by
        rw [List.append_assoc, List.append_assoc]
        exact List.Perm.append_left _ List.perm_append_comm
      (info₁.ring.entered.map Sqe.key ++ done ++ calls.map Submission.key).Perm
          (info.ring.entered.map Sqe.key ++ (s :: calls).map Submission.key) := by
        have hfirst := hplaced.append_right (calls.map Submission.key)
        rwa [List.append_assoc (info.ring.entered.map Sqe.key)] at hfirst
  · rw [hcq', hcq, List.map_append, List.append_assoc]

end InPlace

/-- One call from an idle ring. -/
theorem submit_one {s : Submission} {info : IoUringInfo} (hq : info.ring.Quiescent)
    (hreq : s.request.supported) :
    ∃ info₁, SubmitRequest s.accepts s.block s.request
        { info with ring := kernelPosts s.posted info.ring } = .next info₁ ∧
      InPlace [s] info info₁ ∧ if s.accepts then info₁.ring.Quiescent else info₁.ring.Full := by
  obtain ⟨done, hposts⟩ := kernelPosts_posts s.posted info.ring
  let posted : IoUringInfo := { info with ring := kernelPosts s.posted info.ring }
  have hidle : posted.ring.Quiescent := hposts.quiescent hq
  obtain ⟨ring, hrun, hentered, hcq, hafter⟩ :=
    SubmitRequest_free (p := s.block) s.accepts hidle hreq
  refine ⟨_, hrun, ⟨rfl, done.map Sqe.key, ?_, ?_⟩, hafter⟩
  · have hkept := (hposts.entered.map Sqe.key).append_right [s.key]
    rw [List.map_append] at hkept
    refine List.Perm.trans ?_ hkept
    rw [hentered, List.append_assoc, List.append_assoc]
    exact List.Perm.append_left _ List.perm_append_comm
  · rw [hcq, hposts.cq, List.map_map]
    rfl

/-- As long as every answer but the last is good, every call finds its entry. -/
theorem submitAll_accepted {calls : List Submission} {info : IoUringInfo}
    (hq : info.ring.Quiescent) (hreq : ∀ s ∈ calls, s.request.supported)
    (hok : ∀ s ∈ calls.dropLast, s.accepts = true) :
    ∃ info', submitAll calls info = .next info' ∧ InPlace calls info info' := by
  induction calls generalizing info with
  | nil => exact ⟨info, rfl, InPlace.nil info⟩
  | cons s calls ih =>
      obtain ⟨hs, hcalls⟩ := List.forall_mem_cons.mp hreq
      obtain ⟨info₁, hrun, hplace, hafter⟩ := submit_one hq hs
      cases calls with
      | nil =>
          refine ⟨info₁, ?_, hplace⟩
          rw [submitAll, hrun]
          rfl
      | cons t calls =>
          rw [List.dropLast_cons_cons] at hok
          obtain ⟨haccepts, hok⟩ := List.forall_mem_cons.mp hok
          rw [if_pos haccepts] at hafter
          obtain ⟨info', hrest, hplaces⟩ := ih hafter hcalls hok
          refine ⟨info', ?_, hplace.cons hplaces⟩
          rw [submitAll, hrun, Outcome.bind_next]
          exact hrest

/-- A call after a bad answer writes through NULL. -/
theorem submitAll_next {calls : List Submission} {info info' : IoUringInfo}
    (hq : info.ring.Quiescent) (hreq : ∀ s ∈ calls, s.request.supported)
    (hrun : submitAll calls info = .next info') : ∀ s ∈ calls.dropLast, s.accepts = true := by
  induction calls generalizing info with
  | nil => simp
  | cons s calls ih =>
      obtain ⟨hs, hcalls⟩ := List.forall_mem_cons.mp hreq
      obtain ⟨info₁, hfirst, -, hafter⟩ := submit_one hq hs
      rw [submitAll, hfirst, Outcome.bind_next] at hrun
      cases calls with
      | nil => simp
      | cons t calls =>
          have haccepts : s.accepts = true := by
            by_contra hrejected
            rw [if_neg hrejected] at hafter
            obtain ⟨done, hposts⟩ := kernelPosts_posts t.posted info₁.ring
            have hfull : (kernelPosts t.posted info₁.ring).Full :=
              ⟨hposts.entries.trans hafter.single, by
                rw [hposts.sqe_tail, hposts.khead, hafter.taken]⟩
            rw [submitAll, SubmitRequest_full t.accepts hfull (hcalls t List.mem_cons_self)] at hrun
            exact absurd hrun (by simp)
          rw [if_pos haccepts] at hafter
          rw [List.dropLast_cons_cons, List.forall_mem_cons]
          exact ⟨haccepts, ih hafter hcalls hrun⟩

theorem mem_dropLast_of_prefix {α : Type} {pre l : List α} {x : α} (hpre : pre <+: l)
    (hx : x ∈ pre.dropLast) : x ∈ l.dropLast := by
  obtain ⟨rest, rfl⟩ := hpre
  cases rest with
  | nil => rwa [List.append_nil]
  | cons y rest =>
      rw [List.dropLast_append_of_ne_nil (List.cons_ne_nil y rest)]
      exact List.mem_append_left _ ((List.dropLast_prefix pre).subset hx)

/-- **The ring is never overrun** exactly when `io_uring_submit` fails in none of
    the calls but the last. -/
theorem never_overruns_iff (calls : List Submission) (info : IoUringInfo)
    (hq : info.ring.Quiescent) (hreq : ∀ s ∈ calls, s.request.supported) :
    NeverOverruns calls info ↔ ∀ s ∈ calls.dropLast, s.accepts = true := by
  constructor
  · intro h
    obtain ⟨info', hrun, -⟩ := h calls List.prefix_rfl
    exact submitAll_next hq hreq hrun
  · intro hok pre hpre
    refine submitAll_accepted hq (fun s hs => hreq s (hpre.subset hs)) fun s hs => hok s ?_
    exact mem_dropLast_of_prefix hpre hs

/-- `fs.close(fd)` without a callback, to which the kernel answers `accepts`. -/
def closeCall (fd : Int32) (accepts : Bool) : Submission where
  posted := []
  block := fd.toInt.toNat
  request := { kind := .close { fd }, cb := some (.makeCallback .onclose) }
  accepts := accepts

theorem never_overruns_last_rejected :
    NeverOverruns [closeCall 7 true, closeCall 8 false]
      { pending := 0, ring := io_uring_queue_init 1, stop := 0 } :=
  (never_overruns_iff _ _ Ring.quiescent_init (by decide)).mpr (by decide)

/-- A second call in the tick in which `io_uring_submit` has failed. -/
theorem overruns_after_rejection :
    ¬ ∀ (calls : List Submission) (info : IoUringInfo), info.ring.Quiescent →
      (∀ s ∈ calls, s.request.supported) → NeverOverruns calls info := by
  intro h
  have hsafe := h [closeCall 7 false, closeCall 8 true]
    { pending := 0, ring := io_uring_queue_init 1, stop := 0 } Ring.quiescent_init (by decide)
  obtain ⟨info', hrun, -⟩ := hsafe _ List.prefix_rfl
  have haccepts := submitAll_next Ring.quiescent_init (by decide) hrun
  exact absurd (haccepts _ List.mem_cons_self) (by decide)

end NoJs.IoUring
