/-
  NoJs.IoUring.Rejection

  `SubmitRequest` on arbitrary opcodes, under the answers of liburing that it
  counts on: `io_uring_get_sqe` reserves the next entry, and `io_uring_submit`
  hands over every reserved one.

  The entry is reserved before the `switch` looks at the opcode, and the default
  branch returns without filling it or giving it back.  The ring has one entry,
  so the next supported request gets NULL and is written through it.
-/

import NoJs.IoUring.Backlog
import NoJs.IoUring.Environment

namespace NoJs.IoUring

open Machine

/-- A call of `SubmitRequest`, after the completions the kernel posts. -/
structure Attempt where
  posted : List (Nat × Int32)
  block : Ptr
  request : Request

def Attempt.key (c : Attempt) : Int32 × Ptr := (c.request.kind.op, c.block)

/-- A request with a case in the `switch`; the others are rejected. -/
def Attempt.supported (c : Attempt) : Prop := c.request.supported

instance (c : Attempt) : Decidable c.supported := inferInstanceAs (Decidable c.request.supported)

/-- The state of the ring, and the entries the kernel has been handed, in order. -/
structure Handover where
  info : IoUringInfo
  handed : List Sqe

namespace Handover

/-- The state in which a call is made. -/
def before (s : Handover) (c : Attempt) : IoUringInfo :=
  { s.info with ring := kernelPosts c.posted s.info.ring }

/-- One call.  What the kernel is handed goes to the end of its list. -/
def call (s : Handover) (c : Attempt) : Outcome Handover :=
  (SubmitRequest true c.block c.request (s.before c)).bind fun info => .next
    { info, handed := s.handed ++ info.ring.kernel.drop (s.before c).ring.kernel.length }

/-- Calls from a state on. -/
def machine (info : IoUringInfo) : Machine Handover Attempt := ⟨⟨info, []⟩, call⟩

end Handover

/-- The calls that are not rejected. -/
def accepted (calls : List Attempt) : List Attempt := calls.filter fun c => c.supported

/-- The kernel has been handed the requests that are not rejected, in order, each
    under its own opcode and `user_data`, and `pending` has counted them. -/
structure Handed (calls : List Attempt) (s t : Handover) : Prop where
  keys : t.handed.map Sqe.key = s.handed.map Sqe.key ++ (accepted calls).map Attempt.key
  pending : t.info.pending = s.info.pending + Int32.ofNat (accepted calls).length

/-- The calls go through, and only those that are not rejected have an effect on
    the kernel and on `pending`. -/
def OnlySupported (info : IoUringInfo) (calls : List Attempt) : Prop :=
  ∃ t, (Handover.machine info).run calls = .next t ∧
    Handed calls (Handover.machine info).init t

/-- A rejected call leaves everything as it was. -/
def RejectedUnnoticed (info : IoUringInfo) (calls : List Attempt) : Prop :=
  ∀ pre c, pre ++ [c] <+: calls → ¬ c.supported →
    ∀ s, (Handover.machine info).run pre = .next s →
      s.call c = .next { s with info := s.before c }

/-- What is to hold of a sequence of calls with rejected ones among them. -/
structure RejectsCleanly (info : IoUringInfo) (calls : List Attempt) : Prop where
  handed : OnlySupported info calls
  unnoticed : RejectedUnnoticed info calls

/-! ## One call -/

/-- The default branch returns with the entry reserved, if there was one. -/
theorem SubmitRequest_rejected {accepts : Bool} {p : Ptr} {req : Request} {info : IoUringInfo}
    (hreq : ¬ req.supported) : SubmitRequest accepts p req info = .next (getSqe info).2 := by
  have hnone : prep p req.kind = none := by
    rw [← Option.not_isSome_iff_eq_none, prep_isSome_iff]
    exact hreq
  rw [SubmitRequest, hnone]

theorem getSqe_free {info : IoUringInfo} (hq : info.ring.Quiescent) :
    (getSqe info).2.ring.Full := by
  rw [getSqe, io_uring_get_sqe_quiescent hq]
  exact ⟨hq.single, congrArg (· + 1) hq.drained.symm⟩

theorem getSqe_full {info : IoUringInfo} (h : info.ring.Full) : (getSqe info).2 = info := by
  have hlate : ¬ info.ring.sqe_tail + 1 - info.ring.khead ≤ info.ring.entries := by
    have hsingle := h.single
    have htaken := h.taken
    omega
  rw [getSqe, io_uring_get_sqe, if_neg hlate]

namespace Handover

variable {s t u : Handover} {c : Attempt} {calls : List Attempt}

theorem before_quiescent (h : s.info.ring.Quiescent) (c : Attempt) :
    (s.before c).ring.Quiescent := by
  obtain ⟨done, hposts⟩ := kernelPosts_posts c.posted s.info.ring
  exact hposts.quiescent h

theorem before_full (h : s.info.ring.Full) (c : Attempt) : (s.before c).ring.Full := by
  obtain ⟨done, hposts⟩ := kernelPosts_posts c.posted s.info.ring
  refine ⟨hposts.entries.trans h.single, ?_⟩
  show (kernelPosts c.posted s.info.ring).sqe_tail = (kernelPosts c.posted s.info.ring).khead + 1
  rw [hposts.sqe_tail, hposts.khead, h.taken]

/-- With the entry free a supported request is handed over. -/
theorem call_supported (hq : s.info.ring.Quiescent) (hc : c.supported) :
    ∃ t, s.call c = .next t ∧ Handed [c] s t ∧ t.info.ring.Quiescent := by
  obtain ⟨sqe, hsqe⟩ := Option.isSome_iff_exists.mp ((prep_isSome_iff c.block _).mpr hc)
  obtain ⟨ring, hrun, hkernel, -, hafter⟩ := SubmitRequest_quiescent (before_quiescent hq c) hsqe
  have hkey : Sqe.key { sqe with user_data := c.block } = c.key := by
    rw [Sqe.key, prep_opcode hsqe, Attempt.key]
  have hone : accepted [c] = [c] := List.filter_cons_of_pos (decide_eq_true hc)
  refine ⟨_, by rw [call, hrun, Outcome.bind_next], ⟨?_, ?_⟩, hafter⟩
  · simp only [hkernel, List.drop_left, List.map_append, List.map_cons, List.map_nil, hkey, hone]
  · rw [hone]
    rfl

theorem call_rejected (hc : ¬ c.supported) :
    s.call c = .next { s with info := (getSqe (s.before c)).2 } := by
  have hkernel : (getSqe (s.before c)).2.ring.kernel = (s.before c).ring.kernel := by
    rw [getSqe, io_uring_get_sqe]
    split <;> rfl
  rw [call, SubmitRequest_rejected hc, Outcome.bind_next, hkernel, List.drop_length,
    List.append_nil]

end Handover

/-! ## All of them -/

variable {info : IoUringInfo} {s t u : Handover} {c : Attempt} {calls : List Attempt}

theorem accepted_cons (c : Attempt) (calls : List Attempt) :
    accepted (c :: calls) = accepted [c] ++ accepted calls :=
  List.filter_append [c] calls

theorem Handed.nil (s : Handover) : Handed [] s s :=
  ⟨(List.append_nil _).symm, (Int32.add_zero _).symm⟩

theorem Handed.cons_iff (h : Handed [c] s t) : Handed (c :: calls) s u ↔ Handed calls t u := by
  have hkeys : s.handed.map Sqe.key ++ (accepted (c :: calls)).map Attempt.key
      = t.handed.map Sqe.key ++ (accepted calls).map Attempt.key := by
    rw [h.keys, accepted_cons, List.map_append, List.append_assoc]
  have hpending : s.info.pending + Int32.ofNat (accepted (c :: calls)).length
      = t.info.pending + Int32.ofNat (accepted calls).length := by
    rw [h.pending, accepted_cons, List.length_append, Int32.ofNat_add, Int32.add_assoc]
  exact ⟨fun hall => ⟨hkeys ▸ hall.keys, hpending ▸ hall.pending⟩,
    fun hrest => ⟨hkeys.symm ▸ hrest.keys, hpending.symm ▸ hrest.pending⟩⟩

/-- A rejected call counts nowhere. -/
theorem Handed.rejected (hc : ¬ c.supported) (ring : Ring) :
    Handed [c] s { s with info := { s.info with ring } } := by
  have hnone : accepted [c] = [] := List.filter_cons_of_neg (by simpa using hc)
  exact ⟨by rw [hnone]; exact (List.append_nil _).symm, by rw [hnone]; exact (Int32.add_zero _).symm⟩

/-- A call that goes through, and the calls after it. -/
theorem runs_cons_iff (hcall : s.call c = .next t) (h : Handed [c] s t) :
    (∃ u, (Handover.machine info).runFrom s (c :: calls) = .next u ∧ Handed (c :: calls) s u) ↔
      ∃ u, (Handover.machine info).runFrom t calls = .next u ∧ Handed calls t u := by
  have hrun : (Handover.machine info).runFrom s (c :: calls)
      = (Handover.machine info).runFrom t calls := by
    rw [runFrom_cons]
    show (s.call c).bind _ = _
    rw [hcall, Outcome.bind_next]
  simp only [hrun, h.cons_iff]

/-- With the entry taken only rejected calls go through. -/
theorem runs_full_iff (hfull : s.info.ring.Full) :
    (∃ u, (Handover.machine info).runFrom s calls = .next u ∧ Handed calls s u) ↔
      ∀ c ∈ calls, ¬ c.supported := by
  induction calls generalizing s with
  | nil => exact ⟨fun _ c hc => absurd hc List.not_mem_nil, fun _ => ⟨s, rfl, Handed.nil s⟩⟩
  | cons c calls ih =>
      have hbefore := Handover.before_full hfull c
      rw [List.forall_mem_cons]
      by_cases hc : c.supported
      · -- written through NULL
        refine ⟨?_, fun h => absurd hc h.1⟩
        rintro ⟨u, hrun, -⟩
        rw [runFrom_cons] at hrun
        obtain ⟨t, hcall, -⟩ := Outcome.bind_eq_next.mp hrun
        have hfault : s.call c = .fault := by
          rw [Handover.call, SubmitRequest_full true hbefore hc, Outcome.bind_fault]
        exact absurd (hfault.symm.trans hcall) (by simp)
      · have hcall := Handover.call_rejected (s := s) hc
        rw [getSqe_full hbefore] at hcall
        rw [runs_cons_iff hcall (Handed.rejected hc _), ih hbefore]
        exact (and_iff_right hc).symm

/-- With the entry free the first rejected call takes it. -/
theorem runs_iff (hq : s.info.ring.Quiescent) :
    (∃ u, (Handover.machine info).runFrom s calls = .next u ∧ Handed calls s u) ↔
      calls.Pairwise fun c d => d.supported → c.supported := by
  induction calls generalizing s with
  | nil => exact ⟨fun _ => List.Pairwise.nil, fun _ => ⟨s, rfl, Handed.nil s⟩⟩
  | cons c calls ih =>
      rw [List.pairwise_cons]
      by_cases hc : c.supported
      · obtain ⟨t, hcall, hhanded, hafter⟩ := Handover.call_supported hq hc
        rw [runs_cons_iff hcall hhanded, ih hafter]
        exact (and_iff_right fun _ _ _ => hc).symm
      · have hbefore := Handover.before_quiescent hq c
        have hhanded : Handed [c] s { s with info := (getSqe (s.before c)).2 } :=
          Handed.rejected hc (getSqe (s.before c)).2.ring
        rw [runs_cons_iff (Handover.call_rejected hc) hhanded, runs_full_iff (getSqe_free hbefore)]
        constructor
        · intro hall
          refine ⟨fun d hd hsup => absurd hsup (hall d hd), ?_⟩
          exact List.pairwise_of_forall_mem_list fun d _ e he hsup => absurd hsup (hall e he)
        · exact fun h d hd hsup => hc (h.1 d hd hsup)

theorem supported_of_unnoticed (hq : s.info.ring.Quiescent)
    (h : ∀ pre c, pre ++ [c] <+: calls → ¬ c.supported →
      ∀ t, (Handover.machine info).runFrom s pre = .next t →
        t.call c = .next { t with info := t.before c }) :
    ∀ c ∈ calls, c.supported := by
  induction calls generalizing s with
  | nil => exact fun c hc => absurd hc List.not_mem_nil
  | cons c calls ih =>
      have hc : c.supported := by
        by_contra hc
        have hsame := h [] c ⟨calls, rfl⟩ hc s rfl
        rw [Handover.call_rejected hc] at hsame
        -- the entry is taken, and it was free before the call
        have hinfo : (getSqe (s.before c)).2 = s.before c :=
          congrArg Handover.info (Outcome.next.inj hsame)
        have hbefore := Handover.before_quiescent hq c
        have htaken := (getSqe_free hbefore).taken
        rw [hinfo, ← hbefore.drained] at htaken
        omega
      obtain ⟨t, hcall, -, hafter⟩ := Handover.call_supported hq hc
      refine List.forall_mem_cons.mpr ⟨hc, ih hafter fun pre d hpre hd u hrun => ?_⟩
      refine h (c :: pre) d ?_ hd u ?_
      · exact List.cons_prefix_cons.mpr ⟨rfl, hpre⟩
      · rw [runFrom_cons]
        show (s.call c).bind _ = _
        rw [hcall, Outcome.bind_next]
        exact hrun

/-- **A rejected opcode takes the entry.**  The kernel gets what it should exactly
    when no supported request comes after a rejected one, and nothing is noticed of
    rejections at all only when there are none. -/
theorem rejects_cleanly_iff (info : IoUringInfo) (calls : List Attempt)
    (hq : info.ring.Quiescent) :
    (OnlySupported info calls ↔ calls.Pairwise fun c d => d.supported → c.supported) ∧
      (RejectsCleanly info calls ↔ ∀ c ∈ calls, c.supported) := by
  have honly : OnlySupported info calls ↔
      calls.Pairwise fun c d => d.supported → c.supported := runs_iff hq
  refine ⟨honly, fun h => supported_of_unnoticed hq h.unnoticed, fun hall => ⟨?_, ?_⟩⟩
  · exact honly.mpr (List.pairwise_of_forall_mem_list fun c hc _ _ _ => hall c hc)
  · intro pre c hpre hc
    exact absurd (hall c (hpre.subset (by simp))) hc

/-- IORING_OP_FSYNC has no case in the `switch`. -/
theorem fsync_notMem : (3 : Int32) ∉ switchOps := by decide

def fsync (p : Ptr) : Attempt where
  posted := []
  block := p
  request := { kind := .other 3 fsync_notMem, cb := none }

def nop (p : Ptr) : Attempt where
  posted := []
  block := p
  request := { kind := .nop, cb := none }

/-- A rejected request at the end goes unnoticed by the kernel. -/
theorem rejects_cleanly_last :
    OnlySupported Environment.init.io_uring_data [nop 0, fsync 1] ∧
      ¬ RejectsCleanly Environment.init.io_uring_data [nop 0, fsync 1] := by
  obtain ⟨honly, hclean⟩ :=
    rejects_cleanly_iff Environment.init.io_uring_data [nop 0, fsync 1] Ring.quiescent_init
  exact ⟨honly.mpr (by decide), fun h => absurd (hclean.mp h) (by decide)⟩

/-- With a request after it the process writes through NULL. -/
theorem rejection_overruns : ¬ ∀ (info : IoUringInfo) (calls : List Attempt),
    info.ring.Quiescent → RejectsCleanly info calls := by
  intro h
  have hfault : (Handover.machine Environment.init.io_uring_data).run [fsync 0, nop 1] = .fault :=
    rfl
  obtain ⟨t, hrun, -⟩ :=
    (h Environment.init.io_uring_data [fsync 0, nop 1] Ring.quiescent_init).handed
  exact absurd (hfault.symm.trans hrun) (by simp)

end NoJs.IoUring
