/-
  NoJs.IoUring.Submit

  `SubmitRequest` of `core/io_uring.cc` as the sequence of its accesses to the
  ring and to `pending`, each a definition of its own so that an interruption
  between two of them can be modelled (NoJs.Signal.Interrupt).

  `Accounts info n` is the ledger every subsystem keeps: `pending` is the number
  of outstanding requests plus the `n` references the subsystem holds itself.
  `pending` is an `int32_t`, so the equation is one between 32-bit numbers;
  `Accounts.toInt` reads it as an equation between integers in range.
-/

import NoJs.IoUring.Ring

namespace NoJs.IoUring

open Machine

/-- `struct io_uring_info`. -/
structure IoUringInfo where
  pending : Int32
  ring : Ring
  stop : Int32

def incPending (info : IoUringInfo) : IoUringInfo := { info with pending := info.pending + 1 }

def decPending (info : IoUringInfo) : IoUringInfo := { info with pending := info.pending - 1 }

def Stop (info : IoUringInfo) : IoUringInfo := { info with stop := 1 }

/-! ## The accesses of SubmitRequest -/

/-- `sqe = io_uring_get_sqe(&io_uring_data->ring)`. -/
def getSqe (info : IoUringInfo) : Option Nat × IoUringInfo :=
  ((io_uring_get_sqe info.ring).1, { info with ring := (io_uring_get_sqe info.ring).2 })

/-- `io_uring_prep_*(sqe, …)`: a store through `sqe`. -/
def fillSqe (slot : Option Nat) (sqe : Sqe) (info : IoUringInfo) : Outcome IoUringInfo :=
  match slot with
  | none => .fault
  | some i => .next { info with ring := info.ring.write i sqe }

/-- `io_uring_sqe_set_data(sqe, req)`. -/
def setData (slot : Option Nat) (p : Ptr) (info : IoUringInfo) : Outcome IoUringInfo :=
  match slot with
  | none => .fault
  | some i => .next { info with ring := info.ring.write i { info.ring.sqes i with user_data := p } }

/-- `io_uring_submit(&io_uring_data->ring)`. -/
def submit (accepts : Bool) (info : IoUringInfo) : IoUringInfo :=
  { info with ring := io_uring_submit accepts info.ring }

/-- `No::io_uring::SubmitRequest`, for the request in block `p`.  `accepts` is
    the kernel's answer to `io_uring_submit`. -/
def SubmitRequest (accepts : Bool) (p : Ptr) (req : Request) (info : IoUringInfo) :
    Outcome IoUringInfo :=
  match prep p req.kind with
  -- `default: return`
  | none => .next (getSqe info).2
  | some sqe =>
      (fillSqe (getSqe info).1 sqe (getSqe info).2).bind fun info₁ =>
        (setData (getSqe info).1 p (incPending info₁)).bind fun info₂ =>
          .next (submit accepts info₂)

/-- With nothing queued, a supported request goes to the kernel under its own
    opcode and `user_data`, and `pending` is incremented. -/
theorem SubmitRequest_quiescent {p : Ptr} {req : Request} {info : IoUringInfo} {sqe : Sqe}
    (hq : info.ring.Quiescent) (hsqe : prep p req.kind = some sqe) :
    ∃ ring, SubmitRequest true p req info
        = .next { info with pending := info.pending + 1, ring := ring } ∧
      ring.kernel = info.ring.kernel ++ [{ sqe with user_data := p }] ∧
      ring.cq = info.ring.cq ∧ ring.Quiescent := by
  have hget : getSqe info = (some (info.ring.sqe_tail % info.ring.entries),
      { info with ring := { info.ring with sqe_tail := info.ring.sqe_tail + 1 } }) := by
    rw [getSqe, io_uring_get_sqe_quiescent hq]
  -- the two stores go to the slot handed out, which the kernel then reads
  let slot := info.ring.sqe_tail % info.ring.entries
  let taken : Ring := { info.ring with sqe_tail := info.ring.sqe_tail + 1 }
  let filled := (taken.write slot sqe).write slot { sqe with user_data := p }
  have hqueued : filled.queued = [{ sqe with user_data := p }] := by
    have hone : info.ring.sqe_tail + 1 - info.ring.sqe_tail = 1 := by omega
    simp [filled, taken, slot, Ring.queued, Ring.write, hq.drained, hone]
  refine ⟨io_uring_submit true filled, ?_, ?_, rfl, hq.single, rfl⟩
  · simp only [SubmitRequest, hsqe, hget, fillSqe, setData, incPending, submit,
      Outcome.bind_next, Ring.write, Function.update_self, filled, taken, slot]
  · simp only [io_uring_submit, if_true, hqueued]
    rfl

/-! ## The ledger -/

/-- `++` of an `int32_t` below its maximum. -/
theorem toInt_add_one_iff (x : Int32) : (x + 1).toInt = x.toInt + 1 ↔ x.toInt + 1 < 2 ^ 31 := by
  have hlo := x.le_toInt
  have hhi := x.toInt_lt
  rw [Int32.toInt_add, show (1 : Int32).toInt = 1 from rfl, Int.bmod_def]
  split <;> omega

/-- `--` of an `int32_t` above its minimum. -/
theorem toInt_sub_one {x : Int32} (h : -2 ^ 31 < x.toInt) : (x - 1).toInt = x.toInt - 1 := by
  have hhi := x.toInt_lt
  rw [Int32.toInt_sub, show (1 : Int32).toInt = 1 from rfl, Int.bmod_def]
  split <;> omega

/-- `pending` is the number of outstanding requests plus `n`. -/
structure IoUringInfo.Accounts (info : IoUringInfo) (n : Int) : Prop where
  quiescent : info.ring.Quiescent
  pending : info.pending = Int32.ofInt (info.ring.outstanding.length + n)

namespace IoUringInfo.Accounts

variable {info : IoUringInfo} {n : Int}

/-- The equation between integers, as long as the count is an `int32_t`. -/
theorem toInt (h : info.Accounts n) (hlo : -2 ^ 31 ≤ info.ring.outstanding.length + n)
    (hhi : info.ring.outstanding.length + n < 2 ^ 31) :
    info.pending.toInt = info.ring.outstanding.length + n := by
  rw [h.pending, Int32.toInt_ofInt_of_le hlo hhi]

theorem incPending (h : info.Accounts n) : (incPending info).Accounts (n + 1) where
  quiescent := h.quiescent
  pending := by
    simp only [IoUring.incPending, h.pending]
    rw [← Int.add_assoc, Int32.ofInt_add _ 1]
    rfl

theorem decPending (h : info.Accounts n) : (decPending info).Accounts (n - 1) where
  quiescent := h.quiescent
  pending := by
    simp only [IoUring.decPending, h.pending]
    rw [← Int.add_sub_assoc, Int32.ofInt_sub _ 1]
    rfl

end IoUringInfo.Accounts

end NoJs.IoUring
