/-
  NoJs.IoUring.Ring

  The data of `core/io_uring.h` and the part of liburing the runtime uses: the
  request objects, the submission and completion entries, and a ring whose
  submission side is the pair of indices `khead` and `sqe_tail` over an array of
  `entries` slots, as in `io_uring_get_sqe`.

  Pointers are heap blocks.  `user_data` is the block of the request, and the
  `void *data` of a request is kept as the number it holds (a block, a timer id).
-/

import Mathlib.Algebra.Ring.Int.Defs
import Mathlib.Algebra.Ring.Nat
import Mathlib.Logic.Function.Basic
import Mathlib.Data.List.Perm.Basic
import NoJs.Lib.Machine

namespace NoJs.IoUring

open Machine

/-- The block of an object on the C heap. -/
abbrev Ptr := Nat

/-- A JavaScript function value. -/
abbrev JsFunction := Nat

/-! ## Requests -/

/-- The event names of `core/string.h`. -/
inductive EventName where
  | onconnect
  | onread
  | onsignal
  | ontimeout
  | onclose
  | onchange
  deriving DecidableEq, Repr

/-- The values a `request_cb` of this program takes. -/
inductive Callback where
  | makeCallback (event : EventName)
  | timer_cb
  | signal_cb
  | inotifyHandler
  | openAfter
  deriving DecidableEq, Repr

/-- What a pointer handed to the kernel points to. -/
inductive Address where
  | null
  /-- Memory outside the request: a backing store, a path, a socket address. -/
  | mem (p : Ptr)
  /-- The `iovecs` array at the end of a batch request. -/
  | iovecs (req : Ptr)
  /-- The locals `sa` and `sa_size` of `SubmitRequest`. -/
  | sa
  | sa_size
  deriving DecidableEq, Repr

structure IoRequest where
  fd : Int32
  offset : Int32
  buf : Ptr
  len : Int32
  deriving DecidableEq, Repr

structure Iovec where
  iov_base : Ptr
  iov_len : Nat
  deriving DecidableEq, Repr

structure IoBatchRequest where
  fd : Int32
  offset : Int32
  nvecs : Int32
  iovecs : List Iovec
  deriving DecidableEq, Repr

structure TcpRequest where
  fd : Int32
  deriving DecidableEq, Repr

structure OpenatFileRequest where
  dirFd : Int32
  path : Ptr
  flags : Int32
  mode : UInt32
  deriving DecidableEq, Repr

structure ConnectRequest where
  fd : Int32
  addr : Ptr
  addrlen : UInt32
  deriving DecidableEq, Repr

structure CloseRequest where
  fd : Int32
  deriving DecidableEq, Repr

def IORING_OP_NOP : Int32 := 0
def IORING_OP_READV : Int32 := 1
def IORING_OP_WRITEV : Int32 := 2
def IORING_OP_ACCEPT : Int32 := 13
def IORING_OP_CONNECT : Int32 := 16
def IORING_OP_OPENAT : Int32 := 18
def IORING_OP_CLOSE : Int32 := 19
def IORING_OP_READ : Int32 := 22
def IORING_OP_WRITE : Int32 := 23

/-- The opcodes with a case in the `switch` of `SubmitRequest`. -/
def switchOps : List Int32 :=
  [IORING_OP_READ, IORING_OP_WRITE, IORING_OP_READV, IORING_OP_WRITEV, IORING_OP_ACCEPT,
    IORING_OP_OPENAT, IORING_OP_CONNECT, IORING_OP_CLOSE, IORING_OP_NOP]

/-- The `op` of a request together with the fields of the struct that `op`
    makes `SubmitRequest` cast to. -/
inductive Kind where
  | read (r : IoRequest)
  | write (r : IoRequest)
  | readv (r : IoBatchRequest)
  | writev (r : IoBatchRequest)
  | accept (r : TcpRequest)
  | openat (r : OpenatFileRequest)
  | connect (r : ConnectRequest)
  | close (r : CloseRequest)
  | nop
  | other (op : Int32) (h : op ∉ switchOps)
  deriving DecidableEq

/-- The `op` field. -/
def Kind.op : Kind → Int32
  | read _ => IORING_OP_READ
  | write _ => IORING_OP_WRITE
  | readv _ => IORING_OP_READV
  | writev _ => IORING_OP_WRITEV
  | accept _ => IORING_OP_ACCEPT
  | openat _ => IORING_OP_OPENAT
  | connect _ => IORING_OP_CONNECT
  | close _ => IORING_OP_CLOSE
  | nop => IORING_OP_NOP
  | other op _ => op

def IO_URING_REQUEST_AGAIN : Int32 := 1

/-- `struct request` and the structs that extend it. -/
structure Request where
  kind : Kind
  cb : Option Callback
  res : Int32 := 0
  data : Nat := 0
  flag : Int32 := 0
  deriving DecidableEq

/-- `_req->flag & IO_URING_REQUEST_AGAIN`. -/
def Request.again (r : Request) : Bool := r.flag &&& IO_URING_REQUEST_AGAIN != 0

/-- A request whose `op` has a case in the `switch`. -/
def Request.supported (r : Request) : Prop := r.kind.op ∈ switchOps

instance (r : Request) : Decidable r.supported :=
  inferInstanceAs (Decidable (r.kind.op ∈ switchOps))

/-! ## Submission and completion entries -/

/-- The fields of `io_uring_sqe` that the `io_uring_prep_*` functions set to
    something other than zero.  `off` and `addr2` are one union. -/
structure Sqe where
  opcode : Int32 := 0
  fd : Int32 := 0
  off : Int := 0
  addr2 : Address := .null
  addr : Address := .null
  len : UInt32 := 0
  rw_flags : Int32 := 0
  user_data : Ptr := 0
  deriving DecidableEq, Repr

structure Cqe where
  user_data : Ptr
  res : Int32
  deriving DecidableEq, Repr

/-- `io_uring_prep_rw`. -/
def io_uring_prep_rw (op fd : Int32) (addr : Address) (len : UInt32) (offset : Int) : Sqe :=
  { opcode := op, fd, addr, len, off := offset }

/-- The `switch` of `SubmitRequest`: the entry a case fills, nothing in the
    default branch.  `p` is the block of the request. -/
def prep (p : Ptr) : Kind → Option Sqe
  | .read r => some (io_uring_prep_rw IORING_OP_READ r.fd (.mem r.buf) r.len.toUInt32
      r.offset.toInt)
  | .write r => some (io_uring_prep_rw IORING_OP_WRITE r.fd (.mem r.buf) r.len.toUInt32
      r.offset.toInt)
  | .readv r => some (io_uring_prep_rw IORING_OP_READV r.fd (.iovecs p) r.nvecs.toUInt32
      r.offset.toInt)
  | .writev r => some (io_uring_prep_rw IORING_OP_WRITEV r.fd (.iovecs p) r.nvecs.toUInt32
      r.offset.toInt)
  | .accept r => some { io_uring_prep_rw IORING_OP_ACCEPT r.fd .sa 0 0 with addr2 := .sa_size }
  | .openat r => some { io_uring_prep_rw IORING_OP_OPENAT r.dirFd (.mem r.path) r.mode 0 with
      rw_flags := r.flags }
  | .connect r => some (io_uring_prep_rw IORING_OP_CONNECT r.fd (.mem r.addr) 0 r.addrlen.toNat)
  | .close r => some (io_uring_prep_rw IORING_OP_CLOSE r.fd .null 0 0)
  | .nop => some (io_uring_prep_rw IORING_OP_NOP (-1) .null 0 0)
  | .other _ _ => none

theorem prep_isSome_iff (p : Ptr) (k : Kind) : (prep p k).isSome ↔ k.op ∈ switchOps := by
  cases k with
  | other op h => simpa [prep, Kind.op] using h
  | _ => simp [prep, Kind.op, switchOps]

theorem prep_opcode {p : Ptr} {k : Kind} {sqe : Sqe} (h : prep p k = some sqe) :
    sqe.opcode = k.op := by
  cases k <;> simp only [prep, Option.some.injEq, reduceCtorEq] at h <;> subst h <;> rfl

/-! ## The ring -/

structure Ring where
  /-- `*kring_entries`. -/
  entries : Nat
  /-- The memory of the submission entries. -/
  sqes : Nat → Sqe
  /-- Entries before `khead` are consumed by the kernel. -/
  khead : Nat
  /-- Entries before `sqe_tail` were handed out by `io_uring_get_sqe`. -/
  sqe_tail : Nat
  /-- Consumed entries that have not completed. -/
  kernel : List Sqe
  /-- The completion queue, oldest first. -/
  cq : List Cqe

/-- `io_uring_queue_init(entries, ring, 0)`. -/
def io_uring_queue_init (entries : Nat) : Ring :=
  { entries, sqes := fun _ => {}, khead := 0, sqe_tail := 0, kernel := [], cq := [] }

/-- `io_uring_get_sqe`: the slot of the next entry, `none` for NULL. -/
def io_uring_get_sqe (r : Ring) : Option Nat × Ring :=
  if r.sqe_tail + 1 - r.khead ≤ r.entries then
    (some (r.sqe_tail % r.entries), { r with sqe_tail := r.sqe_tail + 1 })
  else (none, r)

/-- Store into the memory of a submission entry. -/
def Ring.write (r : Ring) (slot : Nat) (sqe : Sqe) : Ring :=
  { r with sqes := Function.update r.sqes slot sqe }

/-- The entries handed out and not yet consumed, oldest first. -/
def Ring.queued (r : Ring) : List Sqe :=
  (List.range (r.sqe_tail - r.khead)).map fun i => r.sqes ((r.khead + i) % r.entries)

/-- `io_uring_submit`: the kernel either consumes every queued entry or fails
    and leaves them queued. -/
def io_uring_submit (accepts : Bool) (r : Ring) : Ring :=
  if accepts then { r with kernel := r.kernel ++ r.queued, khead := r.sqe_tail } else r

/-- The kernel finishes the `i`-th entry it holds and posts its completion. -/
def Ring.complete (r : Ring) (i : Nat) (res : Int32) : Option Ring :=
  r.kernel[i]?.map fun sqe =>
    { r with kernel := r.kernel.eraseIdx i, cq := r.cq ++ [⟨sqe.user_data, res⟩] }

/-- `io_uring_peek_cqe`. -/
def io_uring_peek_cqe (r : Ring) : Option Cqe := r.cq.head?

/-- `io_uring_cq_advance(ring, 1)`. -/
def io_uring_cq_advance (r : Ring) : Ring := { r with cq := r.cq.tail }

/-- The requests handed to the kernel and not yet reaped. -/
def Ring.outstanding (r : Ring) : List Ptr := r.kernel.map (·.user_data) ++ r.cq.map (·.user_data)

/-- The ring of this program, with no entry handed out and unsubmitted. -/
structure Ring.Quiescent (r : Ring) : Prop where
  single : r.entries = 1
  drained : r.khead = r.sqe_tail

theorem Ring.quiescent_init : (io_uring_queue_init 1).Quiescent := ⟨rfl, rfl⟩

@[simp] theorem Ring.outstanding_init (n : Nat) : (io_uring_queue_init n).outstanding = [] := rfl

/-- With nothing queued an entry is available. -/
theorem io_uring_get_sqe_quiescent {r : Ring} (h : r.Quiescent) :
    io_uring_get_sqe r =
      (some (r.sqe_tail % r.entries), { r with sqe_tail := r.sqe_tail + 1 }) := by
  have hsingle := h.single
  have hdrained := h.drained
  rw [io_uring_get_sqe, if_pos (by omega)]

/-- A completion moves one request from the kernel to the completion queue. -/
theorem Ring.complete_outstanding {r r' : Ring} {i : Nat} {res : Int32}
    (h : r.complete i res = some r') : r'.outstanding.Perm r.outstanding := by
  obtain ⟨sqe, hsqe, rfl⟩ := Option.map_eq_some_iff.mp h
  obtain ⟨hi, hget⟩ := List.getElem?_eq_some_iff.mp hsqe
  -- the entry leaves `kernel` and its completion enters `cq`
  have hperm : (sqe :: r.kernel.eraseIdx i).Perm r.kernel := by
    rw [← hget]
    exact List.getElem_cons_eraseIdx_perm hi
  have hmap := hperm.map (·.user_data)
  simp only [Ring.outstanding, List.map_append, List.map_cons, List.map_nil]
  rw [← List.append_assoc]
  apply List.perm_append_comm.trans
  rw [← List.append_assoc]
  exact List.Perm.append_right _ hmap

theorem Ring.complete_quiescent {r r' : Ring} {i : Nat} {res : Int32}
    (h : r.complete i res = some r') (hq : r.Quiescent) : r'.Quiescent := by
  obtain ⟨sqe, -, rfl⟩ := Option.map_eq_some_iff.mp h
  exact ⟨hq.single, hq.drained⟩

/-- Reaping takes the oldest completion away from the outstanding requests. -/
theorem io_uring_cq_advance_outstanding {r : Ring} {c : Cqe} (h : io_uring_peek_cqe r = some c) :
    r.outstanding.Perm (c.user_data :: (io_uring_cq_advance r).outstanding) := by
  obtain ⟨cs, hcs⟩ := List.head?_eq_some_iff.mp h
  simp only [Ring.outstanding, io_uring_cq_advance, hcs, List.map_cons, List.tail_cons]
  exact List.perm_middle

theorem io_uring_cq_advance_quiescent {r : Ring} (hq : r.Quiescent) :
    (io_uring_cq_advance r).Quiescent :=
  ⟨hq.single, hq.drained⟩

end NoJs.IoUring
