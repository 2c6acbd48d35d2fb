/-
  NoJs.Async.Regions

  Which bytes of a backing store the entry points of `core/io.cc` hand to the
  kernel, and at which file position: `Read`, `Write`, `ReadV` and `WriteV` with
  a request, `ReadSync` and `WriteSync` with a system call.

  Each takes the backing store from the view and leaves its bounds alone, and the
  request keeps the file position in an `int`.
-/

import NoJs.Async.Kernel
import NoJs.Lib.Region

namespace NoJs.Async

open Machine NoJs.IoUring

/-! ## The entry points -/

/-- `read(fd, backing->Data(), backing->ByteLength())`, or `write`: the
    descriptor and the bytes the call may transfer. -/
def syncCall (args : List Value) : Option (Int32 × Region Ptr) := do
  let fd ← (arg args 0).uint32
  let backing ← (arg args 1).backing
  return (fd.toInt32, ⟨backing.data, 0, backing.byteLength⟩)

/-- `No::IO::ReadSync`. -/
def ReadSync (args : List Value) : Option (Int32 × Region Ptr) := syncCall args

/-- `No::IO::WriteSync`. -/
def WriteSync (args : List Value) : Option (Int32 × Region Ptr) := syncCall args

def ReadWriteOp.entry : ReadWriteOp → EntryPoint
  | read => .read
  | write => .write
  | readv => .readv
  | writev => .writev

/-- The bytes an entry of `read_write_request` covers: its buffer, or the vectors
    in the request it points to. -/
def regions (heap : Heap Request) (sqe : Sqe) : List (Region Ptr) :=
  match sqe.addr with
  | .mem p => [⟨p, 0, sqe.len.toNat⟩]
  | .iovecs q =>
      match (heap.get? q).map Request.kind with
      | some (.readv r) | some (.writev r) =>
          (r.iovecs.take sqe.len.toNat).map fun v => ⟨v.iov_base, 0, v.iov_len⟩
      | _ => []
  | _ => []

/-- The entry a call hands to the kernel, with the bytes it covers. -/
def Runtime.submitted (s : Runtime) (c : Call) : Option (Sqe × List (Region Ptr)) :=
  match s.step (.start c) with
  | .next t => t.kernel.getLast?.map fun sqe => (sqe, regions t.env.heap sqe)
  | _ => none

/-! ## What they are to cover -/

/-- A view within a backing store shorter than 2^31 bytes. -/
structure View where
  view : Uint8Array
  within : view.byteOffset + view.byteLength ≤ view.buffer.byteLength
  small : view.buffer.byteLength < 2 ^ 31

/-- An integer file offset. -/
structure Position where
  off : Int
  nonneg : 0 ≤ off
  safe : off < 2 ^ 53

/-- The bytes of the view. -/
def View.region (v : View) : Region Ptr :=
  ⟨v.view.buffer.data, v.view.byteOffset, v.view.byteLength⟩

/-- The arguments `fd, view, off`. -/
def ioArgs (fd : Int32) (v : View) (off : Position) : List Value :=
  [.number fd.toInt, .uint8Array v.view, .number off.off]

def ReadWriteOp.call (op : ReadWriteOp) (fd : Int32) (v : View) (off : Position) : Call where
  entry := op.entry
  args := ioArgs fd v off

/-- The six entry points. -/
inductive IoEntry where
  | async (op : ReadWriteOp)
  | readSync
  | writeSync
  deriving DecidableEq, Repr

/-- Whether the entry point stores into the view. -/
def IoEntry.isRead : IoEntry → Bool
  | async .read | async .readv | readSync => true
  | _ => false

/-- The bytes an entry point hands to the kernel. -/
def IoEntry.regions (s : Runtime) (fd : Int32) (v : View) (off : Position) :
    IoEntry → Option (List (Region Ptr))
  | async op => (s.submitted (op.call fd v off)).map (·.2)
  | readSync => (ReadSync (ioArgs fd v off)).map fun x => [x.2]
  | writeSync => (WriteSync (ioArgs fd v off)).map fun x => [x.2]

/-- The entry points cover exactly what the caller passed. -/
structure Exact (s : Runtime) (fd : Int32) (v : View) (off : Position) : Prop where
  covers : ∀ op : ReadWriteOp, ∃ sqe rs, s.submitted (op.call fd v off) = some (sqe, rs) ∧
    sqe.fd = fd ∧ Region.allBytes rs = v.region.bytes ∧ sqe.off = off.off
  sync : ∀ e ∈ [IoEntry.readSync, .writeSync], ∃ rs, e.regions s fd v off = some rs ∧
    Region.allBytes rs ⊆ v.region.bytes
  /-- Whatever a read brings, it changes no byte outside the view. -/
  frame : ∀ e : IoEntry, e.isRead → ∀ rs, e.regions s fd v off = some rs →
    ∀ (data : List UInt8) (m : Ptr × Nat → UInt8), ∀ b ∉ v.region.bytes,
      Region.scatter rs data m b = m b
  agree : ∀ e e' : IoEntry, e.regions s fd v off = e'.regions s fd v off

/-- The view is the whole store. -/
def View.Whole (v : View) : Prop :=
  v.view.byteOffset = 0 ∧ v.view.byteLength = v.view.buffer.byteLength

/-! ## What they cover -/

/-- The bytes every entry point covers: the store. -/
def View.store (v : View) : Region Ptr := ⟨v.view.buffer.data, 0, v.view.buffer.byteLength⟩

variable {s : Runtime} {fd : Int32} {v : View} {off : Position}

/-- `int64_t` keeps every file position. -/
theorem Position.int (off : Position) :
    (Value.number off.off).int = some (Int32.ofInt off.off) := by
  have hnonneg := off.nonneg
  have hsafe := off.safe
  exact Value.int_number (by omega) (by omega)

/-- What `read_write_request` makes of the arguments. -/
def ReadWriteOp.made (op : ReadWriteOp) (fd : Int32) (v : View) (off : Position) :
    AsyncRequest where
  kind := op.kind fd (Int32.ofInt off.off) v.view.buffer
  cb := .makeCallback .onread
  context := ⟨none⟩

theorem ReadWriteOp.start_call (op : ReadWriteOp) (fd : Int32) (v : View) (off : Position) :
    (op.call fd v off).start = some (op.made fd v off) := by
  have hstart : read_write_request op (ioArgs fd v off) = some (op.made fd v off) := by
    simp [made, read_write_request, ioArgs, arg, Value.uint32, off.int, Value.backing,
      callbackContext, Value.function?, toInt32_ofInt]
  cases op <;> exact hstart

/-- The entry a call adds. -/
theorem Runtime.AtRest.submitted (h : s.AtRest) (hjs : s.ctl.runsJs = true) {c : Call}
    {a : AsyncRequest} (hc : c.start = some a) : ∃ sqe, prep s.env.heap.top a.kind = some sqe ∧
      s.submitted c = some ({ sqe with user_data := s.env.heap.top },
        regions (s.env.heap.alloc (a.request s.contexts.top)) sqe) := by
  have hreq : (a.request s.contexts.top).supported := (Call.start_wired hc).1
  obtain ⟨env, henv, -, hheap, -⟩ := h.sound.submitNew (a.request s.contexts.top) hreq
  obtain ⟨info, hinfo, heq⟩ := Outcome.bind_eq_next.mp henv
  obtain rfl := Outcome.next.inj heq
  obtain ⟨sqe, hsqe, hkernel⟩ := SubmitRequest_kernel h.sound.accounts.quiescent hreq hinfo
  refine ⟨sqe, hsqe, ?_⟩
  simp only [Runtime.submitted, Runtime.step, hjs, if_true, Runtime.start, hc, henv,
    Outcome.bind_next, Runtime.kernel, hkernel, List.getLast?_concat, Option.map_some]
  rfl

/-- The entry of a request covers the store, at the position an `int` keeps. -/
theorem ReadWriteOp.prep_made (op : ReadWriteOp) {heap : Heap Request} {p ctx : Ptr} {sqe : Sqe}
    (hreq : heap.get? p = some ((op.made fd v off).request ctx))
    (hsqe : prep p (op.made fd v off).kind = some sqe) :
    regions heap sqe = [v.store] ∧ sqe.fd = fd ∧ sqe.off = (Int32.ofInt off.off).toInt := by
  -- the length goes through an `unsigned`
  have hlen : v.view.buffer.byteLength < 4294967296 := Nat.lt_trans v.small (by omega)
  have hone : (Int32.toUInt32 1).toNat = 1 := rfl
  cases op
  all_goals
    simp only [made, ReadWriteOp.kind, prep, Option.some.injEq] at hsqe
    subst hsqe
    simp [regions, io_uring_prep_rw, hreq, made, AsyncRequest.request, ReadWriteOp.kind,
      View.store, hlen, hone]

theorem Runtime.AtRest.submitted_call (h : s.AtRest) (hjs : s.ctl.runsJs = true)
    (op : ReadWriteOp) (fd : Int32) (v : View) (off : Position) :
    ∃ sqe, s.submitted (op.call fd v off) = some (sqe, [v.store]) ∧
      sqe.fd = fd ∧ sqe.off = (Int32.ofInt off.off).toInt := by
  obtain ⟨sqe, hsqe, hsubmitted⟩ := h.submitted hjs (op.start_call fd v off)
  obtain ⟨hregions, hfd, hoff⟩ := op.prep_made (Heap.get?_alloc_top s.env.heap _) hsqe
  rw [hregions] at hsubmitted
  exact ⟨_, hsubmitted, hfd, hoff⟩

/-- Every entry point covers the store. -/
theorem Runtime.AtRest.regions_eq (h : s.AtRest) (hjs : s.ctl.runsJs = true) (fd : Int32)
    (v : View) (off : Position) (e : IoEntry) : e.regions s fd v off = some [v.store] := by
  cases e with
  | async op =>
      obtain ⟨sqe, hsubmitted, -, -⟩ := h.submitted_call hjs op fd v off
      rw [IoEntry.regions, hsubmitted]
      rfl
  | readSync => rfl
  | writeSync => rfl

theorem Runtime.AtRest.exact_iff (h : s.AtRest) (hjs : s.ctl.runsJs = true) :
    Exact s fd v off ↔ v.Whole ∧ off.off < 2 ^ 31 := by
  have hregions := h.regions_eq hjs fd v off
  have hbytes : v.store.bytes = v.region.bytes ↔ v.Whole := Region.bytes_eq_iff v.within
  constructor
  · -- one entry point is enough: all cover the store
    intro hexact
    obtain ⟨sqe, rs, hsubmitted, -, hcovers, hoff⟩ := hexact.covers .read
    obtain ⟨sqe', hsubmitted', -, hoff'⟩ := h.submitted_call hjs .read fd v off
    obtain ⟨rfl, rfl⟩ := Prod.mk.inj (Option.some.inj (hsubmitted.symm.trans hsubmitted'))
    rw [Region.allBytes_singleton] at hcovers
    exact ⟨hbytes.mp hcovers, (toInt_ofInt_iff off.nonneg).mp (hoff'.symm.trans hoff)⟩
  · rintro ⟨hwhole, hsmall⟩
    have hsame : Region.allBytes [v.store] = v.region.bytes :=
      (Region.allBytes_singleton _).trans (hbytes.mpr hwhole)
    refine ⟨fun op => ?_, fun e _ => ⟨_, hregions e, hsame.le⟩, ?_, fun e e' => ?_⟩
    · obtain ⟨sqe, hsubmitted, hfd, hoff⟩ := h.submitted_call hjs op fd v off
      exact ⟨sqe, _, hsubmitted, hfd, hsame, hoff.trans ((toInt_ofInt_iff off.nonneg).mpr hsmall)⟩
    · intro e _ rs hrs data m b hb
      obtain rfl := Option.some.inj (hrs.symm.trans (hregions e))
      exact Region.scatter_of_notMem (hsame ▸ hb)
    · rw [hregions e, hregions e']

/-- **The requests cover the view and the position**, wherever JavaScript calls
    the entry points, exactly for a view that is its whole backing store and a
    position below 2^31. -/
theorem requests_exact_iff (fd : Int32) (v : View) (off : Position) (as : List Runtime.Act) :
    (Runtime.machine.run as).Holds fun s =>
      s.ctl.runsJs = true → (Exact s fd v off ↔ v.Whole ∧ off.off < 2 ^ 31) :=
  (Runtime.atRest as).imp fun _ h => h.exact_iff

/-- Two bytes from the second on, in a store of four. -/
def middle : View where
  view := { buffer := ⟨0, 4⟩, byteOffset := 1, byteLength := 2 }
  within := by decide
  small := by decide

/-- A read into them covers all four. -/
theorem view_not_covered : ¬ ∀ (fd : Int32) (v : View) (off : Position) (as : List Runtime.Act),
    (Runtime.machine.run as).Holds fun s => s.ctl.runsJs = true → Exact s fd v off := by
  intro h
  have hexact := (h 3 middle ⟨0, by omega, by omega⟩ []).of_next rfl rfl
  obtain ⟨hstart, -⟩ := (Runtime.AtRest.exact_iff (Runtime.atRest []) rfl).mp hexact |>.1
  exact absurd hstart (by decide)

end NoJs.Async
