/-
  NoJs.Async.EntryPoints

  The nine entry points of the native modules that start a request: `IO::Read`,
  `Write`, `ReadV`, `WriteV` and `Close` of `core/io.cc`, `Net::Connect` and
  `Net::Listen` of `core/net.cc`, `UNIX_DOMAIN::Connect` of
  `core/ipc/unix_domain.cc` and `FS::OpenAt` of `core/fs.cc`.

  Each reads its arguments, fills a request, and wraps the callback argument in
  the object of a `RequestContext`.  The key under which it stores the callback
  and the completion function it installs are chosen separately in each; `Wired`
  says when the two fit, and `start_wired` that they do in all but `OpenAt`.
-/

import NoJs.IoUring.Conservation

namespace NoJs.Async

open NoJs.IoUring

/-! ## Values -/

/-- An `ArrayBuffer`: its backing store. -/
structure ArrayBuffer where
  data : Ptr
  byteLength : Nat
  deriving DecidableEq, Repr

/-- A view into an `ArrayBuffer`. -/
structure Uint8Array where
  buffer : ArrayBuffer
  byteOffset : Nat
  byteLength : Nat
  deriving DecidableEq, Repr

/-- A JavaScript argument, as far as the entry points look at it. -/
inductive Value where
  | undefined
  | null
  /-- A number, by its integer part. -/
  | number (n : Int)
  | function (f : JsFunction)
  | uint8Array (view : Uint8Array)
  /-- A string, a boolean or any other object. -/
  | other
  deriving DecidableEq, Repr

/-- `args[i]`: `undefined` from `args.Length()` on. -/
def arg (args : List Value) (i : Nat) : Value := args.getD i .undefined

namespace Value

/-- `As<Integer>()->Value()`, which stays within `int64_t`.  The cast is not
    checked; on a value that is no number it has no meaning. -/
def integer : Value → Option Int
  | number n => some (max (-2 ^ 63) (min n (2 ^ 63 - 1)))
  | _ => none

/-- `As<Integer>()->Value()` stored in an `int`. -/
def int (v : Value) : Option Int32 := v.integer.map Int32.ofInt

/-- `As<Uint32>()->Value()`. -/
def uint32 : Value → Option UInt32
  | number n => some (.ofInt n)
  | _ => none

/-- `As<Uint8Array>()->Buffer()->GetBackingStore()`: the bounds of the view are
    not read. -/
def backing : Value → Option ArrayBuffer
  | uint8Array view => some view.buffer
  | _ => none

/-- `IsFunction()` and `As<Function>()`. -/
def function? : Value → Option JsFunction
  | function f => some f
  | _ => none

/-- On an integer in range an `int` gets its low 32 bits. -/
theorem int_number {n : Int} (hlo : -2 ^ 63 ≤ n) (hhi : n < 2 ^ 63) :
    (number n).int = some (Int32.ofInt n) := by
  have hclamp : max (-2 ^ 63) (min n (2 ^ 63 - 1)) = n := by omega
  rw [int, integer, hclamp, Option.map_some]

end Value

/-- An `int` keeps the integers below 2^31. -/
theorem toInt_ofInt_iff {n : Int} (hnonneg : 0 ≤ n) : (Int32.ofInt n).toInt = n ↔ n < 2 ^ 31 := by
  constructor
  · intro heq
    rw [← heq]
    exact Int32.toInt_lt _
  · intro hlt
    exact Int32.toInt_ofInt_of_le (by omega) (by omega)

/-- A descriptor comes back from the argument list as it went in. -/
theorem toInt32_ofInt (fd : Int32) : (UInt32.ofInt fd.toInt).toInt32 = fd := by
  rw [UInt32.ofInt, UInt32.toInt32_ofNat']
  have hofNat : Int32.ofNat (fd.toInt % 2 ^ 32).toNat = Int32.ofInt (fd.toInt % 2 ^ 32) := by
    rw [← Int32.ofInt_eq_ofNat, Int.toNat_of_nonneg (Int.emod_nonneg _ (by decide))]
  rw [hofNat, Int32.ofInt_eq_iff_bmod_eq_toInt]
  exact (Int.emod_bmod fd.toInt (2 ^ 32)).trans (Int32.toInt_bmod fd)

/-! ## Request contexts -/

/-- The object of a `RequestContext`: one made to hold the callback under an
    event name, or the callback itself. -/
inductive JsObject where
  | record (key : EventName) (value : JsFunction)
  | function (f : JsFunction)
  deriving DecidableEq, Repr

/-- `object->Get(context, onevent)`, when it is a function. -/
def JsObject.get : JsObject → EventName → Option JsFunction
  | record key value, event => if key = event then some value else none
  | function _, _ => none

/-- `RequestContext`; `none` for the empty handle of `Local<Function>()`. -/
structure RequestContext where
  object : Option JsObject
  deriving DecidableEq, Repr

/-- The function `makeCallback<event>` calls, if it finds one. -/
def RequestContext.lookup (ctx : RequestContext) (event : EventName) : Option JsFunction :=
  ctx.object.bind (·.get event)

/-- What an entry point puts into the request and into its context. -/
structure AsyncRequest where
  kind : Kind
  cb : Callback
  flag : Int32 := 0
  context : RequestContext

/-- The request, with its context in block `ctx`. -/
def AsyncRequest.request (a : AsyncRequest) (ctx : Ptr) : Request :=
  { kind := a.kind, cb := some a.cb, data := ctx, flag := a.flag }

/-- `_req->flag & IO_URING_REQUEST_AGAIN`. -/
def AsyncRequest.again (a : AsyncRequest) : Bool := (a.request 0).again

/-- `if (args.Length() > i && args[i]->IsFunction()) obj->Set(context, key, …)`. -/
def callbackContext (args : List Value) (i : Nat) (key : EventName) : RequestContext :=
  ⟨(arg args i).function?.map (.record key)⟩

/-! ## The entry points -/

/-- The opcodes `read_write_request` is called with. -/
inductive ReadWriteOp where
  | read
  | write
  | readv
  | writev
  deriving DecidableEq, Repr

/-- The request of `read_write_request`: an `io_request`, or an
    `io_batch_request` with one vector. -/
def ReadWriteOp.kind (op : ReadWriteOp) (fd offset : Int32) (backing : ArrayBuffer) : Kind :=
  let io_req : IoRequest :=
    { fd, offset, buf := backing.data, len := Int32.ofNat backing.byteLength }
  let io_batch_req : IoBatchRequest :=
    { fd, offset, nvecs := 1, iovecs := [⟨backing.data, backing.byteLength⟩] }
  match op with
  | read => .read io_req
  | write => .write io_req
  | readv => .readv io_batch_req
  | writev => .writev io_batch_req

/-- `read_write_request`. -/
def read_write_request (op : ReadWriteOp) (args : List Value) : Option AsyncRequest := do
  let fd ← (arg args 0).uint32
  let offset := ((arg args 2).int).getD 0
  let backing ← (arg args 1).backing
  return {
    kind := op.kind fd.toInt32 offset backing
    cb := .makeCallback .onread
    context := callbackContext args 3 .onread }

/-- `No::IO::Close`. -/
def Close (args : List Value) : Option AsyncRequest := do
  let fd ← (arg args 0).int
  return {
    kind := .close { fd }
    cb := .makeCallback .onclose
    context := callbackContext args 1 .onclose }

/-- `sizeof(struct sockaddr_in)` and `sizeof(struct sockaddr_un)`. -/
def sockaddrIn : UInt32 := 16
def sockaddrUn : UInt32 := 110

/-- `No::Net::Connect`; `peer_addr_info` is the local variable of that name. -/
def Connect (peer_addr_info : Ptr) (args : List Value) : Option AsyncRequest := do
  let fd ← (arg args 0).int
  -- `HandleAddrInfo` casts the port as well
  let _port ← (arg args 2).int
  return {
    kind := .connect { fd, addr := peer_addr_info, addrlen := sockaddrIn }
    cb := .makeCallback .onconnect
    context := callbackContext args 3 .onconnect }

/-- `No::UNIX_DOMAIN::Connect`, where the path fits in `sun_path`: the copy is not bounded. -/
def UnixConnect (peer_addr_info : Ptr) (args : List Value) : Option AsyncRequest := do
  let fd ← (arg args 0).int
  return {
    kind := .connect { fd, addr := peer_addr_info, addrlen := sockaddrUn }
    cb := .makeCallback .onconnect
    context := callbackContext args 2 .onconnect }

/-- `No::Net::Listen`, where `listen` is the system call. -/
def Listen (listen : Int32 → Int32 → Int32) (args : List Value) : Option AsyncRequest := do
  let fd ← (arg args 0).int
  -- the backlog is read from the descriptor's argument
  let backlog ← (arg args 0).int
  if listen fd backlog = -1 then none
  return {
    kind := .accept { fd }
    cb := .makeCallback .onconnect
    flag := IO_URING_REQUEST_AGAIN
    context := callbackContext args 2 .onconnect }

def AT_FDCWD : Int32 := -100
def O_RDONLY : Int32 := 0

/-- `S_IRUSR | S_IWUSR | S_IRGRP | S_IROTH`. -/
def defaultMode : UInt32 := 0o644

/-- `No::FS::OpenAt`; `path` is the local `String::Utf8Value`. -/
def OpenAt (path : Ptr) (args : List Value) : Option AsyncRequest := do
  let dirFd ← (if arg args 0 = .null then some AT_FDCWD else (arg args 0).int)
  let flags ← (if args.length > 2 then (arg args 2).int else some O_RDONLY)
  let mode ← (if args.length > 3 then (arg args 3).integer.map .ofInt else some defaultMode)
  return {
    kind := .openat { dirFd, path, flags, mode }
    cb := .openAfter
    -- the callback itself is stored as the object
    context := ⟨(arg args 4).function?.map .function⟩ }

inductive EntryPoint where
  | read
  | write
  | readv
  | writev
  | close
  | connect
  | unixConnect
  | listen
  | openat
  deriving DecidableEq, Repr

/-- The argument an entry point takes as its callback. -/
def EntryPoint.callbackArg : EntryPoint → Nat
  | read | write | readv | writev => 3
  | close => 1
  | connect => 3
  | unixConnect => 2
  | listen => 2
  | openat => 4

/-- A call of an entry point.  `locals` is where its address or path variable
    stands, `listen` how the kernel answers. -/
structure Call where
  entry : EntryPoint
  args : List Value
  locals : Ptr := 0
  listen : Int32 → Int32 → Int32 := fun _ _ => 0

namespace Call

/-- The callback argument, when it is a function. -/
def callback (c : Call) : Option JsFunction := (arg c.args c.entry.callbackArg).function?

/-- The request the call makes; `none` when it makes none. -/
def start (c : Call) : Option AsyncRequest :=
  match c.entry with
  | .read => read_write_request .read c.args
  | .write => read_write_request .write c.args
  | .readv => read_write_request .readv c.args
  | .writev => read_write_request .writev c.args
  | .close => Close c.args
  | .connect => Connect c.locals c.args
  | .unixConnect => UnixConnect c.locals c.args
  | .listen => Listen c.listen c.args
  | .openat => OpenAt c.locals c.args

end Call

/-! ## Key and completion function -/

/-- The completion function finds the callback, if there is one. -/
def AsyncRequest.Wired (a : AsyncRequest) (callback : Option JsFunction) : Prop :=
  ∃ event, a.cb = .makeCallback event ∧ a.context.lookup event = callback

theorem wired_callbackContext {a : AsyncRequest} {args : List Value} {i : Nat} {key : EventName}
    (hcb : a.cb = .makeCallback key) (hctx : a.context = callbackContext args i key) :
    a.Wired (arg args i).function? := by
  refine ⟨key, hcb, ?_⟩
  rw [hctx, callbackContext, RequestContext.lookup]
  cases (arg args i).function? with
  | none => rfl
  | some f => simp [JsObject.get]

theorem ReadWriteOp.kind_op (op : ReadWriteOp) (fd offset : Int32) (backing : ArrayBuffer) :
    (op.kind fd offset backing).op ∈ switchOps := by
  cases op <;> simp [kind, Kind.op, switchOps]

theorem read_write_request_wired {op : ReadWriteOp} {args : List Value} {a : AsyncRequest}
    (h : read_write_request op args = some a) :
    a.kind.op ∈ switchOps ∧ a.Wired (arg args 3).function? := by
  simp only [read_write_request, Option.bind_eq_bind, Option.bind_eq_some_iff,
    Option.pure_def, Option.some.injEq] at h
  obtain ⟨fd, -, backing, -, rfl⟩ := h
  exact ⟨op.kind_op _ _ _, wired_callbackContext rfl rfl⟩

theorem Close_wired {args : List Value} {a : AsyncRequest} (h : Close args = some a) :
    a.kind.op ∈ switchOps ∧ a.Wired (arg args 1).function? := by
  simp only [Close, Option.bind_eq_bind, Option.bind_eq_some_iff,
    Option.pure_def, Option.some.injEq] at h
  obtain ⟨fd, -, rfl⟩ := h
  exact ⟨by simp [Kind.op, switchOps], wired_callbackContext rfl rfl⟩

theorem Connect_wired {p : Ptr} {args : List Value} {a : AsyncRequest}
    (h : Connect p args = some a) :
    a.kind.op ∈ switchOps ∧ a.Wired (arg args 3).function? := by
  simp only [Connect, Option.bind_eq_bind, Option.bind_eq_some_iff,
    Option.pure_def, Option.some.injEq] at h
  obtain ⟨fd, -, port, -, rfl⟩ := h
  exact ⟨by simp [Kind.op, switchOps], wired_callbackContext rfl rfl⟩

theorem UnixConnect_wired {p : Ptr} {args : List Value} {a : AsyncRequest}
    (h : UnixConnect p args = some a) :
    a.kind.op ∈ switchOps ∧ a.Wired (arg args 2).function? := by
  simp only [UnixConnect, Option.bind_eq_bind, Option.bind_eq_some_iff,
    Option.pure_def, Option.some.injEq] at h
  obtain ⟨fd, -, rfl⟩ := h
  exact ⟨by simp [Kind.op, switchOps], wired_callbackContext rfl rfl⟩

theorem Listen_wired {listen : Int32 → Int32 → Int32} {args : List Value} {a : AsyncRequest}
    (h : Listen listen args = some a) :
    a.kind.op ∈ switchOps ∧ a.Wired (arg args 2).function? := by
  simp only [Listen, Option.bind_eq_bind, Option.bind_eq_some_iff] at h
  obtain ⟨fd, -, backlog, -, hrest⟩ := h
  split at hrest
  · exact absurd hrest (by simp)
  · simp only [Option.pure_def, Option.some.injEq] at hrest
    obtain rfl := hrest
    exact ⟨by simp [Kind.op, switchOps], wired_callbackContext rfl rfl⟩

/-- `OpenAt` installs `openAfter`, whatever its callback is. -/
theorem OpenAt_openAfter {p : Ptr} {args : List Value} {a : AsyncRequest}
    (h : OpenAt p args = some a) :
    a.kind.op ∈ switchOps ∧ a.cb = .openAfter ∧ a.again = false := by
  simp only [OpenAt, Option.bind_eq_bind, Option.bind_eq_some_iff,
    Option.pure_def, Option.some.injEq] at h
  obtain ⟨dirFd, -, flags, -, mode, -, rfl⟩ := h
  exact ⟨by simp [Kind.op, switchOps], rfl,
    by simp [AsyncRequest.again, AsyncRequest.request, Request.again]⟩

/-- Every entry point but `OpenAt` has key and completion function fit. -/
theorem Call.start_wired {c : Call} {a : AsyncRequest} (h : c.start = some a) :
    a.kind.op ∈ switchOps ∧ if c.entry = .openat then a.cb = .openAfter ∧ a.again = false
      else a.Wired c.callback := by
  rw [Call.start] at h
  rw [Call.callback]
  split at h <;> rename_i hentry <;>
    simp only [hentry, reduceCtorEq, if_true, if_false, EntryPoint.callbackArg]
  case h_1 => exact read_write_request_wired h
  case h_2 => exact read_write_request_wired h
  case h_3 => exact read_write_request_wired h
  case h_4 => exact read_write_request_wired h
  case h_5 => exact Close_wired h
  case h_6 => exact Connect_wired h
  case h_7 => exact UnixConnect_wired h
  case h_8 => exact Listen_wired h
  case h_9 => exact OpenAt_openAfter h

end NoJs.Async
