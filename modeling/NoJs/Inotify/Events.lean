/-
  NoJs.Inotify.Events

  `inotifyHandler` over the bytes of one read, with callbacks that leave the
  table alone.

  The loop walks records of a variable length.  Its bound is
  `char size = inotify_req->res`: the count of bytes, of which only the low
  eight bits survive, as a signed number.  A pointer into the buffer is its
  offset, and reading past the 4096 bytes is a fault.
-/

import NoJs.Inotify.Table
import NoJs.Lib.Bytes

namespace NoJs.Inotify

open Machine Bytes

/-! ## struct inotify_event -/

/-- The fields of the header that `inotifyHandler` reads. -/
structure InotifyEvent where
  wd : Int32
  mask : UInt32
  len : UInt32
  deriving DecidableEq, Repr

/-- `sizeof(*e)`. -/
def sizeofEvent : Nat := 16

/-- `e = (struct inotify_event*)p`, with the accesses to its fields. -/
def readEvent (buf : List UInt8) (p : Nat) : Option InotifyEvent := do
  let mask ← readLE buf (p + 4) 4
  let wd ← readLE buf p 4
  let len ← readLE buf (p + 12) 4
  return { wd := (UInt32.ofNat wd).toInt32, mask := .ofNat mask, len := .ofNat len }

/-! ## inotifyHandler -/

/-- What a run of the handler does. -/
structure Dispatch where
  /-- The records it looks at, with their offsets. -/
  visited : List (Nat × InotifyEvent)
  /-- The contexts it calls `makeCallback<onchange>` with. -/
  invoked : List InotifyRequestContext
  deriving DecidableEq

/-- The loop over the listeners, from the iterator `it` on. -/
def notifyFrom (vec : List InotifyRequestContext) (it : Nat) : List InotifyRequestContext :=
  if h : it < vec.length then vec.get ⟨it, h⟩ :: notifyFrom vec (it + 1) else []
termination_by vec.length - it

/-- `continue` without an entry, and the loop from `begin()` with one. -/
def notify (inotifyMap : StdMap Int32 (List InotifyRequestContext)) (wd : Int32) :
    List InotifyRequestContext :=
  match inotifyMap.find wd with
  | none => []
  | some vec => notifyFrom vec 0

/-- The loop over the records, from the pointer `p` on. -/
def inotifyLoop (inotifyMap : StdMap Int32 (List InotifyRequestContext)) (buf : List UInt8)
    (size : Int) (p : Nat) : Outcome Dispatch :=
  if (p : Int) < size then
    match readEvent buf p with
    | none => .fault
    | some e =>
        (inotifyLoop inotifyMap buf size (p + (sizeofEvent + e.len.toNat))).bind fun d => .next
          { visited := (p, e) :: d.visited, invoked := notify inotifyMap e.wd ++ d.invoked }
  else .next ⟨[], []⟩
termination_by (size - p).toNat
decreasing_by
  simp only [sizeofEvent]
  omega

/-- `inotifyHandler` up to `free(inotify_req)`. -/
def inotifyHandler (inotifyMap : StdMap Int32 (List InotifyRequestContext)) (res : Int32)
    (buf : List UInt8) : Outcome Dispatch :=
  let size : Int8 := res.toInt8
  inotifyLoop inotifyMap buf size.toInt 0

/-! ## What the kernel writes -/

structure Record where
  wd : Int32
  mask : UInt32
  cookie : UInt32
  name : List UInt8

namespace Record

/-- The header that is read of it. -/
def event (r : Record) : InotifyEvent :=
  { wd := r.wd, mask := r.mask, len := .ofNat r.name.length }

def bytes (r : Record) : List UInt8 :=
  le 4 r.wd.toUInt32.toNat ++ le 4 r.mask.toNat ++ le 4 r.cookie.toNat ++ le 4 r.name.length ++ r.name

def size (r : Record) : Nat := sizeofEvent + r.name.length

end Record

def bytes (rs : List Record) : List UInt8 := rs.flatMap Record.bytes

def size (rs : List Record) : Nat := (rs.map Record.size).sum

/-- The records with their offsets, the first at `p`. -/
def placed (p : Nat) : List Record → List (Nat × InotifyEvent)
  | [] => []
  | r :: rs => (p, r.event) :: placed (p + r.size) rs

/-- A completed read: its result, and the buffer.  An error and an empty read
    leave whatever bytes were in the buffer. -/
structure Received (res : Int32) (rs : List Record) (buf : List UInt8) : Prop where
  length : buf.length = 4096
  content : bytes rs <+: buf
  result : rs ≠ [] → res.toInt = size rs
  nothing : rs = [] → res.toInt ≤ 0

/-- What should be done for the records. -/
def Dispatched (inotifyMap : StdMap Int32 (List InotifyRequestContext)) (rs : List Record) :
    Dispatch where
  visited := placed 0 rs
  invoked := rs.flatMap fun r => (inotifyMap.find r.wd).getD []

/-- The bound of the loop is past the start of the last record. -/
def Bounded (res : Int32) (rs : List Record) : Prop :=
  if rs = [] then res.toInt8.toInt ≤ 0 else (size rs.dropLast : Int) < res.toInt8.toInt

/-! ## The loops -/

theorem notifyFrom_eq_drop (vec : List InotifyRequestContext) (it : Nat) :
    notifyFrom vec it = vec.drop it := by
  induction it using notifyFrom.induct vec with
  | case1 it hlt ih =>
      rw [notifyFrom, dif_pos hlt, ih, List.drop_eq_getElem_cons hlt]
      rfl
  | case2 it hge =>
      rw [notifyFrom, dif_neg hge, List.drop_eq_nil_of_le (by omega)]

/-- Every listener of the watch, once, in the order of registration. -/
theorem notify_eq (inotifyMap : StdMap Int32 (List InotifyRequestContext)) (wd : Int32) :
    notify inotifyMap wd = (inotifyMap.find wd).getD [] := by
  rw [notify]
  cases inotifyMap.find wd with
  | none => rfl
  | some vec => exact notifyFrom_eq_drop vec 0

/-- Looking at a record where it was written. -/
theorem readEvent_append {pre post : List UInt8} {r : Record} (hname : r.name.length < 2 ^ 32) :
    readEvent (pre ++ (r.bytes ++ post)) pre.length = some r.event := by
  have hword : ∀ n : UInt32, n.toNat < 256 ^ 4 := fun n => n.toNat_lt
  -- each field, with what is before it and what is after it
  have hwd : readLE (pre ++ (r.bytes ++ post)) pre.length 4 = some r.wd.toUInt32.toNat := by
    rw [Record.bytes, List.append_assoc, List.append_assoc, List.append_assoc, List.append_assoc]
    exact readLE_append _ _ (hword _)
  have hmask : readLE (pre ++ (r.bytes ++ post)) (pre.length + 4) 4 = some r.mask.toNat := by
    have h := readLE_append (pre ++ le 4 r.wd.toUInt32.toNat)
      (le 4 r.cookie.toNat ++ le 4 r.name.length ++ r.name ++ post) (hword r.mask)
    rw [List.length_append, length_le] at h
    rw [← h, Record.bytes]
    simp only [List.append_assoc]
  have hlen : readLE (pre ++ (r.bytes ++ post)) (pre.length + 12) 4 = some r.name.length := by
    have hsmall : r.name.length < 256 ^ 4 := by omega
    have h := readLE_append (pre ++ le 4 r.wd.toUInt32.toNat ++ le 4 r.mask.toNat
      ++ le 4 r.cookie.toNat) (r.name ++ post) hsmall
    simp only [List.length_append, length_le] at h
    rw [← h, Record.bytes]
    simp only [List.append_assoc]
  simp only [readEvent, hmask, hwd, hlen, Option.bind_eq_bind, Option.bind_some,
    UInt32.ofNat_toNat, Int32.toInt32_toUInt32]
  rfl

theorem size_cons (r : Record) (rs : List Record) : size (r :: rs) = r.size + size rs := by
  rw [size, List.map_cons, List.sum_cons, ← size]

theorem length_bytes (rs : List Record) : (bytes rs).length = size rs := by
  induction rs with
  | nil => rfl
  | cons r rs ih =>
      have hr : r.bytes.length = r.size := by
        simp only [Record.bytes, List.length_append, length_le, Record.size, sizeofEvent]
      rw [bytes, List.flatMap_cons, List.length_append, ← bytes, ih, hr, size_cons]

/-- With a bound past the start of the last record and not past its end, all
    records are visited and nothing else. -/
theorem inotifyLoop_all {inotifyMap : StdMap Int32 (List InotifyRequestContext)}
    {bound : Int} {rs : List Record} (pre : List UInt8) {post : List UInt8}
    (hsmall : size rs < 2 ^ 32) (hend : bound ≤ pre.length + size rs)
    (hstart : rs ≠ [] → (pre.length + size rs.dropLast : Int) < bound) :
    inotifyLoop inotifyMap (pre ++ (bytes rs ++ post)) bound pre.length = .next
      { visited := placed pre.length rs
        invoked := rs.flatMap fun r => (inotifyMap.find r.wd).getD [] } := by
  induction rs generalizing pre with
  | nil =>
      have hstop : ¬ ((pre.length : Int) < bound) := by
        simp only [size, List.map_nil, List.sum_nil] at hend
        omega
      rw [inotifyLoop, if_neg hstop]
      rfl
  | cons r rs ih =>
      have hlt : (pre.length : Int) < bound := by
        have h := hstart (by simp)
        omega
      rw [size_cons] at hsmall hend
      have hname : r.name.length < 2 ^ 32 := by
        have h : r.size = 16 + r.name.length := rfl
        omega
      have hbytes : pre ++ (bytes (r :: rs) ++ post) = pre ++ (r.bytes ++ (bytes rs ++ post)) := by
        rw [bytes, List.flatMap_cons, ← bytes, List.append_assoc]
      have hnext : pre.length + (sizeofEvent + r.event.len.toNat) = (pre ++ r.bytes).length := by
        have h := length_bytes [r]
        rw [bytes, List.flatMap_singleton, size_cons] at h
        rw [List.length_append, h, Record.event, UInt32.toNat_ofNat_of_lt' hname]
        rfl
      have hlen : (pre ++ r.bytes).length = pre.length + r.size := by
        rw [← hnext, Record.event, UInt32.toNat_ofNat_of_lt' hname]
        rfl
      -- the records after this one, in the same buffer
      have hrest := ih (pre ++ r.bytes) (by omega) (by omega) (by
        intro hne
        have h := hstart (by simp)
        rw [List.dropLast_cons_of_ne_nil hne, size_cons] at h
        omega)
      rw [hbytes, inotifyLoop, if_pos hlt, readEvent_append hname]
      simp only [hnext]
      rw [← List.append_assoc pre, hrest, Outcome.bind_next, placed, hlen, List.flatMap_cons,
        notify_eq]
      rfl

/-- A record is looked at only when it starts before the bound. -/
theorem inotifyLoop_visited {inotifyMap : StdMap Int32 (List InotifyRequestContext)}
    {buf : List UInt8} {bound : Int} {p : Nat} {d : Dispatch}
    (h : inotifyLoop inotifyMap buf bound p = .next d) : ∀ v ∈ d.visited, (v.1 : Int) < bound := by
  induction p using inotifyLoop.induct buf bound generalizing d with
  | case1 p hlt hread =>
      rw [inotifyLoop, if_pos hlt, hread] at h
      exact absurd h (by simp)
  | case2 p hlt e hread ih =>
      rw [inotifyLoop, if_pos hlt, hread] at h
      obtain ⟨rest, hrest, hd⟩ := Outcome.bind_eq_next.mp h
      obtain rfl := Outcome.next.inj hd
      intro v hv
      rcases List.mem_cons.mp hv with rfl | hv
      · exact hlt
      · exact ih hrest v hv
  | case3 p hge =>
      rw [inotifyLoop, if_neg hge] at h
      obtain rfl := Outcome.next.inj h
      simp

/-- Below a positive bound there is something to look at. -/
theorem inotifyLoop_visits {inotifyMap : StdMap Int32 (List InotifyRequestContext)}
    {buf : List UInt8} {bound : Int} {p : Nat} (hlt : (p : Int) < bound) {d : Dispatch}
    (h : inotifyLoop inotifyMap buf bound p = .next d) : d.visited ≠ [] := by
  rw [inotifyLoop, if_pos hlt] at h
  split at h
  · exact absurd h (by simp)
  · obtain ⟨rest, -, hd⟩ := Outcome.bind_eq_next.mp h
    obtain rfl := Outcome.next.inj hd
    simp

/-- The last record is among those that should be visited. -/
theorem mem_placed_last {rs : List Record} (hne : rs ≠ []) (p : Nat) :
    ∃ e, (p + size rs.dropLast, e) ∈ placed p rs := by
  induction rs generalizing p with
  | nil => exact absurd rfl hne
  | cons r rs ih =>
      by_cases hrs : rs = []
      · subst hrs
        exact ⟨r.event, List.mem_cons_self ..⟩
      · obtain ⟨e, he⟩ := ih hrs (p + r.size)
        refine ⟨e, List.mem_cons_of_mem _ ?_⟩
        rw [List.dropLast_cons_of_ne_nil hrs, size_cons, ← Nat.add_assoc]
        exact he

/-- As a signed byte a positive count does not grow. -/
theorem toInt8_le {res : Int32} (h : 0 < res.toInt) : res.toInt8.toInt ≤ res.toInt := by
  rw [Int32.toInt_toInt8]
  have hmod := Int.emod_add_mul_ediv res.toInt 256
  rw [Int.bmod_def]
  split
  · omega
  · omega

/-! ## The law -/

/-- All records of a read are dispatched exactly when the truncated count still
    reaches the last of them. -/
theorem events_dispatched (inotifyMap : StdMap Int32 (List InotifyRequestContext)) (res : Int32)
    (rs : List Record) (buf : List UInt8) (hreceived : Received res rs buf) :
    inotifyHandler inotifyMap res buf = .next (Dispatched inotifyMap rs) ↔ Bounded res rs := by
  rw [inotifyHandler, Bounded]
  constructor
  · intro h
    split
    · next hnil =>
      -- nothing was to be looked at
      by_contra hpos
      subst hnil
      exact inotifyLoop_visits (p := 0) (by omega) h rfl
    · next hne =>
      obtain ⟨e, he⟩ := mem_placed_last hne 0
      have hlt := inotifyLoop_visited h _ he
      simpa using hlt
  · intro h
    obtain ⟨post, hbuf⟩ := hreceived.content
    have hlen := hreceived.length
    rw [← hbuf, List.length_append, length_bytes] at hlen
    have hall : inotifyLoop inotifyMap ([] ++ (bytes rs ++ post)) res.toInt8.toInt
        ([] : List UInt8).length
        = .next ⟨placed 0 rs, rs.flatMap fun r => (inotifyMap.find r.wd).getD []⟩ := by
      apply inotifyLoop_all
      · omega
      · split at h
        · next hnil =>
          subst hnil
          exact h
        · next hne =>
          have hres := hreceived.result hne
          have hle := toInt8_le (show 0 < res.toInt by
            have hstart : 0 ≤ size rs.dropLast := Nat.zero_le _
            cases rs with
            | nil => exact absurd rfl hne
            | cons r rs =>
                rw [hres, size_cons]
                have hr : r.size = 16 + r.name.length := rfl
                omega)
          simp only [List.length_nil]
          omega
      · intro hne
        rw [if_neg hne] at h
        simpa using h
    rw [← hbuf]
    exact hall

/-- An event without a name, on the watch 1. -/
def modified : Record := { wd := 1, mask := 2, cookie := 0, name := [] }

/-- The buffer after a read of `n` such events. -/
def burst (n : Nat) : List UInt8 :=
  bytes (List.replicate n modified) ++ List.replicate (4096 - 16 * n) 0

theorem received_burst {n : Nat} (hpos : 0 < n) (hfits : 16 * n ≤ 4096) :
    Received (Int32.ofNat (16 * n)) (List.replicate n modified) (burst n) := by
  have hsize : size (List.replicate n modified) = 16 * n := by
    rw [size, List.map_replicate, List.sum_replicate_nat]
    show n * 16 = 16 * n
    omega
  have hres : (Int32.ofNat (16 * n)).toInt = 16 * n := by
    rw [Int32.toInt_ofNat_of_lt (by omega)]
    rfl
  refine ⟨?_, List.prefix_append _ _, fun _ => ?_, fun hnil => ?_⟩
  · rw [burst, List.length_append, length_bytes, hsize, List.length_replicate]
    omega
  · rw [hres, hsize]
    rfl
  · rw [List.replicate_eq_nil_iff] at hnil
    omega

/-- A table with two listeners of the watch 1. -/
def twoListeners : StdMap Int32 (List InotifyRequestContext) :=
  StdMap.insert ∅ 1 [⟨some 0, 1⟩, ⟨some 1, 2⟩]

/-- Seven events are dispatched. -/
theorem events_dispatched_seven :
    inotifyHandler twoListeners 112 (burst 7)
      = .next (Dispatched twoListeners (List.replicate 7 modified)) := by
  apply (events_dispatched twoListeners 112 _ _
    (received_burst (n := 7) (by omega) (by omega))).mpr
  rw [Bounded, if_neg (by decide)]
  decide

/-- Of nine events none is: their 144 bytes are -112 in a `char`. -/
theorem events_not_dispatched :
    ¬ ∀ inotifyMap res rs buf, Received res rs buf →
      inotifyHandler inotifyMap res buf = .next (Dispatched inotifyMap rs) := by
  intro h
  have hall := h ∅ 144 _ _ (received_burst (n := 9) (by omega) (by omega))
  have hne : List.replicate 9 modified ≠ [] := by simp
  obtain ⟨e, he⟩ := mem_placed_last hne 0
  have hlt : ((0 + size (List.replicate 9 modified).dropLast : Nat) : Int)
      < (144 : Int32).toInt8.toInt := inotifyLoop_visited hall _ he
  exact absurd hlt (by decide)

end NoJs.Inotify
