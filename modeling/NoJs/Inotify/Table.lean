/-
  NoJs.Inotify.Table

  `inotifyMap` refines a multimap from watches to listeners.

  The machine takes the calls of `on` and `off` alone, made outside
  `inotifyHandler`, against a kernel that drops no watch on its own.
  `inotify_add_watch` may answer anything: that a watched path has one watch and
  a new watch a new number is not needed, so paths do not appear.  `off` is
  called with any context an `on` has returned, as often as one likes.

  `Registry` is what the table is for: the registrations by their number, and
  the multimap of those not switched off.
-/

import NoJs.Inotify.Accounting
import NoJs.Lib.Multimap

namespace NoJs.Inotify

open Machine IoUring

/-! ## The calls of inotify_rm_watch -/

namespace Watcher

/-- `Inotify::Off`, with the watches it calls `inotify_rm_watch` for. -/
def OffCalls (watchId funcId : Option Int32) (s : Watcher) : Watcher × List Int32 :=
  match watchId with
  | none => (s, [])
  | some id =>
      match s.inotifyMap.find id with
      | none => (s, [])
      | some listeners =>
          match funcId with
          | none => (s.removeWatch id, [id])
          | some f =>
              let listeners := listeners.eraseP (·.id == f)
              let s := { s with inotifyMap := s.inotifyMap.update id listeners }
              if 0 < listeners.length then (s, []) else (s.removeWatch id, [id])

theorem OffCalls_fst (watchId funcId : Option Int32) (s : Watcher) :
    (s.OffCalls watchId funcId).1 = s.Off watchId funcId := by
  cases watchId with
  | none => rfl
  | some id =>
      simp only [OffCalls, Off]
      cases s.inotifyMap.find id with
      | none => rfl
      | some listeners =>
          cases funcId with
          | none => rfl
          | some f =>
              simp only
              split
              · rfl
              · rfl

/-! ## One call of on and off -/

variable {s : Watcher} {id : Int32}

/-- The vector of a watch, empty when it has none. -/
def listeners (s : Watcher) (wd : Int32) : List InotifyRequestContext :=
  (s.inotifyMap.find wd).getD []

/-- No entry of `inotifyMap` is empty. -/
def Keyed (s : Watcher) : Prop := ∀ wd, s.inotifyMap.find wd ≠ some []

theorem Keyed.find_iff (h : s.Keyed) (wd : Int32) :
    (s.inotifyMap.find wd).isSome ↔ s.listeners wd ≠ [] := by
  rw [listeners]
  cases hfind : s.inotifyMap.find wd with
  | none => simp
  | some vec =>
      have hne : vec ≠ [] := fun hnil => h wd (by rw [hfind, hnil])
      simpa using hne

theorem Keyed.find_eq (h : s.Keyed) (wd : Int32) :
    s.inotifyMap.find wd = if s.listeners wd = [] then none else some (s.listeners wd) := by
  have hiff := h.find_iff wd
  rw [listeners] at hiff ⊢
  cases hfind : s.inotifyMap.find wd with
  | none => rfl
  | some vec =>
      rw [hfind] at hiff
      exact (if_neg (hiff.mp rfl)).symm

/-- The context `on` makes next. -/
def nextContext (s : Watcher) (object : Option JsFunction) : InotifyRequestContext :=
  { object, id := (s.lastId + 1).toUInt32.toInt32 }

/-- What a successful `on` does. -/
structure Registers (s : Watcher) (object : Option JsFunction) (id : Int32) (t : Watcher) :
    Prop where
  sound : ∃ n, t.env.Sound n
  keyed : t.Keyed
  listeners : ∀ q, t.listeners q
    = if q = id then s.listeners q ++ [s.nextContext object] else s.listeners q
  watches : t.watches = Function.update s.watches id true
  lastId : t.lastId = s.lastId + 1

theorem listeners_addListener (s : Watcher) (object : Option JsFunction) (q : Int32) :
    (s.addListener object id).listeners q
      = if q = id then s.listeners q ++ [s.nextContext object] else s.listeners q := by
  cases hfind : s.inotifyMap.find id with
  | none =>
      simp only [addListener, listeners, hfind, StdMap.find_insert hfind]
      split
      · next hq => simp [hq, hfind, nextContext]
      · rfl
  | some vec =>
      have hsome : (s.inotifyMap.find id).isSome := by rw [hfind]; rfl
      simp only [addListener, listeners, hfind, StdMap.find_update hsome]
      split
      · next hq => simp [hq, hfind, nextContext]
      · rfl

theorem keyed_addListener (h : s.Keyed) (object : Option JsFunction) :
    (s.addListener object id).Keyed := by
  intro q hq
  cases hfind : s.inotifyMap.find id with
  | none =>
      simp only [addListener, hfind, StdMap.find_insert hfind] at hq
      split at hq
      · simp at hq
      · exact h q hq
  | some vec =>
      have hsome : (s.inotifyMap.find id).isSome := by rw [hfind]; rfl
      simp only [addListener, hfind, StdMap.find_update hsome] at hq
      split at hq
      · simp at hq
      · exact h q hq

theorem On_spec (hsound : ∃ n, s.env.Sound n) (hkeyed : s.Keyed) (object : Option JsFunction)
    (hid : id ≠ -1) : ∃ t, s.On object id = .next t ∧ Registers s object id t := by
  obtain ⟨n, hsound⟩ := hsound
  let s₁ : Watcher :=
    { s with watches := Function.update s.watches id true, count := s.count + 1 }
  -- the read is submitted by the first `on` only
  have hread : ∃ env needSubmit buffers, s₁.SubmitReadRequest
      = .next { s₁ with env, needSubmit, buffers } ∧ env.Sound n := by
    by_cases hneed : s.needSubmit = true
    · obtain ⟨env, henv, hsound', -, -⟩ := Inv.submitReadRequest (s := s₁) hsound hneed
      exact ⟨env, false, s₁.buffers + 1, henv, hsound'⟩
    · exact ⟨s₁.env, s₁.needSubmit, s₁.buffers, if_neg hneed, hsound⟩
  obtain ⟨env, needSubmit, buffers, hread, hsound'⟩ := hread
  refine ⟨_, by rw [On, if_neg hid, hread, Outcome.bind_next], ⟨n, hsound'⟩, ?_, ?_, rfl, rfl⟩
  · exact keyed_addListener (s := { s₁ with env, needSubmit, buffers }) hkeyed object
  · exact listeners_addListener { s₁ with env, needSubmit, buffers } object

/-- Whether `off` of `{ watchId: id, funcId: f }` removes the last listener. -/
def Empties (s : Watcher) (id f : Int32) : Prop :=
  s.listeners id ≠ [] ∧ (s.listeners id).eraseP (·.id == f) = []

instance (s : Watcher) (id f : Int32) : Decidable (s.Empties id f) :=
  inferInstanceAs (Decidable (_ ∧ _))

/-- What an `off` does. -/
structure Removes (s : Watcher) (id f : Int32) (t : Watcher) (calls : List Int32) : Prop where
  sound : (∃ n, s.env.Sound n) → ∃ n, t.env.Sound n
  keyed : t.Keyed
  listeners : ∀ q, t.listeners q
    = if q = id then (s.listeners q).eraseP (·.id == f) else s.listeners q
  watches : t.watches = if s.Empties id f then Function.update s.watches id false else s.watches
  calls : calls = if s.Empties id f then [id] else []
  lastId : t.lastId = s.lastId

/-- What `off` does from `REMOVE_WATCH` on. -/
theorem removeWatch_spec (s : Watcher) (id : Int32) :
    ((∃ n, s.env.Sound n) → ∃ n, (s.removeWatch id).env.Sound n) ∧
      (s.removeWatch id).inotifyMap = s.inotifyMap.erase id ∧
      (s.removeWatch id).watches = Function.update s.watches id false ∧
      (s.removeWatch id).lastId = s.lastId := by
  simp only [removeWatch]
  split
  · split
    · refine ⟨fun hsound => ?_, rfl, rfl, rfl⟩
      obtain ⟨n, hsound⟩ := hsound
      exact ⟨n - 1, hsound.dec⟩
    · exact ⟨fun hsound => hsound, rfl, rfl, rfl⟩
  · next hwatch =>
    refine ⟨fun hsound => hsound, rfl, ?_, rfl⟩
    rw [Function.update_eq_self_iff.mpr]
    simpa using hwatch

theorem OffCalls_spec (hkeyed : s.Keyed) (id f : Int32) :
    Removes s id f (s.OffCalls (some id) (some f)).1 (s.OffCalls (some id) (some f)).2 := by
  cases hfind : s.inotifyMap.find id with
  | none =>
      have hnil : s.listeners id = [] := by rw [listeners, hfind]; rfl
      have hempties : ¬ s.Empties id f := fun h => h.1 hnil
      simp only [OffCalls, hfind]
      refine ⟨fun h => h, hkeyed, fun q => ?_, (if_neg hempties).symm, (if_neg hempties).symm, rfl⟩
      split
      · next hq => rw [hq, hnil, List.eraseP_nil]
      · rfl
  | some vec =>
      have hvec : s.listeners id = vec := by rw [listeners, hfind]; rfl
      have hsome : (s.inotifyMap.find id).isSome := by rw [hfind]; rfl
      have hempties : s.Empties id f ↔ vec.eraseP (·.id == f) = [] := by
        rw [Empties, hvec]
        exact and_iff_right fun hnil => hkeyed id (by rw [hfind, hnil])
      simp only [OffCalls, hfind]
      split
      · next hlen =>
        -- somebody is left
        have hnot : ¬ s.Empties id f := by
          rw [hempties]
          exact List.ne_nil_of_length_pos hlen
        refine ⟨fun h => h, fun q hq => ?_, fun q => ?_, (if_neg hnot).symm, (if_neg hnot).symm, rfl⟩
        · simp only [StdMap.find_update hsome] at hq
          split at hq
          · exact List.ne_nil_of_length_pos hlen (Option.some.inj hq)
          · exact hkeyed q hq
        · simp only [listeners, StdMap.find_update hsome]
          split
          · next hq => rw [hq, hfind]; rfl
          · rfl
      · next hlen =>
        have hall : s.Empties id f :=
          hempties.mpr (List.eq_nil_of_length_eq_zero (Nat.eq_zero_of_not_pos hlen))
        obtain ⟨hsound, hmap, hwatches, hlast⟩ := removeWatch_spec
          { s with inotifyMap := s.inotifyMap.update id (vec.eraseP (·.id == f)) } id
        refine ⟨hsound, fun q hq => ?_, fun q => ?_, ?_, (if_pos hall).symm, hlast⟩
        · rw [hmap, StdMap.find_erase, StdMap.find_update hsome] at hq
          split at hq
          · exact absurd hq (by simp)
          · exact hkeyed q hq
        · rw [listeners, hmap, StdMap.find_erase, StdMap.find_update hsome]
          split
          · next hq => rw [hq, hall.2]; rfl
          · rfl
        · rw [hwatches, if_pos hall]

/-- Ids are different, so nobody with the id is left after an `off`. -/
theorem not_mem_eraseP {ls : List InotifyRequestContext} (hnodup : (ls.map (·.id)).Nodup)
    {f : Int32} : ∀ c ∈ ls.eraseP (·.id == f), c.id ≠ f := by
  induction ls with
  | nil => simp
  | cons x ls ih =>
      obtain ⟨hx, hls⟩ := List.nodup_cons.mp hnodup
      intro c hc
      by_cases hid : x.id = f
      · rw [List.eraseP_cons_of_pos (by simpa using hid)] at hc
        intro hcf
        exact hx (List.mem_map.mpr ⟨c, hc, hcf.trans hid.symm⟩)
      · rw [List.eraseP_cons_of_neg (by simpa using hid)] at hc
        rcases List.mem_cons.mp hc with rfl | hc
        · exact hid
        · exact ih hls c hc

variable {t : Watcher} {object : Option JsFunction} {f : Int32} {calls : List Int32}

theorem Registers.mem (h : Registers s object id t) (wd : Int32) (c : InotifyRequestContext) :
    c ∈ t.listeners wd ↔ c ∈ s.listeners wd ∨ wd = id ∧ c = s.nextContext object := by
  rw [h.listeners]
  split
  · next hwd => simp [hwd]
  · next hwd => simp [hwd]

/-- Ids stay different when the new one is. -/
theorem Registers.nodup (h : Registers s object id t)
    (hnodup : ∀ wd, ((s.listeners wd).map (·.id)).Nodup)
    (hfresh : ∀ c ∈ s.listeners id, c.id ≠ (s.nextContext none).id) (wd : Int32) :
    ((t.listeners wd).map (·.id)).Nodup := by
  rw [h.listeners]
  split
  · next hwd =>
    subst hwd
    rw [List.map_append, List.nodup_append]
    refine ⟨hnodup wd, List.nodup_singleton _, fun x hx y hy => ?_⟩
    obtain ⟨c, hc, rfl⟩ := List.mem_map.mp hx
    obtain rfl := List.mem_singleton.mp hy
    exact hfresh c hc
  · exact hnodup wd

/-- Who is left after an `off` is who was there before, the one with the id apart. -/
theorem Removes.mem (h : Removes s id f t calls)
    (hnodup : ∀ wd, ((s.listeners wd).map (·.id)).Nodup) (wd : Int32)
    (c : InotifyRequestContext) :
    c ∈ t.listeners wd ↔ c ∈ s.listeners wd ∧ ¬ (wd = id ∧ c.id = f) := by
  rw [h.listeners]
  split
  · next hwd =>
    subst hwd
    constructor
    · intro hc
      exact ⟨List.mem_of_mem_eraseP hc, fun hand => not_mem_eraseP (hnodup wd) c hc hand.2⟩
    · rintro ⟨hc, hand⟩
      rw [List.mem_eraseP_of_neg (by simpa using hand)]
      exact hc
  · next hwd => simp [hwd]

theorem Removes.nodup (h : Removes s id f t calls)
    (hnodup : ∀ wd, ((s.listeners wd).map (·.id)).Nodup) (wd : Int32) :
    ((t.listeners wd).map (·.id)).Nodup := by
  rw [h.listeners]
  split
  · exact (hnodup wd).sublist (List.eraseP_sublist.map _)
  · exact hnodup wd

end Watcher

/-! ## The registry -/

/-- A registration: the `serial`-th that succeeded, counted from 0. -/
structure Listener where
  serial : Nat
  object : Option JsFunction
  deriving DecidableEq, Repr

/-- The context `on` makes for it. -/
def Listener.context (l : Listener) : InotifyRequestContext :=
  { object := l.object, id := (UInt64.ofNat (l.serial + 1)).toUInt32.toInt32 }

structure Registry where
  /-- Every registration there ever was, with its watch. -/
  registered : List (Int32 × Listener)
  /-- Those not switched off. -/
  live : Multimap Int32 Listener
  /-- The watches whose last listener was removed, each time it was. -/
  emptied : List Int32

inductive Call where
  /-- `inotify.on`, with the answer of `inotify_add_watch`. -/
  | on (object : Option JsFunction) (id : Int32)
  /-- `inotify.off` of the context that the registration `n` got. -/
  | off (n : Nat)
  deriving DecidableEq

def Call.isOn : Call → Bool
  | on _ _ => true
  | off _ => false

namespace Registry

def empty : Registry := ⟨[], .empty, []⟩

def call (r : Registry) : Call → Registry
  | .on object id =>
      if id = -1 then r
      else
        let l : Listener := ⟨r.registered.length, object⟩
        { r with registered := r.registered ++ [(id, l)], live := r.live.add id l }
  | .off n =>
      match r.registered[n]? with
      | none => r
      | some (id, l) =>
          { r with
            live := r.live.remove id l
            emptied := if r.live.get id = [l] then r.emptied ++ [id] else r.emptied }

/-- The registry after the calls, in order. -/
def after (calls : List Call) : Registry := calls.foldl call empty

theorem after_concat (calls : List Call) (c : Call) :
    after (calls ++ [c]) = (after calls).call c := by
  rw [after, List.foldl_append]
  rfl

end Registry

/-! ## The table -/

/-- What `on` returns, `{ watchId, funcId }`. -/
structure Context where
  watchId : Int32
  funcId : Int32
  deriving DecidableEq, Repr

structure Table where
  watcher : Watcher
  /-- The contexts returned, oldest first. -/
  contexts : List Context
  /-- The calls of `inotify_rm_watch`, oldest first. -/
  rmWatch : List Int32

namespace Table

def init (fd : Int32) : Table := ⟨.init fd, [], []⟩

def step (s : Table) : Call → Outcome Table
  | .on object id => (s.watcher.On object id).bind fun watcher => .next
      { s with
        watcher
        contexts :=
          if id = -1 then s.contexts
          else s.contexts ++ [⟨id, watcher.lastId.toUInt32.toInt32⟩] }
  | .off n =>
      match s.contexts[n]? with
      | none => .disabled
      | some c => .next
          { s with
            watcher := (s.watcher.OffCalls (some c.watchId) (some c.funcId)).1
            rmWatch := s.rmWatch ++ (s.watcher.OffCalls (some c.watchId) (some c.funcId)).2 }

def machine (fd : Int32) : Machine Table Call := ⟨init fd, step⟩

/-! ## The refinement -/

/-- The table is the multimap of the live listeners. -/
structure Refines (s : Table) (r : Registry) : Prop where
  listeners : ∀ wd, s.watcher.listeners wd = (r.live.get wd).map Listener.context
  keys : ∀ wd, (s.watcher.inotifyMap.find wd).isSome ↔ r.live.get wd ≠ []
  /-- No two places of the table hold one id. -/
  distinct : ∀ wd wd' (i j : Nat) c c', (s.watcher.listeners wd)[i]? = some c →
    (s.watcher.listeners wd')[j]? = some c' → c.id = c'.id → wd = wd' ∧ i = j
  watches : ∀ wd, s.watcher.watches wd = true ↔ r.live.get wd ≠ []
  rmWatch : s.rmWatch = r.emptied

/-- The table and the kernel's watches are what they were. -/
structure Unchanged (s t : Table) : Prop where
  inotifyMap : ∀ wd, t.watcher.inotifyMap.find wd = s.watcher.inotifyMap.find wd
  watches : t.watcher.watches = s.watcher.watches
  rmWatch : t.rmWatch = s.rmWatch

/-- `off` with the context of a registration that is not live. -/
def IgnoresStale (s : Table) (r : Registry) : Prop :=
  ∀ (n : Nat) id l, r.registered[n]? = some (id, l) → l ∉ r.live.get id →
    ∃ t, s.step (.off n) = .next t ∧ Unchanged s t

/-- The invariant. -/
structure Simulates (s : Table) (r : Registry) : Prop where
  sound : ∃ n, s.watcher.env.Sound n
  keyed : s.watcher.Keyed
  lastId : s.watcher.lastId = UInt64.ofNat r.registered.length
  contexts : s.contexts = r.registered.map fun e => ⟨e.1, e.2.context.id⟩
  serial : ∀ (n : Nat) e, r.registered[n]? = some e → e.2.serial = n
  live : ∀ e ∈ r.live.entries, e ∈ r.registered
  nodup : r.live.entries.Nodup
  listeners : ∀ wd, s.watcher.listeners wd = (r.live.get wd).map Listener.context
  watches : ∀ wd, s.watcher.watches wd = true ↔ r.live.get wd ≠ []
  rmWatch : s.rmWatch = r.emptied

/-- Ids are distinct while the counter has not passed 2^32. -/
theorem serial_inj {l l' : Listener} (hl : l.serial + 1 < 2 ^ 32) (hl' : l'.serial + 1 < 2 ^ 32)
    (h : l.context.id = l'.context.id) : l.serial = l'.serial := by
  have hnat := congrArg (fun x => Int32.toUInt32 x |>.toNat) h
  simp only [Listener.context, UInt32.toUInt32_toInt32, UInt64.toNat_toUInt32,
    UInt64.toNat_ofNat'] at hnat
  omega

/-- Erasing by id erases the listener with that id. -/
theorem eraseP_context {ls : List Listener} {l : Listener}
    (hinj : ∀ x ∈ ls, x.context.id = l.context.id → x = l) :
    (ls.map Listener.context).eraseP (·.id == l.context.id) = (ls.erase l).map Listener.context := by
  induction ls with
  | nil => rfl
  | cons x ls ih =>
      by_cases hx : x = l
      · subst hx
        rw [List.map_cons, List.erase_cons_head, List.eraseP_cons_of_pos (by simp)]
      · have hid : ¬ x.context.id = l.context.id := fun h => hx (hinj x (by simp) h)
        rw [List.map_cons, List.erase_cons_tail (by simpa using hx),
          List.eraseP_cons_of_neg (by simpa using hid), List.map_cons,
          ih fun y hy => hinj y (by simp [hy])]

namespace Simulates

variable {s : Table} {r : Registry}

theorem serial_lt (h : Simulates s r) {e : Int32 × Listener} (he : e ∈ r.registered) :
    e.2.serial < r.registered.length := by
  obtain ⟨n, hn⟩ := List.mem_iff_getElem?.mp he
  have hlt := (List.getElem?_eq_some_iff.mp hn).1
  rw [h.serial n e hn]
  exact hlt

/-- An id identifies a registration. -/
theorem registered_inj (h : Simulates s r) (hlen : r.registered.length < 2 ^ 31)
    {e e' : Int32 × Listener} (he : e ∈ r.registered) (he' : e' ∈ r.registered)
    (hid : e.2.context.id = e'.2.context.id) : e = e' := by
  have hlt := h.serial_lt he
  have hlt' := h.serial_lt he'
  have hserial := serial_inj (by omega) (by omega) hid
  obtain ⟨n, hn⟩ := List.mem_iff_getElem?.mp he
  obtain ⟨n', hn'⟩ := List.mem_iff_getElem?.mp he'
  rw [h.serial n e hn, h.serial n' e' hn'] at hserial
  subst hserial
  exact Option.some.inj (hn.symm.trans hn')

theorem mem_registered (h : Simulates s r) {wd : Int32} {l : Listener}
    (hl : l ∈ r.live.get wd) : (wd, l) ∈ r.registered :=
  h.live _ (Multimap.mem_get.mp hl)

theorem refines (h : Simulates s r) (hlen : r.registered.length < 2 ^ 31) : Refines s r where
  listeners := h.listeners
  keys := by
    intro wd
    rw [h.keyed.find_iff, h.listeners, ne_eq, List.map_eq_nil_iff]
  distinct := by
    intro wd wd' i j c c' hc hc' hid
    rw [h.listeners, List.getElem?_map, Option.map_eq_some_iff] at hc hc'
    obtain ⟨l, hl, rfl⟩ := hc
    obtain ⟨l', hl', rfl⟩ := hc'
    have heq := h.registered_inj hlen (h.mem_registered (List.mem_of_getElem? hl))
      (h.mem_registered (List.mem_of_getElem? hl')) hid
    obtain ⟨rfl, rfl⟩ := Prod.mk.inj heq
    have hlt := (List.getElem?_eq_some_iff.mp hl).1
    exact ⟨rfl, (List.getElem?_inj hlt (Multimap.nodup_get h.nodup)).mp (hl.trans hl'.symm)⟩
  watches := h.watches
  rmWatch := h.rmWatch

/-- A failed `inotify_add_watch`, or a new listener. -/
theorem on (h : Simulates s r) (object : Option JsFunction) (id : Int32) :
    (s.step (.on object id)).Holds fun t => Simulates t (r.call (.on object id)) := by
  by_cases hid : id = -1
  · simp only [step, Registry.call, Watcher.On, hid, if_true, Outcome.bind_next]
    exact h
  · obtain ⟨w, hw, hreg⟩ := Watcher.On_spec h.sound h.keyed object hid
    let l : Listener := ⟨r.registered.length, object⟩
    have hnext : s.watcher.nextContext object = l.context := by
      simp only [Watcher.nextContext, Listener.context, h.lastId, l]
      rw [UInt64.ofNat_add]
      rfl
    have hlast : w.lastId = UInt64.ofNat (r.registered.length + 1) := by
      rw [hreg.lastId, h.lastId, UInt64.ofNat_add]
      rfl
    simp only [step, Registry.call, hw, hid, if_false, Outcome.bind_next]
    refine ⟨hreg.sound, hreg.keyed, ?_, ?_, ?_, ?_, ?_, ?_, ?_, h.rmWatch⟩
    · rw [List.length_append]
      exact hlast
    · rw [List.map_append, h.contexts, hlast]
      rfl
    · intro n e he
      rcases Nat.lt_or_ge n r.registered.length with hlt | hge
      · rw [List.getElem?_append_left hlt] at he
        exact h.serial n e he
      · -- the new registration is the last
        rw [List.getElem?_append_right hge] at he
        obtain ⟨hn, rfl⟩ := List.getElem?_eq_some_iff.mp he
        simp only [List.length_singleton] at hn
        simp only [List.getElem_singleton]
        omega
    · intro e he
      rcases List.mem_append.mp he with he | he
      · exact List.mem_append_left _ (h.live e he)
      · exact List.mem_append_right _ he
    · apply List.Nodup.append h.nodup (List.nodup_singleton _)
      intro e he hnew
      have hlt := h.serial_lt (h.live e he)
      rw [List.mem_singleton.mp hnew] at hlt
      exact Nat.lt_irrefl _ hlt
    · intro wd
      rw [hreg.listeners, Multimap.get_add, h.listeners, hnext]
      split
      · rw [List.map_append]
        rfl
      · rfl
    · intro wd
      rw [hreg.watches, Multimap.get_add]
      by_cases hwd : wd = id
      · simp [hwd]
      · rw [Function.update_of_ne hwd, if_neg hwd]
        exact h.watches wd

/-- The context of a registration names that listener of its watch and no other. -/
theorem eraseP_listeners (h : Simulates s r) (hlen : r.registered.length < 2 ^ 31) {id : Int32}
    {l : Listener} (hmem : (id, l) ∈ r.registered) :
    (s.watcher.listeners id).eraseP (·.id == l.context.id)
      = ((r.live.get id).erase l).map Listener.context := by
  rw [h.listeners]
  apply eraseP_context
  intro x hx hid
  have heq := h.registered_inj hlen (h.mem_registered hx) hmem hid
  exact (Prod.mk.inj heq).2

/-- The last listener goes exactly when it is the only one. -/
theorem empties_iff (h : Simulates s r) (hlen : r.registered.length < 2 ^ 31) {id : Int32}
    {l : Listener} (hmem : (id, l) ∈ r.registered) :
    s.watcher.Empties id l.context.id ↔ r.live.get id = [l] := by
  rw [Watcher.Empties, h.eraseP_listeners hlen hmem, h.listeners, ne_eq, List.map_eq_nil_iff,
    List.map_eq_nil_iff, List.erase_eq_nil_iff]
  constructor
  · rintro ⟨hne, hnil | hone⟩
    · exact absurd hnil hne
    · exact hone
  · intro hone
    exact ⟨by simp [hone], .inr hone⟩

theorem contexts_get (h : Simulates s r) {n : Nat} {id : Int32} {l : Listener}
    (hn : r.registered[n]? = some (id, l)) : s.contexts[n]? = some ⟨id, l.context.id⟩ := by
  rw [h.contexts, List.getElem?_map, hn]
  rfl

/-- The context of the registration `n` switches off that registration. -/
theorem off (h : Simulates s r) (hlen : r.registered.length < 2 ^ 31) (n : Nat) :
    (s.step (.off n)).Holds fun t => Simulates t (r.call (.off n)) := by
  cases hn : r.registered[n]? with
  | none =>
      have hnone : s.contexts[n]? = none := by rw [h.contexts, List.getElem?_map, hn]; rfl
      simp only [step, hnone]
      trivial
  | some e =>
      obtain ⟨id, l⟩ := e
      have hmem : (id, l) ∈ r.registered := List.mem_of_getElem? hn
      have hsome := h.contexts_get hn
      have hrm := Watcher.OffCalls_spec h.keyed id l.context.id
      have herase := h.eraseP_listeners hlen hmem
      have hempties := h.empties_iff hlen hmem
      simp only [step, hsome, Registry.call, hn]
      refine ⟨hrm.sound h.sound, hrm.keyed, hrm.lastId.trans h.lastId, h.contexts, h.serial, ?_, ?_, ?_,
        ?_, ?_⟩
      · exact fun e he => h.live e (List.mem_of_mem_erase he)
      · exact h.nodup.erase _
      · intro wd
        rw [hrm.listeners, Multimap.get_remove]
        split
        · next hwd => rw [hwd, herase]
        · exact h.listeners wd
      · intro wd
        rw [hrm.watches, Multimap.get_remove]
        by_cases hone : r.live.get id = [l]
        · rw [if_pos (hempties.mpr hone)]
          by_cases hwd : wd = id
          · subst hwd
            simp [hone]
          · rw [Function.update_of_ne hwd, if_neg hwd]
            exact h.watches wd
        · rw [if_neg fun he => hone (hempties.mp he)]
          split
          · next hwd =>
            subst hwd
            rw [h.watches wd, ne_eq, ne_eq, List.erase_eq_nil_iff]
            tauto
          · exact h.watches wd
      · rw [hrm.calls, h.rmWatch]
        by_cases hone : r.live.get id = [l]
        · rw [if_pos (hempties.mpr hone), if_pos hone]
        · rw [if_neg fun he => hone (hempties.mp he), if_neg hone, List.append_nil]

/-- The context of a listener that is gone switches off nothing. -/
theorem stale (h : Simulates s r) (hlen : r.registered.length < 2 ^ 31) {n : Nat} {id : Int32}
    {l : Listener} (hn : r.registered[n]? = some (id, l)) (hdead : l ∉ r.live.get id) :
    ∃ t, s.step (.off n) = .next t ∧ Unchanged s t := by
  have hmem : (id, l) ∈ r.registered := List.mem_of_getElem? hn
  have hrm := Watcher.OffCalls_spec h.keyed id l.context.id
  have hnot : ¬ s.watcher.Empties id l.context.id := by
    rw [h.empties_iff hlen hmem]
    intro hone
    exact hdead (by simp [hone])
  refine ⟨_, by simp only [step, h.contexts_get hn]; rfl, fun wd => ?_, ?_, ?_⟩
  · rw [hrm.keyed.find_eq, h.keyed.find_eq, hrm.listeners]
    split
    · next hwd =>
      rw [hwd, h.eraseP_listeners hlen hmem, List.erase_of_not_mem hdead, ← h.listeners]
    · rfl
  · exact hrm.watches.trans (if_neg hnot)
  · show s.rmWatch ++ _ = s.rmWatch
    rw [hrm.calls, if_neg hnot, List.append_nil]

end Simulates

/-- The number of registrations is at most that of the calls of `on`. -/
theorem registered_le (calls : List Call) :
    (Registry.after calls).registered.length ≤ calls.countP Call.isOn := by
  induction calls using List.reverseRecOn with
  | nil => exact Nat.le_refl 0
  | append_singleton calls c ih =>
      rw [Registry.after_concat, List.countP_append, List.countP_singleton]
      cases c with
      | on object id =>
          simp only [Registry.call, Call.isOn, if_true]
          split
          · omega
          · rw [List.length_append, List.length_singleton]
            omega
      | off n =>
          simp only [Registry.call]
          split
          · omega
          · show (Registry.after calls).registered.length ≤ _
            omega

theorem simulates_run (fd : Int32) (calls : List Call) (hcalls : calls.countP Call.isOn < 2 ^ 31) :
    ((machine fd).run calls).Holds fun s => Simulates s (Registry.after calls) := by
  refine Machine.holds_history (P := fun calls => calls.countP Call.isOn < 2 ^ 31)
    (R := fun calls s => Simulates s (Registry.after calls)) ?_ ?_ ?_ calls hcalls
  · intro calls c hlt
    rw [List.countP_append] at hlt
    omega
  · exact ⟨⟨0, Environment.sound_init⟩, fun _ => by simp [machine, init, Watcher.init], rfl, rfl,
      by simp [Registry.after, Registry.empty], fun _ he => he, List.nodup_nil,
      fun _ => rfl, by simp [machine, init, Watcher.init, Registry.after, Registry.empty], rfl⟩
  · intro calls s c hlt _ h
    rw [Registry.after_concat]
    cases c with
    | on object id => exact h.on object id
    | off n =>
        apply h.off
        have hle := registered_le calls
        rw [List.countP_append] at hlt
        omega

/-- Every sequence of calls leaves the multimap of the live listeners, and the
    context of a listener that is gone does nothing. -/
theorem table_refines_multimap (fd : Int32) (calls : List Call)
    (hcalls : calls.countP Call.isOn < 2 ^ 31) :
    ((machine fd).run calls).Holds fun s =>
      Refines s (Registry.after calls) ∧ IgnoresStale s (Registry.after calls) := by
  have hlen := Nat.lt_of_le_of_lt (registered_le calls) hcalls
  refine (simulates_run fd calls hcalls).imp fun s h => ⟨h.refines hlen, ?_⟩
  intro n id l hn hdead
  exact h.stale hlen hn hdead

/-- Two listeners of one watch and one of another; the first is switched off
    twice. -/
def staleCalls : List Call := [.on (some 0) 1, .on (some 1) 1, .on none 2, .off 0, .off 0]

theorem table_refines_multimap_stale :
    ∃ s, (machine 3).run staleCalls = .next s ∧
      Refines s (Registry.after staleCalls) ∧ IgnoresStale s (Registry.after staleCalls) :=
  ⟨_, rfl, (table_refines_multimap 3 staleCalls (by decide)).of_next rfl⟩

end Table

end NoJs.Inotify
