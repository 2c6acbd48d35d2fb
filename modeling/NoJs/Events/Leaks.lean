/-
  NoJs.Events.Leaks

  The warning of too many listeners.

  The check looks at an array after a listener was added, and marks the array when
  it warns.  Once the limit is set to a positive number and left alone, a warning
  is given for an array when its length passes the limit, not later and not
  again, and a name that has more listeners than the limit was warned of
  (`warns_above_limit`).  An array that shrinks to one listener is given up, so a
  name may be warned of again after that.
-/

import Mathlib.Data.List.Basic
import Mathlib.Data.Nat.Cast.Order.Ring
import NoJs.Events.Lists

namespace NoJs.Events

open Callbacks Machine

theorem Number.lt_ofNat (i j : Nat) : Number.lt (.ofNat i) (.ofNat j) = decide (i < j) := by
  simp only [Number.lt, Number.ofNat, Nat.cast_lt]

theorem moveDown_length {α : Type} (steps : Nat) (list : List α) (index : Nat) :
    (moveDown steps list index).length = list.length := by
  induction steps generalizing list index with
  | zero => rfl
  | succ steps ih =>
      rw [moveDown]
      split
      · rw [ih, List.length_set]
      · rfl

theorem countP_range_of_flip {f g : Nat → Bool} {p n : Nat} (hp : p < n) (hf : f p = false)
    (hg : g p = true) (hother : ∀ q, q ≠ p → g q = f q) :
    (List.range n).countP g = (List.range n).countP f + 1 := by
  induction n with
  | zero => exact absurd hp (Nat.not_lt_zero p)
  | succ n ih =>
      rw [List.range_succ, List.countP_append, List.countP_append, List.countP_singleton,
        List.countP_singleton]
      by_cases hpn : p = n
      · subst hpn
        have hsame : (List.range p).countP g = (List.range p).countP f := by
          apply List.countP_congr
          intro q hq
          rw [hother q (by have := List.mem_range.mp hq; omega)]
        rw [hsame, hf, hg]
        rfl
      · rw [ih (by omega), hother n (Ne.symm hpn)]
        omega

namespace Emitter

variable {m : Nat} {s t u : Emitter} {type : PropertyKey} {f : Listener} {array : Nat}

/-- Whether an array was warned of. -/
def warnedAt (s : Emitter) (array : Nat) : Bool :=
  ((s.arrays.get? array).map ListenerArray.warned).getD false

/-- The number of arrays that were warned of. -/
def warnedArrays (s : Emitter) : Nat := (List.range s.arrays.top).countP s.warnedAt

/-- The limit is `m`, and the warnings are those of the arrays that passed it. -/
structure Watched (m : Nat) (s : Emitter) : Prop where
  wellFormed : s.WellFormed
  limit : s.maxListeners = some (.ofNat m)
  counts : ∀ w ∈ s.warnings, w.count = m + 1
  quiet : ∀ {type array a}, s.events.get type = some (.many array) →
    s.arrays.get? array = some a → a.warned = false → a.items.length ≤ m
  warned : ∀ {type array a}, s.events.get type = some (.many array) →
    s.arrays.get? array = some a → a.warned = true → ∃ w ∈ s.warnings, w.type = type
  once : s.warnedArrays = s.warnings.length

/-- No array was added, none has grown, and nobody was warned. -/
structure Milder (s t : Emitter) : Prop where
  limit : t.maxListeners = s.maxListeners
  warnings : t.warnings = s.warnings
  top : t.arrays.top = s.arrays.top
  arrays : ∀ {p a}, t.arrays.get? p = some a →
    ∃ b, s.arrays.get? p = some b ∧ a.warned = b.warned ∧ a.items.length ≤ b.items.length
  warnedAt : t.warnedAt = s.warnedAt
  events : ∀ {type array}, t.events.get type = some (.many array) →
    s.events.get type = some (.many array)

theorem Milder.trans (h : Milder s t) (hu : Milder t u) : Milder s u where
  limit := hu.limit.trans h.limit
  warnings := hu.warnings.trans h.warnings
  top := hu.top.trans h.top
  arrays ha := by
    obtain ⟨b, hb, hwarned, hlength⟩ := hu.arrays ha
    obtain ⟨c, hc, hwarned', hlength'⟩ := h.arrays hb
    exact ⟨c, hc, hwarned.trans hwarned', hlength.trans hlength'⟩
  warnedAt := hu.warnedAt.trans h.warnedAt
  events hget := h.events (hu.events hget)

/-- The arrays are the same, and no name has another. -/
theorem milder_of_events (hlimit : t.maxListeners = s.maxListeners)
    (hwarnings : t.warnings = s.warnings) (harrays : t.arrays = s.arrays)
    (hevents : ∀ {type array}, t.events.get type = some (.many array) →
      s.events.get type = some (.many array)) : Milder s t where
  limit := hlimit
  warnings := hwarnings
  top := by rw [harrays]
  arrays ha := ⟨_, harrays ▸ ha, rfl, Nat.le_refl _⟩
  warnedAt := by
    funext p
    rw [Emitter.warnedAt, Emitter.warnedAt, harrays]
  events := hevents

theorem Watched.milder (h : Watched m s) (hwf : t.WellFormed) (ht : Milder s t) : Watched m t where
  wellFormed := hwf
  limit := ht.limit.trans h.limit
  counts := ht.warnings ▸ h.counts
  quiet hget ha hwarned := by
    obtain ⟨b, hb, heq, hlength⟩ := ht.arrays ha
    exact hlength.trans (h.quiet (ht.events hget) hb (heq ▸ hwarned))
  warned hget ha hwarned := by
    obtain ⟨b, hb, heq, -⟩ := ht.arrays ha
    rw [ht.warnings]
    exact h.warned (ht.events hget) hb (heq ▸ hwarned)
  once := by
    rw [warnedArrays, ht.top, ht.warnedAt, ht.warnings]
    exact h.once

/-! ## What does not add listeners -/

theorem milder_modifyArray (s : Emitter) (array : Nat) {cut : List Listener → List Listener}
    (hcut : ∀ list, (cut list).length ≤ list.length) : Milder s (s.modifyArray array cut) where
  limit := rfl
  warnings := rfl
  top := rfl
  arrays {p a} ha := by
    have ha : (s.arrays.modify array fun b => { b with items := cut b.items }).get? p = some a := ha
    rw [Heap.get?_modify] at ha
    split at ha
    · obtain ⟨b, hb, rfl⟩ := Option.map_eq_some_iff.mp ha
      exact ⟨b, hb, rfl, hcut b.items⟩
    · exact ⟨a, ha, rfl, Nat.le_refl _⟩
  warnedAt := by
    funext p
    rw [Emitter.warnedAt, Emitter.warnedAt,
      show (s.modifyArray array cut).arrays.get? p = _ from Heap.get?_modify ..]
    split
    · rw [Option.map_map]
      rfl
    · rfl
  events hget := hget

theorem milder_collapse (s : Emitter) (type : PropertyKey) (array : Nat) :
    Milder s (s.collapse type array) := by
  rw [collapse]
  split
  · refine milder_of_events rfl rfl rfl fun {q p} hget => ?_
    rw [NullObject.get_set] at hget
    split at hget
    · exact absurd hget (by simp)
    · exact hget
  · exact milder_of_events rfl rfl rfl fun hget => hget

theorem milder_emit (s : Emitter) (type : PropertyKey) (args : List Value) :
    Milder s (s.emit type args).data := by
  rw [emit]
  split
  · split <;> exact milder_of_events rfl rfl rfl fun hget => hget
  · exact milder_of_events rfl rfl rfl fun hget => hget
  · exact milder_of_events rfl rfl rfl fun hget => hget

theorem milder_announce (s : Emitter) (type : PropertyKey) (f : Listener) :
    Milder s (s.announce type f).data := by
  rw [announce]
  split
  · exact milder_emit s _ _
  · exact milder_of_events rfl rfl rfl fun hget => hget

theorem milder_delete (s : Emitter) (n : Int) (type : PropertyKey) :
    Milder s { s with eventsCount := n, events := s.events.delete type } := by
  refine milder_of_events rfl rfl rfl fun {q p} hget => ?_
  rw [NullObject.get_delete] at hget
  split at hget
  · exact absurd hget (by simp)
  · exact hget

theorem milder_empty (s : Emitter) (n : Int) :
    Milder s { s with eventsCount := n, events := .empty } :=
  milder_of_events rfl rfl rfl fun hget => absurd hget (by simp)

theorem milder_removeFunction (s : Emitter) (type : PropertyKey) (listener : Listener) :
    Milder s (s.removeFunction type listener).data := by
  have hsame : Milder s s := milder_of_events rfl rfl rfl fun hget => hget
  rw [removeFunction]
  split
  · exact hsame
  · split
    · split
      · exact milder_empty s _
      · exact (milder_delete s _ type).trans (milder_announce _ _ _)
    · exact hsame
  · next array hget =>
    dsimp only
    split
    · exact hsame
    · next position original hfind =>
      have hcut : ∀ list : List Listener,
          (if position = 0 then list.tail else spliceOne list position).length ≤ list.length := by
        intro list
        split
        · rw [List.length_tail]
          omega
        · rw [spliceOne, List.length_dropLast, moveDown_length]
          omega
      exact ((milder_modifyArray s array hcut).trans (milder_collapse _ _ _)).trans
        (milder_announce _ _ _)

theorem milder_removeAllOf (s : Emitter) (type : PropertyKey) :
    Milder s (s.removeAllOf type).data := by
  have hsame : Milder s s := milder_of_events rfl rfl rfl fun hget => hget
  rw [removeAllOf]
  split
  · split
    · exact hsame
    · split
      · exact milder_empty s _
      · exact milder_delete s _ type
  · split
    · exact hsame
    · exact milder_removeFunction s _ _
    · exact hsame

/-! ## Adding a listener -/

/-- The check leaves an array that is not too long, or is marked already. -/
theorem checkLeak_eq_self {a : ListenerArray} (hlimit : s.maxListeners = some (.ofNat m))
    (ha : s.arrays.get? array = some a) (hok : a.items.length ≤ m ∨ a.warned = true) :
    s.checkLeak type array = s := by
  rw [checkLeak, ha, getMaxListeners, hlimit]
  dsimp only
  rw [Number.lt_ofNat, Number.lt_ofNat, if_neg]
  rintro ⟨-, hlength, hwarned⟩
  obtain hok | hok := hok
  · have := of_decide_eq_true hlength
    omega
  · rw [hok] at hwarned
    exact absurd hwarned (by simp)

/-- The check marks the array and warns. -/
theorem checkLeak_warns {a : ListenerArray} (hlimit : s.maxListeners = some (.ofNat m))
    (ha : s.arrays.get? array = some a) (hm : 0 < m) (hlength : m < a.items.length)
    (hwarned : a.warned = false) :
    s.checkLeak type array = { s with
      arrays := s.arrays.modify array fun a => { a with warned := true }
      warnings := s.warnings ++ [⟨type, a.items.length⟩] } := by
  rw [checkLeak, ha, getMaxListeners, hlimit]
  dsimp only
  rw [Number.lt_ofNat, Number.lt_ofNat,
    if_pos ⟨decide_eq_true hm, decide_eq_true hlength, hwarned⟩]

/-- What holds between the growth of an array and the check. -/
structure Unchecked (m : Nat) (s : Emitter) (type : PropertyKey) (array : Nat)
    (a : ListenerArray) : Prop where
  limit : s.maxListeners = some (.ofNat m)
  here : s.events.get type = some (.many array)
  items : s.arrays.get? array = some a
  length : a.warned = false → a.items.length ≤ m + 1
  warned : a.warned = true → ∃ w ∈ s.warnings, w.type = type
  counts : ∀ w ∈ s.warnings, w.count = m + 1
  others : ∀ {q p b}, q ≠ type → s.events.get q = some (.many p) → s.arrays.get? p = some b →
    p ≠ array ∧ (b.warned = false → b.items.length ≤ m) ∧
      (b.warned = true → ∃ w ∈ s.warnings, w.type = q)
  once : s.warnedArrays = s.warnings.length

theorem Unchecked.checked {a : ListenerArray} (h : Unchecked m s type array a) (hm : 0 < m)
    (hwf : (s.checkLeak type array).WellFormed) : Watched m (s.checkLeak type array) := by
  by_cases hok : a.items.length ≤ m ∨ a.warned = true
  · have heq : s.checkLeak type array = s := checkLeak_eq_self h.limit h.items hok
    rw [heq] at hwf ⊢
    refine ⟨hwf, h.limit, h.counts, fun {q p b} hget hb hfalse => ?_,
      fun {q p b} hget hb htrue => ?_, h.once⟩
    · by_cases hq : q = type
      · obtain rfl := Slot.many.inj (Option.some.inj ((hq ▸ hget).symm.trans h.here))
        obtain rfl := Option.some.inj (hb.symm.trans h.items)
        exact hok.resolve_right (by simp [hfalse])
      · exact (h.others hq hget hb).2.1 hfalse
    · by_cases hq : q = type
      · obtain rfl := Slot.many.inj (Option.some.inj ((hq ▸ hget).symm.trans h.here))
        obtain rfl := Option.some.inj (hb.symm.trans h.items)
        exact hq ▸ h.warned htrue
      · exact (h.others hq hget hb).2.2 htrue
  · -- the array has just passed the limit
    rw [not_or, Bool.not_eq_true] at hok
    obtain ⟨hlength, hwarned⟩ := hok
    have hcount : a.items.length = m + 1 := by
      have := h.length hwarned
      omega
    have heq : s.checkLeak type array = _ := checkLeak_warns h.limit h.items hm (by omega) hwarned
    rw [heq] at hwf ⊢
    have hself : (s.arrays.modify array fun a => { a with warned := true }).get? array =
        some { a with warned := true } := Heap.get?_modify_self h.items
    refine ⟨hwf, h.limit, fun w hw => ?_, fun {q p b} hget hb hfalse => ?_,
      fun {q p b} hget hb htrue => ?_, ?_⟩
    · obtain hw | hw := List.mem_append.mp hw
      · exact h.counts w hw
      · rw [List.mem_singleton.mp hw]
        exact hcount
    · by_cases hq : q = type
      · obtain rfl := Slot.many.inj (Option.some.inj ((hq ▸ hget).symm.trans h.here))
        obtain rfl := Option.some.inj (hb.symm.trans hself)
        exact absurd hfalse (by simp)
      · have hne : p ≠ array := by
          intro heq
          have hb' : s.arrays.get? p = some a := heq ▸ h.items
          exact (h.others hq hget hb').1 heq
        have hb : s.arrays.get? p = some b := (Heap.get?_modify_ne hne).symm.trans hb
        exact (h.others hq hget hb).2.1 hfalse
    · by_cases hq : q = type
      · exact ⟨_, List.mem_append_right _ List.mem_cons_self, hq.symm⟩
      · have hne : p ≠ array := by
          intro heq
          have hb' : s.arrays.get? p = some a := heq ▸ h.items
          exact (h.others hq hget hb').1 heq
        have hb : s.arrays.get? p = some b := (Heap.get?_modify_ne hne).symm.trans hb
        obtain ⟨w, hw, hwq⟩ := (h.others hq hget hb).2.2 htrue
        exact ⟨w, List.mem_append_left _ hw, hwq⟩
    · rw [List.length_append, List.length_singleton, ← h.once]
      have hlt : array < s.arrays.top := Heap.lt_top_of_get? h.items
      refine countP_range_of_flip (n := s.arrays.top) hlt ?_ ?_ fun p hp => ?_
      · rw [warnedAt, h.items]
        exact hwarned
      · rw [warnedAt]
        show (((s.arrays.modify array fun a => { a with warned := true }).get? array).map
          ListenerArray.warned).getD false = true
        rw [hself]
        rfl
      · rw [warnedAt, warnedAt]
        show (((s.arrays.modify array fun a => { a with warned := true }).get? p).map
          ListenerArray.warned).getD false = _
        rw [Heap.get?_modify_ne hp]

theorem warnedAt_alloc (s : Emitter) (list : List Listener) (type : PropertyKey) :
    (s.newArray type list).warnedAt = s.warnedAt := by
  funext p
  rw [warnedAt, warnedAt]
  show (((s.arrays.alloc ⟨list, false⟩).get? p).map ListenerArray.warned).getD false = _
  rw [Heap.get?_alloc]
  split
  · next hp =>
    rw [hp, show s.arrays.get? s.arrays.top = none from s.arrays.fresh _ (Nat.le_refl _)]
    rfl
  · rfl

theorem warnedArrays_alloc (s : Emitter) (list : List Listener) (type : PropertyKey) :
    (s.newArray type list).warnedArrays = s.warnedArrays := by
  have htop : s.warnedAt s.arrays.top = false := by
    rw [warnedAt, show s.arrays.get? s.arrays.top = none from s.arrays.fresh _ (Nat.le_refl _)]
    rfl
  rw [warnedArrays, warnedAt_alloc,
    show (s.newArray type list).arrays.top = s.arrays.top + 1 from rfl,
    List.range_succ, List.countP_append, List.countP_singleton, htop]
  rfl

theorem Watched.insert (h : Watched m s) (hm : 0 < m) (type : PropertyKey) (f : Listener)
    (prepend : Bool) : Watched m (s.insert type f prepend) := by
  have hwf := (assigns_insert h.wellFormed type f prepend).wellFormed
  rw [Emitter.insert] at hwf ⊢
  split
  · next hget =>
    rw [hget] at hwf
    refine h.milder hwf (milder_of_events rfl rfl rfl fun {q p} hq => ?_)
    rw [NullObject.get_set] at hq
    split at hq
    · exact absurd hq (by simp)
    · exact hq
  · next existing hget =>
    rw [hget] at hwf
    refine Unchecked.checked (a := ⟨if prepend then [f, existing] else [existing, f], false⟩) ?_ hm
      hwf
    have hother : ∀ {q p}, q ≠ type →
        (s.events.set type (.many s.arrays.top)).get q = some (.many p) →
        s.events.get q = some (.many p) := fun hq hp => by
      rw [NullObject.get_set, if_neg hq] at hp
      exact hp
    exact {
      limit := h.limit
      here := (NullObject.get_set ..).trans (if_pos rfl)
      items := Heap.get?_alloc_top _ _
      length := fun _ => by
        show (if prepend then [f, existing] else [existing, f]).length ≤ m + 1
        split
        · exact Nat.succ_le_succ hm
        · exact Nat.succ_le_succ hm
      warned := fun htrue => absurd htrue (by simp)
      counts := h.counts
      others := fun {q p b} hq hp hb => by
        have hlt := array_lt_top h.wellFormed (hother hq hp)
        have hb : s.arrays.get? p = some b := by
          rw [← hb]
          exact ((Heap.get?_alloc ..).trans (if_neg (by omega))).symm
        exact ⟨by omega, h.quiet (hother hq hp) hb, h.warned (hother hq hp) hb⟩
      once := (warnedArrays_alloc s _ type).trans h.once }
  · next array hget =>
    rw [hget] at hwf
    obtain ⟨a, ha, -⟩ := h.wellFormed.array hget
    have hself : (s.modifyArray array fun list =>
        if prepend then f :: list else list ++ [f]).arrays.get? array = some { a with
          items := if prepend then f :: a.items else a.items ++ [f] } := Heap.get?_modify_self ha
    refine Unchecked.checked (a := { a with
      items := if prepend then f :: a.items else a.items ++ [f] }) ?_ hm hwf
    have hwarnedAt : (s.modifyArray array fun list =>
        if prepend then f :: list else list ++ [f]).warnedAt = s.warnedAt := by
      funext p
      rw [warnedAt, warnedAt]
      by_cases hp : p = array
      · rw [hp, hself, ha]
        rfl
      · rw [show (s.modifyArray array _).arrays.get? p = s.arrays.get? p from
          Heap.get?_modify_ne hp]
    exact {
      limit := h.limit
      here := hget
      items := hself
      length := fun hfalse => by
        have hlength := h.quiet hget ha hfalse
        show (if prepend then f :: a.items else a.items ++ [f]).length ≤ m + 1
        split
        · exact Nat.succ_le_succ hlength
        · rw [List.length_append]
          exact Nat.succ_le_succ hlength
      warned := fun htrue => h.warned hget ha htrue
      counts := h.counts
      others := fun {q p b} hq hp hb => by
        have hne : p ≠ array := fun heq => hq (h.wellFormed.distinct hget (heq ▸ hp))
        have hb : s.arrays.get? p = some b := (Heap.get?_modify_ne hne).symm.trans hb
        exact ⟨hne, h.quiet hp hb, h.warned hp hb⟩
      once := by
        rw [warnedArrays, hwarnedAt]
        exact h.once }

theorem Watched.addFunction (h : Watched m s) (hm : 0 < m) (type : PropertyKey) (f : Listener)
    (prepend : Bool) : Watched m (s.addFunction type f prepend).data := by
  rw [Emitter.addFunction]
  split
  · rw [Reply.andThen_data]
    exact h.milder ((sameTable_emit h.wellFormed _ _).wellFormed h.wellFormed) (milder_emit s _ _)
  · exact h.insert hm type f prepend

theorem Watched.removeFunction (h : Watched m s) (type : PropertyKey) (listener : Listener) :
    Watched m (s.removeFunction type listener).data :=
  h.milder (removeFunction_performs h.wellFormed type listener).wellFormed
    (milder_removeFunction s type listener)

theorem Watched.removeAllOf (h : Watched m s) (type : PropertyKey) :
    Watched m (s.removeAllOf type).data :=
  h.milder (removeAllOf_performs h.wellFormed type).wellFormed (milder_removeAllOf s type)

theorem Watched.clear (h : Watched m s) : Watched m s.clear :=
  h.milder (wellFormed_clear s) (milder_empty s 0)

/-- Nothing about the table, its arrays or the emitter's own limit differs. -/
theorem Watched.of_eq (h : Watched m s) (hevents : t.events = s.events)
    (hcount : t.eventsCount = s.eventsCount) (harrays : t.arrays = s.arrays)
    (hlimit : t.maxListeners = s.maxListeners) (hwarnings : t.warnings = s.warnings) :
    Watched m t :=
  h.milder (SameTable.wellFormed ⟨hevents, hcount, fun _ => by rw [harrays]⟩ h.wellFormed)
    (milder_of_events hlimit hwarnings harrays fun hget => hevents ▸ hget)

theorem Watched.resume (h : Watched m s) (hm : 0 < m) (k : Activation) :
    Watched m (resume k s).data := by
  match k with
  | .emitting id [] args => exact h.of_eq rfl rfl rfl rfl rfl
  | .emitting id (f :: rest) args => exact h.of_eq rfl rfl rfl rfl rfl
  | .adding type f prepend => exact h.insert hm type f prepend
  | .onceWrapper state type f args =>
      rw [Emitter.resume]
      split
      · exact h
      · rw [Reply.andThen_data]
        exact h.removeFunction type _
  | .firing state f args => exact h.of_eq rfl rfl rfl rfl rfl
  | .removing type array 0 => exact h
  | .removing type array (i + 1) =>
      rw [Emitter.resume, Reply.andThen_data]
      cases (s.items array)[i]? with
      | none => exact h
      | some f => exact h.removeFunction type f
  | .removingKeys [] =>
      rw [Emitter.resume, Reply.andThen_data]
      exact h.removeAllOf _
  | .removingKeys (key :: keys) =>
      rw [Emitter.resume]
      split
      · exact h
      · rw [Reply.andThen_data]
        exact h.removeAllOf key
  | .clearing => exact h.clear

end Emitter

/-- The emitter's own limit is left alone. -/
def LeavesLimits : Label Call → Prop
  | .call (.setMaxListeners _) => False
  | _ => True

instance : DecidablePred LeavesLimits := fun a => by
  unfold LeavesLimits
  split <;> infer_instance

namespace Emitter

variable {m : Nat} {s : Emitter}

theorem Watched.perform (h : Watched m s) (hm : 0 < m) {c : Call} (hc : LeavesLimits (.call c)) :
    Watched m (s.perform c).data := by
  match c, hc with
  | .addListener type (.function f) prepend, _ => exact h.addFunction hm type f prepend
  | .addListener type (.other _) prepend, _ => exact h
  | .once type (.function f) prepend, _ =>
      have halloc : Watched m { s with fired := s.fired.alloc false } :=
        h.of_eq rfl rfl rfl rfl rfl
      exact halloc.addFunction hm type _ prepend
  | .once type (.other _) prepend, _ => exact h
  | .removeListener type (.function f), _ => exact h.removeFunction type f
  | .removeListener type (.other _), _ => exact h
  | .removeAllListeners (some type), _ => exact h.removeAllOf type
  | .removeAllListeners none, _ =>
      show Watched m s.removeEverything.data
      rw [removeEverything]
      split
      · exact h.clear
      · exact h
  | .emit type args, _ =>
      exact h.milder ((sameTable_emit h.wellFormed _ _).wellFormed h.wellFormed)
        (milder_emit s _ _)
  | .setDefaultMaxListeners n, _ =>
      -- the emitter has a limit of its own
      show Watched m (s.setDefaultMaxListeners n).data
      rw [setDefaultMaxListeners]
      split
      · exact h
      · exact h.of_eq rfl rfl rfl rfl rfl
  | .apply f args, _ => exact h

theorem keeps_watched (hm : 0 < m) :
    machine.KeepsWhen (fun _ a => LeavesLimits a) fun s => Watched m s.data :=
  keepsWhen_data (G := LeavesLimits) (fun _ _ h hc => h.perform hm hc) fun k _ h => h.resume hm k

/-- The emitter after `setMaxListeners(m)`, before anything else. -/
theorem watched_init (m : Nat) : Watched m { init with maxListeners := some (.ofNat m) } where
  wellFormed := SameTable.wellFormed (s := init) ⟨rfl, rfl, fun _ => rfl⟩ wellFormed_init
  limit := rfl
  counts _ hw := absurd hw List.not_mem_nil
  quiet hget := absurd hget (by simp [init])
  warned hget := absurd hget (by simp [init])
  once := rfl

theorem setMaxListeners_ofNat (m : Nat) (s : Emitter) :
    s.setMaxListeners (.number (.ofNat m)) = .go { s with maxListeners := some (.ofNat m) } [] := by
  have hok : checkLimit (Utf16.ofChars "n".toList) (.number (.ofNat m)) = .ok (.ofNat m) := by
    rw [checkLimit, Number.lt_ofNat, if_neg]
    simp [Number.ofNat]
  rw [setMaxListeners, hok]

/-- **The warning comes when the limit is passed.**  In a run that begins by
    setting the limit to `m` and leaves it alone, every warning tells of `m + 1` listeners, as many
    warnings were given as arrays were marked, and each name with more than `m`
    listeners was warned of. -/
theorem warns_above_limit (m : Nat) (hm : 0 < m) (as : List (Label Call)) (s : State)
    (has : ∀ a ∈ as, LeavesLimits a)
    (hrun : machine.run (.call (.setMaxListeners (.number (.ofNat m))) :: as) = .next s) :
    (∀ w ∈ s.data.warnings, w.count = m + 1) ∧
      s.data.warnings.length = s.data.warnedArrays ∧
      ∀ type, m < (s.data.view type).length → ∃ w ∈ s.data.warnings, w.type = type := by
  have hstep : machine.step machine.init (.call (.setMaxListeners (.number (.ofNat m)))) =
      .next ⟨{ init with maxListeners := some (.ofNat m) }, []⟩ := by
    rw [machine_step, step_call _ (show ForeignRuns machine.init.stack from trivial)]
    show Outcome.next ((init.setMaxListeners (.number (.ofNat m))).land []) = _
    rw [setMaxListeners_ofNat]
    rfl
  rw [run, runFrom_cons, hstep, Outcome.bind_next] at hrun
  have h := (keeps_watched hm).runFrom as ⟨{ init with maxListeners := some (.ofNat m) }, []⟩ s
    (watched_init m) (StepsMeet.of_mem (fun a ha _ => has a ha) _) hrun
  refine ⟨h.counts, h.once.symm, fun type hlength => ?_⟩
  rcases hget : s.data.events.get type with - | f | array
  · rw [view_none hget] at hlength
    exact absurd hlength (Nat.not_lt_zero m)
  · rw [view_one hget] at hlength
    exact absurd hlength (Nat.not_lt.mpr hm)
  · obtain ⟨a, ha, hitems, -⟩ := items_of_get h.wellFormed hget
    rw [view_many hget, hitems] at hlength
    cases hwarned : a.warned with
    | true => exact h.warned hget ha hwarned
    | false =>
        have := h.quiet hget ha hwarned
        omega

/-- The default of all emitters is raised besides. -/
def raisedDefault : List (Label Call) :=
  .call (.setDefaultMaxListeners (.number (.ofNat 20))) :: removedWhileEmitting

theorem warns_above_limit_two : ∃ s,
    machine.run (.call (.setMaxListeners (.number (.ofNat 1))) :: raisedDefault) = .next s ∧
      s.data.warnings.map (·.type) = [.symbol 0] ∧ (∀ w ∈ s.data.warnings, w.count = 1 + 1) ∧
      s.data.warnings.length = s.data.warnedArrays ∧
      ∀ type, 1 < (s.data.view type).length → ∃ w ∈ s.data.warnings, w.type = type :=
  ⟨_, rfl, rfl, warns_above_limit 1 (by decide) raisedDefault _ (by decide) rfl⟩

end Emitter

end NoJs.Events
