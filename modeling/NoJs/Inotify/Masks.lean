/-
  NoJs.Inotify.Masks

  Listeners with masks on one path.

  The kernel keeps one mask for a watch: a further `inotify_add_watch` of its
  path replaces it, or widens it with IN_MASK_ADD.  The table keeps the listeners
  without the masks they asked for, and `inotifyHandler` calls all of them for
  every event it reads; what it computes from `e->mask` it does not use.  So the
  masks of the other listeners decide which events a listener gets.
-/

import NoJs.Inotify.Events

namespace NoJs.Inotify

open Machine IoUring

/-! ## Masks and event types -/

abbrev Mask := BitVec 32

/-- The types of event a watch can be for. -/
inductive EventType where
  | IN_ACCESS
  | IN_MODIFY
  | IN_ATTRIB
  | IN_CLOSE_WRITE
  | IN_CLOSE_NOWRITE
  | IN_OPEN
  | IN_MOVED_FROM
  | IN_MOVED_TO
  | IN_CREATE
  | IN_DELETE
  | IN_DELETE_SELF
  | IN_MOVE_SELF
  deriving DecidableEq, Repr

namespace EventType

/-- The place of its bit, from 0x1 for IN_ACCESS to 0x800 for IN_MOVE_SELF. -/
def index : EventType → Nat
  | IN_ACCESS => 0
  | IN_MODIFY => 1
  | IN_ATTRIB => 2
  | IN_CLOSE_WRITE => 3
  | IN_CLOSE_NOWRITE => 4
  | IN_OPEN => 5
  | IN_MOVED_FROM => 6
  | IN_MOVED_TO => 7
  | IN_CREATE => 8
  | IN_DELETE => 9
  | IN_DELETE_SELF => 10
  | IN_MOVE_SELF => 11

def bit (e : EventType) : Mask := BitVec.twoPow 32 e.index

theorem exists_index : ∀ i < 12, ∃ e : EventType, e.index = i := by
  intro i hi
  have hall : ∀ i : Fin 12, ∃ e : EventType, e.index = i := by
    intro i
    match i with
    | 0 => exact ⟨IN_ACCESS, rfl⟩
    | 1 => exact ⟨IN_MODIFY, rfl⟩
    | 2 => exact ⟨IN_ATTRIB, rfl⟩
    | 3 => exact ⟨IN_CLOSE_WRITE, rfl⟩
    | 4 => exact ⟨IN_CLOSE_NOWRITE, rfl⟩
    | 5 => exact ⟨IN_OPEN, rfl⟩
    | 6 => exact ⟨IN_MOVED_FROM, rfl⟩
    | 7 => exact ⟨IN_MOVED_TO, rfl⟩
    | 8 => exact ⟨IN_CREATE, rfl⟩
    | 9 => exact ⟨IN_DELETE, rfl⟩
    | 10 => exact ⟨IN_DELETE_SELF, rfl⟩
    | 11 => exact ⟨IN_MOVE_SELF, rfl⟩
  exact hall ⟨i, hi⟩

theorem index_lt (e : EventType) : e.index < 12 := by
  cases e <;> decide

end EventType

/-- Whether the mask asks for the type. -/
def asks (m : Mask) (e : EventType) : Prop := m &&& e.bit ≠ 0

instance (m : Mask) (e : EventType) : Decidable (asks m e) := inferInstanceAs (Decidable (_ ≠ _))

def IN_ALL_EVENTS : Mask := 0xfff

def IN_MASK_ADD : Mask := 0x20000000

/-- `IN_ATTRIB | IN_CREATE | IN_DELETE | …`, the mask of a call without one. -/
def defaultMask : Mask :=
  [EventType.IN_ATTRIB, .IN_CREATE, .IN_DELETE, .IN_DELETE_SELF, .IN_MODIFY, .IN_MOVE_SELF,
    .IN_MOVED_FROM, .IN_MOVED_TO].foldl (fun m e => m ||| e.bit) 0

/-- The mask of the watch after `inotify_add_watch`. -/
def inotify_add_watch (current : Option Mask) (mask : Mask) : Mask :=
  match current with
  | none => mask
  | some m => if mask &&& IN_MASK_ADD = 0 then mask else m ||| mask

theorem asks_iff (m : Mask) (e : EventType) : asks m e ↔ m.getLsbD e.index = true := by
  have hpow : BitVec.twoPow 32 e.index ≠ 0 := by cases e <;> decide
  rw [asks, EventType.bit, BitVec.and_twoPow]
  split
  · next h => exact iff_of_true hpow h
  · next h => exact iff_of_false (fun hne => hne rfl) h

/-- Masks that agree on the event bits ask for the same types. -/
theorem agree_iff (m m' : Mask) :
    m &&& IN_ALL_EVENTS = m' &&& IN_ALL_EVENTS ↔ ∀ e, asks m e ↔ asks m' e := by
  have hall : ∀ i < 32, IN_ALL_EVENTS.getLsbD i = decide (i < 12) := by decide
  constructor
  · intro h e
    have hlt := e.index_lt
    have hbit := congrArg (fun b : Mask => b.getLsbD e.index) h
    simp only [BitVec.getLsbD_and, hall e.index (by omega), decide_eq_true hlt,
      Bool.and_true] at hbit
    rw [asks_iff, asks_iff, hbit]
  · intro h
    apply BitVec.eq_of_getLsbD_eq
    intro i hi
    simp only [BitVec.getLsbD_and, hall i hi]
    by_cases hlt : i < 12
    · obtain ⟨e, rfl⟩ := EventType.exists_index i hlt
      have hbit := h e
      rw [asks_iff, asks_iff, ← Bool.eq_iff_iff] at hbit
      rw [hbit]
    · rw [decide_eq_false hlt, Bool.and_false, Bool.and_false]

/-! ## Calls of on for one path -/

/-- `inotify.on(path, object, mask)`; `ok` is whether `inotify_add_watch` agrees. -/
structure OnCall where
  object : Option JsFunction
  mask : Option Mask
  ok : Bool
  deriving DecidableEq

/-- The mask passed on: the default without a third argument. -/
def OnCall.asked (c : OnCall) : Mask := c.mask.getD defaultMask

structure Masked where
  watcher : Watcher
  /-- The mask of the path's watch. -/
  current : Option Mask
  /-- The listeners, with the masks they were registered with. -/
  registered : List (InotifyRequestContext × Mask)

namespace Masked

def init (fd : Int32) : Masked := ⟨.init fd, none, []⟩

/-- One call; `wd` is the watch of the path. -/
def step (wd : Int32) (s : Masked) (c : OnCall) : Outcome Masked :=
  (s.watcher.On c.object (if c.ok then wd else -1)).bind fun watcher => .next
    (if c.ok then
      { watcher
        current := some (inotify_add_watch s.current c.asked)
        registered := s.registered ++ [(s.watcher.nextContext c.object, c.asked)] }
    else { s with watcher })

def machine (fd wd : Int32) : Machine Masked OnCall := ⟨init fd, step wd⟩

/-- The listeners called for an event: the kernel reports it if its type is in
    the mask of the watch, and `inotifyHandler` calls whom it finds. -/
def invoked (wd : Int32) (s : Masked) (e : EventType) : List InotifyRequestContext :=
  if s.current.any fun m => decide (asks m e) then notify s.watcher.inotifyMap wd else []

/-- Every listener gets the events it asked for and no others. -/
def Independent (wd : Int32) (s : Masked) : Prop :=
  ∀ e, ∀ l ∈ s.registered, l.1 ∈ s.invoked wd e ↔ asks l.2 e

/-- The calls that succeed ask for the same types of event. -/
def Agree (calls : List OnCall) : Prop :=
  ∀ c ∈ calls, ∀ c' ∈ calls, c.ok = true → c'.ok = true →
    c.asked &&& IN_ALL_EVENTS = c'.asked &&& IN_ALL_EVENTS

instance (calls : List OnCall) : Decidable (Agree calls) :=
  inferInstanceAs (Decidable (∀ c ∈ calls, ∀ c' ∈ calls, _ → _ → _))

/-! ## The watch and the listeners -/

/-- What the mask of the watch has to do with those of the listeners: it asks
    for nothing that none of them asks for, and for all the last asks for. -/
structure Covers (current : Option Mask) (registered : List (InotifyRequestContext × Mask)) :
    Prop where
  isSome : ∀ l ∈ registered, current.isSome
  only : ∀ m ∈ current, ∀ e, asks m e → ∃ l ∈ registered, asks l.2 e
  last : ∀ m ∈ current, ∃ l ∈ registered, ∀ e, asks l.2 e → asks m e

structure Inv (wd : Int32) (calls : List OnCall) (s : Masked) : Prop where
  sound : ∃ n, s.watcher.env.Sound n
  keyed : s.watcher.Keyed
  masks : ∀ m, (∃ l ∈ s.registered, l.2 = m) ↔ ∃ c ∈ calls, c.ok = true ∧ c.asked = m
  listed : ∀ l ∈ s.registered, l.1 ∈ s.watcher.listeners wd
  covers : Covers s.current s.registered

variable {wd : Int32} {calls : List OnCall} {s : Masked}

theorem asks_or (m m' : Mask) (e : EventType) : asks (m ||| m') e ↔ asks m e ∨ asks m' e := by
  rw [asks_iff, asks_iff, asks_iff, BitVec.getLsbD_or, Bool.or_eq_true]

/-- `inotify_add_watch` replaces the mask or adds to it. -/
theorem Covers.add {current : Option Mask} {registered : List (InotifyRequestContext × Mask)}
    (h : Covers current registered) (l : InotifyRequestContext × Mask) :
    Covers (some (inotify_add_watch current l.2)) (registered ++ [l]) := by
  have hnew : l ∈ registered ++ [l] := List.mem_append_right _ (List.mem_singleton.mpr rfl)
  refine ⟨fun _ _ => rfl, ?_, ?_⟩
  · intro m hm e he
    obtain rfl := Option.some.inj hm
    cases current with
    | none => exact ⟨l, hnew, he⟩
    | some m₀ =>
        simp only [inotify_add_watch] at he
        split at he
        · exact ⟨l, hnew, he⟩
        · rcases (asks_or _ _ e).mp he with he | he
          · obtain ⟨l', hl', he'⟩ := h.only m₀ rfl e he
            exact ⟨l', List.mem_append_left _ hl', he'⟩
          · exact ⟨l, hnew, he⟩
  · intro m hm
    obtain rfl := Option.some.inj hm
    refine ⟨l, hnew, fun e he => ?_⟩
    cases current with
    | none => exact he
    | some m₀ =>
        simp only [inotify_add_watch]
        split
        · exact he
        · exact (asks_or _ _ e).mpr (.inr he)

theorem inv_init (fd wd : Int32) : Inv wd [] (init fd) where
  sound := ⟨0, Environment.sound_init⟩
  keyed := fun _ => by simp [init, Watcher.init]
  masks := by simp [init]
  listed := by simp [init]
  covers := ⟨by simp [init], by simp [init], by simp [init]⟩

theorem Inv.step (hwd : wd ≠ -1) (h : Inv wd calls s) (c : OnCall) :
    (s.step wd c).Holds (Inv wd (calls ++ [c])) := by
  have hmem : ∀ P : OnCall → Prop, (∃ x ∈ calls ++ [c], P x) ↔ (∃ x ∈ calls, P x) ∨ P c := by
    intro P
    simp only [List.mem_append, List.mem_singleton, or_and_right, exists_or, exists_eq_left]
  cases hok : c.ok with
  | false =>
      simp only [Masked.step, hok, Watcher.On, Bool.false_eq_true, if_false, if_true,
        Outcome.bind_next]
      refine ⟨h.sound, h.keyed, fun m => ?_, h.listed, h.covers⟩
      rw [h.masks, hmem]
      simp [hok]
  | true =>
      obtain ⟨w, hw, hreg⟩ := Watcher.On_spec h.sound h.keyed c.object hwd
      simp only [Masked.step, hok, if_true, hw, Outcome.bind_next]
      refine ⟨hreg.sound, hreg.keyed, fun m => ?_, ?_,
        h.covers.add (s.watcher.nextContext c.object, c.asked)⟩
      · simp only [List.mem_append, List.mem_singleton, or_and_right, exists_or, exists_eq_left]
        rw [h.masks]
        simp [hok]
      · intro l hl
        rw [hreg.listeners, if_pos rfl]
        rcases List.mem_append.mp hl with hl | hl
        · exact List.mem_append_left _ (h.listed l hl)
        · rw [List.mem_singleton.mp hl]
          exact List.mem_append_right _ (List.mem_singleton.mpr rfl)

theorem inv_run (fd : Int32) (hwd : wd ≠ -1) (calls : List OnCall) :
    ((machine fd wd).run calls).Holds (Inv wd calls) := by
  refine Machine.holds_history (P := fun _ => True) (R := Inv wd) (fun _ _ _ => trivial)
    (inv_init fd wd) (fun calls s c _ _ h => ?_) calls trivial
  exact h.step hwd c

/-- A listener is called when the watch asks for the event. -/
theorem Inv.mem_invoked (h : Inv wd calls s) {l : InotifyRequestContext × Mask}
    (hl : l ∈ s.registered) (e : EventType) :
    l.1 ∈ s.invoked wd e ↔ ∃ m ∈ s.current, asks m e := by
  have hnotify : l.1 ∈ notify s.watcher.inotifyMap wd := by
    rw [notify_eq]
    exact h.listed l hl
  cases hcurrent : s.current with
  | none =>
      have hsome := h.covers.isSome l hl
      rw [hcurrent] at hsome
      exact absurd hsome (by simp)
  | some m =>
      simp only [invoked, hcurrent, Option.any_some, decide_eq_true_eq, Option.mem_def,
        Option.some.injEq, exists_eq_left']
      split
      · next hask => exact iff_of_true hnotify hask
      · next hask => exact iff_of_false (by simp) hask

/-- Every listener gets its own events exactly when all ask for the same. -/
theorem masks_independent (fd wd : Int32) (hwd : wd ≠ -1) (calls : List OnCall) :
    ((machine fd wd).run calls).Holds fun s => Independent wd s ↔ Agree calls := by
  refine (inv_run fd hwd calls).imp fun s h => ?_
  constructor
  · intro hind c hc c' hc' hok hok'
    obtain ⟨l, hl, hlm⟩ := (h.masks c.asked).mpr ⟨c, hc, hok, rfl⟩
    obtain ⟨l', hl', hlm'⟩ := (h.masks c'.asked).mpr ⟨c', hc', hok', rfl⟩
    rw [agree_iff]
    intro e
    rw [← hlm, ← hlm', ← hind e l hl, ← hind e l' hl', h.mem_invoked hl, h.mem_invoked hl']
  · intro hagree e l hl
    -- listeners ask for the same types, since their calls do
    have hsame : ∀ l' ∈ s.registered, asks l'.2 e ↔ asks l.2 e := by
      intro l' hl'
      obtain ⟨c, hc, hok, hcm⟩ := (h.masks l.2).mp ⟨l, hl, rfl⟩
      obtain ⟨c', hc', hok', hcm'⟩ := (h.masks l'.2).mp ⟨l', hl', rfl⟩
      rw [← hcm, ← hcm']
      exact (agree_iff _ _).mp (hagree c' hc' c hc hok' hok) e
    rw [h.mem_invoked hl]
    constructor
    · rintro ⟨m, hm, hask⟩
      obtain ⟨l', hl', hask'⟩ := h.covers.only m hm e hask
      exact (hsame l' hl').mp hask'
    · intro hask
      obtain ⟨m, hm⟩ := Option.isSome_iff_exists.mp (h.covers.isSome l hl)
      obtain ⟨l', hl', hlast⟩ := h.covers.last m hm
      exact ⟨m, hm, hlast e ((hsame l' hl').mpr hask)⟩

/-- Two listeners for creations and deletions, and a call that fails in between. -/
def createDelete : List OnCall :=
  [⟨some 0, some (EventType.IN_CREATE.bit ||| EventType.IN_DELETE.bit), true⟩,
    ⟨some 1, some EventType.IN_MODIFY.bit, false⟩,
    ⟨some 2, some (EventType.IN_CREATE.bit ||| EventType.IN_DELETE.bit), true⟩]

theorem masks_independent_equal :
    ∃ s, (machine 3 1).run createDelete = .next s ∧ Agree createDelete ∧ Independent 1 s :=
  have hagree : Agree createDelete := by decide
  ⟨_, rfl, hagree, ((masks_independent 3 1 (by decide) createDelete).of_next rfl).mpr hagree⟩

/-- A listener for IN_MODIFY, and one for IN_CREATE. -/
def modifyCreate : List OnCall :=
  [⟨some 0, some EventType.IN_MODIFY.bit, true⟩, ⟨some 1, some EventType.IN_CREATE.bit, true⟩]

/-- The state they lead to. -/
def modifyCreated : Masked :=
  match (machine 3 1).run modifyCreate with
  | .next s => s
  | _ => init 3

/-- The first listener is called for a creation. -/
theorem masks_interfere :
    ¬ ∀ fd wd, wd ≠ -1 → ∀ calls s, (machine fd wd).run calls = .next s → Independent wd s := by
  intro h
  have hind := h 3 1 (by decide) modifyCreate modifyCreated rfl .IN_CREATE
    (⟨some 0, 1⟩, EventType.IN_MODIFY.bit) (by decide)
  have hcalled : (⟨some 0, 1⟩ : InotifyRequestContext) ∈ modifyCreated.invoked 1 .IN_CREATE := by
    rw [invoked, notify_eq]
    decide
  exact absurd (hind.mp hcalled) (by decide)

end Masked

end NoJs.Inotify
