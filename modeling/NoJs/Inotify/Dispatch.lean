/-
  NoJs.Inotify.Dispatch

  The loop of `inotifyHandler` over the listeners of one event, with callbacks
  that call `inotify.off`.

  The iterator is an index into the vector of the watch, which `off` shortens
  and, with its last element, removes.  Dereferencing the index outside the
  vector, and reading the vector of an entry that is gone, are faults.  A
  callback is any sequence of `off` calls between the call and its return.

  The loop comes out right exactly when no callback switches off a listener that
  has been called already, itself included: the elements behind it move up, and
  the iterator passes over one of them, or over the end.
-/

import NoJs.Inotify.Table
import Mathlib.Data.List.Perm.Subperm

namespace NoJs.Inotify

open Machine

/-! ## The loop -/

inductive Phase where
  /-- At the condition of the loop. -/
  | head
  /-- In the callback of the listener. -/
  | callback (c : InotifyRequestContext)
  | done
  deriving DecidableEq, Repr

inductive Event where
  | called (c : InotifyRequestContext)
  /-- `inotify.off` of the listener with this id. -/
  | off (f : Int32)
  deriving DecidableEq, Repr

structure Notification where
  watcher : Watcher
  it : Nat
  phase : Phase
  log : List Event

namespace Notification

inductive Act where
  /-- The condition, and the call when it holds. -/
  | head
  /-- The callback switches off a listener of the watch. -/
  | off (f : Int32)
  /-- The callback returns, and `it++`. -/
  | ret
  deriving DecidableEq, Repr

def step (wd : Int32) (s : Notification) : Act → Outcome Notification
  | .head =>
      if s.phase = .head then
        match s.watcher.inotifyMap.find wd with
        -- `listeners` points to an entry that is gone
        | none => .fault
        | some vec =>
            if s.it ≠ vec.length ∧ 0 < vec.length then
              match vec[s.it]? with
              | none => .fault
              | some c => .next { s with phase := .callback c, log := s.log ++ [.called c] }
            else .next { s with phase := .done }
      else .disabled
  | .off f =>
      match s.phase with
      | .callback _ => .next
          { s with watcher := s.watcher.Off (some wd) (some f), log := s.log ++ [.off f] }
      | _ => .disabled
  | .ret =>
      match s.phase with
      | .callback _ => .next { s with it := s.it + 1, phase := .head }
      | _ => .disabled

/-- The loop over the listeners of `wd`, from `begin()`. -/
def machine (wd : Int32) (watcher : Watcher) : Machine Notification Act :=
  ⟨⟨watcher, 0, .head, []⟩, step wd⟩

/-- The listeners called, in order. -/
def invoked (s : Notification) : List InotifyRequestContext :=
  s.log.filterMap fun
    | .called c => some c
    | .off _ => none

/-! ## What is to come of it -/

/-- What the loop finds: a watch that has listeners, with different ids. -/
structure Registered (wd : Int32) (watcher : Watcher) : Prop where
  keyed : watcher.Keyed
  listeners : watcher.listeners wd ≠ []
  distinct : ((watcher.listeners wd).map (·.id)).Nodup

/-- The law: who stays is called once, and nobody after his `off`. -/
structure Exact (wd : Int32) (watcher : Watcher) (s : Notification) : Prop where
  once : s.phase = .done → ∀ c ∈ watcher.listeners wd, c ∈ s.watcher.listeners wd →
    s.invoked.count c = 1
  after : s.log.Pairwise fun a b => ∀ c, b = .called c → a ≠ .off c.id

/-- The callback switches off nobody who was called. -/
def Ahead (wd : Int32) (s : Notification) : Act → Prop
  | .off f => ∀ c ∈ s.watcher.listeners wd, c ∈ s.invoked → c.id ≠ f
  | _ => True

instance (wd : Int32) (s : Notification) : ∀ a, Decidable (Ahead wd s a)
  | .head => isTrue trivial
  | .off f => inferInstanceAs (Decidable (∀ c ∈ s.watcher.listeners wd, c ∈ s.invoked → c.id ≠ f))
  | .ret => isTrue trivial

/-- The loop is over, or went wrong. -/
def Ends : Outcome Notification → Prop
  | .next s => s.phase = .done
  | .fault => True
  | .disabled => False

/-! ## The steps -/

variable {wd : Int32} {w : Watcher} {s t : Notification}

/-- The vector the loop has. -/
abbrev vec (wd : Int32) (s : Notification) : List InotifyRequestContext := s.watcher.listeners wd

theorem listeners_off (hkeyed : w.Keyed) (wd f : Int32) :
    (w.Off (some wd) (some f)).listeners wd = (w.listeners wd).eraseP (·.id == f) ∧
      (w.Off (some wd) (some f)).Keyed := by
  have hrm := Watcher.OffCalls_spec hkeyed wd f
  rw [Watcher.OffCalls_fst] at hrm
  exact ⟨by rw [hrm.listeners, if_pos rfl], hrm.keyed⟩

theorem invoked_called (s : Notification) (c : InotifyRequestContext) (phase : Phase) :
    invoked { s with phase, log := s.log ++ [.called c] } = s.invoked ++ [c] := by
  simp [invoked]

theorem invoked_off (s : Notification) (watcher : Watcher) (f : Int32) :
    invoked { s with watcher, log := s.log ++ [.off f] } = s.invoked := by
  simp [invoked]

/-- What a step can do. -/
inductive Effect (wd : Int32) (s : Notification) : Act → Notification → Prop where
  | called {c} (hphase : s.phase = .head) (hc : (vec wd s)[s.it]? = some c) :
      Effect wd s .head { s with phase := .callback c, log := s.log ++ [.called c] }
  | ended (hphase : s.phase = .head) (hit : s.it = (vec wd s).length) :
      Effect wd s .head { s with phase := .done }
  | switched {c f w} (hphase : s.phase = .callback c)
      (hvec : w.listeners wd = (vec wd s).eraseP (·.id == f)) (hkeyed : w.Keyed) :
      Effect wd s (.off f) { s with watcher := w, log := s.log ++ [.off f] }
  | returned {c} (hphase : s.phase = .callback c) :
      Effect wd s .ret { s with it := s.it + 1, phase := .head }

theorem effect (hkeyed : s.watcher.Keyed) {a : Act} (hstep : step wd s a = .next t) :
    Effect wd s a t := by
  cases a with
  | head =>
      simp only [step] at hstep
      split at hstep
      · next hphase =>
        cases hfind : s.watcher.inotifyMap.find wd with
        | none => rw [hfind] at hstep; exact absurd hstep (by simp)
        | some found =>
            have hvec : vec wd s = found := by rw [vec, Watcher.listeners, hfind]; rfl
            simp only [hfind] at hstep
            split at hstep
            · split at hstep
              · exact absurd hstep (by simp)
              · next c hc =>
                obtain rfl := Outcome.next.inj hstep
                exact .called hphase (by rw [hvec, hc])
            · next hcond =>
              obtain rfl := Outcome.next.inj hstep
              -- an entry is never empty, so the index is at the end
              have hpos : 0 < found.length :=
                List.length_pos_of_ne_nil fun hnil => hkeyed wd (by rw [hfind, hnil])
              refine .ended hphase ?_
              rw [hvec]
              by_contra hne
              exact hcond ⟨hne, hpos⟩
      · exact absurd hstep (by simp)
  | off f =>
      simp only [step] at hstep
      split at hstep
      · next c hphase =>
        obtain rfl := Outcome.next.inj hstep
        obtain ⟨hvec, hkeyed'⟩ := listeners_off hkeyed wd f
        exact .switched hphase hvec hkeyed'
      · exact absurd hstep (by simp)
  | ret =>
      simp only [step] at hstep
      split at hstep
      · next c hphase =>
        obtain rfl := Outcome.next.inj hstep
        exact .returned hphase
      · exact absurd hstep (by simp)

/-- The listeners the iterator has passed. -/
def passed (s : Notification) : Nat :=
  match s.phase with
  | .callback _ => s.it + 1
  | _ => s.it

/-- What holds whatever the callbacks do: `w` is the table at the beginning. -/
structure Counted (wd : Int32) (w : Watcher) (s : Notification) : Prop where
  keyed : s.watcher.Keyed
  sub : (vec wd s).Sublist (w.listeners wd)
  passed : s.passed = s.invoked.length
  ended : s.phase = .done → s.it = (vec wd s).length

theorem counted_init (h : Registered wd w) : Counted wd w (machine wd w).init :=
  ⟨h.keyed, List.Sublist.refl _, rfl, fun hphase => absurd hphase (by simp [machine])⟩

theorem Counted.ids_nodup (h : Counted wd w s) (hreg : Registered wd w) :
    ((vec wd s).map (·.id)).Nodup :=
  hreg.distinct.sublist (h.sub.map _)

theorem Effect.counted {a : Act} (he : Effect wd s a t) (h : Counted wd w s) : Counted wd w t := by
  cases he with
  | @called c hphase hc =>
      refine ⟨h.keyed, h.sub, ?_, fun hdone => absurd hdone (by simp)⟩
      have hpassed := h.passed
      rw [passed, hphase] at hpassed
      rw [invoked_called, List.length_append]
      show s.it + 1 = _
      simp only [hpassed, List.length_singleton]
  | ended hphase hit =>
      have hpassed := h.passed
      rw [passed, hphase] at hpassed
      exact ⟨h.keyed, h.sub, hpassed, fun _ => hit⟩
  | @switched c f w' hphase hvec hkeyed =>
      refine ⟨hkeyed, ?_, ?_, fun hdone => absurd (hphase.symm.trans hdone) (by simp)⟩
      · rw [vec, hvec]
        exact (List.eraseP_sublist).trans h.sub
      · rw [invoked_off, ← h.passed]
        rfl
  | @returned c hphase =>
      have hpassed := h.passed
      rw [passed, hphase] at hpassed
      exact ⟨h.keyed, h.sub, hpassed, fun hdone => absurd hdone (by simp)⟩

/-! ## Nobody passed over -/

/-- The invariant of a loop whose callbacks keep ahead. -/
structure Straight (wd : Int32) (w : Watcher) (s : Notification) : Prop where
  counted : Counted wd w s
  found : vec wd s ≠ []
  invoked : s.invoked <+: vec wd s
  gone : ∀ f, .off f ∈ s.log → ∀ c ∈ vec wd s, c.id ≠ f
  after : s.log.Pairwise fun a b => ∀ c, b = .called c → a ≠ .off c.id

theorem straight_init (h : Registered wd w) : Straight wd w (machine wd w).init :=
  ⟨counted_init h, h.listeners, List.nil_prefix, by simp [machine], List.Pairwise.nil⟩

/-- The iterator is in range, or at the end. -/
theorem Straight.no_fault (h : Straight wd w s) (a : Act) : step wd s a ≠ .fault := by
  cases a with
  | head =>
      simp only [step]
      split
      · next hphase =>
        have hfind := h.counted.keyed.find_eq wd
        rw [if_neg h.found] at hfind
        have hpassed := h.counted.passed
        rw [passed, hphase] at hpassed
        have hle := h.invoked.length_le
        simp only [hfind]
        split
        · next hcond =>
          have hlt : s.it < (s.watcher.listeners wd).length := by
            have hne := hcond.1
            simp only [vec] at hpassed hle
            omega
          rw [List.getElem?_eq_getElem hlt]
          simp
        · simp
      · simp
  | off f =>
      simp only [step]
      split <;> simp
  | ret =>
      simp only [step]
      split <;> simp

/-- Off ahead of the iterator leaves the part that was called. -/
theorem eraseP_ahead {called ls : List InotifyRequestContext} {f : Int32} (hpre : called <+: ls)
    (hahead : ∀ c ∈ ls, c ∈ called → c.id ≠ f) : called <+: ls.eraseP (·.id == f) := by
  obtain ⟨rest, rfl⟩ := hpre
  rw [List.eraseP_append_right]
  · exact List.prefix_append _ _
  · intro c hc
    have hne := hahead c (List.mem_append_left _ hc) hc
    simpa using hne

theorem Effect.straight {a : Act} (he : Effect wd s a t) (hreg : Registered wd w)
    (h : Straight wd w s) (hahead : Ahead wd s a) : Straight wd w t := by
  have hcounted := he.counted h.counted
  cases he with
  | @called c hphase hc =>
      refine ⟨hcounted, h.found, ?_, ?_, ?_⟩
      · rw [invoked_called]
        -- the listener called is the first not called yet
        obtain ⟨rest, hrest⟩ := h.invoked
        have hpassed := h.counted.passed
        rw [passed, hphase] at hpassed
        simp only at hpassed
        rw [← hrest, hpassed, List.getElem?_append_right (Nat.le_refl _), Nat.sub_self] at hc
        cases rest with
        | nil => exact absurd hc (by simp)
        | cons x rest =>
            obtain rfl := Option.some.inj hc
            exact ⟨rest, by rw [← hrest]; simp⟩
      · intro f hf
        rw [List.mem_append] at hf
        exact h.gone f (hf.resolve_right (by simp))
      · rw [List.pairwise_append]
        refine ⟨h.after, List.pairwise_singleton _ _, ?_⟩
        intro e he b hb c' hc' heq
        rw [List.mem_singleton.mp hb] at hc'
        obtain rfl := Event.called.inj hc'
        exact h.gone c.id (heq ▸ he) c (List.mem_of_getElem? hc) rfl
  | ended hphase hit => exact ⟨hcounted, h.found, h.invoked, h.gone, h.after⟩
  | @switched c f w' hphase hvec hkeyed =>
      have hpre : s.invoked <+: w'.listeners wd := by
        rw [hvec]
        exact eraseP_ahead h.invoked hahead
      refine ⟨hcounted, ?_, ?_, ?_, ?_⟩
      · -- the listener whose callback runs is still there
        intro hnil
        have hpassed := h.counted.passed
        rw [passed, hphase] at hpassed
        have hle := hpre.length_le
        rw [show w'.listeners wd = [] from hnil] at hle
        simp only [List.length_nil] at hpassed hle
        omega
      · rw [invoked_off]
        exact hpre
      · intro g hg x hx
        rw [show vec wd _ = _ from hvec] at hx
        rcases List.mem_append.mp hg with hg | hg
        · exact h.gone g hg x (List.mem_of_mem_eraseP hx)
        · obtain rfl := Event.off.inj (List.mem_singleton.mp hg)
          exact Watcher.not_mem_eraseP (h.counted.ids_nodup hreg) x hx
      · rw [List.pairwise_append]
        refine ⟨h.after, List.pairwise_singleton _ _, ?_⟩
        intro e _ b hb c' hc'
        rw [List.mem_singleton.mp hb] at hc'
        exact absurd hc' (by simp)
  | returned hphase => exact ⟨hcounted, h.found, h.invoked, h.gone, h.after⟩

/-- At the end everybody left has been called. -/
theorem Straight.exact (h : Straight wd w s) (hreg : Registered wd w) : Exact wd w s where
  once := by
    intro hdone c _ hc
    have hpassed := h.counted.passed
    rw [passed, hdone] at hpassed
    have hall : s.invoked = vec wd s :=
      h.invoked.eq_of_length (hpassed.symm.trans (h.counted.ended hdone))
    rw [hall]
    exact List.count_eq_one_of_mem (List.Nodup.of_map _ (h.counted.ids_nodup hreg)) hc
  after := h.after

theorem straight_run (hreg : Registered wd w) (as : List Act)
    (hahead : (machine wd w).StepsMeet (Ahead wd) (machine wd w).init as) :
    ((machine wd w).run as).Holds (Straight wd w) := by
  refine PreservesWhen.run (G := Ahead wd) (fun s a h hmeet => ?_) (straight_init hreg) as hahead
  show (step wd s a).Holds (Straight wd w)
  cases hstep : step wd s a with
  | disabled => trivial
  | fault => exact absurd hstep (h.no_fault a)
  | next t => exact (effect h.counted.keyed hstep).straight hreg h hmeet

/-! ## Somebody passed over -/

/-- Listeners only go, and calls are never taken back. -/
theorem Effect.mono {a : Act} (he : Effect wd s a t) :
    vec wd t ⊆ vec wd s ∧ s.invoked ⊆ t.invoked := by
  cases he with
  | called hphase hc =>
      refine ⟨fun _ h => h, ?_⟩
      rw [invoked_called]
      exact List.subset_append_left _ _
  | ended hphase hit => exact ⟨fun _ h => h, fun _ h => h⟩
  | @switched c f w' hphase hvec hkeyed =>
      refine ⟨?_, by rw [invoked_off]; exact fun _ h => h⟩
      rw [show vec wd _ = _ from hvec]
      exact List.eraseP_subset
  | returned hphase => exact ⟨fun _ h => h, fun _ h => h⟩

theorem mono_run {as : List Act} (h : Counted wd w s)
    (hrun : (machine wd w).runFrom s as = .next t) :
    vec wd t ⊆ vec wd s ∧ s.invoked ⊆ t.invoked ∧ Counted wd w t := by
  induction as generalizing s with
  | nil =>
      obtain rfl := Outcome.next.inj hrun
      exact ⟨fun _ h => h, fun _ h => h, h⟩
  | cons a as ih =>
      rw [runFrom_cons] at hrun
      obtain ⟨u, hstep, hrest⟩ := Outcome.bind_eq_next.mp hrun
      have he := effect h.keyed hstep
      obtain ⟨hvec, hinvoked⟩ := he.mono
      obtain ⟨hvec', hinvoked', hcounted⟩ := ih (he.counted h) hrest
      exact ⟨List.Subset.trans hvec' hvec, List.Subset.trans hinvoked hinvoked', hcounted⟩

/-- When everybody called is still there at the end, nobody called was switched
    off on the way. -/
theorem ahead_of_subset (hreg : Registered wd w) {as : List Act} (h : Counted wd w s)
    (hrun : (machine wd w).runFrom s as = .next t) (hall : t.invoked ⊆ vec wd t) :
    (machine wd w).StepsMeet (Ahead wd) s as := by
  induction as generalizing s with
  | nil => trivial
  | cons a as ih =>
      rw [runFrom_cons] at hrun
      obtain ⟨u, hstep, hrest⟩ := Outcome.bind_eq_next.mp hrun
      have he := effect h.keyed hstep
      obtain ⟨hvec, hinvoked, -⟩ := mono_run (he.counted h) hrest
      refine ⟨?_, fun u' hu' => ?_⟩
      · cases he with
        | @switched c f w' hphase hvec' hkeyed =>
            intro x hx hcalled hid
            -- `x` is gone after this step, and at the end
            rw [invoked_off] at hinvoked
            have hleft := hvec (hall (hinvoked hcalled))
            rw [show vec wd _ = _ from hvec'] at hleft
            exact Watcher.not_mem_eraseP (h.ids_nodup hreg) x hleft hid
        | _ => trivial
      · obtain rfl := Outcome.next.inj (hstep.symm.trans hu')
        exact ih (he.counted h) hrest

/-- At the end there are as many listeners as calls, so a listener called and
    gone means one passed over. -/
theorem Exact.subset (hreg : Registered wd w) (h : Counted wd w s) (hdone : s.phase = .done)
    (hexact : Exact wd w s) : s.invoked ⊆ vec wd s := by
  have hlen : (vec wd s).length = s.invoked.length := by
    have hpassed := h.passed
    rw [passed, hdone] at hpassed
    exact (h.ended hdone).symm.trans hpassed
  have hsub : vec wd s ⊆ s.invoked := by
    intro c hc
    have hone := hexact.once hdone c (h.sub.subset hc) hc
    exact List.count_pos_iff.mp (by omega)
  have hnodup := List.Nodup.of_map _ (h.ids_nodup hreg)
  have hperm := (List.subperm_of_subset hnodup hsub).perm_of_length_le (Nat.le_of_eq hlen.symm)
  exact hperm.symm.subset

/-! ## The law -/

/-- A dispatch whose callbacks switch off only listeners still to be called is
    exact, and one that ends is exact only then. -/
theorem dispatch_exact (wd : Int32) (w : Watcher) (hreg : Registered wd w) (as : List Act) :
    ((machine wd w).StepsMeet (Ahead wd) (machine wd w).init as →
      ((machine wd w).run as).Holds (Exact wd w)) ∧
    (Ends ((machine wd w).run as) → ((machine wd w).run as).Holds (Exact wd w) →
      (machine wd w).StepsMeet (Ahead wd) (machine wd w).init as) := by
  constructor
  · exact fun hahead => (straight_run hreg as hahead).imp fun s h => h.exact hreg
  · intro hends hexact
    cases hrun : (machine wd w).run as with
    | disabled => exact absurd hends (by rw [hrun]; exact id)
    | fault => exact absurd hexact (by rw [hrun]; exact id)
    | next t =>
        rw [hrun] at hends hexact
        have hinit := counted_init hreg
        obtain ⟨-, -, hcounted⟩ := mono_run hinit hrun
        exact ahead_of_subset hreg hinit hrun (hexact.subset hreg hcounted hends)

end Notification

/-- What the loop finds when the table was built by `on` and `off`. -/
theorem Table.registered {s : Table} {r : Registry} (h : Table.Simulates s r)
    (hlen : r.registered.length < 2 ^ 31) {wd : Int32} (hwd : r.live.get wd ≠ []) :
    Notification.Registered wd s.watcher where
  keyed := h.keyed
  listeners := by
    rw [h.listeners, ne_eq, List.map_eq_nil_iff]
    exact hwd
  distinct := by
    rw [h.listeners, List.map_map]
    apply (Multimap.nodup_get h.nodup).map_on
    intro l hl l' hl' hid
    have heq := h.registered_inj hlen (h.mem_registered hl) (h.mem_registered hl') hid
    exact (Prod.mk.inj heq).2

namespace Notification

/-- A table with the listeners 1, 2 and 3 of the watch 5. -/
def threeListeners : Watcher :=
  { Watcher.init 3 with inotifyMap := StdMap.insert ∅ 5 [⟨none, 1⟩, ⟨none, 2⟩, ⟨none, 3⟩] }

theorem registered_threeListeners : Registered 5 threeListeners := by
  refine ⟨fun wd hwd => ?_, by decide, by decide⟩
  rw [threeListeners, StdMap.find_insert (StdMap.find_empty 5)] at hwd
  split at hwd
  · exact absurd hwd (by decide)
  · exact absurd hwd (by simp)

/-- The first listener switches off the second. -/
theorem dispatch_exact_ahead :
    ∃ s, (machine 5 threeListeners).run [.head, .off 2, .ret, .head, .ret, .head] = .next s ∧
      Exact 5 threeListeners s :=
  have hexact := (dispatch_exact 5 threeListeners registered_threeListeners
    [.head, .off 2, .ret, .head, .ret, .head]).1 (by decide)
  ⟨_, rfl, hexact.of_next rfl⟩

/-- The last listener switches off itself, and the iterator runs past the end. -/
theorem dispatch_faults :
    ¬ ∀ wd w, Registered wd w → ∀ as, ((machine wd w).run as).Holds (Exact wd w) := by
  intro h
  have hrun := h 5 threeListeners registered_threeListeners
    [.head, .ret, .head, .ret, .head, .off 3, .ret, .head]
  have hfault : (machine 5 threeListeners).run
      [.head, .ret, .head, .ret, .head, .off 3, .ret, .head] = .fault := rfl
  rw [hfault] at hrun
  exact hrun

end Notification

end NoJs.Inotify
