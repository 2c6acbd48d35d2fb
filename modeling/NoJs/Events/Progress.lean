/-
  NoJs.Events.Progress

  The emitter by itself comes to an end.

  Between two pieces of foreign code the emitter runs alone: it calls the next
  listener of an emission, a wrapper removes itself and tells the listeners of
  'removeListener', which may be wrappers again, `removeAllListeners` goes through
  names and arrays.  What keeps this finite is the number of listeners that stand
  in the table or are about to be added: an emission begins only where a listener
  was removed before, and adding a listener moves it into the table.  While that
  number stays what it is, the suspended functions have less and less to do
  (`smaller_of_resume`), so after finitely many steps foreign code runs, or the
  call is over (`returns_to_program`).
-/

import Mathlib.Algebra.BigOperators.Group.Finset.Basic
import Mathlib.Algebra.Order.BigOperators.Group.Finset
import Mathlib.Algebra.Ring.Nat
import Mathlib.Order.WellFounded
import NoJs.Events.Lists

namespace NoJs.Events

open Callbacks Machine

/-! ## The number of listeners -/

namespace Emitter

variable {s t : Emitter} {type : PropertyKey} {list : List Listener}

/-- The number of listeners in the table. -/
def total (s : Emitter) : Nat := ∑ type ∈ s.events.keys.toFinset, (s.view type).length

/-- Names without listeners do not count. -/
theorem total_eq (s : Emitter) {names : Finset PropertyKey}
    (hnames : s.events.keys.toFinset ⊆ names) : s.total = ∑ type ∈ names, (s.view type).length := by
  refine Finset.sum_subset hnames fun type _ hnot => ?_
  have hget : s.events.get type = none := by
    rw [List.mem_toFinset, NullObject.mem_keys] at hnot
    simpa using hnot
  rw [view_none hget]
  rfl

theorem length_le_total (s : Emitter) (type : PropertyKey) : (s.view type).length ≤ s.total := by
  rw [s.total_eq (Finset.subset_insert type _)]
  exact Finset.single_le_sum (f := fun type => (s.view type).length) (fun _ _ => Nat.zero_le _)
    (Finset.mem_insert_self type _)

theorem SameTable.total (h : SameTable s t) : t.total = s.total := by
  rw [Emitter.total, Emitter.total, h.events, h.view]

/-- One list is replaced by another. -/
theorem Assigns.total (h : Assigns s t type list) :
    t.total + (s.view type).length = s.total + list.length := by
  obtain ⟨names, hs, ht, hmem⟩ : ∃ names : Finset PropertyKey,
      s.events.keys.toFinset ⊆ names ∧ t.events.keys.toFinset ⊆ names ∧ type ∈ names := by
    refine ⟨Insert.insert type (s.events.keys.toFinset ∪ t.events.keys.toFinset), ?_, ?_,
      Finset.mem_insert_self type _⟩
    · exact fun _ hmem => Finset.mem_insert_of_mem (Finset.mem_union_left _ hmem)
    · exact fun _ hmem => Finset.mem_insert_of_mem (Finset.mem_union_right _ hmem)
  have hsum := s.total_eq hs
  have hsum' := t.total_eq ht
  rw [← Finset.add_sum_erase names _ hmem] at hsum hsum'
  have hrest : ∀ q ∈ names.erase type, (t.view q).length = (s.view q).length := by
    intro q hq
    rw [h.view, Function.update_of_ne (Finset.ne_of_mem_erase hq)]
  rw [Finset.sum_congr rfl hrest, h.view, Function.update_self] at hsum'
  omega

theorem total_insert (hs : s.WellFormed) (type : PropertyKey) (f : Listener) (prepend : Bool) :
    (s.insert type f prepend).total = s.total + 1 := by
  have htotal := (assigns_insert hs type f prepend).total
  have hlength : (added f prepend (s.view type)).length = (s.view type).length + 1 := by
    cases prepend <;> simp [added]
  omega

theorem Removal.total {listener f : Listener} (h : Removal s t type listener f) :
    t.total + 1 = s.total := by
  obtain ⟨pre, post, hview, hview', -⟩ := h.split
  have htotal := h.assigns.total
  have hlist : eraseLast (matchesListener listener) (s.view type) = t.view type := by
    rw [h.assigns.view, Function.update_self]
  rw [hlist, hview, hview'] at htotal
  simp only [List.length_append, List.length_cons] at htotal
  omega

end Emitter

/-! ## What is left to do -/

/-- The steps that a call of the function takes before foreign code runs. -/
def Listener.weight : Listener → Nat
  | user _ => 0
  | wrapper _ _ f => 2 + f.weight

/-- What an activation has left to do while no listener is removed and none added;
    `bound` is the number of listeners. -/
def weight (bound : Nat) : Frame Activation Invocation → Nat
  | .own (.emitting _ rest _) => 1 + (rest.map fun f => 1 + f.weight).sum
  | .own (.adding _ _ _) => 1
  | .own (.onceWrapper _ _ f _) => 2 + f.weight
  | .own (.firing _ f _) => 1 + f.weight
  | .own (.removing _ _ i) => 1 + i
  | .own (.removingKeys keys) => (1 + keys.length) * (bound + 3)
  | .own .clearing => 1
  | .foreign _ => 0

@[simp] theorem weight_apply (bound : Nat) (f : Listener) (args : List Value) :
    weight bound (f.apply args) = f.weight := by
  cases f <;> rfl

def isAdding : Frame Activation Invocation → Bool
  | .own (.adding _ _ _) => true
  | _ => false

@[simp] theorem isAdding_apply (f : Listener) (args : List Value) :
    isAdding (f.apply args) = false := by
  cases f <;> rfl

/-- The listeners in the table, and twice those about to be added. -/
def Emitter.size (s : Emitter.State) : Nat := s.data.total + 2 * s.stack.countP isAdding

/-- The work of the activations. -/
def Emitter.work (s : Emitter.State) : Nat := (s.stack.map (weight (Emitter.size s))).sum

/-- Fewer listeners, or as many and less work. -/
def Emitter.Smaller (t s : Emitter.State) : Prop :=
  Prod.Lex (· < ·) (· < ·) (Emitter.size t, Emitter.work t) (Emitter.size s, Emitter.work s)

namespace Emitter

theorem wellFounded_smaller : WellFounded Smaller :=
  InvImage.wf (fun s => (size s, work s)) (WellFounded.prod_lex Nat.lt_wfRel.wf Nat.lt_wfRel.wf)

variable {s t : Emitter} {stack frames : Stack} {k : Activation}

theorem smaller_of_size {x y : State} (h : size x < size y) : Smaller x y := Prod.Lex.left _ _ h

theorem smaller_of_work {x y : State} (h : size x = size y) (hw : work x < work y) :
    Smaller x y := by
  rw [Smaller, h]
  exact Prod.Lex.right _ hw

/-- The new activations have less to do than the one they take the place of. -/
theorem smaller_of_weight (t : Emitter) (frames : Stack) (htotal : t.total ≤ s.total)
    (hadding : frames.countP isAdding = 0)
    (hk : isAdding (.own k) = false)
    (hweight : ∀ bound, s.total ≤ bound →
      (frames.map (weight bound)).sum < weight bound (.own k)) :
    Smaller ⟨t, frames ++ stack⟩ ⟨s, .own k :: stack⟩ := by
  have hsize : size ⟨t, frames ++ stack⟩ = t.total + 2 * stack.countP isAdding := by
    rw [size, List.countP_append, hadding, Nat.zero_add]
  have hsize' : size ⟨s, .own k :: stack⟩ = s.total + 2 * stack.countP isAdding := by
    rw [size, List.countP_cons, hk]
    rfl
  obtain hlt | heq := Nat.lt_or_eq_of_le htotal
  · exact smaller_of_size (by omega)
  · have hsame : size ⟨t, frames ++ stack⟩ = size ⟨s, .own k :: stack⟩ := by omega
    refine smaller_of_work hsame ?_
    have hlt := hweight (size ⟨s, .own k :: stack⟩) (by omega)
    rw [work, work, hsame, List.map_append, List.sum_append, List.map_cons, List.sum_cons]
    omega

/-- A listener is gone. -/
theorem smaller_of_total (t : Emitter) (frames : Stack) (htotal : t.total < s.total)
    (hadding : frames.countP isAdding = 0) (hk : isAdding (.own k) = false) :
    Smaller ⟨t, frames ++ stack⟩ ⟨s, .own k :: stack⟩ := by
  refine smaller_of_size ?_
  rw [size, size, List.countP_append, hadding, List.countP_cons, hk]
  simp only [Bool.false_eq_true, if_false]
  omega

/-- An exception drops the activation. -/
theorem smaller_of_unwind (hk : isAdding (.own k) = false)
    (hweight : ∀ bound, 0 < weight bound (.own k)) :
    Smaller ⟨s, unwind stack⟩ ⟨s, .own k :: stack⟩ := by
  have hsub : (unwind stack).Sublist stack := (unwind_suffix stack).sublist
  have hcount := hsub.countP_le (p := isAdding)
  have hsize : size ⟨s, .own k :: stack⟩ = s.total + 2 * stack.countP isAdding := by
    rw [size, List.countP_cons, hk]
    rfl
  obtain hlt | heq := Nat.lt_or_eq_of_le hcount
  · refine smaller_of_size ?_
    rw [hsize, size]
    show s.total + 2 * (unwind stack).countP isAdding < _
    omega
  · have hsame : size ⟨s, unwind stack⟩ = size ⟨s, .own k :: stack⟩ := by
      rw [hsize, size]
      show s.total + 2 * (unwind stack).countP isAdding = _
      omega
    refine smaller_of_work hsame ?_
    have hle := (hsub.map (weight (size ⟨s, .own k :: stack⟩))).sum_le_sum
      (fun _ _ => Nat.zero_le _)
    have hpos := hweight (size ⟨s, .own k :: stack⟩)
    rw [work, work, hsame, List.map_cons, List.sum_cons]
    show ((unwind stack).map _).sum < _
    omega

/-! ## The functions of the emitter -/

variable {below : Stack} {type : PropertyKey} {listener : Listener}

theorem smaller_of_removeFunction (hs : s.WellFormed) (hadding : below.countP isAdding = 0)
    (hk : isAdding (.own k) = false)
    (hweight : ∀ bound, s.total ≤ bound →
      (below.map (weight bound)).sum < weight bound (.own k)) :
    Smaller (((s.removeFunction type listener).andThen below).land stack)
      ⟨s, .own k :: stack⟩ := by
  obtain ⟨-, heq⟩ | ⟨f, t, hremoval, heq⟩ := removeFunction_spec hs type listener
  · rw [heq]
    exact smaller_of_weight _ _ (Nat.le_refl _) hadding hk hweight
  · have htotal := hremoval.total
    rw [heq, announce_eq hremoval.assigns.wellFormed]
    split
    · exact smaller_of_total _ _ (by omega) hadding hk
    · refine smaller_of_total { t with emissions := t.emissions ++ [_] } (.own _ :: below) ?_ ?_ hk
      · exact Nat.lt_of_le_of_lt
          (Nat.le_of_eq (SameTable.total (s := t) ⟨rfl, rfl, fun _ => rfl⟩)) (by omega)
      · rw [List.countP_cons, hadding]
        rfl

theorem smaller_of_removeAllOf (hs : s.WellFormed) (hadding : below.countP isAdding = 0)
    (hk : isAdding (.own k) = false)
    (hweight : ∀ bound, s.total ≤ bound →
      (below.map (weight bound)).sum + bound + 1 < weight bound (.own k)) :
    Smaller (((s.removeAllOf type).andThen below).land stack) ⟨s, .own k :: stack⟩ := by
  have hless : ∀ bound, s.total ≤ bound →
      (below.map (weight bound)).sum < weight bound (.own k) := fun bound hbound => by
    have := hweight bound hbound
    omega
  by_cases hnobody : s.view removeListenerKey = []
  · obtain ⟨t, heq, hassigns⟩ := removeAllOf_silent hs hnobody type
    have htotal := hassigns.total
    rw [List.length_nil] at htotal
    rw [heq]
    exact smaller_of_weight _ _ (by omega) hadding hk hless
  · obtain ⟨-, heq⟩ | ⟨f, -, heq⟩ | ⟨array, -, -, heq⟩ := removeAllOf_announced hs hnobody type
    · rw [heq]
      exact smaller_of_weight _ _ (Nat.le_refl _) hadding hk hless
    · rw [heq]
      exact smaller_of_removeFunction hs hadding hk hless
    · rw [heq]
      refine smaller_of_weight _ (.own (.removing type array _) :: below) (Nat.le_refl _)
        (by rw [List.countP_cons, hadding]; rfl) hk fun bound hbound => ?_
      have hlength := s.length_le_total type
      have hlt := hweight bound hbound
      rw [List.map_cons, List.sum_cons]
      show 1 + (s.view type).length + _ < _
      omega

/-- Every step that the emitter takes by itself makes the state smaller. -/
theorem smaller_of_resume (hs : s.WellFormed) (k : Activation) :
    Smaller ((resume k s).land stack) ⟨s, .own k :: stack⟩ := by
  match k with
  | .emitting id [] args =>
      refine smaller_of_weight (s.finish id) [] ?_ rfl rfl fun _ _ => ?_
      · exact Nat.le_of_eq (SameTable.total ⟨rfl, rfl, fun _ => rfl⟩)
      · exact Nat.succ_pos _
  | .emitting id (f :: rest) args =>
      refine smaller_of_weight (s.call id f args)
        [f.apply args, .own (.emitting id rest args)] ?_ ?_ rfl fun bound _ => ?_
      · exact Nat.le_of_eq (SameTable.total ⟨rfl, rfl, fun _ => rfl⟩)
      · rw [List.countP_cons, isAdding_apply]
        rfl
      · rw [List.map_cons, List.sum_cons, weight_apply]
        simp only [List.map_cons, List.map_nil, List.sum_cons, List.sum_nil, weight]
        omega
  | .adding type f prepend =>
      -- the listener counts once in the table, and counted twice before
      have htotal := total_insert hs type f prepend
      refine smaller_of_size ?_
      show (s.insert type f prepend).total + 2 * stack.countP isAdding <
        s.total + 2 * (Frame.own (.adding type f prepend) :: stack).countP isAdding
      rw [List.countP_cons_of_pos rfl]
      omega
  | .onceWrapper state type f args =>
      rw [resume]
      split
      · exact smaller_of_weight _ [] (Nat.le_refl _) rfl rfl fun _ _ =>
          Nat.lt_of_lt_of_le Nat.zero_lt_two (Nat.le_add_right 2 f.weight)
      · exact smaller_of_removeFunction hs rfl rfl fun bound _ => by
          simp only [List.map_cons, List.map_nil, List.sum_cons, List.sum_nil, weight]
          omega
  | .firing state f args =>
      refine smaller_of_weight (s.fire state) [f.apply args] ?_ ?_ rfl
        fun bound _ => ?_
      · exact Nat.le_of_eq (SameTable.total ⟨rfl, rfl, fun _ => rfl⟩)
      · rw [List.countP_cons, isAdding_apply]
        rfl
      · rw [List.map_cons, List.sum_cons, weight_apply, List.map_nil, List.sum_nil, weight]
        omega
  | .removing type array 0 =>
      exact smaller_of_weight _ [] (Nat.le_refl _) rfl rfl fun _ _ => Nat.succ_pos _
  | .removing type array (i + 1) =>
      rw [resume]
      cases (s.items array)[i]? with
      | none => exact smaller_of_unwind rfl fun _ => Nat.lt_add_right _ Nat.one_pos
      | some f =>
          exact smaller_of_removeFunction hs rfl rfl fun bound _ => by
            simp only [List.map_cons, List.map_nil, List.sum_cons, List.sum_nil, weight]
            omega
  | .removingKeys [] =>
      exact smaller_of_removeAllOf hs rfl rfl fun bound _ => by
        simp only [List.map_cons, List.map_nil, List.sum_cons, List.sum_nil, weight,
          List.length_nil]
        omega
  | .removingKeys (key :: keys) =>
      have hmul : ∀ bound, (1 + (key :: keys).length) * (bound + 3) =
          (1 + keys.length) * (bound + 3) + (bound + 3) := fun bound => by
        rw [List.length_cons, Nat.add_comm 1 (keys.length + 1), Nat.succ_mul,
          Nat.add_comm keys.length 1]
      rw [resume]
      split
      · refine smaller_of_weight _ [.own (.removingKeys keys)] (Nat.le_refl _) rfl rfl
          fun bound _ => ?_
        simp only [List.map_cons, List.map_nil, List.sum_cons, List.sum_nil, weight]
        rw [hmul]
        omega
      · refine smaller_of_removeAllOf hs rfl rfl fun bound _ => ?_
        simp only [List.map_cons, List.map_nil, List.sum_cons, List.sum_nil, weight]
        rw [hmul]
        omega
  | .clearing =>
      exact smaller_of_weight s.clear [] (Nat.zero_le _) rfl rfl fun _ _ =>
        Nat.one_pos

/-- **The emitter always comes back to the program.**  In whatever state a run has
    led to, after finitely many steps of the emitter by itself foreign code runs:
    it is never stuck in its own loops, nor in listeners that remove each other. -/
theorem returns_to_program (as : List (Label Call)) (s : State) (hrun : machine.run as = .next s) :
    ∃ n t, machine.runFrom s (List.replicate n .resume) = .next t ∧ ForeignRuns t.stack :=
  returns_control wellFounded_smaller keeps_wellFormed
    (fun k _ _ hd => smaller_of_resume hd k) s (keeps_wellFormed.run wellFormed_init hrun)

/-- A `once` listener is called: its wrapper is about to remove itself, which somebody listens
    to. -/
def onceCalled : List (Label Call) :=
  [.call (.addListener removeListenerKey (.function (.user 1)) false),
    .call (.once (.symbol 0) (.function (.user 0)) false), .call (.emit (.symbol 0) []), .resume]

theorem returns_to_program_once :
    ∃ s u, machine.run onceCalled = .next s ∧ ¬ ForeignRuns s.stack ∧
      machine.step s .resume = .next u ∧ ¬ ForeignRuns u.stack ∧
      ∃ n t, machine.runFrom s (List.replicate n .resume) = .next t ∧ ForeignRuns t.stack :=
  ⟨_, _, rfl, id, rfl, id, returns_to_program onceCalled _ rfl⟩

end Emitter

end NoJs.Events
