/-
  NoJs.Events.Once

  Listeners that are called once.

  `once` adds a wrapper, which removes itself, sets `fired` and calls its listener.
  The removal tells the listeners of 'removeListener', so between it and `fired`
  foreign code runs that may emit the event again; and an emission that began
  earlier still has the wrapper in its copy.  The listener is called once all the
  same (`once_called_once`): where the wrapper waits for the handlers, it is in no
  list and in no copy that an activation above it works on, and the copies below
  it find `fired` set.

  This depends on the program leaving the wrappers alone, which it can get hold of
  by `rawListeners`: one that it calls or adds again itself may well call its
  listener twice.
-/

import Mathlib.Data.List.Basic
import Mathlib.Data.List.Flatten
import NoJs.Events.Emission

namespace NoJs.Events

open Callbacks Machine

/-- The state of a wrapper. -/
def Listener.state? : Listener → Option Nat
  | user _ => none
  | wrapper state _ _ => some state

/-- The states of the wrappers in a list. -/
def states (list : List Listener) : List Nat := list.filterMap Listener.state?

theorem mem_states {list : List Listener} {state : Nat} :
    state ∈ states list ↔ ∃ w ∈ list, w.state? = some state :=
  List.mem_filterMap

theorem states_sublist {list list' : List Listener} (h : list.Sublist list') :
    (states list).Sublist (states list') :=
  h.filterMap _

theorem states_append (list list' : List Listener) :
    states (list ++ list') = states list ++ states list' :=
  List.filterMap_append ..

/-- The program neither adds a wrapper nor calls one. -/
def LeavesWrappers : Label Call → Prop
  | .call (.addListener _ (.function f) _) => f.state? = none
  | .call (.once _ (.function f) _) => f.state? = none
  | .call (.apply f _) => f.state? = none
  | _ => True

/-- The states of the wrappers that an activation is about to call. -/
def mentioned : Frame Activation Invocation → List Nat
  | .own (.emitting _ rest _) => states rest
  | .own (.onceWrapper state _ _ _) => [state]
  | .own (.firing state _ _) => [state]
  | _ => []

/-- The state of a wrapper that is not yet added. -/
def pendingOf : Frame Activation Invocation → List Nat
  | .own (.adding _ f _) => states [f]
  | _ => []

/-- The state of a wrapper that has removed itself. -/
def firingOf : Frame Activation Invocation → List Nat
  | .own (.firing state _ _) => [state]
  | _ => []

/-- The function is no wrapper, or the one that was made with its state. -/
def MadeBy (made : Nat → Listener) (top : Nat) (f : Listener) : Prop :=
  ∀ state, f.state? = some state → state < top ∧ f = made state

/-- The wrapper listens to the event it was made for. -/
def ListensTo (type : PropertyKey) (f : Listener) : Prop :=
  ∀ state type' g, f = .wrapper state type' g → type' = type

/-- The wrappers that an activation knows were made by `_onceWrap`. -/
def FrameMadeBy (made : Nat → Listener) (top : Nat) : Frame Activation Invocation → Prop
  | .own (.emitting _ rest _) => ∀ f ∈ rest, MadeBy made top f
  | .own (.adding type f _) => MadeBy made top f ∧ ListensTo type f
  | .own (.onceWrapper state type f _) => MadeBy made top (.wrapper state type f)
  | .own (.firing state f _) => state < top ∧ ∃ id, f = .user id
  | _ => True

theorem mentioned_of_firing {frame : Frame Activation Invocation} {state : Nat}
    (h : state ∈ firingOf frame) : state ∈ mentioned frame := by
  match frame, h with
  | .own (.firing _ _ _), h => exact h

/-- The states that an activation knows were handed out. -/
theorem FrameMadeBy.lt_top {made : Nat → Listener} {top : Nat}
    {frame : Frame Activation Invocation} {state : Nat} (h : FrameMadeBy made top frame)
    (hstate : state ∈ mentioned frame ∨ state ∈ pendingOf frame) : state < top := by
  match frame, h, hstate with
  | .own (.emitting _ _ _), h, .inl hstate =>
      obtain ⟨f, hf, hw⟩ := mem_states.mp hstate
      exact (h f hf state hw).1
  | .own (.onceWrapper _ _ _ _), h, .inl hstate =>
      exact (h state (congrArg some (List.mem_singleton.mp hstate).symm)).1
  | .own (.firing _ _ _), h, .inl hstate => exact List.mem_singleton.mp hstate ▸ h.1
  | .own (.adding _ _ _), h, .inr hstate =>
      obtain ⟨f, hf, hw⟩ := mem_states.mp hstate
      exact (h.1 state (List.mem_singleton.mp hf ▸ hw)).1

/-- A function that has no state. -/
theorem madeBy_of_plain {made : Nat → Listener} {top : Nat} {f : Listener} (h : f.state? = none) :
    MadeBy made top f := fun state hstate => absurd hstate (by simp [h])

theorem listensTo_of_plain {type : PropertyKey} {f : Listener} (h : f.state? = none) :
    ListensTo type f := by
  rintro state type' g rfl
  exact absurd h (by simp [Listener.state?])

theorem states_of_plain {f : Listener} (h : f.state? = none) : states [f] = [] := by
  rw [states, List.filterMap_cons_none h, List.filterMap_nil]

theorem exists_user_of_plain {f : Listener} (h : f.state? = none) : ∃ id, f = .user id := by
  cases f with
  | user id => exact ⟨id, rfl⟩
  | wrapper state type g => exact absurd h (by simp [Listener.state?])

namespace Emitter

/-- No name has a wrapper with this state. -/
def Absent (s : Emitter) (state : Nat) : Prop := ∀ type, state ∉ states (s.view type)

/-- The wrappers in the table and on the stack; `made` tells which wrapper a state
    belongs to. -/
structure Once (made : Nat → Listener) (s : State) : Prop where
  wellFormed : s.data.WellFormed
  maker : ∀ state, state < s.data.fired.top →
    ∃ type id, made state = .wrapper state type (.user id)
  live : ∀ state, state < s.data.fired.top → ∃ b, s.data.fired.get? state = some b
  table : ∀ type, ∀ f ∈ s.data.view type, MadeBy made s.data.fired.top f ∧ ListensTo type f
  single : ∀ type, (states (s.data.view type)).Nodup
  frames : ∀ frame ∈ s.stack, FrameMadeBy made s.data.fired.top frame
  pending : ∀ frame ∈ s.stack, ∀ state ∈ pendingOf frame, s.data.Absent state ∧
    s.data.fired.get? state = some false ∧ ∀ other ∈ s.stack, state ∉ mentioned other
  pendingOnce : (s.stack.flatMap pendingOf).Nodup
  firing : ∀ frame ∈ s.stack, ∀ state ∈ firingOf frame, s.data.Absent state ∧
    s.data.fired.get? state = some false
  quiet : s.stack.Pairwise fun above below => ∀ state ∈ firingOf below, state ∉ mentioned above
  fired : ∀ state, s.data.fired.get? state = some true → s.data.Absent state
  calls : s.data.onceCalls.Nodup
  called : ∀ state ∈ s.data.onceCalls, s.data.fired.get? state = some true

theorem once_suffixClosed (made : Nat → Listener) : SuffixClosed (Once made) := by
  intro d stack below hbelow h
  have hsub := hbelow.subset
  exact {
    wellFormed := h.wellFormed
    maker := h.maker
    live := h.live
    table := h.table
    single := h.single
    frames := fun frame hmem => h.frames frame (hsub hmem)
    pending := fun frame hmem state hstate =>
      have hpending := h.pending frame (hsub hmem) state hstate
      ⟨hpending.1, hpending.2.1, fun other hother => hpending.2.2 other (hsub hother)⟩
    pendingOnce := h.pendingOnce.sublist (hbelow.sublist.flatMap _)
    firing := fun frame hmem => h.firing frame (hsub hmem)
    quiet := h.quiet.sublist hbelow.sublist
    fired := h.fired
    calls := h.calls
    called := h.called }

variable {made : Nat → Listener} {s t : Emitter} {stack : Stack} {type : PropertyKey}
  {f : Listener} {state : Nat} {frame : Frame Activation Invocation}

theorem once_init : Once (fun _ => .user 0) machine.init where
  wellFormed := wellFormed_init
  maker _ hlt := absurd hlt (Nat.not_lt_zero _)
  live _ hlt := absurd hlt (Nat.not_lt_zero _)
  table _ _ hf := absurd hf List.not_mem_nil
  single _ := List.nodup_nil
  frames _ hmem := absurd hmem List.not_mem_nil
  pending _ hmem := absurd hmem List.not_mem_nil
  pendingOnce := List.nodup_nil
  firing _ hmem := absurd hmem List.not_mem_nil
  quiet := List.Pairwise.nil
  fired _ _ _ := List.not_mem_nil
  calls := List.nodup_nil
  called _ hmem := absurd hmem List.not_mem_nil

/-! ## Changes of the table -/

theorem Absent.of_sublist (h : s.Absent state)
    (hview : ∀ type, (t.view type).Sublist (s.view type)) : t.Absent state := fun type hmem =>
  h type ((states_sublist (hview type)).subset hmem)

/-- The lists lose functions, and nothing else happens to the wrappers. -/
theorem Once.shrink (h : Once made ⟨s, stack⟩) (hwf : t.WellFormed)
    (hview : ∀ type, (t.view type).Sublist (s.view type)) (hfired : t.fired = s.fired)
    (hcalls : t.onceCalls = s.onceCalls) : Once made ⟨t, stack⟩ where
  wellFormed := hwf
  maker := hfired ▸ h.maker
  live := hfired ▸ h.live
  table type f hf := hfired ▸ h.table type f ((hview type).subset hf)
  single type := (h.single type).sublist (states_sublist (hview type))
  frames := hfired ▸ h.frames
  pending frame hmem state hstate := by
    obtain ⟨habsent, hfalse, hothers⟩ := h.pending frame hmem state hstate
    exact ⟨habsent.of_sublist hview, hfired ▸ hfalse, hothers⟩
  pendingOnce := h.pendingOnce
  firing frame hmem state hstate := by
    obtain ⟨habsent, hfalse⟩ := h.firing frame hmem state hstate
    exact ⟨habsent.of_sublist hview, hfired ▸ hfalse⟩
  quiet := h.quiet
  fired state hstate := (h.fired state (hfired ▸ hstate)).of_sublist hview
  calls := hcalls ▸ h.calls
  called state hstate := hfired ▸ h.called state (hcalls ▸ hstate)

theorem Once.sameTable (h : Once made ⟨s, stack⟩) (ht : SameTable s t) (hfired : t.fired = s.fired)
    (hcalls : t.onceCalls = s.onceCalls) : Once made ⟨t, stack⟩ :=
  h.shrink (ht.wellFormed h.wellFormed) (fun _ => ht.view ▸ List.Sublist.refl _) hfired hcalls

/-- A list that is replaced by a part of it. -/
theorem Assigns.sublist {list : List Listener} (h : Assigns s t type list)
    (hlist : list.Sublist (s.view type)) (q : PropertyKey) : (t.view q).Sublist (s.view q) := by
  rw [h.view, Function.update_apply]
  split
  · next hq => rw [hq]; exact hlist
  · exact List.Sublist.refl _

theorem Once.assigns {list : List Listener} (h : Once made ⟨s, stack⟩) (ht : Assigns s t type list)
    (hlist : list.Sublist (s.view type)) : Once made ⟨t, stack⟩ :=
  h.shrink ht.wellFormed (ht.sublist hlist) ht.rest.fired ht.rest.onceCalls

theorem states_added (f : Listener) (prepend : Bool) (list : List Listener) :
    (states (added f prepend list)).Perm (states [f] ++ states list) := by
  cases prepend with
  | true => exact List.Perm.of_eq (states_append [f] list)
  | false =>
      rw [show added f false list = list ++ [f] from rfl, states_append]
      exact List.perm_append_comm

theorem mem_added {g : Listener} {prepend : Bool} {list : List Listener}
    (h : g ∈ added f prepend list) : g = f ∨ g ∈ list := by
  cases prepend with
  | true => exact List.mem_cons.mp h
  | false =>
      obtain h | h := List.mem_append.mp h
      · exact .inr h
      · exact .inl (List.mem_singleton.mp h)

/-- A function is added whose wrapper, if it is one, nobody else knows. -/
theorem Once.insert (h : Once made ⟨s, stack⟩) (hmade : MadeBy made s.fired.top f)
    (hlistens : ListensTo type f) (prepend : Bool)
    (hnew : ∀ state ∈ states [f], s.Absent state ∧ s.fired.get? state = some false ∧
      ∀ other ∈ stack, state ∉ pendingOf other ∧ state ∉ firingOf other) :
    Once made ⟨s.insert type f prepend, stack⟩ := by
  have hassigns := assigns_insert h.wellFormed type f prepend
  have hview : ∀ q, (s.insert type f prepend).view q =
      if q = type then added f prepend (s.view type) else s.view q := fun q => by
    rw [hassigns.view, Function.update_apply]
  have hfired := hassigns.rest.fired
  have hcalls := hassigns.rest.onceCalls
  have habsent : ∀ state, s.Absent state → state ∉ states [f] →
      (s.insert type f prepend).Absent state := by
    intro state hs hf q hq
    rw [hview] at hq
    split at hq
    · have hmem := (states_added f prepend _).mem_iff.mp hq
      exact (List.mem_append.mp hmem).elim hf (hs type)
    · exact hs q hq
  exact {
    wellFormed := hassigns.wellFormed
    maker := hfired ▸ h.maker
    live := hfired ▸ h.live
    table := by
      intro q g hg
      rw [hview] at hg
      show MadeBy made (s.insert type f prepend).fired.top g ∧ ListensTo q g
      rw [hfired]
      split at hg
      · next hq =>
        rw [hq]
        obtain rfl | hg := mem_added hg
        · exact ⟨hmade, hlistens⟩
        · exact h.table type g hg
      · exact h.table q g hg
    single := by
      intro q
      show (states ((s.insert type f prepend).view q)).Nodup
      rw [hview]
      split
      · rw [(states_added f prepend _).nodup_iff, List.nodup_append]
        refine ⟨?_, h.single type, ?_⟩
        · cases f with
          | user id => exact List.nodup_nil
          | wrapper state type g => exact List.nodup_singleton state
        · rintro a ha b hb rfl
          exact (hnew a ha).1 type hb
      · exact h.single q
    frames := hfired ▸ h.frames
    pending := by
      intro frame hmem state hstate
      obtain ⟨hs, hfalse, hothers⟩ := h.pending frame hmem state hstate
      refine ⟨habsent state hs fun hf => ?_, hfired ▸ hfalse, hothers⟩
      exact ((hnew state hf).2.2 frame hmem).1 hstate
    pendingOnce := h.pendingOnce
    firing := by
      intro frame hmem state hstate
      obtain ⟨hs, hfalse⟩ := h.firing frame hmem state hstate
      refine ⟨habsent state hs fun hf => ?_, hfired ▸ hfalse⟩
      exact ((hnew state hf).2.2 frame hmem).2 hstate
    quiet := h.quiet
    fired := by
      intro state hstate
      have hstate : s.fired.get? state = some true := hfired ▸ hstate
      refine habsent state (h.fired state hstate) fun hf => ?_
      rw [(hnew state hf).2.1] at hstate
      exact absurd hstate (by simp)
    calls := hcalls ▸ h.calls
    called := fun state hstate => hfired ▸ h.called state (hcalls ▸ hstate) }

/-! ## Changes of the stack -/

/-- An activation that calls wrappers which are neither pending nor removed. -/
theorem Once.push (h : Once made ⟨s, stack⟩) (hmade : FrameMadeBy made s.fired.top frame)
    (hpending : pendingOf frame = []) (hfiring : firingOf frame = [])
    (hmentioned : ∀ state ∈ mentioned frame, ∀ other ∈ stack,
      state ∉ pendingOf other ∧ state ∉ firingOf other) :
    Once made ⟨s, frame :: stack⟩ where
  wellFormed := h.wellFormed
  maker := h.maker
  live := h.live
  table := h.table
  single := h.single
  frames := List.forall_mem_cons.mpr ⟨hmade, h.frames⟩
  pending := by
    intro other hmem state hstate
    obtain rfl | hmem := List.mem_cons.mp hmem
    · rw [hpending] at hstate
      exact absurd hstate List.not_mem_nil
    · obtain ⟨hs, hfalse, hothers⟩ := h.pending other hmem state hstate
      refine ⟨hs, hfalse, List.forall_mem_cons.mpr ⟨fun hm => ?_, hothers⟩⟩
      exact (hmentioned state hm other hmem).1 hstate
  pendingOnce := by
    rw [List.flatMap_cons, hpending]
    exact h.pendingOnce
  firing := by
    intro other hmem state hstate
    obtain rfl | hmem := List.mem_cons.mp hmem
    · rw [hfiring] at hstate
      exact absurd hstate List.not_mem_nil
    · exact h.firing other hmem state hstate
  quiet := List.Pairwise.cons
    (fun other hmem state hstate hm => (hmentioned state hm other hmem).2 hstate) h.quiet
  fired := h.fired
  calls := h.calls
  called := h.called

/-- An activation that has nothing to do with wrappers. -/
theorem Once.pushPlain (h : Once made ⟨s, stack⟩) (hmade : FrameMadeBy made s.fired.top frame)
    (hpending : pendingOf frame = []) (hfiring : firingOf frame = [])
    (hmentioned : mentioned frame = []) : Once made ⟨s, frame :: stack⟩ :=
  h.push hmade hpending hfiring fun state hstate => by
    rw [hmentioned] at hstate
    exact absurd hstate List.not_mem_nil

/-- An emission begins: its copy has wrappers of the table only. -/
theorem Once.begin (h : Once made ⟨s, stack⟩) (type q : PropertyKey) (args : List Value) :
    (s.begin q args (s.view type)).Lands (Once made) stack := by
  have hsame : Once made ⟨{ s with
      emissions := s.emissions ++ [⟨q, args, s.view type, [], none⟩] }, stack⟩ :=
    h.sameTable ⟨rfl, rfl, fun _ => rfl⟩ rfl rfl
  refine hsame.push (fun f hf => (h.table type f hf).1) rfl rfl ?_
  intro state hstate other hmem
  exact ⟨fun hpending => (h.pending other hmem state hpending).1 type hstate,
    fun hfiring => (h.firing other hmem state hfiring).1 type hstate⟩

/-- Nobody knows a wrapper with this state but who is adding it. -/
def Unknown (s : Emitter) (stack : Stack) (state : Nat) : Prop :=
  s.Absent state ∧ s.fired.get? state = some false ∧
    ∀ other ∈ stack, state ∉ pendingOf other ∧ state ∉ mentioned other

/-- `_addListener` waits for the listeners of 'newListener'. -/
theorem Once.pushAdding (h : Once made ⟨s, stack⟩) (hmade : MadeBy made s.fired.top f)
    (hlistens : ListensTo type f) (prepend : Bool)
    (hnew : ∀ state ∈ states [f], s.Unknown stack state) :
    Once made ⟨s, .own (.adding type f prepend) :: stack⟩ where
  wellFormed := h.wellFormed
  maker := h.maker
  live := h.live
  table := h.table
  single := h.single
  frames := List.forall_mem_cons.mpr ⟨⟨hmade, hlistens⟩, h.frames⟩
  pending := by
    intro other hmem state hstate
    obtain rfl | hmem := List.mem_cons.mp hmem
    · obtain ⟨habsent, hfalse, hothers⟩ := hnew state hstate
      exact ⟨habsent, hfalse, List.forall_mem_cons.mpr
        ⟨List.not_mem_nil, fun other hother => (hothers other hother).2⟩⟩
    · obtain ⟨habsent, hfalse, hothers⟩ := h.pending other hmem state hstate
      exact ⟨habsent, hfalse, List.forall_mem_cons.mpr ⟨List.not_mem_nil, hothers⟩⟩
  pendingOnce := by
    rw [List.flatMap_cons, List.nodup_append]
    refine ⟨?_, h.pendingOnce, ?_⟩
    · cases f with
      | user id => exact List.nodup_nil
      | wrapper state type g => exact List.nodup_singleton state
    · rintro a ha b hb rfl
      obtain ⟨other, hother, hpending⟩ := List.mem_flatMap.mp hb
      exact ((hnew a ha).2.2 other hother).1 hpending
  firing := by
    intro other hmem state hstate
    obtain rfl | hmem := List.mem_cons.mp hmem
    · exact absurd hstate List.not_mem_nil
    · exact h.firing other hmem state hstate
  quiet := List.Pairwise.cons (fun _ _ _ _ => List.not_mem_nil) h.quiet
  fired := h.fired
  calls := h.calls
  called := h.called

/-- `_addListener` of a function that is no wrapper, or of one just made. -/
theorem Once.addFunction (h : Once made ⟨s, stack⟩) (hmade : MadeBy made s.fired.top f)
    (hlistens : ListensTo type f) (prepend : Bool)
    (hnew : ∀ state ∈ states [f], s.Unknown stack state) :
    (s.addFunction type f prepend).Lands (Once made) stack := by
  rw [addFunction_eq h.wellFormed]
  split
  · refine h.insert hmade hlistens prepend fun state hstate => ?_
    obtain ⟨habsent, hfalse, hothers⟩ := hnew state hstate
    exact ⟨habsent, hfalse, fun other hother =>
      ⟨(hothers other hother).1, fun hf => (hothers other hother).2 (mentioned_of_firing hf)⟩⟩
  · exact (h.pushAdding hmade hlistens prepend hnew).begin newListenerKey newListenerKey _

/-- A state is made for a listener that is no wrapper. -/
theorem Once.alloc (h : Once made ⟨s, stack⟩) (type : PropertyKey) (id : Nat) :
    Once (Function.update made s.fired.top (.wrapper s.fired.top type (.user id)))
      ⟨{ s with fired := s.fired.alloc false }, stack⟩ := by
  have hmade : ∀ f, MadeBy made s.fired.top f →
      MadeBy (Function.update made s.fired.top (.wrapper s.fired.top type (.user id)))
        (s.fired.top + 1) f := by
    intro f hf state hstate
    obtain ⟨hlt, heq⟩ := hf state hstate
    exact ⟨by omega, by rw [Function.update_of_ne (by omega)]; exact heq⟩
  have hget : ∀ state b, s.fired.get? state = some b →
      (s.fired.alloc false).get? state = some b := fun state b => Heap.get?_alloc_of_some
  have htrue : ∀ state, (s.fired.alloc false).get? state = some true →
      s.fired.get? state = some true := by
    intro state hstate
    rw [Heap.get?_alloc] at hstate
    split at hstate
    · exact absurd hstate (by simp)
    · exact hstate
  have hsame : SameTable s { s with fired := s.fired.alloc false } := ⟨rfl, rfl, fun _ => rfl⟩
  exact {
    wellFormed := hsame.wellFormed h.wellFormed
    maker := by
      intro state hlt
      by_cases hstate : state = s.fired.top
      · exact ⟨type, id, by rw [hstate, Function.update_self]⟩
      · have hlt : state < s.fired.top + 1 := hlt
        rw [Function.update_of_ne hstate]
        exact h.maker state (by
          show state < s.fired.top
          omega)
    live := by
      intro state hlt
      by_cases hstate : state = s.fired.top
      · exact ⟨false, hstate ▸ Heap.get?_alloc_top _ _⟩
      · have hlt : state < s.fired.top + 1 := hlt
        obtain ⟨b, hb⟩ := h.live state (by
          show state < s.fired.top
          omega)
        exact ⟨b, hget state b hb⟩
    table := fun q f hf => ⟨hmade f (h.table q f hf).1, (h.table q f hf).2⟩
    single := h.single
    frames := by
      intro frame hmem
      have hframe := h.frames frame hmem
      match frame, hframe with
      | .own (.emitting _ rest _), hframe => exact fun f hf => hmade f (hframe f hf)
      | .own (.adding _ f _), hframe => exact ⟨hmade f hframe.1, hframe.2⟩
      | .own (.onceWrapper _ _ _ _), hframe => exact hmade _ hframe
      | .own (.firing _ _ _), hframe => exact ⟨Nat.lt_succ_of_lt hframe.1, hframe.2⟩
      | .own (.removing _ _ _), _ => trivial
      | .own (.removingKeys _), _ => trivial
      | .own .clearing, _ => trivial
      | .foreign _, _ => trivial
    pending := fun frame hmem state hstate =>
      have hpending := h.pending frame hmem state hstate
      ⟨hpending.1, hget state false hpending.2.1, hpending.2.2⟩
    pendingOnce := h.pendingOnce
    firing := fun frame hmem state hstate =>
      have hfiring := h.firing frame hmem state hstate
      ⟨hfiring.1, hget state false hfiring.2⟩
    quiet := h.quiet
    fired := fun state hstate => h.fired state (htrue state hstate)
    calls := h.calls
    called := fun state hstate => hget state true (h.called state hstate) }

/-- The next state is one that nobody knows. -/
theorem Once.unknown_top (h : Once made ⟨s, stack⟩) :
    Unknown { s with fired := s.fired.alloc false } stack s.fired.top := by
  refine ⟨fun type hmem => ?_, Heap.get?_alloc_top _ _,
    fun other hother => ⟨fun hp => ?_, fun hm => ?_⟩⟩
  · obtain ⟨f, hf, hstate⟩ := mem_states.mp hmem
    exact Nat.lt_irrefl _ ((h.table type f hf).1 _ hstate).1
  · exact Nat.lt_irrefl _ ((h.frames other hother).lt_top (.inr hp))
  · exact Nat.lt_irrefl _ ((h.frames other hother).lt_top (.inl hm))

/-! ## Removals -/

theorem Once.announce (h : Once made ⟨s, stack⟩) (type : PropertyKey) (f : Listener) :
    (s.announce type f).Lands (Once made) stack := by
  rw [announce_eq h.wellFormed]
  split
  · exact h
  · exact h.begin removeListenerKey removeListenerKey _

theorem Once.removeFunction (h : Once made ⟨s, stack⟩) (type : PropertyKey) (listener : Listener) :
    (s.removeFunction type listener).Lands (Once made) stack := by
  obtain ⟨-, heq⟩ | ⟨f, t, hremoval, heq⟩ := removeFunction_spec h.wellFormed type listener
  · rw [heq]
    exact h
  · rw [heq]
    exact (h.assigns hremoval.assigns (eraseLast_sublist _ _)).announce type _

theorem Once.removeAllOf (h : Once made ⟨s, stack⟩) (type : PropertyKey) :
    (s.removeAllOf type).Lands (Once made) stack := by
  by_cases hnobody : s.view removeListenerKey = []
  · obtain ⟨t, heq, hassigns⟩ := removeAllOf_silent h.wellFormed hnobody type
    rw [heq]
    exact h.assigns hassigns (List.nil_sublist _)
  · obtain ⟨-, heq⟩ | ⟨f, -, heq⟩ | ⟨array, -, -, heq⟩ :=
      removeAllOf_announced h.wellFormed hnobody type
    · rw [heq]
      exact h
    · rw [heq]
      exact h.removeFunction type f
    · rw [heq]
      exact h.pushPlain trivial rfl rfl rfl

theorem Once.clear (h : Once made ⟨s, stack⟩) : Once made ⟨s.clear, stack⟩ :=
  h.shrink (wellFormed_clear s) (fun _ => List.nil_sublist _) rfl rfl

/-! ## The wrapper -/

/-- Two wrappers with one state are the same, and stand in one list. -/
theorem Once.eq_wrapper (h : Once made ⟨s, stack⟩) {g : Listener} {q : PropertyKey}
    (hw : MadeBy made s.fired.top (.wrapper state type f)) (hg : g ∈ s.view q)
    (hstate : g.state? = some state) : g = .wrapper state type f ∧ q = type := by
  obtain ⟨hmade, hlistens⟩ := h.table q g hg
  have hgw : g = .wrapper state type f := ((hmade state hstate).2).trans (hw state rfl).2.symm
  exact ⟨hgw, (hlistens state type f hgw).symm⟩

/-- After its wrapper has removed itself, no list has the state. -/
theorem Once.absent_of_removal (h : Once made ⟨s, stack⟩)
    (hw : MadeBy made s.fired.top (.wrapper state type f)) {g : Listener}
    (hremoval : Removal s t type (.wrapper state type f) g) : t.Absent state := by
  obtain ⟨pre, post, hview, hview', -⟩ := hremoval.split
  have hg : g ∈ s.view type := by
    rw [hview]
    exact List.mem_append_right _ List.mem_cons_self
  -- a wrapper of this wrapper would be one that the program made
  have hgw : g = .wrapper state type f := by
    have hmatched := hremoval.matched
    rw [matchesListener, Bool.or_eq_true, decide_eq_true_eq, decide_eq_true_eq] at hmatched
    obtain hgw | hgw := hmatched
    · exact hgw
    · cases g with
      | user id => exact absurd hgw (by simp [Listener.listener])
      | wrapper state' type' g' =>
          obtain ⟨hlt, heq⟩ := (h.table type _ hg).1 state' rfl
          obtain ⟨q, id, hmade⟩ := h.maker state' hlt
          have hg' := (Listener.wrapper.inj (heq.trans hmade)).2.2
          rw [hg'] at hgw
          exact absurd hgw (by simp [Listener.listener])
  intro q hq
  obtain ⟨g', hg', hstate⟩ := mem_states.mp hq
  have hsub := hremoval.assigns.sublist (eraseLast_sublist _ _) q
  obtain ⟨-, rfl⟩ := h.eq_wrapper hw (hsub.subset hg') hstate
  have hnodup := h.single q
  have hview : s.view q = pre ++ g :: post := hview
  rw [hview, hgw, states_append] at hnodup
  rw [hview', states_append] at hq
  have hnotin : state ∉ states pre ++ states post := by
    have hperm : (states pre ++ state :: states post).Perm (state :: (states pre ++ states post)) :=
      List.perm_middle
    exact (List.nodup_cons.mp (hperm.nodup_iff.mp hnodup)).1
  exact hnotin hq

/-- The wrapper has removed itself; what waits below it does not wait for the same. -/
theorem Once.pushFiring {args : List Value}
    (h : Once made ⟨s, .own (.onceWrapper state type f args) :: stack⟩)
    (habsent : s.Absent state) (hfired : s.fired.get? state ≠ some true) :
    Once made ⟨s, .own (.firing state f args) :: stack⟩ := by
  have hw : MadeBy made s.fired.top (.wrapper state type f) := h.frames _ List.mem_cons_self
  obtain ⟨hlt, heq⟩ := hw state rfl
  have hfalse : s.fired.get? state = some false := by
    obtain ⟨b, hb⟩ := h.live state hlt
    cases b with
    | false => exact hb
    | true => exact absurd hb hfired
  have huser : ∃ id, f = .user id := by
    obtain ⟨q, id, hmade⟩ := h.maker state hlt
    exact ⟨id, (Listener.wrapper.inj (heq.trans hmade)).2.2⟩
  have hbelow : Once made ⟨s, stack⟩ :=
    once_suffixClosed made _ _ _ (List.suffix_cons _ _) h
  exact { hbelow with
    frames := List.forall_mem_cons.mpr ⟨⟨hlt, huser⟩, hbelow.frames⟩
    pending := by
      intro other hmem state' hstate'
      obtain rfl | hmem := List.mem_cons.mp hmem
      · exact absurd hstate' List.not_mem_nil
      · obtain ⟨hs, hp, hothers⟩ := h.pending other (List.mem_cons_of_mem _ hmem) state' hstate'
        obtain ⟨hwrapper, hrest⟩ := List.forall_mem_cons.mp hothers
        exact ⟨hs, hp, List.forall_mem_cons.mpr ⟨hwrapper, hrest⟩⟩
    pendingOnce := hbelow.pendingOnce
    firing := by
      intro other hmem state' hstate'
      obtain rfl | hmem := List.mem_cons.mp hmem
      · rw [List.mem_singleton.mp hstate']
        exact ⟨habsent, hfalse⟩
      · exact hbelow.firing other hmem state' hstate'
    quiet := List.Pairwise.cons (fun other hother => (List.pairwise_cons.mp h.quiet).1 other hother)
      hbelow.quiet }

theorem Once.resumeWrapper {args : List Value}
    (h : Once made ⟨s, .own (.onceWrapper state type f args) :: stack⟩) :
    (resume (.onceWrapper state type f args) s).Lands (Once made) stack := by
  have hw : MadeBy made s.fired.top (.wrapper state type f) := h.frames _ List.mem_cons_self
  rw [resume]
  by_cases hfired : s.fired.get? state = some true
  · rw [if_pos hfired]
    exact once_suffixClosed made _ _ _ (List.suffix_cons _ _) h
  · rw [if_neg hfired]
    apply Reply.Lands.andThen (once_suffixClosed made)
    obtain ⟨hnone, heq⟩ | ⟨g, t, hremoval, heq⟩ :=
      removeFunction_spec h.wellFormed type (.wrapper state type f)
    · rw [show s.removeListener type (.function (.wrapper state type f)) = .go s [] from heq]
      refine h.pushFiring (fun q hq => ?_) hfired
      obtain ⟨g, hg, hstate⟩ := mem_states.mp hq
      obtain ⟨rfl, rfl⟩ := h.eq_wrapper hw hg hstate
      exact hnone _ hg (by simp [matchesListener])
    · rw [show s.removeListener type (.function (.wrapper state type f)) =
        t.announce type g.unwrap from heq]
      have ht := h.assigns hremoval.assigns (eraseLast_sublist _ _)
      refine (ht.pushFiring (h.absent_of_removal hw hremoval) ?_).announce type _
      rw [hremoval.assigns.rest.fired]
      exact hfired

/-- `fired` is set, and the listener is called. -/
theorem Once.resumeFiring {args : List Value}
    (h : Once made ⟨s, .own (.firing state f args) :: stack⟩) :
    (resume (.firing state f args) s).Lands (Once made) stack := by
  obtain ⟨hlt, id, rfl⟩ := h.frames _ List.mem_cons_self
  obtain ⟨habsent, hfalse⟩ := h.firing _ List.mem_cons_self state List.mem_cons_self
  have hbelow : Once made ⟨s, stack⟩ :=
    once_suffixClosed made _ _ _ (List.suffix_cons _ _) h
  -- nothing below is about to add the wrapper, or waits to call its listener
  have hpending : ∀ other ∈ stack, state ∉ pendingOf other := fun other hother hstate =>
    (h.pending other (List.mem_cons_of_mem _ hother) state hstate).2.2 _ List.mem_cons_self
      List.mem_cons_self
  have hquiet : ∀ other ∈ stack, state ∉ firingOf other := fun other hother hstate =>
    (List.pairwise_cons.mp h.quiet).1 other hother state hstate List.mem_cons_self
  have hother : ∀ state', state' ≠ state →
      (s.fire state).fired.get? state' = s.fired.get? state' := fun state' hne =>
    Heap.get?_modify_ne hne
  have hself : (s.fire state).fired.get? state = some true := Heap.get?_modify_self hfalse
  have hfire : Once made ⟨s.fire state, stack⟩ := { hbelow with
    wellFormed := SameTable.wellFormed (s := s) ⟨rfl, rfl, fun _ => rfl⟩ h.wellFormed
    live := by
      intro state' hlt'
      by_cases hne : state' = state
      · exact ⟨true, hne ▸ hself⟩
      · obtain ⟨b, hb⟩ := h.live state' hlt'
        exact ⟨b, (hother state' hne).trans hb⟩
    pending := by
      intro other hmem state' hstate'
      have hne : state' ≠ state := fun heq => hpending other hmem (heq ▸ hstate')
      obtain ⟨hs, hp, hothers⟩ := hbelow.pending other hmem state' hstate'
      exact ⟨hs, (hother state' hne).trans hp, hothers⟩
    firing := by
      intro other hmem state' hstate'
      have hne : state' ≠ state := fun heq => hquiet other hmem (heq ▸ hstate')
      obtain ⟨hs, hp⟩ := hbelow.firing other hmem state' hstate'
      exact ⟨hs, (hother state' hne).trans hp⟩
    fired := by
      intro state' hstate'
      by_cases hne : state' = state
      · exact hne ▸ habsent
      · exact hbelow.fired state' ((hother state' hne).symm.trans hstate')
    calls := by
      refine List.nodup_append.mpr ⟨hbelow.calls, List.nodup_singleton state, ?_⟩
      rintro a ha b hb rfl
      obtain rfl := List.mem_singleton.mp hb
      have htrue := hbelow.called a ha
      rw [show s.fired.get? a = some false from hfalse] at htrue
      exact absurd htrue (by simp)
    called := by
      intro state' hstate'
      obtain hstate' | hstate' := List.mem_append.mp hstate'
      · by_cases hne : state' = state
        · exact hne ▸ hself
        · exact (hother state' hne).trans (hbelow.called state' hstate')
      · exact List.mem_singleton.mp hstate' ▸ hself }
  exact hfire.pushPlain trivial rfl rfl rfl

/-- A copy of the listeners that is worked off. -/
theorem Once.resumeEmitting {id : Nat} {rest : List Listener} {args : List Value}
    (h : Once made ⟨s, .own (.emitting id rest args) :: stack⟩) :
    (resume (.emitting id rest args) s).Lands (Once made) stack := by
  have hbelow : Once made ⟨s, stack⟩ :=
    once_suffixClosed made _ _ _ (List.suffix_cons _ _) h
  cases rest with
  | nil => exact hbelow.sameTable ⟨rfl, rfl, fun _ => rfl⟩ rfl rfl
  | cons f rest =>
      have hmade : ∀ g ∈ f :: rest, MadeBy made s.fired.top g := h.frames _ List.mem_cons_self
      have hknown : ∀ state ∈ states (f :: rest), ∀ other ∈ stack,
          state ∉ pendingOf other ∧ state ∉ firingOf other := by
        intro state hstate other hother
        refine ⟨fun hp => ?_, fun hf => ?_⟩
        · have hpending := h.pending other (List.mem_cons_of_mem _ hother) state hp
          exact hpending.2.2 _ List.mem_cons_self hstate
        · exact (List.pairwise_cons.mp h.quiet).1 other hother state hf hstate
      have hrest : Once made ⟨s, .own (.emitting id rest args) :: stack⟩ :=
        hbelow.push (fun g hg => hmade g (List.mem_cons_of_mem _ hg)) rfl rfl fun state hstate =>
          hknown state ((states_sublist (List.sublist_cons_self f rest)).subset hstate)
      have hcall : Once made ⟨s.call id f args, .own (.emitting id rest args) :: stack⟩ :=
        hrest.sameTable ⟨rfl, rfl, fun _ => rfl⟩ rfl rfl
      cases f with
      | user id => exact hcall.pushPlain trivial rfl rfl rfl
      | wrapper state type g =>
          refine hcall.push (hmade _ List.mem_cons_self) rfl rfl fun state' hstate' => ?_
          obtain rfl := List.mem_singleton.mp hstate'
          exact List.forall_mem_cons.mpr
            ⟨⟨List.not_mem_nil, List.not_mem_nil⟩, hknown _ List.mem_cons_self⟩

/-- `_addListener` goes on. -/
theorem Once.resumeAdding {prepend : Bool}
    (h : Once made ⟨s, .own (.adding type f prepend) :: stack⟩) :
    (resume (.adding type f prepend) s).Lands (Once made) stack := by
  have hbelow : Once made ⟨s, stack⟩ :=
    once_suffixClosed made _ _ _ (List.suffix_cons _ _) h
  obtain ⟨hmade, hlistens⟩ := h.frames _ List.mem_cons_self
  refine hbelow.insert hmade hlistens prepend fun state hstate => ?_
  obtain ⟨habsent, hfalse, hothers⟩ := h.pending _ List.mem_cons_self state hstate
  have hdisjoint := h.pendingOnce
  rw [List.flatMap_cons, List.nodup_append] at hdisjoint
  refine ⟨habsent, hfalse, fun other hother => ⟨fun hp => ?_, fun hf => ?_⟩⟩
  · exact hdisjoint.2.2 state hstate state (List.mem_flatMap.mpr ⟨other, hother, hp⟩) rfl
  · exact hothers other (List.mem_cons_of_mem _ hother) (mentioned_of_firing hf)

theorem Once.resume {k : Activation} (h : Once made ⟨s, .own k :: stack⟩) :
    (resume k s).Lands (Once made) stack := by
  have hbelow : Once made ⟨s, stack⟩ :=
    once_suffixClosed made _ _ _ (List.suffix_cons _ _) h
  match k, h with
  | .emitting id rest args, h => exact h.resumeEmitting
  | .adding type f prepend, h => exact h.resumeAdding
  | .onceWrapper state type f args, h => exact h.resumeWrapper
  | .firing state f args, h => exact h.resumeFiring
  | .removing type array 0, _ => exact hbelow
  | .removing type array (i + 1), _ =>
      have hloop : Once made ⟨s, .own (.removing type array i) :: stack⟩ :=
        hbelow.pushPlain trivial rfl rfl rfl
      rw [Emitter.resume]
      apply Reply.Lands.andThen (once_suffixClosed made)
      cases (s.items array)[i]? with
      | none => exact hloop
      | some f => exact hloop.removeFunction type f
  | .removingKeys [], _ =>
      have hloop : Once made ⟨s, .own .clearing :: stack⟩ := hbelow.pushPlain trivial rfl rfl rfl
      exact Reply.Lands.andThen (once_suffixClosed made) (hloop.removeAllOf _)
  | .removingKeys (key :: keys), _ =>
      have hloop : Once made ⟨s, .own (.removingKeys keys) :: stack⟩ :=
        hbelow.pushPlain trivial rfl rfl rfl
      rw [Emitter.resume]
      split
      · exact hloop
      · exact Reply.Lands.andThen (once_suffixClosed made) (hloop.removeAllOf key)
  | .clearing, _ => exact hbelow.clear

/-- The wrappers are those of some assignment of states. -/
def OnceSound (s : State) : Prop := ∃ made, Once made s

theorem Once.sound {r : Reply} (h : r.Lands (Once made) stack) : r.Lands OnceSound stack :=
  h.imp fun _ hs => ⟨made, hs⟩

theorem Once.perform {c : Call} (h : Once made ⟨s, stack⟩) (hc : LeavesWrappers (.call c)) :
    (s.perform c).Lands OnceSound stack := by
  match c, hc with
  | .addListener type (.function f) prepend, hc =>
      refine (h.addFunction (madeBy_of_plain hc) (listensTo_of_plain hc) prepend ?_).imp
        fun _ hs => ⟨made, hs⟩
      rw [states_of_plain hc]
      exact fun _ hstate => absurd hstate List.not_mem_nil
  | .addListener type (.other _) prepend, _ => exact ⟨made, h⟩
  | .once type (.function f) prepend, hc =>
      obtain ⟨id, rfl⟩ := exists_user_of_plain hc
      refine Once.sound ((h.alloc type id).addFunction ?_ ?_ prepend ?_)
      · intro state hstate
        obtain rfl := Option.some.inj hstate
        exact ⟨Nat.lt_succ_self _, by rw [Function.update_self]⟩
      · intro state type' g heq
        exact (Listener.wrapper.inj heq).2.1.symm
      · intro state hstate
        obtain rfl := List.mem_singleton.mp hstate
        exact h.unknown_top
  | .once type (.other _) prepend, _ => exact ⟨made, h⟩
  | .removeListener type (.function f), _ => exact Once.sound (h.removeFunction type f)
  | .removeListener type (.other _), _ => exact ⟨made, h⟩
  | .removeAllListeners (some type), _ => exact Once.sound (h.removeAllOf type)
  | .removeAllListeners none, _ =>
      show (s.removeEverything).Lands OnceSound stack
      rw [removeEverything]
      split
      · exact ⟨made, h.clear⟩
      · exact ⟨made, h.pushPlain trivial rfl rfl rfl⟩
  | .emit type args, _ =>
      show (s.emit type args).Lands OnceSound stack
      by_cases hnil : s.view type = []
      · obtain ⟨-, heq⟩ | ⟨-, heq⟩ := emit_nil h.wellFormed hnil args
        · rw [heq]
          exact ⟨made, h⟩
        · rw [heq]
          exact ⟨made, h.sameTable ⟨rfl, rfl, fun _ => rfl⟩ rfl rfl⟩
      · rw [emit_eq hnil]
        exact Once.sound (h.begin type type args)
  | .setMaxListeners n, _ =>
      show (s.setMaxListeners n).Lands OnceSound stack
      rw [setMaxListeners]
      split
      · exact ⟨made, h⟩
      · exact ⟨made, h.sameTable ⟨rfl, rfl, fun _ => rfl⟩ rfl rfl⟩
  | .setDefaultMaxListeners n, _ =>
      show (s.setDefaultMaxListeners n).Lands OnceSound stack
      rw [setDefaultMaxListeners]
      split
      · exact ⟨made, h⟩
      · exact ⟨made, h.sameTable ⟨rfl, rfl, fun _ => rfl⟩ rfl rfl⟩
  | .apply f args, hc =>
      obtain ⟨id, rfl⟩ := exists_user_of_plain hc
      exact ⟨made, h.pushPlain trivial rfl rfl rfl⟩

theorem keeps_once : machine.KeepsWhen (fun _ a => LeavesWrappers a) OnceSound := by
  refine keepsWhen_of_replies (fun d stack below hbelow h => ?_) ?_ ?_
  · obtain ⟨made, h⟩ := h
    exact ⟨made, once_suffixClosed made d stack below hbelow h⟩
  · rintro c d stack ⟨made, h⟩ hc
    exact h.perform hc
  · rintro k d rest ⟨made, h⟩
    exact Once.sound h.resume

/-- **A listener added by `once` is called once.**  In a run in which the program
    leaves the wrappers alone, no state has its listener called twice, and from
    the call on no name has the wrapper: neither an emission of the event by the
    handlers of 'removeListener', nor one that began before, calls it again. -/
theorem once_called_once (as : List (Label Call)) (s : State) (has : ∀ a ∈ as, LeavesWrappers a)
    (hrun : machine.run as = .next s) :
    s.data.onceCalls.Nodup ∧
      ∀ state ∈ s.data.onceCalls, ∀ type, ∀ f ∈ s.data.view type, f.state? ≠ some state := by
  obtain ⟨made, h⟩ := keeps_once.runFrom as machine.init s ⟨_, once_init⟩
    (StepsMeet.of_mem (fun a ha _ => has a ha) _) hrun
  refine ⟨h.calls, fun state hstate type f hf heq => ?_⟩
  exact h.fired state (h.called state hstate) type (mem_states.mpr ⟨f, hf, heq⟩)

/-- The handler of 'removeListener' emits the event again before the listener of
    `once` is called. -/
def emittedWhileRemoved : List (Label Call) :=
  [.call (.addListener removeListenerKey (.function (.user 1)) false),
    .call (.once (.symbol 0) (.function (.user 0)) false),
    .call (.emit (.symbol 0) []), .resume, .resume, .resume,
    .call (.emit (.symbol 0) []), .ret, .resume, .resume, .ret, .resume]

theorem once_called_once_emitted :
    ∃ s, machine.run emittedWhileRemoved = .next s ∧ s.data.onceCalls.Nodup ∧
      ∀ state ∈ s.data.onceCalls, ∀ type, ∀ f ∈ s.data.view type, f.state? ≠ some state :=
  ⟨_, rfl, once_called_once emittedWhileRemoved _
    (by simp [emittedWhileRemoved, LeavesWrappers, Listener.state?]) rfl⟩

end Emitter

end NoJs.Events
