/-
  NoJs.Events.Lists

  The emitter as a table of lists, over whole runs.

  `Lists` is what a program knows about an emitter: the listeners of each name, in
  order.  `Change` says what one step may do to them.  A run of the emitter, with
  listeners that call it again while it is at work and that may throw, is a run
  of `lists` under the changes that its steps ask for (`run_simulates_lists`):
  the single function in place of an array, the arrays that change in place, the new
  table in place of the last entry and the count are never to be seen.
-/

import Mathlib.Data.List.Basic
import NoJs.Events.Listeners

namespace NoJs.Events

open Callbacks Machine

/-! ## The abstract emitter -/

/-- For each name its listeners. -/
abbrev Lists := PropertyKey → List Listener

inductive Change where
  | keep
  | add (type : PropertyKey) (f : Listener) (prepend : Bool)
  /-- The last function that `removeListener(type, listener)` may take. -/
  | remove (type : PropertyKey) (listener : Listener)
  | clear (type : PropertyKey)
  | clearAll
  deriving DecidableEq, Repr

def Change.apply : Change → Lists → Lists
  | keep, lists => lists
  | add type f prepend, lists => Function.update lists type (added f prepend (lists type))
  | remove type listener, lists =>
      Function.update lists type (eraseLast (matchesListener listener) (lists type))
  | clear type, lists => Function.update lists type []
  | clearAll, _ => fun _ => []

/-- The lists by themselves. -/
def lists : Machine Lists Change := ⟨fun _ => [], fun l c => .next (c.apply l)⟩

/-- A listener is added at once if nobody has to be told first. -/
def addChange (l : Lists) (type : PropertyKey) (f : Listener) (prepend : Bool) : Change :=
  if l newListenerKey = [] then .add type f prepend else .keep

/-- The list goes at once if nobody has to be told, else one by one. -/
def removeAllChange (l : Lists) (type : PropertyKey) : Change :=
  if l removeListenerKey = [] then .clear type
  else match l type with
    | [f] => .remove type f
    | _ => .keep

/-- What a call asks for. -/
def Call.change (s : Emitter) : Call → Change
  | .addListener type (.function f) prepend => addChange s.view type f prepend
  | .once type (.function f) prepend =>
      addChange s.view type (.wrapper s.fired.top type f) prepend
  | .removeListener type (.function f) => .remove type f
  | .removeAllListeners (some type) => removeAllChange s.view type
  | .removeAllListeners none => if s.view removeListenerKey = [] then .clearAll else .keep
  | _ => .keep

/-- What a suspended function asks for when it goes on. -/
def Activation.change (s : Emitter) : Activation → Change
  | .adding type f prepend => .add type f prepend
  | .onceWrapper state type f _ =>
      if s.fired.get? state = some true then .keep else .remove type (.wrapper state type f)
  | .removing type array (i + 1) =>
      match (s.items array)[i]? with
      | some f => .remove type f
      | none => .keep
  | .removingKeys [] => removeAllChange s.view removeListenerKey
  | .removingKeys (key :: _) =>
      if key = removeListenerKey then .keep else removeAllChange s.view key
  | .clearing => .clearAll
  | _ => .keep

/-- What a step asks for. -/
def change (s : Emitter.State) : Label Call → Change
  | .call c => c.change s.data
  | .resume =>
      match s.stack with
      | .own k :: _ => k.change s.data
      | _ => .keep
  | _ => .keep

/-! ## One step -/

namespace Emitter

variable {s t u : Emitter} {type : PropertyKey} {f : Listener} {c : Change}

/-- `t` represents the lists of `s` after the change. -/
structure Performs (s t : Emitter) (c : Change) : Prop where
  wellFormed : t.WellFormed
  view : t.view = c.apply s.view

theorem Performs.of_sameTable (h : Performs s t c) (ht : SameTable t u) : Performs s u c where
  wellFormed := ht.wellFormed h.wellFormed
  view := ht.view.trans h.view

theorem performs_keep (hs : s.WellFormed) (ht : SameTable s t) : Performs s t .keep :=
  Performs.of_sameTable ⟨hs, rfl⟩ ht

theorem Assigns.performs {list : List Listener} (h : Assigns s t type list)
    (hc : c.apply s.view = Function.update s.view type list) : Performs s t c where
  wellFormed := h.wellFormed
  view := h.view.trans hc.symm

theorem addFunction_performs (hs : s.WellFormed) (type : PropertyKey) (f : Listener)
    (prepend : Bool) :
    Performs s (s.addFunction type f prepend).data (addChange s.view type f prepend) := by
  rw [addFunction_eq hs, addChange]
  split
  · exact (assigns_insert hs type f prepend).performs rfl
  · rw [Reply.andThen_data]
    exact performs_keep hs ⟨rfl, rfl, fun _ => rfl⟩

theorem removeFunction_performs (hs : s.WellFormed) (type : PropertyKey) (listener : Listener) :
    Performs s (s.removeFunction type listener).data (.remove type listener) := by
  obtain ⟨hnone, heq⟩ | ⟨f, t, hremoval, heq⟩ := removeFunction_spec hs type listener
  · rw [heq]
    refine ⟨hs, ?_⟩
    rw [Change.apply, eraseLast_of_forall hnone, Function.update_eq_self]
    rfl
  · rw [heq]
    exact (hremoval.assigns.performs rfl).of_sameTable
      (sameTable_announce hremoval.assigns.wellFormed _ _)

theorem removeAllOf_performs (hs : s.WellFormed) (type : PropertyKey) :
    Performs s (s.removeAllOf type).data (removeAllChange s.view type) := by
  rw [removeAllChange]
  split
  · next hnobody =>
    obtain ⟨t, heq, hassigns⟩ := removeAllOf_silent hs hnobody type
    rw [heq]
    exact hassigns.performs rfl
  · next hsome =>
    obtain ⟨hnil, heq⟩ | ⟨f, hone, heq⟩ | ⟨array, -, hlength, heq⟩ :=
      removeAllOf_announced hs hsome type
    · rw [heq, hnil]
      exact performs_keep hs (sameTable_refl s)
    · rw [heq, hone]
      exact removeFunction_performs hs type f
    · rw [heq]
      match hview : s.view type, hlength with
      | _ :: _ :: _, _ => exact performs_keep hs (sameTable_refl s)

theorem perform_performs (hs : s.WellFormed) (c : Call) :
    Performs s (s.perform c).data (c.change s) := by
  cases c with
  | addListener type listener prepend =>
      cases listener with
      | function f => exact addFunction_performs hs type f prepend
      | other type => exact performs_keep hs (sameTable_refl s)
  | once type listener prepend =>
      cases listener with
      | function f =>
          have hsame : SameTable s { s with fired := s.fired.alloc false } :=
            ⟨rfl, rfl, fun _ => rfl⟩
          have hadd := addFunction_performs (hsame.wellFormed hs) type
            (.wrapper s.fired.top type f) prepend
          rw [hsame.view] at hadd
          exact ⟨hadd.wellFormed, hadd.view.trans (by rw [hsame.view]; rfl)⟩
      | other type => exact performs_keep hs (sameTable_refl s)
  | removeListener type listener =>
      cases listener with
      | function f => exact removeFunction_performs hs type f
      | other type => exact performs_keep hs (sameTable_refl s)
  | removeAllListeners type =>
      cases type with
      | some type => exact removeAllOf_performs hs type
      | none =>
          show Performs s s.removeEverything.data _
          rw [removeEverything, Call.change]
          cases hget : s.events.get removeListenerKey with
          | none =>
              rw [if_pos (view_none hget)]
              exact ⟨wellFormed_clear s, view_clear s⟩
          | some slot =>
              rw [if_neg ((isSome_get hs).mp (by rw [hget]; rfl))]
              exact performs_keep hs (sameTable_refl s)
  | emit type args => exact performs_keep hs (sameTable_emit hs type args)
  | setMaxListeners n =>
      refine performs_keep hs ?_
      show SameTable s (s.setMaxListeners n).data
      rw [setMaxListeners]
      split <;> exact ⟨rfl, rfl, fun _ => rfl⟩
  | setDefaultMaxListeners n =>
      refine performs_keep hs ?_
      show SameTable s (s.setDefaultMaxListeners n).data
      rw [setDefaultMaxListeners]
      split <;> exact ⟨rfl, rfl, fun _ => rfl⟩
  | apply f args => exact performs_keep hs (sameTable_refl s)

theorem resume_performs (hs : s.WellFormed) (k : Activation) :
    Performs s (resume k s).data (k.change s) := by
  match k with
  | .emitting id [] args => exact performs_keep hs ⟨rfl, rfl, fun _ => rfl⟩
  | .emitting id (f :: rest) args => exact performs_keep hs ⟨rfl, rfl, fun _ => rfl⟩
  | .adding type f prepend => exact (assigns_insert hs type f prepend).performs rfl
  | .onceWrapper state type f args =>
      rw [resume, Activation.change]
      split
      · exact performs_keep hs (sameTable_refl s)
      · rw [Reply.andThen_data]
        exact removeFunction_performs hs type _
  | .firing state f args => exact performs_keep hs ⟨rfl, rfl, fun _ => rfl⟩
  | .removing type array 0 => exact performs_keep hs (sameTable_refl s)
  | .removing type array (i + 1) =>
      rw [resume, Activation.change, Reply.andThen_data]
      cases (s.items array)[i]? with
      | none => exact performs_keep hs (sameTable_refl s)
      | some f => exact removeFunction_performs hs type f
  | .removingKeys [] =>
      rw [resume, Reply.andThen_data]
      exact removeAllOf_performs hs _
  | .removingKeys (key :: keys) =>
      rw [resume, Activation.change]
      split
      · exact performs_keep hs (sameTable_refl s)
      · rw [Reply.andThen_data]
        exact removeAllOf_performs hs key
  | .clearing => exact ⟨wellFormed_clear s, view_clear s⟩

/-! ## Every run -/

theorem keeps_wellFormed : machine.Keeps fun s => s.data.WellFormed :=
  keeps_data (fun c _ hs => (perform_performs hs c).wellFormed)
    (fun k _ hs => (resume_performs hs k).wellFormed)

theorem step_performs {s t : State} {a : Label Call} (hs : s.data.WellFormed)
    (h : library.step s a = .next t) : Performs s.data t.data (change s a) := by
  cases stepped_of_next h with
  | call c hruns =>
      rw [Reply.land_data]
      exact perform_performs hs c
  | resume k rest hstack =>
      rw [Reply.land_data, change, hstack]
      exact resume_performs hs k
  | ret f rest hstack => exact performs_keep hs (sameTable_refl _)
  | throw f rest hstack => exact performs_keep hs (sameTable_refl _)

/-- What the functions of the emitter that only read it answer. -/
structure Answers (s : Emitter) (l : Lists) : Prop where
  rawListeners : ∀ type, s.rawListeners type = l type
  listeners : ∀ type, s.listeners type = (l type).map Listener.unwrap
  listenerCount : ∀ type, s.listenerCount type = (l type).length
  eventNames : ∀ type, type ∈ s.eventNames ↔ l type ≠ []
  nodup_eventNames : s.eventNames.Nodup

theorem answers (hs : s.WellFormed) : Answers s s.view where
  rawListeners type := by
    rw [rawListeners, listenersOf]
    match hget : s.events.get type with
    | none => exact (view_none hget).symm
    | some (.one f) => exact (view_one hget).symm
    | some (.many array) =>
        rw [view_many hget]
        exact arrayClone_length _
  listeners type := by
    rw [listeners, listenersOf]
    match hget : s.events.get type with
    | none => rw [view_none hget]; rfl
    | some (.one f) => rw [view_one hget]; rfl
    | some (.many array) => rw [view_many hget]; rfl
  listenerCount type := by
    rw [listenerCount]
    match hget : s.events.get type with
    | none => rw [view_none hget]; rfl
    | some (.one f) => rw [view_one hget]; rfl
    | some (.many array) => rw [view_many hget]
  eventNames type := by
    rw [eventNames]
    split
    · rw [NullObject.mem_ownKeys, isSome_get hs]
    · next hcount =>
      have hzero : s.events.size = 0 := by
        have := hs.count
        omega
      rw [view_none (NullObject.get_of_size_eq_zero hzero type)]
      simp
  nodup_eventNames := by
    rw [eventNames]
    split
    · exact NullObject.nodup_ownKeys _
    · exact List.nodup_nil

/-- **The table represents lists in every state.**  However the program and its
    listeners call the emitter, `_eventsCount` is the number of names, every array
    has two listeners or more, and no array stands under two names. -/
theorem table_represents_lists (as : List (Label Call)) (s : State)
    (hrun : machine.run as = .next s) : s.data.WellFormed :=
  keeps_wellFormed.run wellFormed_init hrun

/-- Two listeners, the first of which removes the second while the event is emitted
    to both. -/
def removedWhileEmitting : List (Label Call) :=
  [.call (.addListener (.symbol 0) (.function (.user 0)) false),
    .call (.addListener (.symbol 0) (.function (.user 1)) false),
    .call (.emit (.symbol 0) []), .resume,
    .call (.removeListener (.symbol 0) (.function (.user 1))), .ret, .resume, .ret, .resume]

theorem table_represents_lists_removed :
    ∃ s, machine.run removedWhileEmitting = .next s ∧ s.data.WellFormed :=
  ⟨_, rfl, table_represents_lists removedWhileEmitting _ rfl⟩

/-- **Every run of the emitter is a run of the lists**, and in the state it reaches
    the emitter answers what the lists say. -/
theorem run_simulates_lists (as : List (Label Call)) (s : State)
    (hrun : machine.run as = .next s) :
    lists.run (machine.translate change machine.init as) = .next s.data.view ∧
      Answers s.data s.data.view := by
  refine ⟨?_, answers (keeps_wellFormed.run wellFormed_init hrun)⟩
  exact simulates (n := lists) (I := fun s : State => s.data.WellFormed) (fun s => s.data.view)
    change keeps_wellFormed (fun s a t hs hstep => congrArg Outcome.next
      (step_performs hs hstep).view.symm) as machine.init s wellFormed_init hrun

theorem run_simulates_lists_removed :
    ∃ s, machine.run removedWhileEmitting = .next s ∧
      lists.run (machine.translate change machine.init removedWhileEmitting) =
        .next s.data.view ∧ Answers s.data s.data.view :=
  ⟨_, rfl, run_simulates_lists removedWhileEmitting _ rfl⟩

end Emitter

end NoJs.Events
