/-
  NoJs.Events.Announcements

  Which events an emitter emits.

  Besides those that the program asks for there are two kinds: 'newListener', of a
  listener that is about to be added, and 'removeListener', of one that was
  removed, each only if somebody listens to it.  `asked` says for one step which
  emission it begins, in terms of the lists: at most one.  In every run the
  emissions are those asked for, in this order (`emissions_asked`); so a listener
  that is not found is not announced, and none that is removed goes unannounced,
  whichever function removes it.
-/

import Mathlib.Data.List.Basic
import NoJs.Events.Lists

namespace NoJs.Events

open Callbacks Machine

/-- An event and its arguments. -/
abbrev Signal := PropertyKey × List Value

def Emission.signal (e : Emission) : Signal := (e.type, e.args)

/-- The function that `removeListener(type, listener)` takes out of a list. -/
def removedFrom (listener : Listener) (list : List Listener) : Option Listener :=
  list.reverse.find? (matchesListener listener)

/-- A listener that a change removes one by one is announced to those who still
    listen then. -/
def announced (l : Lists) (c : Change) : List Signal :=
  match c with
  | .remove type listener =>
      match removedFrom listener (l type) with
      | some f =>
          if c.apply l removeListenerKey = [] then []
          else [(removeListenerKey, [.key type, .function f.unwrap])]
      | none => []
  | _ => []

/-- A listener that is to be added is announced first. -/
def announcedNew (l : Lists) (type : PropertyKey) (f : Listener) : List Signal :=
  if l newListenerKey = [] then [] else [(newListenerKey, [.key type, .function f])]

/-- The emission that a call begins; that of 'error' with no listener throws. -/
def Call.asked (s : Emitter) (c : Call) : List Signal :=
  match c with
  | .emit type args => if s.view type = [] ∧ type = errorKey then [] else [(type, args)]
  | .addListener type (.function f) _ => announcedNew s.view type f.unwrap
  | .once type (.function f) _ => announcedNew s.view type f
  | c => announced s.view (c.change s)

/-- The emission that a step begins. -/
def asked (s : Emitter.State) : Label Call → List Signal
  | .call c => c.asked s.data
  | .resume => announced s.data.view (change s .resume)
  | _ => []

/-- A list that only grows. -/
def record (α : Type) : Machine (List α) (List α) := ⟨[], fun l new => .next (l ++ new)⟩

theorem record_runFrom {α : Type} (l : List α) (news : List (List α)) :
    (record α).runFrom l news = .next (l ++ news.flatten) := by
  induction news generalizing l with
  | nil => simp [runFrom]
  | cons new news ih =>
      rw [runFrom_cons, show (record α).step l new = .next (l ++ new) from rfl,
        Outcome.bind_next, ih, List.flatten_cons, List.append_assoc]

theorem removedFrom_none {listener : Listener} {list : List Listener}
    (h : ∀ g ∈ list, ¬ matchesListener listener g) : removedFrom listener list = none := by
  rw [removedFrom, List.find?_eq_none]
  exact fun g hg => h g (List.mem_reverse.mp hg)

theorem removedFrom_append {listener f : Listener} {pre post : List Listener}
    (hf : matchesListener listener f) (hpost : ∀ g ∈ post, ¬ matchesListener listener g) :
    removedFrom listener (pre ++ f :: post) = some f := by
  have hreverse : (pre ++ f :: post).reverse = post.reverse ++ f :: pre.reverse := by simp
  have hnone : post.reverse.find? (matchesListener listener) = none :=
    List.find?_eq_none.mpr fun g hg => hpost g (List.mem_reverse.mp hg)
  rw [removedFrom, hreverse, List.find?_append, hnone, List.find?_cons_of_pos hf]
  rfl

namespace Emitter

variable {s t : Emitter} {type : PropertyKey} {f : Listener}

def signals (s : Emitter) : List Signal := s.emissions.map Emission.signal

theorem signals_begin (type : PropertyKey) (args : List Value) (list : List Listener)
    (s : Emitter) : (s.begin type args list).data.signals = s.signals ++ [(type, args)] := by
  rw [signals, signals, data_begin, List.map_append]
  rfl

theorem OnlyTable.signals (h : OnlyTable s t) : t.signals = s.signals := by
  rw [Emitter.signals, h.emissions, Emitter.signals]

theorem signals_modify {id : Nat} {g : Emission → Emission} (hg : ∀ e, (g e).signal = e.signal) :
    ({ s with emissions := s.emissions.modify id g } : Emitter).signals = s.signals := by
  show (s.emissions.modify id g).map Emission.signal = s.emissions.map Emission.signal
  apply List.ext_getElem?
  intro i
  rw [List.getElem?_map, List.getElem?_map]
  by_cases hid : id = i
  · subst hid
    rw [List.getElem?_modify_eq]
    cases s.emissions[id]? with
    | none => rfl
    | some e => exact congrArg some (hg e)
  · rw [List.getElem?_modify_ne _ _ hid]

theorem signals_finish (id : Nat) (s : Emitter) : (s.finish id).signals = s.signals :=
  signals_modify fun _ => rfl

theorem signals_call (id : Nat) (f : Listener) (args : List Value) (s : Emitter) :
    (s.call id f args).signals = s.signals :=
  signals_modify fun _ => rfl

/-! ## The functions of the emitter -/

theorem signals_addFunction (hs : s.WellFormed) (type : PropertyKey) (f : Listener)
    (prepend : Bool) :
    (s.addFunction type f prepend).data.signals =
      s.signals ++ announcedNew s.view type f.unwrap := by
  rw [addFunction_eq hs, announcedNew]
  split
  · rw [List.append_nil]
    exact (assigns_insert hs type f prepend).rest.signals
  · rw [Reply.andThen_data, signals_begin]

theorem signals_removeFunction (hs : s.WellFormed) (type : PropertyKey) (listener : Listener) :
    (s.removeFunction type listener).data.signals =
      s.signals ++ announced s.view (.remove type listener) := by
  rw [announced]
  obtain ⟨hnone, heq⟩ | ⟨f, t, hremoval, heq⟩ := removeFunction_spec hs type listener
  · rw [heq, removedFrom_none hnone, Reply.data_go, List.append_nil]
  · obtain ⟨pre, post, hview, -, hpost⟩ := hremoval.split
    have hfound : removedFrom listener (s.view type) = some f := by
      rw [hview]
      exact removedFrom_append hremoval.matched hpost
    have hafter : (Change.remove type listener).apply s.view = t.view := hremoval.assigns.view.symm
    rw [heq, hfound, hafter, announce_eq hremoval.assigns.wellFormed]
    dsimp only
    split
    · rw [List.append_nil]
      exact hremoval.assigns.rest.signals
    · rw [signals_begin, hremoval.assigns.rest.signals]

theorem signals_removeAllOf (hs : s.WellFormed) (type : PropertyKey) :
    (s.removeAllOf type).data.signals =
      s.signals ++ announced s.view (removeAllChange s.view type) := by
  rw [removeAllChange]
  split
  · next hnobody =>
    obtain ⟨t, heq, hassigns⟩ := removeAllOf_silent hs hnobody type
    rw [heq, show announced s.view (.clear type) = [] from rfl, List.append_nil]
    exact hassigns.rest.signals
  · next hsome =>
    obtain ⟨hnil, heq⟩ | ⟨f, hone, heq⟩ | ⟨array, -, hlength, heq⟩ :=
      removeAllOf_announced hs hsome type
    · rw [heq, hnil]
      exact (List.append_nil _).symm
    · rw [heq, hone]
      exact signals_removeFunction hs type f
    · rw [heq]
      rcases hview : s.view type with - | ⟨f, - | ⟨g, rest⟩⟩
      · rw [hview, List.length_nil] at hlength
        omega
      · rw [hview, List.length_singleton] at hlength
        omega
      · exact (List.append_nil _).symm

theorem signals_emit (hs : s.WellFormed) (type : PropertyKey) (args : List Value) :
    (s.emit type args).data.signals = s.signals ++ (Call.emit type args).asked s := by
  rw [Call.asked]
  by_cases hnil : s.view type = []
  · obtain ⟨herror, heq⟩ | ⟨herror, heq⟩ := emit_nil hs hnil args
    · rw [if_pos ⟨hnil, herror⟩, heq, Reply.data_throw, List.append_nil]
    · rw [if_neg fun h => herror h.2, heq, Reply.data_go, signals, signals, List.map_append]
      rfl
  · rw [if_neg fun h => hnil h.1, emit_eq hnil, signals_begin]

theorem signals_perform (hs : s.WellFormed) (c : Call) :
    (s.perform c).data.signals = s.signals ++ c.asked s := by
  match c with
  | .addListener type (.function f) prepend => exact signals_addFunction hs type f prepend
  | .addListener type (.other _) prepend => exact (List.append_nil _).symm
  | .once type (.function f) prepend =>
      have hsame : SameTable s { s with fired := s.fired.alloc false } := ⟨rfl, rfl, fun _ => rfl⟩
      have hadd := signals_addFunction (hsame.wellFormed hs) type (.wrapper s.fired.top type f)
        prepend
      rw [hsame.view] at hadd
      exact hadd
  | .once type (.other _) prepend => exact (List.append_nil _).symm
  | .removeListener type (.function f) => exact signals_removeFunction hs type f
  | .removeListener type (.other _) => exact (List.append_nil _).symm
  | .removeAllListeners (some type) => exact signals_removeAllOf hs type
  | .removeAllListeners none =>
      have hasked : (Call.removeAllListeners none).asked s = [] := by
        rw [Call.asked, Call.change]
        · split <;> rfl
        all_goals simp
      rw [hasked, List.append_nil]
      show s.removeEverything.data.signals = s.signals
      rw [removeEverything]
      split <;> rfl
  | .emit type args => exact signals_emit hs type args
  | .setMaxListeners n =>
      show (s.setMaxListeners n).data.signals = s.signals ++ []
      rw [setMaxListeners, List.append_nil]
      split <;> rfl
  | .setDefaultMaxListeners n =>
      show (s.setDefaultMaxListeners n).data.signals = s.signals ++ []
      rw [setDefaultMaxListeners, List.append_nil]
      split <;> rfl
  | .apply f args => exact (List.append_nil _).symm

theorem signals_resume (hs : s.WellFormed) (k : Activation) :
    (resume k s).data.signals = s.signals ++ announced s.view (k.change s) := by
  match k with
  | .emitting id [] args => exact (signals_finish id s).trans (List.append_nil _).symm
  | .emitting id (f :: rest) args =>
      exact (signals_call id f args s).trans (List.append_nil _).symm
  | .adding type f prepend =>
      exact (assigns_insert hs type f prepend).rest.signals.trans (List.append_nil _).symm
  | .onceWrapper state type f args =>
      rw [resume, Activation.change]
      split
      · exact (List.append_nil _).symm
      · rw [Reply.andThen_data]
        exact signals_removeFunction hs type _
  | .firing state f args => exact (List.append_nil _).symm
  | .removing type array 0 => exact (List.append_nil _).symm
  | .removing type array (i + 1) =>
      rw [resume, Activation.change, Reply.andThen_data]
      cases (s.items array)[i]? with
      | none => exact (List.append_nil _).symm
      | some f => exact signals_removeFunction hs type f
  | .removingKeys [] =>
      rw [resume, Reply.andThen_data]
      exact signals_removeAllOf hs _
  | .removingKeys (key :: keys) =>
      rw [resume, Activation.change]
      split
      · exact (List.append_nil _).symm
      · rw [Reply.andThen_data]
        exact signals_removeAllOf hs key
  | .clearing => exact (List.append_nil _).symm

theorem step_signals {s t : State} {a : Label Call} (hs : s.data.WellFormed)
    (h : library.step s a = .next t) : t.data.signals = s.data.signals ++ asked s a := by
  cases stepped_of_next h with
  | call c hruns =>
      rw [Reply.land_data]
      exact signals_perform hs c
  | resume k rest hstack =>
      rw [Reply.land_data, asked, change, hstack]
      exact signals_resume hs k
  | ret f rest hstack => exact (List.append_nil _).symm
  | throw f rest hstack => exact (List.append_nil _).symm

/-- **The emissions of a run are those asked for.**  They are, in order, the events
    that the program emits, 'newListener' for each function that it adds, and
    'removeListener' for each that was removed by itself, as long as somebody
    listens; nothing else is emitted. -/
theorem emissions_asked (as : List (Label Call)) (s : State) (hrun : machine.run as = .next s) :
    s.data.emissions.map Emission.signal = (machine.translate asked machine.init as).flatten := by
  have hrecord := simulates (n := record Signal) (I := fun s : State => s.data.WellFormed)
    (fun s => s.data.signals) asked keeps_wellFormed (fun s a t hs hstep => by
      rw [step_signals hs hstep]
      rfl) as machine.init s wellFormed_init hrun
  rw [record_runFrom] at hrecord
  exact (Outcome.next.inj hrecord).symm

theorem emissions_asked_removed : ∃ s, machine.run removedWhileEmitting = .next s ∧
    s.data.emissions.map Emission.signal =
      (machine.translate asked machine.init removedWhileEmitting).flatten :=
  ⟨_, rfl, emissions_asked removedWhileEmitting _ rfl⟩

end Emitter

end NoJs.Events
