/-
  NoJs.Events.Emission

  What an emission calls.

  `emit` works on a copy of the listeners.  Whatever they do to the emitter while
  it is at work, to the name itself, by emitting it again or by throwing, the
  functions an emission has called are at any time the first ones of the list
  that the name had when it began, in order, each once and with its arguments
  (`emission_calls_snapshot`).  It has called all of them when it returns.

  The emissions of 'newListener' and 'removeListener' are emissions like any other.
-/

import Mathlib.Data.List.Basic
import NoJs.Events.Lists

namespace NoJs.Events

open Callbacks Machine

/-- The calls that an emission is to make. -/
def Emission.calls (e : Emission) : List (Listener × List Value) :=
  e.listeners.map fun f => (f, e.args)

/-- What is true of an emission at any time. -/
structure Emission.Sound (e : Emission) : Prop where
  ordered : e.called <+: e.calls
  complete : ∀ b, e.returned = some b → e.called = e.calls ∧ (b = true ↔ e.listeners ≠ [])

/-- The emission has these listeners left to call. -/
structure Emission.Running (e : Emission) (rest : List Listener) (args : List Value) : Prop where
  sameArgs : e.args = args
  returned : e.returned = none
  calls : e.called ++ rest.map (fun f => (f, e.args)) = e.calls
  listeners : e.listeners ≠ []

theorem Emission.Running.sound {e : Emission} {rest : List Listener} {args : List Value}
    (h : e.Running rest args) : e.Sound where
  ordered := ⟨_, h.calls⟩
  complete b hb := absurd hb (by simp [h.returned])

/-- Which emission an activation belongs to. -/
def emissionId : Frame Activation Invocation → Option Nat
  | .own (.emitting id _ _) => some id
  | _ => none

/-- The emissions that are not over. -/
def emissionIds (stack : Stack) : List Nat := stack.filterMap emissionId

theorem emissionIds_append (frames stack : Stack) :
    emissionIds (frames ++ stack) = emissionIds frames ++ emissionIds stack :=
  List.filterMap_append ..

theorem mem_emissionIds {stack : Stack} {id : Nat} {rest : List Listener} {args : List Value}
    (h : .own (.emitting id rest args) ∈ stack) : id ∈ emissionIds stack :=
  List.mem_filterMap.mpr ⟨_, h, rfl⟩

@[simp] theorem emissionId_apply (f : Listener) (args : List Value) :
    emissionId (f.apply args) = none := by
  cases f <;> rfl

/-! ## What a function of the emitter does to the emissions -/

namespace Emitter

variable {s t u : Emitter} {type : PropertyKey} {f : Listener} {frames stack : Stack}
  {r : Reply} {k : Activation}

/-- At most one emission begins, with the listeners that the name has then. -/
inductive Emits (s : Emitter) : Reply → Prop where
  | silent {t : Emitter} {frames : Stack} (h : t.emissions = s.emissions)
      (hframes : emissionIds frames = []) : Emits s (.go t frames)
  | begins {t : Emitter} {type : PropertyKey} {args : List Value} {frames : Stack}
      (h : t.emissions = s.emissions) (hsome : t.view type ≠ [])
      (hframes : emissionIds frames = []) :
      Emits s ((t.begin type args (t.view type)).andThen frames)
  | unheard {t : Emitter} {type : PropertyKey} {args : List Value} {frames : Stack}
      (h : t.emissions = s.emissions) (hnil : t.view type = [])
      (hframes : emissionIds frames = []) :
      Emits s (.go { t with emissions := t.emissions ++ [⟨type, args, [], [], some false⟩] } frames)
  | throws {t : Emitter} {e : Thrown} (h : t.emissions = s.emissions) : Emits s (.throw t e)

theorem Emits.andThen (h : Emits s r) (hframes : emissionIds frames = []) :
    Emits s (r.andThen frames) := by
  cases h with
  | silent h habove =>
      exact .silent h (by rw [emissionIds_append, habove, hframes, List.append_nil])
  | begins h hsome hbelow =>
      rename_i t type args below
      have heq : ((t.begin type args (t.view type)).andThen below).andThen frames =
          (t.begin type args (t.view type)).andThen (below ++ frames) := by
        simp only [begin, Reply.andThen, List.append_assoc]
      rw [heq]
      exact .begins h hsome (by rw [emissionIds_append, hbelow, hframes, List.append_nil])
  | unheard h hnil habove =>
      exact .unheard h hnil (by rw [emissionIds_append, habove, hframes, List.append_nil])
  | throws h => exact .throws h

theorem Emits.of_begin (h : t.emissions = s.emissions) (hsome : t.view type ≠ [])
    (args : List Value) : Emits s (t.begin type args (t.view type)) := by
  have hbegins : Emits s ((t.begin type args (t.view type)).andThen []) := .begins h hsome rfl
  rw [show (t.begin type args (t.view type)).andThen [] = t.begin type args (t.view type) by
    simp [begin, Reply.andThen]] at hbegins
  exact hbegins

theorem emits_emit (hs : s.WellFormed) (type : PropertyKey) (args : List Value) :
    Emits s (s.emit type args) := by
  by_cases hnil : s.view type = []
  · obtain ⟨-, heq⟩ | ⟨-, heq⟩ := emit_nil hs hnil args
    · rw [heq]
      exact .throws rfl
    · rw [heq]
      exact .unheard rfl hnil rfl
  · rw [emit_eq hnil]
    exact .of_begin rfl hnil args

theorem emits_announce (ht : t.WellFormed) (h : t.emissions = s.emissions) (type : PropertyKey)
    (f : Listener) : Emits s (t.announce type f) := by
  rw [announce_eq ht]
  split
  · exact .silent h rfl
  · next hsome => exact .of_begin h hsome _

theorem emits_addFunction (hs : s.WellFormed) (ht : SameTable s t) (h : t.emissions = s.emissions)
    (type : PropertyKey) (f : Listener) (prepend : Bool) :
    Emits s (t.addFunction type f prepend) := by
  have hwt := ht.wellFormed hs
  rw [addFunction_eq hwt]
  split
  · exact .silent ((assigns_insert hwt type f prepend).rest.emissions.trans h) rfl
  · next hsome => exact .begins h hsome rfl

theorem emits_removeFunction (hs : s.WellFormed) (type : PropertyKey) (listener : Listener) :
    Emits s (s.removeFunction type listener) := by
  obtain ⟨-, heq⟩ | ⟨f, t, hremoval, heq⟩ := removeFunction_spec hs type listener
  · rw [heq]
    exact .silent rfl rfl
  · rw [heq]
    exact emits_announce hremoval.assigns.wellFormed hremoval.assigns.rest.emissions _ _

theorem emits_removeAllOf (hs : s.WellFormed) (type : PropertyKey) :
    Emits s (s.removeAllOf type) := by
  by_cases hnobody : s.view removeListenerKey = []
  · obtain ⟨t, heq, hassigns⟩ := removeAllOf_silent hs hnobody type
    rw [heq]
    exact .silent hassigns.rest.emissions rfl
  · obtain ⟨-, heq⟩ | ⟨f, -, heq⟩ | ⟨array, -, -, heq⟩ := removeAllOf_announced hs hnobody type
    · rw [heq]
      exact .silent rfl rfl
    · rw [heq]
      exact emits_removeFunction hs type f
    · rw [heq]
      exact .silent rfl rfl

theorem emits_perform (hs : s.WellFormed) (c : Call) : Emits s (s.perform c) := by
  match c with
  | .addListener type (.function f) prepend =>
      exact emits_addFunction hs (sameTable_refl s) rfl type f prepend
  | .addListener type (.other _) prepend => exact .throws rfl
  | .once type (.function f) prepend =>
      exact emits_addFunction (t := { s with fired := s.fired.alloc false }) hs
        ⟨rfl, rfl, fun _ => rfl⟩ rfl type _ prepend
  | .once type (.other _) prepend => exact .throws rfl
  | .removeListener type (.function f) => exact emits_removeFunction hs type f
  | .removeListener type (.other _) => exact .throws rfl
  | .removeAllListeners (some type) => exact emits_removeAllOf hs type
  | .removeAllListeners none =>
      show Emits s s.removeEverything
      rw [removeEverything]
      split <;> exact .silent rfl rfl
  | .emit type args => exact emits_emit hs type args
  | .setMaxListeners n =>
      show Emits s (s.setMaxListeners n)
      rw [setMaxListeners]
      split
      · exact .throws rfl
      · exact .silent rfl rfl
  | .setDefaultMaxListeners n =>
      show Emits s (s.setDefaultMaxListeners n)
      rw [setDefaultMaxListeners]
      split
      · exact .throws rfl
      · exact .silent rfl rfl
  | .apply f args =>
      exact .silent rfl (by
        rw [emissionIds, List.filterMap_cons_none (emissionId_apply f args)]
        rfl)

/-- A suspended function other than `emit` goes on. -/
theorem emits_resume (hs : s.WellFormed) (hk : emissionId (.own k) = none) :
    Emits s (resume k s) := by
  match k, hk with
  | .adding type f prepend, _ =>
      exact .silent (assigns_insert hs type f prepend).rest.emissions rfl
  | .onceWrapper state type f args, _ =>
      rw [resume]
      split
      · exact .silent rfl rfl
      · exact (emits_removeFunction hs type _).andThen rfl
  | .firing state f args, _ =>
      exact .silent rfl (by
        rw [emissionIds, List.filterMap_cons_none (emissionId_apply f args)]
        rfl)
  | .removing type array 0, _ => exact .silent rfl rfl
  | .removing type array (i + 1), _ =>
      rw [resume]
      cases (s.items array)[i]? with
      | none => exact .throws rfl
      | some f => exact (emits_removeFunction hs type f).andThen rfl
  | .removingKeys [], _ => exact (emits_removeAllOf hs _).andThen rfl
  | .removingKeys (key :: keys), _ =>
      rw [resume]
      split
      · exact .silent rfl rfl
      · exact (emits_removeAllOf hs key).andThen rfl
  | .clearing, _ => exact .silent rfl rfl

/-! ## The invariant -/

/-- The emissions, and the activations of those that are not over. -/
structure Emissions (s : State) : Prop where
  wellFormed : s.data.WellFormed
  sound : ∀ e ∈ s.data.emissions, e.Sound
  distinct : (emissionIds s.stack).Nodup
  running : ∀ id rest args, .own (.emitting id rest args) ∈ s.stack →
    ∃ e, s.data.emissions[id]? = some e ∧ e.Running rest args

theorem emissions_suffixClosed : SuffixClosed Emissions := by
  intro d stack below hbelow h
  exact ⟨h.wellFormed, h.sound, h.distinct.sublist (hbelow.sublist.filterMap _),
    fun id rest args hmem => h.running id rest args (hbelow.subset hmem)⟩

theorem lt_of_mem_emissionIds {s : State} (h : Emissions s) {id : Nat}
    (hid : id ∈ emissionIds s.stack) : id < s.data.emissions.length := by
  obtain ⟨frame, hmem, hframe⟩ := List.mem_filterMap.mp hid
  match frame, hframe with
  | .own (.emitting _ rest args), rfl =>
      obtain ⟨e, he, -⟩ := h.running id rest args hmem
      exact (List.getElem?_eq_some_iff.mp he).1

theorem emissions_init : Emissions machine.init where
  wellFormed := wellFormed_init
  sound _ he := absurd he List.not_mem_nil
  distinct := List.nodup_nil
  running _ _ _ hmem := absurd hmem List.not_mem_nil

/-- One more emission leaves the others what they are. -/
theorem getElem?_concat_of_some {l : List Emission} {id : Nat} {e : Emission} (h : l[id]? = some e)
    (e' : Emission) : (l ++ [e'])[id]? = some e := by
  rw [List.getElem?_append_left (List.getElem?_eq_some_iff.mp h).1, h]

/-- Activations above that belong to no emission. -/
theorem Emissions.push {below : Stack} (h : Emissions ⟨s, below⟩) (ht : t.WellFormed)
    (hemissions : t.emissions = s.emissions) (hframes : emissionIds frames = []) :
    Emissions ⟨t, frames ++ below⟩ where
  wellFormed := ht
  sound e he := h.sound e (hemissions ▸ he)
  distinct := by
    show (emissionIds (frames ++ below)).Nodup
    rw [emissionIds_append, hframes]
    exact h.distinct
  running id rest args hmem := by
    obtain hmem | hmem := List.mem_append.mp hmem
    · have := mem_emissionIds hmem
      rw [hframes] at this
      exact absurd this List.not_mem_nil
    · rw [hemissions]
      exact h.running id rest args hmem

/-- A new emission, without an activation of its own. -/
theorem Emissions.record {below : Stack} (h : Emissions ⟨s, below⟩) {e : Emission}
    (he : e.Sound) : Emissions ⟨{ s with emissions := s.emissions ++ [e] }, below⟩ where
  wellFormed := SameTable.wellFormed (s := s) ⟨rfl, rfl, fun _ => rfl⟩ h.wellFormed
  sound e' he' := by
    obtain he' | he' := List.mem_append.mp he'
    · exact h.sound e' he'
    · rw [List.mem_singleton.mp he']
      exact he
  distinct := h.distinct
  running id rest args hmem := by
    obtain ⟨e', he', hrunning⟩ := h.running id rest args hmem
    exact ⟨e', getElem?_concat_of_some he' e, hrunning⟩

/-- An emission begins. -/
theorem Emissions.begin {below : Stack} (h : Emissions ⟨s, below⟩) {list : List Listener}
    (hlist : list ≠ []) (args : List Value) :
    Emissions ⟨{ s with emissions := s.emissions ++ [⟨type, args, list, [], none⟩] },
      .own (.emitting s.emissions.length list args) :: below⟩ := by
  have hrunning : Emission.Running ⟨type, args, list, [], none⟩ list args := ⟨rfl, rfl, rfl, hlist⟩
  have hrecord := h.record hrunning.sound
  refine ⟨hrecord.wellFormed, hrecord.sound, ?_, ?_⟩
  · refine List.nodup_cons.mpr ⟨fun hmem => ?_, h.distinct⟩
    exact Nat.lt_irrefl _ (lt_of_mem_emissionIds h hmem)
  · intro id rest args' hmem
    obtain heq | hmem := List.mem_cons.mp hmem
    · obtain ⟨rfl, rfl, rfl⟩ := Activation.emitting.inj (Frame.own.inj heq)
      exact ⟨_, List.getElem?_concat_length, hrunning⟩
    · exact hrecord.running id rest args' hmem

theorem Emits.lands {below : Stack} (h : Emissions ⟨s, below⟩) (hr : Emits s r)
    (hwf : r.data.WellFormed) : r.Lands Emissions below := by
  cases hr with
  | silent ht hframes => exact h.push hwf ht hframes
  | begins ht hsome hframes =>
      rename_i t type args frames
      have hwt : t.WellFormed := SameTable.wellFormed
        (s := { t with emissions := t.emissions ++ [⟨type, args, t.view type, [], none⟩] })
        ⟨rfl, rfl, fun _ => rfl⟩ hwf
      exact (h.push hwt ht hframes).begin hsome args
  | unheard ht hnil hframes =>
      rename_i t type args frames
      have hwt : t.WellFormed := SameTable.wellFormed
        (s := { t with emissions := t.emissions ++ [⟨type, args, [], [], some false⟩] })
        ⟨rfl, rfl, fun _ => rfl⟩ hwf
      refine (h.push hwt ht hframes).record ⟨List.prefix_refl _, ?_⟩
      intro b hb
      obtain rfl := Option.some.inj hb
      exact ⟨rfl, by simp⟩
  | throws ht =>
      show Emissions ⟨_, [] ++ below⟩
      exact h.push hwf ht rfl

/-- One emission changes, the one whose activation is on top. -/
theorem Emissions.update {id : Nat} {rest : List Listener} {args : List Value} {below : Stack}
    (h : Emissions ⟨s, .own (.emitting id rest args) :: below⟩) (g : Emission → Emission)
    (hsound : ∀ e, e.Running rest args → (g e).Sound) :
    Emissions ⟨{ s with emissions := s.emissions.modify id g }, below⟩ := by
  obtain ⟨e, he, hrunning⟩ := h.running id rest args List.mem_cons_self
  have hnotin : id ∉ emissionIds below := (List.nodup_cons.mp h.distinct).1
  refine ⟨SameTable.wellFormed (s := s) ⟨rfl, rfl, fun _ => rfl⟩ h.wellFormed, ?_,
    (List.nodup_cons.mp h.distinct).2, ?_⟩
  · intro e' he'
    obtain ⟨i, hi⟩ := List.mem_iff_getElem?.mp he'
    have hi : (s.emissions.modify id g)[i]? = some e' := hi
    by_cases hid : id = i
    · rw [← hid, List.getElem?_modify_eq, he] at hi
      obtain rfl := Option.some.inj hi
      exact hsound e hrunning
    · rw [List.getElem?_modify_ne _ _ hid] at hi
      exact h.sound e' (List.mem_of_getElem? hi)
  · intro i rest' args' hmem
    obtain ⟨e', he', hrunning'⟩ := h.running i rest' args' (List.mem_cons_of_mem _ hmem)
    refine ⟨e', ?_, hrunning'⟩
    have hne : id ≠ i := fun heq => hnotin (heq ▸ mem_emissionIds hmem)
    show (s.emissions.modify id g)[i]? = some e'
    rw [List.getElem?_modify_ne _ _ hne, he']

/-- `emit` calls the next listener, or returns. -/
theorem resume_emitting {id : Nat} {rest : List Listener} {args : List Value} {below : Stack}
    (h : Emissions ⟨s, .own (.emitting id rest args) :: below⟩) :
    (resume (.emitting id rest args) s).Lands Emissions below := by
  cases rest with
  | nil =>
      refine h.update _ fun e he => ⟨?_, fun b hb => ?_⟩
      · exact (he.sound).ordered
      · obtain rfl := Option.some.inj hb
        exact ⟨(List.append_nil _).symm.trans he.calls, by simp [he.listeners]⟩
  | cons f rest =>
      have hnext : ∀ e : Emission, e.Running (f :: rest) args →
          ({ e with called := e.called ++ [(f, args)] } : Emission).Running rest args := by
        intro e he
        refine ⟨he.sameArgs, he.returned, ?_, he.listeners⟩
        show (e.called ++ [(f, args)]) ++ rest.map (fun f => (f, e.args)) = e.calls
        rw [← he.calls, ← he.sameArgs]
        simp
      have hupdate := h.update (fun e => { e with called := e.called ++ [(f, args)] })
        fun e he => (hnext e he).sound
      obtain ⟨e, he, hrunning⟩ := h.running id _ args List.mem_cons_self
      have hcall : Emissions ⟨s.call id f args, .own (.emitting id rest args) :: below⟩ := by
        refine ⟨hupdate.wellFormed, hupdate.sound, h.distinct, fun i rest' args' hmem => ?_⟩
        obtain heq | hmem := List.mem_cons.mp hmem
        · obtain ⟨rfl, rfl, rfl⟩ := Activation.emitting.inj (Frame.own.inj heq)
          refine ⟨_, ?_, hnext e hrunning⟩
          show (s.emissions.modify _ _)[_]? = _
          rw [List.getElem?_modify_eq, show s.emissions[_]? = some e from he]
          rfl
        · exact hupdate.running i rest' args' hmem
      show Emissions ⟨s.call id f args, [f.apply args] ++ .own (.emitting id rest args) :: below⟩
      exact hcall.push hcall.wellFormed rfl (by
        rw [emissionIds, List.filterMap_cons_none (emissionId_apply f args)]
        rfl)

theorem keeps_emissions : machine.Keeps Emissions := by
  apply keeps_of_replies emissions_suffixClosed
  · intro c d stack h
    exact (emits_perform h.wellFormed c).lands h (perform_performs h.wellFormed c).wellFormed
  · intro k d below h
    have hwf := (resume_performs h.wellFormed k).wellFormed
    cases hk : emissionId (.own k) with
    | none =>
        have hbelow := emissions_suffixClosed _ _ _ (List.suffix_cons _ _) h
        exact (emits_resume h.wellFormed hk).lands hbelow hwf
    | some id =>
        match k, hk with
        | .emitting id rest args, _ => exact resume_emitting h

/-! ## From the beginning of an emission on -/

/-- The emissions of `s` are still those of `t`: an emission keeps its type, its
    arguments and its listeners. -/
def Grows (s t : Emitter) : Prop :=
  ∀ (id : Nat) (e : Emission), s.emissions[id]? = some e →
    ∃ e' : Emission, t.emissions[id]? = some e' ∧
      e'.type = e.type ∧ e'.args = e.args ∧ e'.listeners = e.listeners

theorem Grows.of_eq (h : t.emissions = s.emissions) : Grows s t := fun _ e he =>
  ⟨e, h ▸ he, rfl, rfl, rfl⟩

theorem Grows.trans (h : Grows s t) (hu : Grows t u) : Grows s u := by
  intro id e he
  obtain ⟨e', he', htype, hargs, hlisteners⟩ := h id e he
  obtain ⟨e'', he'', htype', hargs', hlisteners'⟩ := hu id e' he'
  exact ⟨e'', he'', htype'.trans htype, hargs'.trans hargs, hlisteners'.trans hlisteners⟩

theorem Grows.of_append (h : t.emissions = s.emissions) (e : Emission) :
    Grows s { t with emissions := t.emissions ++ [e] } := fun _ e' he' =>
  ⟨e', getElem?_concat_of_some (h ▸ he') e, rfl, rfl, rfl⟩

theorem Emits.grows (h : Emits s r) : Grows s r.data := by
  cases h with
  | silent h hframes => exact .of_eq h
  | begins h hsome hframes => exact .of_append h _
  | unheard h hnil hframes => exact .of_append h _
  | throws h => exact .of_eq h

theorem grows_modify {id : Nat} {g : Emission → Emission}
    (hg : ∀ e, (g e).type = e.type ∧ (g e).args = e.args ∧ (g e).listeners = e.listeners) :
    Grows s { s with emissions := s.emissions.modify id g } := by
  intro i e he
  by_cases hid : id = i
  · refine ⟨g e, ?_, hg e⟩
    show (s.emissions.modify id g)[i]? = some (g e)
    rw [← hid, List.getElem?_modify_eq, hid, he]
    rfl
  · refine ⟨e, ?_, rfl, rfl, rfl⟩
    show (s.emissions.modify id g)[i]? = some e
    rw [List.getElem?_modify_ne _ _ hid, he]

theorem resume_grows (hs : s.WellFormed) (k : Activation) : Grows s (resume k s).data := by
  cases hk : emissionId (.own k) with
  | none => exact (emits_resume hs hk).grows
  | some id =>
      match k, hk with
      | .emitting id [] args, _ => exact grows_modify fun e => ⟨rfl, rfl, rfl⟩
      | .emitting id (f :: rest) args, _ => exact grows_modify fun e => ⟨rfl, rfl, rfl⟩

theorem step_grows {s t : State} {a : Label Call} (hs : s.data.WellFormed)
    (h : library.step s a = .next t) : Grows s.data t.data := by
  cases stepped_of_next h with
  | call c hruns =>
      rw [Reply.land_data]
      exact (emits_perform hs c).grows
  | resume k rest hstack =>
      rw [Reply.land_data]
      exact resume_grows hs k
  | ret f rest hstack => exact .of_eq rfl
  | throw f rest hstack => exact .of_eq rfl

theorem run_grows {s t : State} {as : List (Label Call)} (hs : s.data.WellFormed)
    (h : machine.runFrom s as = .next t) : Grows s.data t.data := by
  have hkeeps : machine.Keeps fun u => u.data.WellFormed ∧ Grows s.data u.data :=
    fun u a v hu hstep =>
      ⟨(step_performs hu.1 hstep).wellFormed, hu.2.trans (step_grows hu.1 hstep)⟩
  exact (hkeeps.runFrom ⟨hs, .of_eq rfl⟩ h).2

/-- What a reply adds to the emissions has the listeners of its name. -/
theorem Emits.listeners (h : Emits s r) {id : Nat} {e : Emission}
    (hid : s.emissions.length ≤ id) (he : r.data.emissions[id]? = some e) :
    e.listeners = r.data.view e.type := by
  cases h with
  | silent h hframes =>
      have hlt := (List.getElem?_eq_some_iff.mp he).1
      rw [Reply.data_go, h] at hlt
      omega
  | begins h hsome hframes =>
      rename_i t type args frames
      have he : (t.emissions ++ [⟨type, args, t.view type, [], none⟩])[id]? = some e := he
      rw [List.getElem?_append_right (by rw [h]; exact hid)] at he
      obtain rfl := List.mem_singleton.mp (List.mem_of_getElem? he)
      rfl
  | unheard h hnil hframes =>
      rename_i t type args frames
      have he : (t.emissions ++ [⟨type, args, [], [], some false⟩])[id]? = some e := he
      rw [List.getElem?_append_right (by rw [h]; exact hid)] at he
      obtain rfl := List.mem_singleton.mp (List.mem_of_getElem? he)
      exact hnil.symm
  | throws h =>
      have hlt := (List.getElem?_eq_some_iff.mp he).1
      rw [Reply.data_throw, h] at hlt
      omega

theorem step_listeners {s t : State} {a : Label Call} (hs : s.data.WellFormed)
    (h : library.step s a = .next t) {id : Nat} {e : Emission}
    (hid : s.data.emissions.length ≤ id) (he : t.data.emissions[id]? = some e) :
    e.listeners = t.data.view e.type := by
  have hlt := (List.getElem?_eq_some_iff.mp he).1
  cases stepped_of_next h with
  | call c hruns =>
      rw [Reply.land_data] at he ⊢
      exact (emits_perform hs c).listeners hid he
  | resume k rest hstack =>
      rw [Reply.land_data] at he hlt ⊢
      cases hk : emissionId (.own k) with
      | none => exact (emits_resume hs hk).listeners hid he
      | some i =>
          -- an emission that goes on begins no other
          have hlength : (resume k s.data).data.emissions.length = s.data.emissions.length := by
            match k, hk with
            | .emitting i [] args, _ => exact List.length_modify ..
            | .emitting i (f :: rest) args, _ => exact List.length_modify ..
          have hlt : id < (resume k s.data).data.emissions.length := hlt
          omega
  | ret f rest hstack => exact absurd hlt (Nat.not_lt.mpr hid)
  | throw f rest hstack => exact absurd hlt (Nat.not_lt.mpr hid)

/-- **An emission calls the listeners that it began with.**  The emission that a
    step begins has the listeners of its name at that time.  However the run
    goes on, it has called the first ones of them, in order, each once and with
    its arguments; it has called them all if it returned, and returned whether
    there were any. -/
theorem emission_calls_snapshot (as bs : List (Label Call)) (a : Label Call) (s t u : State)
    (hs : machine.run as = .next s) (ht : machine.step s a = .next t)
    (hu : machine.runFrom t bs = .next u) (id : Nat) (began : Emission)
    (hid : s.data.emissions.length ≤ id) (hbegan : t.data.emissions[id]? = some began) :
    ∃ e, u.data.emissions[id]? = some e ∧ e.type = began.type ∧ e.args = began.args ∧
      e.listeners = t.data.view began.type ∧ e.called <+: e.calls ∧
      ∀ b, e.returned = some b → e.called = e.calls ∧ (b = true ↔ e.listeners ≠ []) := by
  have hinv := keeps_emissions.run emissions_init hs
  have hinvt := keeps_emissions s a t hinv ht
  have hinvu := keeps_emissions.runFrom hinvt hu
  obtain ⟨e, he, htype, hargs, hlisteners⟩ := run_grows hinvt.wellFormed hu id began hbegan
  have hsound := hinvu.sound e (List.mem_of_getElem? he)
  refine ⟨e, he, htype, hargs, ?_, hsound.ordered, hsound.complete⟩
  rw [hlisteners]
  exact step_listeners hinv.wellFormed ht hid hbegan

theorem emission_calls_snapshot_removed :
    ∃ s t u, machine.run (removedWhileEmitting.take 2) = .next s ∧
      machine.step s (.call (.emit (.symbol 0) [])) = .next t ∧
      machine.runFrom t (removedWhileEmitting.drop 3) = .next u ∧
      ∃ e, u.data.emissions[0]? = some e ∧ e.type = .symbol 0 ∧ e.args = [] ∧
        e.listeners = t.data.view (.symbol 0) ∧ e.called <+: e.calls ∧
        ∀ b, e.returned = some b → e.called = e.calls ∧ (b = true ↔ e.listeners ≠ []) :=
  ⟨_, _, _, rfl, rfl, rfl, emission_calls_snapshot (removedWhileEmitting.take 2)
    (removedWhileEmitting.drop 3) (.call (.emit (.symbol 0) [])) _ _ _ rfl rfl rfl 0
    ⟨.symbol 0, [], [.user 0, .user 1], [], none⟩ (Nat.le_refl 0) rfl⟩

end Emitter

end NoJs.Events
