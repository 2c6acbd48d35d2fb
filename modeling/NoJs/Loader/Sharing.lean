/-
  NoJs.Loader.Sharing

  Modules are evaluated once and shared, when the cache can tell that they were.

  `map[filename]` is tested for its truth, so a module whose `module.exports` is
  falsy looks as if it had never been loaded, and it is evaluated again by every
  `require`.  `map` is a plain object, so a file named like a property of
  Object.prototype looks as if it had been, and it is never evaluated.
-/

import NoJs.Loader.Machine

namespace NoJs.Loader

open Machine Relation Utf16

variable {W V : Type}

/-! ## What sharing means -/

def Event.evaluated? : Event V → Option Str
  | .evaluated filename => some filename
  | _ => none

/-- Every file is evaluated at most once, and every load of it returns what that
    evaluation left as `module.exports`. -/
structure Shared (log : List (Event V)) : Prop where
  once : (log.filterMap Event.evaluated?).Nodup
  single : ∀ f v v', .exported f v ∈ log → .exported f v' ∈ log → v = v'
  returned : ∀ f v, .returned f v ∈ log → .exported f v ∈ log

/-- The loads that the cache answers rightly: not of a name of Object.prototype,
    nor of a file whose evaluation left a falsy value. -/
def Realm.Proper (r : Realm W V) (s : Modules W V) (a : Act W) : Prop :=
  ∀ call ∈ s.call a,
    ¬ PlainObject.Inherited call.1 ∧ ∀ v ∈ s.map.own.find call.1, r.truthy v

instance (r : Realm W V) (s : Modules W V) (a : Act W) : Decidable (r.Proper s a) :=
  inferInstanceAs (Decidable (∀ call ∈ s.call a, _ ∧ ∀ v ∈ _, _))

/-! ## The log -/

theorem evaluated_mem {log : List (Event V)} {f : Str} :
    f ∈ log.filterMap Event.evaluated? ↔ .evaluated f ∈ log := by
  rw [List.mem_filterMap]
  constructor
  · rintro ⟨e, he, hf⟩
    cases e with
    | evaluated g =>
        obtain rfl := Option.some.inj hf
        exact he
    | exported g v => exact absurd hf (by simp [Event.evaluated?])
    | returned g v => exact absurd hf (by simp [Event.evaluated?])
  · exact fun h => ⟨.evaluated f, h, rfl⟩

theorem filterMap_evaluated (log : List (Event V)) (f : Str) :
    (log ++ [Event.evaluated f]).filterMap Event.evaluated?
      = log.filterMap Event.evaluated? ++ [f] :=
  List.filterMap_append

theorem filterMap_returned (log : List (Event V)) (f : Str) (v : V) :
    (log ++ [Event.returned f v]).filterMap Event.evaluated? = log.filterMap Event.evaluated? := by
  rw [List.filterMap_append]
  exact List.append_nil _

theorem filterMap_exported (log : List (Event V)) (f : Str) (v : V) :
    (log ++ [Event.exported f v, .returned f v]).filterMap Event.evaluated?
      = log.filterMap Event.evaluated? := by
  rw [List.filterMap_append]
  exact List.append_nil _

namespace Realm

variable {r : Realm W V} {s t : Modules W V} {a : Act W}

/-! ## What every run logs -/

/-- The log against the state: what is in progress or in `map` was evaluated, and
    only names of Object.prototype are returned without an evaluation. -/
structure Logged (r : Realm W V) (s : Modules W V) : Prop where
  well : r.WellNested s
  began : ∀ e ∈ s.evaluations, .evaluated e.filename ∈ s.log
  stored : ∀ f v, s.map.own.find f = some v → .evaluated f ∈ s.log ∧ .exported f v ∈ s.log
  ended : ∀ f v, .exported f v ∈ s.log → ¬ PlainObject.Inherited f
  answered : ∀ f v, .returned f v ∈ s.log → .exported f v ∈ s.log ∨ PlainObject.Inherited f

theorem logged_init : Logged r .init where
  well := wellNested_init
  began := fun _ he => absurd he List.not_mem_nil
  stored := fun f v h => absurd h (by simp [Modules.init])
  ended := fun _ _ h => absurd h List.not_mem_nil
  answered := fun _ _ h => absurd h List.not_mem_nil

/-- The log grows by `more`: what is new in the state has to be found there. -/
theorem Logged.grow (h : Logged r s) {more : List (Event V)} (hlog : t.log = s.log ++ more)
    (hwell : r.WellNested t)
    (hbegan : ∀ f ∈ t.evaluations.map (·.filename),
      f ∈ s.evaluations.map (·.filename) ∨ .evaluated f ∈ more)
    (hstored : ∀ f v, t.map.own.find f = some v →
      s.map.own.find f = some v ∨ .evaluated f ∈ s.log ∧ .exported f v ∈ more)
    (hended : ∀ f v, .exported f v ∈ more → ¬ PlainObject.Inherited f)
    (hanswered : ∀ f v, .returned f v ∈ more →
      .exported f v ∈ s.log ++ more ∨ PlainObject.Inherited f) : Logged r t := by
  refine ⟨hwell, ?_, ?_, ?_, ?_⟩
  · intro e he
    rw [hlog]
    rcases hbegan e.filename (List.mem_map_of_mem he) with hold | hnew
    · obtain ⟨e', he', heq⟩ := List.mem_map.mp hold
      exact heq ▸ List.mem_append_left _ (h.began e' he')
    · exact List.mem_append_right _ hnew
  · intro f v hv
    rw [hlog]
    rcases hstored f v hv with hold | ⟨hevaluated, hexported⟩
    · obtain ⟨hevaluated, hexported⟩ := h.stored f v hold
      exact ⟨List.mem_append_left _ hevaluated, List.mem_append_left _ hexported⟩
    · exact ⟨List.mem_append_left _ hevaluated, List.mem_append_right _ hexported⟩
  · intro f v hv
    rw [hlog] at hv
    exact (List.mem_append.mp hv).elim (h.ended f v) (hended f v)
  · intro f v hv
    rw [hlog] at hv ⊢
    rcases List.mem_append.mp hv with hold | hnew
    · exact (h.answered f v hold).imp_left (List.mem_append_left _)
    · exact hanswered f v hnew

theorem Logged.load_cached (h : Logged r s) {f : Str} {v : V} {w : W}
    (hwell : r.WellNested (r.load f w s)) (hcached : r.cached s.map f = some v) :
    Logged r (r.load f w s) := by
  rw [Realm.load_cached hcached] at hwell ⊢
  refine h.grow rfl hwell ?_ (fun q u hq => Or.inl hq) (by simp) ?_
  · show ∀ q ∈ (resume v w s.evaluations).map (·.filename), _
    rw [resume_filenames]
    exact fun q hq => Or.inl hq
  · -- the answer of this call
    intro q u hq
    obtain ⟨rfl, rfl⟩ := Event.returned.inj (List.mem_singleton.mp hq)
    rcases cached_some hcached with hown | hinherited
    · exact Or.inl (List.mem_append_left _ (h.stored q u hown).2)
    · exact Or.inr hinherited

theorem Logged.load_missing (h : Logged r s) {f : Str} {w : W}
    (hwell : r.WellNested (r.load f w s)) (hcached : r.cached s.map f = none) :
    Logged r (r.load f w s) := by
  rw [Realm.load_missing hcached] at hwell ⊢
  refine h.grow rfl hwell ?_ (fun q u hq => Or.inl hq) (by simp) (by simp)
  exact List.forall_mem_cons.mpr ⟨Or.inr (List.mem_singleton_self _), fun q hq => Or.inl hq⟩

theorem Logged.loaded (h : Logged r s) {f : Str} {v : V} {w : W} {callers : List (Evaluation W V)}
    (hevals : s.evaluations = ⟨f, .exports v w⟩ :: callers)
    (hwell : r.WellNested (s.loaded f v w callers)) : Logged r (s.loaded f v w callers) := by
  have hbegan := h.began
  have hplain := h.well.nested.plain
  rw [hevals] at hbegan hplain
  have hf := hplain _ List.mem_cons_self
  refine h.grow rfl hwell ?_ ?_ ?_ ?_
  · show ∀ q ∈ (resume v w callers).map (·.filename), _
    rw [resume_filenames, hevals]
    exact fun q hq => Or.inl (List.mem_cons_of_mem _ hq)
  · intro q u hq
    have hfind : (s.map.set f v).own.find q = some u := hq
    rw [PlainObject.find_set hf] at hfind
    split at hfind
    · next heq =>
      obtain rfl := heq
      obtain rfl := Option.some.inj hfind
      exact Or.inr ⟨hbegan _ List.mem_cons_self, List.mem_cons_self⟩
    · exact Or.inl hfind
  · intro q u hq
    have heq : q = f ∧ u = v := by simpa using hq
    exact heq.1 ▸ hf
  · intro q u hq
    obtain ⟨rfl, rfl⟩ : q = f ∧ u = v := by simpa using hq
    exact Or.inl (List.mem_append_right _ List.mem_cons_self)

theorem Logged.step (h : Logged r s) (hstep : r.step s a = .next t) : Logged r t := by
  have hwell := h.well.step hstep
  rcases step_cases hstep with ⟨f, w, -, rfl⟩ | ⟨f, v, w, callers, -, hevals, rfl⟩
  · cases hcached : r.cached s.map f with
    | some v => exact h.load_cached hwell hcached
    | none => exact h.load_missing hwell hcached
  · exact h.loaded hevals hwell

/-! ## A load that the cache answers wrongly -/

theorem step_log (hstep : r.step s a = .next t) : ∃ more, t.log = s.log ++ more := by
  rcases step_cases hstep with ⟨f, w, -, rfl⟩ | ⟨f, v, w, callers, -, -, rfl⟩
  · cases hcached : r.cached s.map f with
    | some v => exact ⟨_, by rw [Realm.load_cached hcached]⟩
    | none => exact ⟨_, by rw [Realm.load_missing hcached]⟩
  · exact ⟨_, rfl⟩

/-- What was not shared before a step is not shared behind it. -/
theorem Logged.shared_before (h : Logged r s) (hstep : r.step s a = .next t)
    (hshared : Shared t.log) : Shared s.log := by
  have hafter := h.step hstep
  obtain ⟨more, hmore⟩ := step_log hstep
  have hold : ∀ e ∈ s.log, e ∈ t.log := by
    rw [hmore]
    exact fun e he => List.mem_append_left _ he
  refine ⟨?_, fun f v v' hv hv' => hshared.single f v v' (hold _ hv) (hold _ hv'), ?_⟩
  · have honce := hshared.once
    rw [hmore, List.filterMap_append] at honce
    exact honce.of_append_left
  · intro f v hv
    rcases h.answered f v hv with hexported | hf
    · exact hexported
    · exact absurd hf (hafter.ended f v (hshared.returned f v (hold _ hv)))

/-- A step behind which everything is shared was proper. -/
theorem Logged.proper (h : Logged r s) (hstep : r.step s a = .next t) (hshared : Shared t.log) :
    r.Proper s a := by
  have hafter := h.step hstep
  rintro ⟨f, w⟩ hcall
  rcases step_cases hstep with ⟨f', w', hcall', rfl⟩ | ⟨f', v, w', callers, hcall', -, -⟩
  · obtain ⟨rfl, rfl⟩ := Prod.mk.inj (Option.some.inj (hcall'.symm.trans hcall))
    show ¬ PlainObject.Inherited f' ∧ ∀ v ∈ s.map.own.find f', r.truthy v
    constructor
    · intro hf
      -- the property of Object.prototype is returned, and no evaluation left it
      have hown : s.map.own.find f' = none := by
        cases hown : s.map.own.find f' with
        | none => rfl
        | some v => exact absurd hf (h.well.own f' v hown)
      rw [Realm.load_cached (cached_inherited hown hf)] at hshared hafter
      have hexported := hshared.returned f' _ (List.mem_append_right _ (List.mem_singleton_self _))
      exact hafter.ended f' _ hexported hf
    · intro v hv
      by_contra hfalsy
      -- the file was evaluated, and is evaluated again
      have hcached : r.cached s.map f' = none := by
        rw [cached_own hv, if_neg hfalsy]
      have hevaluated := evaluated_mem.mpr (h.stored f' v hv).1
      have honce := hshared.once
      rw [Realm.load_missing hcached, filterMap_evaluated] at honce
      exact (List.disjoint_of_nodup_append honce) hevaluated (List.mem_singleton_self f')
  · exact absurd (hcall'.symm.trans hcall) (by simp)

/-! ## Proper loads -/

/-- While all loads are proper, `map` is what the evaluations exported, and every
    file that was evaluated is in progress or in `map`. -/
structure Sharing (r : Realm W V) (s : Modules W V) : Prop where
  logged : Logged r s
  mirror : ∀ f v, .exported f v ∈ s.log → s.map.own.find f = some v
  once : (s.log.filterMap Event.evaluated?).Nodup
  returned : ∀ f v, .returned f v ∈ s.log → .exported f v ∈ s.log
  known : ∀ f, .evaluated f ∈ s.log →
    f ∈ s.evaluations.map (·.filename) ∨ ∃ v, s.map.own.find f = some v
  fresh : ∀ e ∈ s.evaluations, s.map.own.find e.filename = none

theorem sharing_init : Sharing r .init where
  logged := logged_init
  mirror := fun _ _ h => absurd h List.not_mem_nil
  once := List.nodup_nil
  returned := fun _ _ h => absurd h List.not_mem_nil
  known := fun _ h => absurd h List.not_mem_nil
  fresh := fun _ he => absurd he List.not_mem_nil

theorem Sharing.shared (h : Sharing r s) : Shared s.log where
  once := h.once
  single := fun f v v' hv hv' => by
    have heq := (h.mirror f v hv).symm.trans (h.mirror f v' hv')
    exact Option.some.inj heq
  returned := h.returned

/-- A load that the cache answers. -/
theorem Sharing.load_cached (h : Sharing r s) {f : Str} {v : V} {w : W}
    (hlogged : Logged r (r.load f w s)) (hf : ¬ PlainObject.Inherited f)
    (hcached : r.cached s.map f = some v) : Sharing r (r.load f w s) := by
  have hown := (cached_some hcached).resolve_right hf
  rw [Realm.load_cached hcached] at hlogged ⊢
  refine ⟨hlogged, ?_, ?_, ?_, ?_, ?_⟩
  · intro q u hq
    rcases List.mem_append.mp hq with hq | hq
    · exact h.mirror q u hq
    · exact absurd hq (by simp)
  · rw [filterMap_returned]
    exact h.once
  · intro q u hq
    rcases List.mem_append.mp hq with hq | hq
    · exact List.mem_append_left _ (h.returned q u hq)
    · obtain ⟨rfl, rfl⟩ := Event.returned.inj (List.mem_singleton.mp hq)
      exact List.mem_append_left _ (h.logged.stored q u hown).2
  · intro q hq
    show q ∈ (resume v w s.evaluations).map (·.filename) ∨ _
    rw [resume_filenames]
    rcases List.mem_append.mp hq with hq | hq
    · exact h.known q hq
    · exact absurd hq (by simp)
  · exact forall_resume (P := fun q => s.map.own.find q = none) v w h.fresh

/-- A load of a file that was not evaluated before. -/
theorem Sharing.load_missing (h : Sharing r s) {f : Str} {w : W}
    (hlogged : Logged r (r.load f w s)) (hcached : r.cached s.map f = none)
    (hown : s.map.own.find f = none) (hnew : f ∉ s.evaluations.map (·.filename)) :
    Sharing r (r.load f w s) := by
  rw [Realm.load_missing hcached] at hlogged ⊢
  refine ⟨hlogged, ?_, ?_, ?_, ?_, List.forall_mem_cons.mpr ⟨hown, h.fresh⟩⟩
  · intro q u hq
    rcases List.mem_append.mp hq with hq | hq
    · exact h.mirror q u hq
    · exact absurd hq (by simp)
  · rw [filterMap_evaluated]
    refine List.Nodup.append h.once (List.nodup_singleton f) ?_
    -- had it been evaluated, it would be in progress or in `map`
    rw [List.disjoint_singleton, evaluated_mem]
    intro hevaluated
    rcases h.known f hevaluated with hmem | ⟨v, hv⟩
    · exact hnew hmem
    · rw [hown] at hv
      exact absurd hv (by simp)
  · intro q u hq
    rcases List.mem_append.mp hq with hq | hq
    · exact List.mem_append_left _ (h.returned q u hq)
    · exact absurd hq (by simp)
  · intro q hq
    rcases List.mem_append.mp hq with hq | hq
    · exact (h.known q hq).imp_left (List.mem_cons_of_mem _)
    · obtain rfl := Event.evaluated.inj (List.mem_singleton.mp hq)
      exact Or.inl List.mem_cons_self

/-- An evaluation is over. -/
theorem Sharing.loaded (h : Sharing r s) {f : Str} {v : V} {w : W}
    {callers : List (Evaluation W V)} (hevals : s.evaluations = ⟨f, .exports v w⟩ :: callers)
    (hnodup : (s.evaluations.map (·.filename)).Nodup)
    (hlogged : Logged r (s.loaded f v w callers)) :
    Sharing r (s.loaded f v w callers) := by
  have hfresh := h.fresh
  have hf := h.logged.well.nested.plain
  rw [hevals] at hfresh hf hnodup
  have hnew := hfresh _ List.mem_cons_self
  have hfind : ∀ q, (s.map.set f v).own.find q = if q = f then some v else s.map.own.find q :=
    fun q => PlainObject.find_set (hf _ List.mem_cons_self)
  refine ⟨hlogged, ?_, ?_, ?_, ?_, ?_⟩
  · intro q u hq
    show (s.map.set f v).own.find q = some u
    rw [hfind]
    rcases List.mem_append.mp hq with hq | hq
    · -- nothing had been exported for this file
      have hold := h.mirror q u hq
      have hne : q ≠ f := by
        rintro rfl
        rw [hnew] at hold
        exact absurd hold (by simp)
      rw [if_neg hne, hold]
    · obtain ⟨rfl, rfl⟩ : q = f ∧ u = v := by simpa using hq
      exact if_pos rfl
  · show ((s.log ++ [Event.exported f v, .returned f v]).filterMap Event.evaluated?).Nodup
    rw [filterMap_exported]
    exact h.once
  · intro q u hq
    rcases List.mem_append.mp hq with hq | hq
    · exact List.mem_append_left _ (h.returned q u hq)
    · obtain ⟨rfl, rfl⟩ : q = f ∧ u = v := by simpa using hq
      exact List.mem_append_right _ List.mem_cons_self
  · intro q hq
    show q ∈ (resume v w callers).map (·.filename) ∨ ∃ u, (s.map.set f v).own.find q = some u
    rw [resume_filenames, hfind]
    split
    · exact Or.inr ⟨v, rfl⟩
    · next hne =>
      rcases List.mem_append.mp hq with hq | hq
      · have hknown := h.known q hq
        rw [hevals, List.map_cons, List.mem_cons] at hknown
        exact hknown.imp_left fun hmem => hmem.resolve_left hne
      · exact absurd hq (by simp)
  · apply forall_resume (P := fun q => (s.map.set f v).own.find q = none) v w
    intro e he
    -- the file is not in progress further out
    have hne : e.filename ≠ f := by
      intro heq
      have hmem : e.filename ∈ callers.map (·.filename) := List.mem_map_of_mem he
      rw [heq] at hmem
      exact (List.nodup_cons.mp hnodup).1 hmem
    rw [hfind, if_neg hne]
    exact hfresh e (List.mem_cons_of_mem _ he)

/-- A proper step keeps the modules shared when no file requires itself. -/
theorem Sharing.step (hacyclic : ∀ f, ¬ TransGen r.Edge f f) (h : Sharing r s)
    (hproper : r.Proper s a) (hstep : r.step s a = .next t) : Sharing r t := by
  have hlogged := h.logged.step hstep
  have hnodup : (s.evaluations.map (·.filename)).Nodup :=
    h.logged.well.nested.nodup fun e _ => hacyclic e.filename
  rcases step_cases hstep with ⟨f, w, hcall, rfl⟩ | ⟨f, v, w, callers, -, hevals, rfl⟩
  · obtain ⟨hf, htruthy⟩ := hproper (f, w) hcall
    cases hcached : r.cached s.map f with
    | some v => exact h.load_cached hlogged hf hcached
    | none =>
        have hown : s.map.own.find f = none := by
          cases hown : s.map.own.find f with
          | none => rfl
          | some v =>
              have hfalsy := cached_none hcached v hown
              rw [htruthy v hown] at hfalsy
              exact absurd hfalsy (by simp)
        have hinside : (f :: s.evaluations.map (·.filename)).Nodup := by
          have hnested := h.logged.well.nested.push w hf (call_waiting hcall)
          exact hnested.nodup fun e _ => hacyclic e.filename
        exact h.load_missing hlogged hcached hown (List.nodup_cons.mp hinside).1
  · exact h.loaded hevals hnodup hlogged

/-! ## Every run -/

theorem sharing_of_proper (hacyclic : ∀ f, ¬ TransGen r.Edge f f) {as : List (Act W)}
    (hrun : r.machine.run as = .next s) (hproper : r.machine.StepsMeet r.Proper .init as) :
    Sharing r s := by
  have hkeeps : r.machine.KeepsWhen r.Proper (Sharing r) :=
    fun _ _ _ h hproper hstep => h.step hacyclic hproper hstep
  exact hkeeps.runFrom as .init s sharing_init hproper hrun

theorem proper_of_shared {as : List (Act W)} (hrun : r.machine.run as = .next s)
    (hshared : Shared s.log) : r.machine.StepsMeet r.Proper .init as := by
  -- by induction on the run, backwards through the states it reached
  have hall := Machine.of_history (m := r.machine)
    (R := fun as s => r.machine.run as = .next s ∧ Logged r s ∧
      (Shared s.log → r.machine.StepsMeet r.Proper .init as))
    ⟨rfl, logged_init, fun _ => trivial⟩ ?_ as s hrun
  · exact hall.2.2 hshared
  · rintro as s a t ⟨hrun, hlogged, hmeet⟩ hstep
    refine ⟨?_, hlogged.step hstep, fun hshared => ?_⟩
    · rw [run_concat, hrun, Outcome.bind_next, hstep]
    · refine (hmeet (hlogged.shared_before hstep hshared)).concat fun u hu => ?_
      obtain rfl := Outcome.next.inj (hrun.symm.trans hu)
      exact hlogged.proper hstep hshared

/-- **Modules are evaluated at most once and shared**, in a run over files that do
    not require each other in a circle, exactly when it loads no file named like a
    property of Object.prototype, and none again that left a falsy value. -/
theorem modules_shared_iff (r : Realm W V) (hacyclic : ∀ f, ¬ TransGen r.Requires f f)
    (as : List (Act W)) (s : Modules W V) (hrun : r.machine.run as = .next s) :
    Shared s.log ↔ r.machine.StepsMeet r.Proper .init as := by
  have hedges : ∀ f, ¬ TransGen r.Edge f f :=
    fun f hcycle => hacyclic f (TransGen.mono (fun _ _ hedge => hedge.2) f f hcycle)
  exact ⟨proper_of_shared hrun, fun hproper => (sharing_of_proper hedges hrun hproper).shared⟩

end Realm

/-! ## Two files -/

/-- `a.js` is loaded, to the end of its evaluation. -/
def loadActs : List (Act Unit) := [.load aJs (), .run, .run, .run, .run]

/-- The module that `a.js` requires twice is shared when it exports 1. -/
theorem modules_shared_one :
    ∃ s, (twice 1).machine.run loadActs = .next s ∧ Shared s.log := by
  have hacyclic : ∀ f, ¬ TransGen (twice 1).Requires f f := fun f => (twice_grounded 1 f).not_cycle
  exact ⟨_, rfl, (Realm.modules_shared_iff (twice 1) hacyclic loadActs _ rfl).mpr (by decide)⟩

/-- It is evaluated twice when it exports 0. -/
theorem modules_not_shared_zero : ¬ ∀ (r : Realm Unit Value) (as : List (Act Unit))
    (s : Modules Unit Value), (∀ f, ¬ TransGen r.Requires f f) → r.machine.run as = .next s →
      Shared s.log := by
  intro h
  have hshared := h (twice 0) loadActs _ (fun f => (twice_grounded 0 f).not_cycle) rfl
  exact absurd hshared.once (by decide)

end NoJs.Loader
