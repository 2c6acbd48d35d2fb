/-
  NoJs.Loader.Termination

  Loading a file terminates when its requires do not run into a circle.

  The cache gets its entry when the evaluation of the file is over.  A file that
  is required inside its own evaluation is not in the cache yet, so it is
  evaluated anew, and so on; nothing cuts the circle.  Where the calls of `require`
  do not depend on what they return, the require graph alone decides.
-/

import NoJs.Loader.Machine

namespace NoJs.Loader

open Machine Relation Utf16 Cycles

variable {W V : Type}

/-! ## Termination -/

/-- The code calls `require(g)`, whatever its calls return. -/
inductive Code.Always : Code W V → Str → Prop where
  | here (filename : Str) (w : W) (k : V → W → Code W V) : Always (.require filename w k) filename
  | later {filename g : Str} {w : W} {k : V → W → Code W V} (h : ∀ v w', (k v w').Always g) :
      Always (.require filename w k) g

/-- The files make the calls of the require graph, none of them under a condition. -/
def Realm.Unconditional (r : Realm W V) : Prop :=
  ∀ f w g, r.Requires f g → (r.contents f w).Always g

/-- `Module.load(f)`, called by the program in world `w`, returns, and no file is
    evaluated inside its own evaluation until then. -/
structure Realm.Terminates (r : Realm W V) (s : Modules W V) (f : Str) (w : W) : Prop where
  ends : ∃ n t, r.machine.runFrom s (.load f w :: List.replicate n .run) = .next t ∧
    t.evaluations = []
  notReentered : ∀ n t, r.machine.runFrom s (.load f w :: List.replicate n .run) = .next t →
    (t.evaluations.map (·.filename)).Nodup

namespace Realm

variable {r : Realm W V} {s t : Modules W V} {a : Act W} {f : Str} {w : W}

theorem WellNested.run (h : r.WellNested s) {as : List (Act W)}
    (hrun : r.machine.runFrom s as = .next t) : r.WellNested t := by
  have hkeeps : r.machine.Keeps r.WellNested := fun _ _ _ h hstep => h.step hstep
  exact hkeeps.runFrom h hrun

/-- What the innermost evaluation keeps whenever it goes on. -/
theorem keeps_running {I : Modules W V → Prop}
    (h : ∀ s t, I s → r.step s .run = .next t → I t) (hs : I s) {n : Nat}
    (hrun : r.machine.runFrom s (List.replicate n .run) = .next t) : I t := by
  have hkeeps : r.machine.KeepsWhen (fun _ a => a = .run) I := by
    rintro s a t hs rfl hstep
    exact h s t hs hstep
  have hruns : r.machine.StepsMeet (fun _ a => a = .run) s (List.replicate n .run) :=
    StepsMeet.of_mem (fun a ha _ => List.eq_of_mem_replicate ha) s
  exact hkeeps.runFrom _ s t hs hruns hrun

theorem call_idle (hidle : s.evaluations = []) (f : Str) (w : W) :
    s.call (.load f w) = some (f, w) := by
  simp only [Modules.call, hidle]

/-- The first step of a load from the program. -/
theorem run_load (hidle : s.evaluations = []) {as : List (Act W)}
    (hrun : r.machine.runFrom s (.load f w :: as) = .next t) :
    r.step s (.load f w) = .next (r.load f w s) ∧
      r.machine.runFrom (r.load f w s) as = .next t := by
  have hstep : r.step s (.load f w) = .next (r.load f w s) := step_call (call_idle hidle f w)
  obtain ⟨u, hload, hrest⟩ := Outcome.bind_eq_next.mp hrun
  obtain rfl := Outcome.next.inj (hstep.symm.trans hload)
  exact ⟨hstep, hrest⟩

/-! ## Evaluations end -/

/-- Every call of `Module.load(f)` comes to its end, and its caller goes on. -/
def LoadEnds (r : Realm W V) (f : Str) : Prop :=
  ∀ s a w, r.WellNested s → s.call a = some (f, w) →
    ∃ n t v w', r.machine.runFrom s (a :: List.replicate n .run) = .next t ∧
      t.evaluations = resume v w' s.evaluations

/-- An evaluation ends when the calls it makes do. -/
theorem code_ends {code : Code W V} (hcalls : ∀ g, code.Requires g → r.LoadEnds g)
    {callers : List (Evaluation W V)} (hs : r.WellNested s)
    (hevals : s.evaluations = ⟨f, code⟩ :: callers) :
    ∃ n t v w, r.machine.runFrom s (List.replicate n .run) = .next t ∧
      t.evaluations = resume v w callers := by
  induction code generalizing s with
  | exports v w =>
      refine ⟨1, s.loaded f v w callers, v, w, ?_, rfl⟩
      show (r.step s .run).bind _ = _
      simp only [step, hevals]
      rfl
  | require g w k ih =>
      have hcall : s.call .run = some (g, w) := by simp only [Modules.call, hevals]
      obtain ⟨n, t, v, w', hrun, ht⟩ := hcalls g (.here g w k) s .run w hs hcall
      rw [hevals] at ht
      obtain ⟨m, u, v', w'', hrest, hu⟩ := ih v w' (fun g' hg' => hcalls g' (.later v w' hg'))
        (hs.run hrun) ht
      refine ⟨n + 1 + m, u, v', w'', ?_, hu⟩
      rw [List.replicate_add, runFrom_append, List.replicate_succ, hrun]
      exact hrest

/-- A file from which the requires run into no circle can be loaded. -/
theorem loadEnds_of_grounded (h : Grounded r.Edge f) : r.LoadEnds f := by
  induction h with
  | intro f _ ih =>
    intro s a w hs hcall
    have hstep : r.step s a = .next (r.load f w s) := step_call hcall
    cases hcached : r.cached s.map f with
    | some v =>
        refine ⟨0, r.load f w s, v, w, ?_, ?_⟩
        · show (r.step s a).bind _ = _
          rw [hstep]
          rfl
        · rw [load_cached hcached]
    | none =>
        have hplain : ¬ PlainObject.Inherited f := hs.plain_of_missing hcached
        have hwell := hs.step hstep
        rw [load_missing hcached] at hstep hwell
        have hcalls : ∀ g, (r.contents f w).Requires g → r.LoadEnds g :=
          fun g hg => ih g ⟨hplain, w, hg⟩
        obtain ⟨n, t, v, w', hrun, ht⟩ := code_ends hcalls hwell rfl
        refine ⟨n, t, v, w', ?_, ht⟩
        show (r.step s a).bind _ = _
        rw [hstep]
        exact hrun

/-! ## No evaluation inside itself -/

/-- The requires of the files in progress run into no circle. -/
structure GroundedStack (r : Realm W V) (s : Modules W V) : Prop where
  well : r.WellNested s
  grounded : ∀ e ∈ s.evaluations, Grounded r.Edge e.filename

theorem GroundedStack.load (h : GroundedStack r s) (hf : Grounded r.Edge f)
    (hcall : s.call a = some (f, w)) : GroundedStack r (r.load f w s) := by
  refine ⟨h.well.step (step_call hcall), ?_⟩
  cases hcached : r.cached s.map f with
  | some v =>
      rw [load_cached hcached]
      exact forall_resume v w h.grounded
  | none =>
      rw [load_missing hcached]
      exact List.forall_mem_cons.mpr ⟨hf, h.grounded⟩

theorem GroundedStack.step (h : GroundedStack r s) (hstep : r.step s .run = .next t) :
    GroundedStack r t := by
  rcases step_cases hstep with ⟨f, w, hcall, rfl⟩ | ⟨f, v, w, callers, -, hevals, rfl⟩
  · rcases call_cases hcall with ⟨-, hload⟩ | ⟨-, e, k, callers, hevals⟩
    · exact absurd hload (by simp)
    · -- the innermost evaluation requires the file
      have hmem : ⟨e, .require f w k⟩ ∈ s.evaluations := by
        rw [hevals]
        exact List.mem_cons_self
      have hedge : r.Edge e f :=
        ⟨h.well.nested.plain _ hmem, h.well.nested.within _ hmem f (.here f w k)⟩
      exact h.load ((h.grounded _ hmem).edge hedge) hcall
  · refine ⟨h.well.step hstep, forall_resume v w fun e he => h.grounded e ?_⟩
    rw [hevals]
    exact List.mem_cons_of_mem _ he

/-- What a load reaches before it returns. -/
theorem GroundedStack.run (h : GroundedStack r s) (hf : Grounded r.Edge f)
    (hidle : s.evaluations = []) {n : Nat}
    (hrun : r.machine.runFrom s (.load f w :: List.replicate n .run) = .next t) :
    GroundedStack r t := by
  obtain ⟨-, hrest⟩ := run_load hidle hrun
  exact keeps_running (fun _ _ h hstep => h.step hstep) (h.load hf (call_idle hidle f w)) hrest

/-- A load that runs into no circle terminates, whatever else the files do. -/
theorem terminates_of_grounded (hf : Grounded r.Edge f) (hs : r.WellNested s)
    (hidle : s.evaluations = []) (w : W) : r.Terminates s f w where
  ends := by
    obtain ⟨n, t, v, w', hrun, ht⟩ :=
      loadEnds_of_grounded hf s (.load f w) w hs (call_idle hidle f w)
    rw [hidle] at ht
    exact ⟨n, t, hrun, ht⟩
  notReentered := by
    intro n t hrun
    have hstack : GroundedStack r s := ⟨hs, by simp [hidle]⟩
    have hafter := hstack.run hf hidle hrun
    exact hafter.well.nested.nodup fun e he => (hafter.grounded e he).not_cycle

/-! ## A load that runs into a circle -/

/-- The code still has to require a file that runs into a circle. -/
def Doomed (r : Realm W V) (code : Code W V) : Prop :=
  ∃ g, code.Always g ∧ ¬ Grounded r.Edge g

theorem not_doomed_exports (v : V) (w : W) : ¬ r.Doomed (.exports v w) := by
  rintro ⟨g, hg, -⟩
  cases hg

/-- It is not the file that just was loaded. -/
theorem doomed_later {k : V → W → Code W V} (h : r.Doomed (.require f w k))
    (hf : Grounded r.Edge f) (v : V) (w' : W) : r.Doomed (k v w') := by
  obtain ⟨g, hg, hcircle⟩ := h
  cases hg with
  | here => exact absurd hf hcircle
  | later hg => exact ⟨g, hg v w', hcircle⟩

/-- The contents of a file that runs into a circle. -/
theorem doomed_contents (hgraph : r.Unconditional) (hf : ¬ Grounded r.Edge f) (w : W) :
    r.Doomed (r.contents f w) := by
  obtain ⟨g, hedge, hg⟩ := exists_edge_of_not_grounded hf
  exact ⟨g, hgraph f w g hedge.2, hg⟩

theorem grounded_of_inherited (hf : PlainObject.Inherited f) : Grounded r.Edge f :=
  grounded_intro fun _ hedge => absurd hf hedge.1

/-- Files that run into a circle never come to the end of their evaluation. -/
structure Circling (r : Realm W V) (s : Modules W V) : Prop where
  well : r.WellNested s
  ended : ∀ f v, s.map.own.find f = some v → Grounded r.Edge f
  doomed : ∀ e ∈ s.evaluations, ¬ Grounded r.Edge e.filename →
    r.Doomed e.code

theorem circling_init : Circling r .init where
  well := wellNested_init
  ended := fun f v h => absurd h (by simp [Modules.init])
  doomed := fun _ he => absurd he List.not_mem_nil

/-- The caller of a file that was loaded goes on. -/
theorem doomed_resume {evaluations : List (Evaluation W V)}
    (hdoomed : ∀ e ∈ evaluations, ¬ Grounded r.Edge e.filename →
      r.Doomed e.code)
    (hwaiting : ∀ e ∈ evaluations.head?, ∃ w k, e.code = .require f w k)
    (hf : Grounded r.Edge f) (v : V) (w : W) :
    ∀ e ∈ resume v w evaluations, ¬ Grounded r.Edge e.filename →
      r.Doomed e.code := by
  cases evaluations with
  | nil => exact hdoomed
  | cons caller callers =>
      obtain ⟨w', k, hcode⟩ := hwaiting caller rfl
      obtain ⟨e, code⟩ := caller
      obtain rfl : code = .require f w' k := hcode
      obtain ⟨hcaller, hcallers⟩ := List.forall_mem_cons.mp hdoomed
      exact List.forall_mem_cons.mpr
        ⟨fun he => doomed_later (hcaller he) hf v w, hcallers⟩

theorem grounded_of_cached (h : Circling r s) {v : V}
    (hcached : r.cached s.map f = some v) : Grounded r.Edge f := by
  rcases cached_some hcached with hown | hf
  · exact h.ended f v hown
  · exact grounded_of_inherited hf

theorem Circling.step (hgraph : r.Unconditional) (h : Circling r s)
    (hstep : r.step s a = .next t) : Circling r t := by
  have hwell := h.well.step hstep
  rcases step_cases hstep with ⟨f, w, hcall, rfl⟩ | ⟨f, v, w, callers, -, hevals, rfl⟩
  · cases hcached : r.cached s.map f with
    | some v =>
        rw [load_cached hcached] at hwell ⊢
        exact ⟨hwell, h.ended,
          doomed_resume h.doomed (call_waiting hcall) (grounded_of_cached h hcached) v w⟩
    | none =>
        rw [load_missing hcached] at hwell ⊢
        refine ⟨hwell, h.ended, List.forall_mem_cons.mpr ⟨?_, h.doomed⟩⟩
        exact fun hf => doomed_contents hgraph hf w
  · have hdoomed := h.doomed
    have hnested := h.well.nested
    rw [hevals] at hdoomed hnested
    obtain ⟨hhead, hcallers⟩ := List.forall_mem_cons.mp hdoomed
    -- what came to its end had nothing left to require
    have hf : Grounded r.Edge f :=
      Classical.byContradiction fun hf => not_doomed_exports v w (hhead hf)
    refine ⟨hwell, fun q u hq => ?_, doomed_resume hcallers hnested.waiting.rel_head? hf v w⟩
    have hfind : (s.map.set f v).own.find q = some u := hq
    rw [PlainObject.find_set (hnested.plain _ List.mem_cons_self)] at hfind
    split at hfind
    · next heq => exact heq ▸ hf
    · exact h.ended q u hfind

/-- A file that runs into a circle stays in progress. -/
theorem Circling.in_progress (h : Circling r s)
    (hf : ¬ Grounded r.Edge f) (hmem : f ∈ s.evaluations.map (·.filename))
    (hstep : r.step s .run = .next t) : f ∈ t.evaluations.map (·.filename) := by
  rcases step_cases hstep with ⟨g, w, -, rfl⟩ | ⟨g, v, w, callers, -, hevals, rfl⟩
  · cases hcached : r.cached s.map g with
    | some v =>
        rw [load_cached hcached]
        show f ∈ (resume v w s.evaluations).map (·.filename)
        rw [resume_filenames]
        exact hmem
    | none =>
        rw [load_missing hcached]
        exact List.mem_cons_of_mem _ hmem
  · have hdoomed := h.doomed
    rw [hevals] at hdoomed hmem
    show f ∈ (resume v w callers).map (·.filename)
    rw [resume_filenames]
    rcases List.mem_cons.mp hmem with rfl | hmem
    · exact absurd (hdoomed _ List.mem_cons_self hf) (not_doomed_exports v w)
    · exact hmem

/-- A load that runs into a circle does not return. -/
theorem Circling.not_ends (hgraph : r.Unconditional) (h : Circling r s)
    (hidle : s.evaluations = []) (hf : ¬ Grounded r.Edge f) {n : Nat}
    (hrun : r.machine.runFrom s (.load f w :: List.replicate n .run) = .next t) :
    t.evaluations ≠ [] := by
  have hmissing : r.cached s.map f = none := by
    cases hcached : r.cached s.map f with
    | none => rfl
    | some v => exact absurd (grounded_of_cached h hcached) hf
  obtain ⟨hload, hrest⟩ := run_load hidle hrun
  have hkept : ∀ s t : Modules W V, (Circling r s ∧ f ∈ s.evaluations.map (·.filename)) →
      r.step s .run = .next t → Circling r t ∧ f ∈ t.evaluations.map (·.filename) := by
    rintro s t ⟨h, hmem⟩ hstep
    exact ⟨h.step hgraph hstep, h.in_progress hf hmem hstep⟩
  have hbegun : f ∈ (r.load f w s).evaluations.map (·.filename) := by
    rw [load_missing hmissing]
    exact List.mem_cons_self
  obtain ⟨-, hmem⟩ := keeps_running hkept ⟨h.step hgraph hload, hbegun⟩ hrest
  intro hnil
  rw [hnil] at hmem
  exact absurd hmem List.not_mem_nil

/-! ## Finite module graphs -/

/-- **Loading terminates**, on a finite set of files and whatever was loaded before,
    for the files from which the requires run into no circle; and for no others, when
    no require stands under a condition. -/
theorem terminates_iff (r : Realm W V) (files : Finset Str)
    (hclosed : ∀ f ∈ files, ∀ g, r.Requires f g → g ∈ files) (as : List (Act W))
    (s : Modules W V) (hrun : r.machine.run as = .next s) (hidle : s.evaluations = [])
    (f : Str) (hf : f ∈ files) (w : W) :
    (¬ ReachesCycle r.Edge f → r.Terminates s f w) ∧
      (r.Unconditional → (r.Terminates s f w ↔ ¬ ReachesCycle r.Edge f)) := by
  have hgrounded := grounded_iff (r := r.Edge) files.finite_toSet
    (fun f hf g hedge => hclosed f hf g hedge.2) hf
  rw [← hgrounded]
  have hends : Grounded r.Edge f → r.Terminates s f w :=
    fun h => terminates_of_grounded h (wellNested_init.run hrun) hidle w
  refine ⟨hends, fun hgraph => ⟨fun h => ?_, hends⟩⟩
  by_contra hnot
  have hkeeps : r.machine.Keeps (Circling r) := fun _ _ _ h hstep => h.step hgraph hstep
  have hcircling : Circling r s := hkeeps.run circling_init hrun
  obtain ⟨n, t, hloaded, hnil⟩ := h.ends
  exact hcircling.not_ends hgraph hidle hnot hloaded hnil

end Realm

theorem twice_unconditional (n : Int) : (twice n).Unconditional := by
  intro f w g h
  obtain ⟨rfl, rfl⟩ := twice_requires h
  exact .here _ _ _

/-- `a.js` of `twice` comes to its end. -/
theorem terminates_twice : (twice 0).Terminates .init aJs () := by
  have hclosed : ∀ f ∈ ({aJs, bJs} : Finset Str), ∀ g, (twice 0).Requires f g →
      g ∈ ({aJs, bJs} : Finset Str) := by
    intro f _ g h
    obtain ⟨rfl, rfl⟩ := twice_requires h
    decide
  have hends : Grounded (twice 0).Edge aJs := (twice_grounded 0 aJs).mono fun _ _ hedge => hedge.2
  have hiff := (Realm.terminates_iff (twice 0) {aJs, bJs} hclosed [] .init rfl rfl aJs
    (by decide) ()).2 (twice_unconditional 0)
  exact hiff.mpr hends.not_reachesCycle

/-- `a.js` and `b.js` require each other. -/
def circle : Realm Unit Value where
  truthy := Value.truthy
  inherited := .function
  contents f _ := .require (if f = aJs then bJs else aJs) () fun v _ => .exports v ()

theorem circle_requires {f g : Str} (h : circle.Requires f g) :
    g = if f = aJs then bJs else aJs := by
  obtain ⟨w, h⟩ := h
  cases h with
  | here => rfl
  | later _ _ h => cases h

/-- `a.js` is evaluated inside its own evaluation. -/
theorem not_terminates_circle : ¬ ∀ (r : Realm Unit Value) (files : Finset Str) (f : Str),
    r.Unconditional → (∀ f ∈ files, ∀ g, r.Requires f g → g ∈ files) → f ∈ files →
      r.Terminates .init f () := by
  intro h
  have hgraph : circle.Unconditional := by
    intro f w g h
    obtain rfl := circle_requires h
    exact .here _ _ _
  have hclosed : ∀ f ∈ ({aJs, bJs} : Finset Str), ∀ g, circle.Requires f g →
      g ∈ ({aJs, bJs} : Finset Str) := by
    intro f _ g h
    obtain rfl := circle_requires h
    split <;> decide
  have hterminates := h circle {aJs, bJs} aJs hgraph hclosed (by decide)
  exact absurd (hterminates.notReentered 2 _ rfl) (by decide)

end NoJs.Loader
