/-
  NoJs.Lib.Machine

  Labelled step machines whose steps may be impossible or may fault.

  A step is a function of the state and of a label that carries every choice
  the environment makes, so a run is a list of labels and "for every run" is a
  quantifier over lists.  Three outcomes are kept apart: a label that is not
  enabled ends a run without saying anything about the program, a fault (an
  invalid memory access) is a defect of the program, and only `next` goes on.

  The invariant rules come in two forms: `Preserves` for a property that every
  step keeps without a fault, and `Keeps` for one that it keeps if it goes
  through, which says nothing about faults.  `PreservesWhen` and `KeepsWhen` are
  the same for the steps that meet a condition on the state they start from.
-/

import Mathlib.Data.List.Basic
import Mathlib.Data.List.Induction

namespace Machine

/-- What one step can do. -/
inductive Outcome (σ : Type _) where
  | disabled
  | fault
  | next (s : σ)
  deriving DecidableEq, Repr

namespace Outcome

variable {σ τ ρ : Type _}

/-- Continue with `f` after a step that went through. -/
def bind (o : Outcome σ) (f : σ → Outcome τ) : Outcome τ :=
  match o with
  | disabled => disabled
  | fault => fault
  | next s => f s

@[simp] theorem bind_disabled (f : σ → Outcome τ) :
    (disabled : Outcome σ).bind f = disabled := rfl

@[simp] theorem bind_fault (f : σ → Outcome τ) :
    (fault : Outcome σ).bind f = fault := rfl

@[simp] theorem bind_next (s : σ) (f : σ → Outcome τ) : (next s).bind f = f s := rfl

theorem bind_assoc (o : Outcome σ) (f : σ → Outcome τ) (g : τ → Outcome ρ) :
    (o.bind f).bind g = o.bind fun s => (f s).bind g := by
  cases o <;> rfl

theorem bind_eq_next {o : Outcome σ} {f : σ → Outcome τ} {t : τ} :
    o.bind f = next t ↔ ∃ s, o = next s ∧ f s = next t := by
  cases o with
  | disabled => simp
  | fault => simp
  | next s => simp

/-- No fault happened, and the state reached, if any, satisfies `I`. -/
def Holds (I : σ → Prop) : Outcome σ → Prop
  | disabled => True
  | fault => False
  | next s => I s

@[simp] theorem holds_next {I : σ → Prop} {s : σ} : (next s).Holds I ↔ I s := Iff.rfl

theorem Holds.imp {I J : σ → Prop} {o : Outcome σ} (h : o.Holds I) (hIJ : ∀ s, I s → J s) :
    o.Holds J := by
  cases o with
  | disabled => trivial
  | fault => exact h
  | next s => exact hIJ s h

theorem Holds.bind {I : σ → Prop} {J : τ → Prop} {o : Outcome σ} {f : σ → Outcome τ}
    (h : o.Holds I) (hf : ∀ s, I s → (f s).Holds J) : (o.bind f).Holds J := by
  cases o with
  | disabled => trivial
  | fault => exact h
  | next s => exact hf s h

/-- The same with the state the first step reaches. -/
theorem Holds.bind_next {I : σ → Prop} {J : τ → Prop} {o : Outcome σ} {f : σ → Outcome τ}
    (h : o.Holds I) (hf : ∀ s, o = next s → I s → (f s).Holds J) : (o.bind f).Holds J := by
  cases o with
  | disabled => trivial
  | fault => exact h
  | next s => exact hf s rfl h

theorem Holds.of_next {I : σ → Prop} {o : Outcome σ} {s : σ} (h : o.Holds I)
    (ho : o = next s) : I s := by
  subst ho
  exact h

instance decidableNext (P : σ → Prop) [DecidablePred P] :
    ∀ o : Outcome σ, Decidable (∀ s, o = next s → P s)
  | disabled => isTrue (by simp)
  | fault => isTrue (by simp)
  | next s => decidable_of_iff (P s) ⟨fun h _ heq => next.inj heq ▸ h, fun h => h s rfl⟩

end Outcome

end Machine

/-- A machine: where it starts, and what a labelled step does. -/
structure Machine (σ α : Type _) where
  init : σ
  step : σ → α → Machine.Outcome σ

namespace Machine

variable {σ α : Type _} (m : Machine σ α)

/-- Execute a list of labels from a given state. -/
def runFrom : σ → List α → Outcome σ
  | s, [] => .next s
  | s, a :: as => (m.step s a).bind fun t => runFrom t as

/-- Execute a list of labels from the initial state. -/
def run (as : List α) : Outcome σ := m.runFrom m.init as

theorem runFrom_cons (s : σ) (a : α) (as : List α) :
    m.runFrom s (a :: as) = (m.step s a).bind fun t => m.runFrom t as := rfl

theorem runFrom_append (s : σ) (as bs : List α) :
    m.runFrom s (as ++ bs) = (m.runFrom s as).bind fun t => m.runFrom t bs := by
  induction as generalizing s with
  | nil => rfl
  | cons a as ih =>
      simp only [List.cons_append, runFrom_cons, Outcome.bind_assoc, ih]

/-- The last step of a run. -/
theorem runFrom_concat (s : σ) (as : List α) (a : α) :
    m.runFrom s (as ++ [a]) = (m.runFrom s as).bind fun t => m.step t a := by
  rw [runFrom_append]
  congr 1
  funext t
  rw [runFrom_cons]
  cases m.step t a <;> rfl

theorem run_concat (as : List α) (a : α) :
    m.run (as ++ [a]) = (m.run as).bind fun t => m.step t a :=
  m.runFrom_concat m.init as a

/-- A run cut after one of its steps. -/
theorem run_split (as bs : List α) (a : α) :
    m.run (as ++ a :: bs) = (m.run (as ++ [a])).bind fun t => m.runFrom t bs := by
  rw [show as ++ a :: bs = (as ++ [a]) ++ bs by simp, run, runFrom_append]
  rfl

/-- Every step of the run, taken from the state it is taken in, meets `G`. -/
def StepsMeet (G : σ → α → Prop) : σ → List α → Prop
  | _, [] => True
  | s, a :: as => G s a ∧ ∀ t, m.step s a = .next t → StepsMeet G t as

/-- Steps that meet `G` keep `I` and do not fault. -/
def PreservesWhen (G : σ → α → Prop) (I : σ → Prop) : Prop :=
  ∀ s a, I s → G s a → (m.step s a).Holds I

/-- Steps that meet `G` and go through keep `I`. -/
def KeepsWhen (G : σ → α → Prop) (I : σ → Prop) : Prop :=
  ∀ s a t, I s → G s a → m.step s a = .next t → I t

/-- Every step that goes through keeps `I`. -/
def Keeps (I : σ → Prop) : Prop := ∀ s a t, I s → m.step s a = .next t → I t

/-- Every step keeps `I` and does not fault. -/
def Preserves (I : σ → Prop) : Prop := ∀ s a, I s → (m.step s a).Holds I

variable {m}

instance decidableStepsMeet {G : σ → α → Prop} [∀ s a, Decidable (G s a)] :
    ∀ (as : List α) (s : σ), Decidable (m.StepsMeet G s as)
  | [], _ => isTrue trivial
  | a :: as, s =>
      have (t : σ) : Decidable (m.StepsMeet G t as) := decidableStepsMeet as t
      inferInstanceAs (Decidable (G s a ∧ ∀ t, m.step s a = .next t → m.StepsMeet G t as))

/-- A condition that the labels of the run meet in every state. -/
theorem StepsMeet.of_mem {G : σ → α → Prop} {as : List α} (h : ∀ a ∈ as, ∀ s, G s a) :
    ∀ s : σ, m.StepsMeet G s as := by
  induction as with
  | nil => exact fun _ => trivial
  | cons a as ih =>
      obtain ⟨ha, has⟩ := List.forall_mem_cons.mp h
      exact fun s => ⟨ha s, fun t _ => ih has t⟩

theorem StepsMeet.of_forall {G : σ → α → Prop} (h : ∀ s a, G s a) (as : List α) (s : σ) :
    m.StepsMeet G s as :=
  StepsMeet.of_mem (fun a _ s => h s a) s

/-- The run lemma that goes with a conditional step lemma. -/
theorem PreservesWhen.runFrom {G : σ → α → Prop} {I : σ → Prop} (h : m.PreservesWhen G I) :
    ∀ (as : List α) (s : σ), I s → m.StepsMeet G s as → (m.runFrom s as).Holds I := by
  intro as
  induction as with
  | nil => exact fun s hs _ => hs
  | cons a as ih =>
      intro s hs hmeet
      rw [runFrom_cons]
      have hstep := h s a hs hmeet.1
      cases ho : m.step s a with
      | disabled => trivial
      | fault => rw [ho] at hstep; exact hstep
      | next t =>
          rw [ho] at hstep
          exact ih t hstep (hmeet.2 t ho)

theorem PreservesWhen.run {G : σ → α → Prop} {I : σ → Prop} (h : m.PreservesWhen G I)
    (hinit : I m.init) (as : List α) (hmeet : m.StepsMeet G m.init as) :
    (m.run as).Holds I :=
  h.runFrom as m.init hinit hmeet

/-- The run lemma for the states a run reaches. -/
theorem KeepsWhen.runFrom {G : σ → α → Prop} {I : σ → Prop} (h : m.KeepsWhen G I) :
    ∀ (as : List α) (s t : σ), I s → m.StepsMeet G s as → m.runFrom s as = .next t → I t := by
  intro as
  induction as with
  | nil =>
      rintro s t hs - hrun
      exact Outcome.next.inj hrun ▸ hs
  | cons a as ih =>
      intro s t hs hmeet hrun
      rw [runFrom_cons] at hrun
      obtain ⟨u, hstep, hrest⟩ := Outcome.bind_eq_next.mp hrun
      exact ih u t (h s a u hs hmeet.1 hstep) (hmeet.2 u hstep) hrest

theorem Keeps.runFrom {I : σ → Prop} (h : m.Keeps I) {as : List α} {s t : σ} (hs : I s)
    (hrun : m.runFrom s as = .next t) : I t :=
  KeepsWhen.runFrom (G := fun _ _ => True) (fun s a t hs _ => h s a t hs) as s t hs
    (StepsMeet.of_forall (fun _ _ => trivial) as s) hrun

theorem Keeps.run {I : σ → Prop} (h : m.Keeps I) (hinit : I m.init) {as : List α} {s : σ}
    (hrun : m.run as = .next s) : I s :=
  h.runFrom hinit hrun

/-- The steps of a run taken in two parts. -/
theorem StepsMeet.of_append {G : σ → α → Prop} {as bs : List α} {s : σ}
    (h : m.StepsMeet G s (as ++ bs)) :
    m.StepsMeet G s as ∧ ∀ t, m.runFrom s as = .next t → m.StepsMeet G t bs := by
  induction as generalizing s with
  | nil => exact ⟨trivial, fun t ht => Outcome.next.inj ht ▸ h⟩
  | cons a as ih =>
      refine ⟨⟨h.1, fun t ht => (ih (h.2 t ht)).1⟩, fun t ht => ?_⟩
      rw [runFrom_cons] at ht
      obtain ⟨u, hstep, hrest⟩ := Outcome.bind_eq_next.mp ht
      exact (ih (h.2 u hstep)).2 t hrest

/-- A run that goes on for one more step. -/
theorem StepsMeet.concat {G : σ → α → Prop} {as : List α} {a : α} {s : σ}
    (h : m.StepsMeet G s as) (ha : ∀ t, m.runFrom s as = .next t → G t a) :
    m.StepsMeet G s (as ++ [a]) := by
  induction as generalizing s with
  | nil => exact ⟨ha s rfl, fun _ _ => trivial⟩
  | cons b as ih =>
      refine ⟨h.1, fun t hstep => ih (h.2 t hstep) fun u hrun => ha u ?_⟩
      rw [runFrom_cons, hstep, Outcome.bind_next, hrun]

/-- The run lemma that goes with an unconditional step lemma. -/
theorem Preserves.runFrom {I : σ → Prop} (h : m.Preserves I) (as : List α) (s : σ) (hs : I s) :
    (m.runFrom s as).Holds I :=
  PreservesWhen.runFrom (G := fun _ _ => True) (fun s a hs _ => h s a hs) as s hs
    (StepsMeet.of_forall (fun _ _ => trivial) as s)

/-- A relation between the labels taken and the state reached, kept by every
    step that goes through. -/
theorem of_history {R : List α → σ → Prop} (hinit : R [] m.init)
    (hstep : ∀ as s a t, R as s → m.step s a = .next t → R (as ++ [a]) t) (as : List α) :
    ∀ s, m.run as = .next s → R as s := by
  induction as using List.reverseRecOn with
  | nil => exact fun s hrun => Outcome.next.inj hrun ▸ hinit
  | append_singleton as a ih =>
      intro t hrun
      rw [run_concat] at hrun
      obtain ⟨s, hs, hstep'⟩ := Outcome.bind_eq_next.mp hrun
      exact hstep as s a t (ih s hs) hstep'

/-- The same where the steps do not fault, for histories of a kind that a longer
    history inherits to its beginning. -/
theorem holds_history {P : List α → Prop} {R : List α → σ → Prop}
    (hshorter : ∀ as a, P (as ++ [a]) → P as) (hinit : R [] m.init)
    (hstep : ∀ as s a, P (as ++ [a]) → m.run as = .next s → R as s →
      (m.step s a).Holds (R (as ++ [a])))
    (as : List α) (has : P as) : (m.run as).Holds (R as) := by
  induction as using List.reverseRecOn with
  | nil => exact hinit
  | append_singleton as a ih =>
      have hbefore := ih (hshorter as a has)
      rw [run_concat]
      cases hrun : m.run as with
      | disabled => trivial
      | fault => rw [hrun] at hbefore; exact hbefore
      | next s => exact hstep as s a has hrun (hbefore.of_next hrun)

/-- The same where the steps of the history meet `G`. -/
theorem StepsMeet.holds_history {G : σ → α → Prop} {R : List α → σ → Prop}
    (hinit : R [] m.init) (hstep : ∀ as s a, G s a → R as s → (m.step s a).Holds (R (as ++ [a])))
    (as : List α) (has : m.StepsMeet G m.init as) : (m.run as).Holds (R as) := by
  refine Machine.holds_history (P := m.StepsMeet G m.init) ?_ hinit ?_ as has
  · exact fun as a h => (StepsMeet.of_append h).1
  · exact fun as s a h hrun hs => hstep as s a ((StepsMeet.of_append h).2 s hrun).1 hs

theorem Preserves.run {I : σ → Prop} (h : m.Preserves I) (hinit : I m.init) (as : List α) :
    (m.run as).Holds I :=
  h.runFrom as m.init hinit

/-! ## Simulation -/

section simulation

variable {τ β : Type _}

variable (m) in
/-- The labels of a run, each read in the state in which the step is taken. -/
def translate (f : σ → α → β) : σ → List α → List β
  | _, [] => []
  | s, a :: as =>
      f s a :: match m.step s a with
        | .next t => translate f t as
        | _ => []

theorem translate_cons (f : σ → α → β) {s t : σ} {a : α} (h : m.step s a = .next t)
    (as : List α) : m.translate f s (a :: as) = f s a :: m.translate f t as := by
  rw [translate, h]

/-- Where every step of `m` is a step of `n` on the states that `abs` reads off,
    every run of `m` is a run of `n`. -/
theorem simulates {n : Machine τ β} {I : σ → Prop} (abs : σ → τ) (f : σ → α → β)
    (hkeeps : m.Keeps I)
    (hstep : ∀ s a t, I s → m.step s a = .next t → n.step (abs s) (f s a) = .next (abs t)) :
    ∀ (as : List α) (s t : σ), I s → m.runFrom s as = .next t →
      n.runFrom (abs s) (m.translate f s as) = .next (abs t) := by
  intro as
  induction as with
  | nil =>
      rintro s t - hrun
      exact congrArg (fun u => Outcome.next (abs u)) (Outcome.next.inj hrun)
  | cons a as ih =>
      intro s t hs hrun
      rw [runFrom_cons] at hrun
      obtain ⟨u, hu, hrest⟩ := Outcome.bind_eq_next.mp hrun
      rw [translate_cons f hu, runFrom_cons, hstep s a u hs hu, Outcome.bind_next]
      exact ih u t (hkeeps s a u hs hu) hrest

end simulation

end Machine
