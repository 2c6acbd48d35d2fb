/-
  NoJs.Loader.Machine

  `Module.load` of `libs/module/index.js` on the files that `loader.compile`
  finds.

  `map` holds the `module.exports` of the files that were evaluated.  It is asked
  before an evaluation begins and filled when the evaluation is over, and what
  it holds counts only when it is truthy.  While a file is evaluated it calls
  `require`, which is `Module.load`, so evaluations nest: the state is the stack
  of the evaluations in progress, and a step is what the innermost one does next.

  The contents of a file are what its evaluation does in a given world: which
  files it requires, one after the other, going on with what each call returns,
  and which value it leaves as `module.exports`.
-/

import NoJs.Lib.Cycles
import NoJs.Lib.Machine
import NoJs.Lib.PlainObject

namespace NoJs.Loader

open Machine Relation Utf16

/-! ## The data -/

/-- What is left of an evaluation.  `w` is the world in which it calls `require`
    or ends. -/
inductive Code (W V : Type) where
  | exports (v : V) (w : W)
  | require (filename : Str) (w : W) (k : V → W → Code W V)

/-- An evaluation in progress.  One that waits for a `require` call is still in
    front of it. -/
structure Evaluation (W V : Type) where
  filename : Str
  code : Code W V

/-- What can be observed of the loading of modules. -/
inductive Event (V : Type) where
  /-- The file is compiled, and its evaluation begins. -/
  | evaluated (filename : Str)
  /-- The evaluation of the file is over and left this `module.exports`. -/
  | exported (filename : Str) (v : V)
  /-- A call of `Module.load` for the file returns this value. -/
  | returned (filename : Str) (v : V)
  deriving DecidableEq, Repr

structure Modules (W V : Type) where
  map : PlainObject V
  /-- The evaluations in progress, the innermost first. -/
  evaluations : List (Evaluation W V)
  log : List (Event V)

/-- What modules are made of: JavaScript values, and the files. -/
structure Realm (W V : Type) where
  truthy : V → Bool
  /-- The property of Object.prototype that has this name. -/
  inherited : Str → V
  /-- The function that `loader.compile` makes of the file, when it is called. -/
  contents : Str → W → Code W V

variable {W V : Type}

def Modules.init : Modules W V := ⟨.empty, [], []⟩

/-! ## index.js -/

/-- The evaluation that called `require` goes on with what the call returned; so
    does the program, when no evaluation is in progress. -/
def resume (v : V) (w : W) : List (Evaluation W V) → List (Evaluation W V)
  | ⟨filename, .require _ _ k⟩ :: callers => ⟨filename, k v w⟩ :: callers
  | evaluations => evaluations

namespace Realm

variable (r : Realm W V)

/-- `map[filename]`, when it is truthy; all properties of Object.prototype are. -/
def cached (map : PlainObject V) (filename : Str) : Option V :=
  match map.get filename with
  | .own v => if r.truthy v then some v else none
  | .inherited => some (r.inherited filename)
  | .absent => none

/-- `Module.load(filename)`, up to the call of `module.load()` that begins the
    evaluation. -/
def load (filename : Str) (w : W) (s : Modules W V) : Modules W V :=
  match r.cached s.map filename with
  | some v => { s with
      evaluations := resume v w s.evaluations
      log := s.log ++ [.returned filename v] }
  | none => { s with
      evaluations := ⟨filename, r.contents filename w⟩ :: s.evaluations
      log := s.log ++ [.evaluated filename] }

end Realm

/-- `return (map[filename] = module.load())`, once `module.load()` returned. -/
def Modules.loaded (filename : Str) (v : V) (w : W) (callers : List (Evaluation W V))
    (s : Modules W V) : Modules W V where
  map := s.map.set filename v
  evaluations := resume v w callers
  log := s.log ++ [.exported filename v, .returned filename v]

/-! ## The machine -/

inductive Act (W : Type) where
  /-- The program calls `Module.load` while no file is evaluated. -/
  | load (filename : Str) (w : W)
  /-- The innermost evaluation goes on. -/
  | run

namespace Realm

variable (r : Realm W V)

def step (s : Modules W V) (a : Act W) : Outcome (Modules W V) :=
  match a, s.evaluations with
  | .load filename w, [] => .next (r.load filename w s)
  | .load _ _, _ :: _ => .disabled
  | .run, [] => .disabled
  | .run, ⟨_, .require filename w _⟩ :: _ => .next (r.load filename w s)
  | .run, ⟨filename, .exports v w⟩ :: callers => .next (s.loaded filename v w callers)

def machine : Machine (Modules W V) (Act W) := ⟨.init, r.step⟩

end Realm

/-- The call of `Module.load` that a step makes. -/
def Modules.call (s : Modules W V) (a : Act W) : Option (Str × W) :=
  match a, s.evaluations with
  | .load filename w, [] => some (filename, w)
  | .run, ⟨_, .require filename w _⟩ :: _ => some (filename, w)
  | _, _ => none

/-! ## The require graph -/

/-- The code may come to a call `require(g)`, as its calls return. -/
inductive Code.Requires : Code W V → Str → Prop where
  | here (filename : Str) (w : W) (k : V → W → Code W V) : Requires (.require filename w k) filename
  | later {filename g : Str} {w : W} {k : V → W → Code W V} (v : V) (w' : W)
      (h : (k v w').Requires g) : Requires (.require filename w k) g

namespace Realm

variable (r : Realm W V)

/-- An evaluation of `f` may come to a call `require(g)`. -/
def Requires (f g : Str) : Prop := ∃ w, (r.contents f w).Requires g

/-- The same for files that can be evaluated: those named like a property of
    Object.prototype never are. -/
def Edge (f g : Str) : Prop := ¬ PlainObject.Inherited f ∧ r.Requires f g

end Realm

/-! ## What a step does -/

namespace Realm

variable {r : Realm W V} {s t : Modules W V} {a : Act W} {f : Str} {v : V} {w : W}

/-- A step either calls `Module.load` or ends an evaluation. -/
theorem step_cases (h : r.step s a = .next t) :
    (∃ f w, s.call a = some (f, w) ∧ t = r.load f w s) ∨
      ∃ f v w callers, s.call a = none ∧ s.evaluations = ⟨f, .exports v w⟩ :: callers ∧
        t = s.loaded f v w callers := by
  cases a with
  | load f w =>
      cases hevals : s.evaluations with
      | nil =>
          simp only [step, hevals, Outcome.next.injEq] at h
          exact Or.inl ⟨f, w, by simp only [Modules.call, hevals], h.symm⟩
      | cons e callers =>
          simp only [step, hevals] at h
          exact absurd h (by simp)
  | run =>
      rcases hevals : s.evaluations with _ | ⟨⟨f, ⟨v, w⟩ | ⟨g, w, k⟩⟩, callers⟩
      · simp only [step, hevals] at h
        exact absurd h (by simp)
      · simp only [step, hevals, Outcome.next.injEq] at h
        exact Or.inr ⟨f, v, w, callers, by simp only [Modules.call, hevals], rfl, h.symm⟩
      · simp only [step, hevals, Outcome.next.injEq] at h
        exact Or.inl ⟨g, w, by simp only [Modules.call, hevals], h.symm⟩

/-- A call comes from the program, or from the innermost evaluation. -/
theorem call_cases (h : s.call a = some (f, w)) :
    (s.evaluations = [] ∧ a = .load f w) ∨
      a = .run ∧ ∃ e k callers, s.evaluations = ⟨e, .require f w k⟩ :: callers := by
  cases a with
  | load g w' =>
      cases hevals : s.evaluations with
      | nil =>
          simp only [Modules.call, hevals, Option.some.injEq, Prod.mk.injEq] at h
          obtain ⟨rfl, rfl⟩ := h
          exact Or.inl ⟨rfl, rfl⟩
      | cons e callers =>
          simp only [Modules.call, hevals] at h
          exact absurd h (by simp)
  | run =>
      rcases hevals : s.evaluations with _ | ⟨⟨e, ⟨v, w'⟩ | ⟨g, w', k⟩⟩, callers⟩
      · simp only [Modules.call, hevals] at h
        exact absurd h (by simp)
      · simp only [Modules.call, hevals] at h
        exact absurd h (by simp)
      · simp only [Modules.call, hevals, Option.some.injEq, Prod.mk.injEq] at h
        obtain ⟨rfl, rfl⟩ := h
        exact Or.inr ⟨rfl, e, k, callers, rfl⟩

theorem step_call (h : s.call a = some (f, w)) : r.step s a = .next (r.load f w s) := by
  rcases call_cases h with ⟨hnil, rfl⟩ | ⟨rfl, e, k, callers, hcons⟩
  · simp only [step, hnil]
  · simp only [step, hcons]

theorem load_cached (h : r.cached s.map f = some v) :
    r.load f w s = { s with
      evaluations := resume v w s.evaluations
      log := s.log ++ [.returned f v] } := by
  rw [load, h]

theorem load_missing (h : r.cached s.map f = none) :
    r.load f w s = { s with
      evaluations := ⟨f, r.contents f w⟩ :: s.evaluations
      log := s.log ++ [.evaluated f] } := by
  rw [load, h]

theorem cached_own {map : PlainObject V} (hv : map.own.find f = some v) :
    r.cached map f = if r.truthy v then some v else none := by
  rw [cached, PlainObject.get_of_find hv]

theorem cached_inherited {map : PlainObject V} (hown : map.own.find f = none)
    (hf : PlainObject.Inherited f) : r.cached map f = some (r.inherited f) := by
  rw [cached, PlainObject.get, hown]
  simp only [if_pos hf]

theorem cached_absent {map : PlainObject V} (hown : map.own.find f = none)
    (hf : ¬ PlainObject.Inherited f) : r.cached map f = none := by
  rw [cached, PlainObject.get, hown]
  simp only [if_neg hf]

/-- What the cache answers is an entry or a property of Object.prototype. -/
theorem cached_some {map : PlainObject V} (h : r.cached map f = some v) :
    map.own.find f = some v ∨ PlainObject.Inherited f := by
  cases hown : map.own.find f with
  | some u =>
      rw [cached_own hown] at h
      split at h
      · exact Or.inl h
      · exact absurd h (by simp)
  | none =>
      by_cases hf : PlainObject.Inherited f
      · exact Or.inr hf
      · rw [cached_absent hown hf] at h
        exact absurd h (by simp)

/-- The cache answers nothing for a file that was not loaded, nor for one that
    left a falsy value. -/
theorem cached_none {map : PlainObject V} (h : r.cached map f = none) :
    ∀ v ∈ map.own.find f, r.truthy v = false := by
  intro v hv
  rw [cached_own hv] at h
  split at h
  · exact absurd h (by simp)
  · next htruthy => exact Bool.eq_false_iff.mpr htruthy

end Realm

/-! ## Nested evaluations -/

@[simp] theorem resume_filenames (v : V) (w : W) (evaluations : List (Evaluation W V)) :
    (resume v w evaluations).map (·.filename) = evaluations.map (·.filename) := by
  rcases evaluations with _ | ⟨⟨f, ⟨_, _⟩ | ⟨_, _, _⟩⟩, callers⟩ <;> rfl

/-- The files in progress are the same when an evaluation goes on. -/
theorem forall_resume {P : Str → Prop} {evaluations : List (Evaluation W V)} (v : V) (w : W)
    (h : ∀ e ∈ evaluations, P e.filename) : ∀ e ∈ resume v w evaluations, P e.filename := by
  intro e he
  have hmem : e.filename ∈ (resume v w evaluations).map (·.filename) := List.mem_map_of_mem he
  rw [resume_filenames] at hmem
  obtain ⟨e', he', heq⟩ := List.mem_map.mp hmem
  exact heq ▸ h e' he'

/-- The evaluations in progress belong together: each one but the innermost waits
    for the one further in, and what is left of each is code of its file. -/
structure Nested (r : Realm W V) (evaluations : List (Evaluation W V)) : Prop where
  plain : ∀ e ∈ evaluations, ¬ PlainObject.Inherited e.filename
  within : ∀ e ∈ evaluations, ∀ g, e.code.Requires g → r.Requires e.filename g
  waiting : evaluations.IsChain fun callee caller =>
    ∃ w k, caller.code = .require callee.filename w k

namespace Nested

variable {r : Realm W V} {evaluations : List (Evaluation W V)} {e : Evaluation W V}

theorem nil : Nested r [] where
  plain := fun _ h => absurd h List.not_mem_nil
  within := fun _ h => absurd h List.not_mem_nil
  waiting := List.IsChain.nil

/-- An evaluation begins, called by the innermost one. -/
theorem push (h : Nested r evaluations) {f : Str} (w : W) (hf : ¬ PlainObject.Inherited f)
    (hcall : ∀ e ∈ evaluations.head?, ∃ w k, e.code = .require f w k) :
    Nested r (⟨f, r.contents f w⟩ :: evaluations) where
  plain := List.forall_mem_cons.mpr ⟨hf, h.plain⟩
  within := List.forall_mem_cons.mpr ⟨fun _ hg => ⟨w, hg⟩, h.within⟩
  waiting := h.waiting.cons hcall

theorem pop (h : Nested r (e :: evaluations)) : Nested r evaluations where
  plain := fun e he => h.plain e (List.mem_cons_of_mem _ he)
  within := fun e he => h.within e (List.mem_cons_of_mem _ he)
  waiting := h.waiting.tail

/-- The innermost evaluation goes on. -/
theorem resume (h : Nested r evaluations) (v : V) (w : W) : Nested r (resume v w evaluations) := by
  rcases evaluations with _ | ⟨⟨f, ⟨v', w'⟩ | ⟨g, w', k⟩⟩, callers⟩
  · exact h
  · exact h
  · obtain ⟨hplain, hplains⟩ := List.forall_mem_cons.mp h.plain
    obtain ⟨hwithin, hwithins⟩ := List.forall_mem_cons.mp h.within
    refine ⟨List.forall_mem_cons.mpr ⟨hplain, hplains⟩, List.forall_mem_cons.mpr ⟨?_, hwithins⟩, ?_⟩
    · exact fun g' hg' => hwithin g' (.later v w hg')
    · exact h.waiting.tail.cons h.waiting.rel_head?

/-- Each evaluation was required by the one further out. -/
theorem chain (h : Nested r evaluations) :
    (evaluations.map (·.filename)).IsChain (Function.swap r.Edge) := by
  rw [List.isChain_map]
  refine h.waiting.imp_of_mem_imp fun callee caller _ hcaller hwaiting => ?_
  obtain ⟨w, k, hcode⟩ := hwaiting
  refine ⟨h.plain caller hcaller, h.within caller hcaller _ ?_⟩
  rw [hcode]
  exact .here callee.filename w k

/-- A file that no cycle of requires goes through is not evaluated inside its own
    evaluation. -/
theorem nodup (h : Nested r evaluations)
    (hcycle : ∀ e ∈ evaluations, ¬ TransGen r.Edge e.filename e.filename) :
    (evaluations.map (·.filename)).Nodup := by
  refine Cycles.nodup_of_chain h.chain fun f hf => ?_
  obtain ⟨e, he, rfl⟩ := List.mem_map.mp hf
  exact hcycle e he

end Nested

namespace Realm

variable {r : Realm W V} {s t : Modules W V} {a : Act W} {f : Str} {w : W}

theorem call_waiting (h : s.call a = some (f, w)) :
    ∀ e ∈ s.evaluations.head?, ∃ w k, e.code = .require f w k := by
  intro e he
  rcases call_cases h with ⟨hnil, -⟩ | ⟨-, f', k, callers, hcons⟩
  · rw [hnil] at he
    exact absurd he (by simp)
  · rw [hcons] at he
    obtain rfl := Option.some.inj he
    exact ⟨w, k, rfl⟩

/-- The loader as every step leaves it: names of Object.prototype are not
    evaluated. -/
structure WellNested (r : Realm W V) (s : Modules W V) : Prop where
  nested : Nested r s.evaluations
  own : ∀ f v, s.map.own.find f = some v → ¬ PlainObject.Inherited f

theorem wellNested_init : WellNested r .init where
  nested := .nil
  own := fun f v h => absurd h (by simp [Modules.init])

/-- An evaluation only begins for a file whose name is not inherited. -/
theorem WellNested.plain_of_missing (h : WellNested r s) (hmissing : r.cached s.map f = none) :
    ¬ PlainObject.Inherited f := by
  intro hf
  cases hown : s.map.own.find f with
  | some v => exact h.own f v hown hf
  | none =>
      rw [cached_inherited hown hf] at hmissing
      exact absurd hmissing (by simp)

theorem WellNested.step (h : WellNested r s) (hstep : r.step s a = .next t) : WellNested r t := by
  rcases step_cases hstep with ⟨f, w, hcall, rfl⟩ | ⟨f, v, w, callers, -, hevals, rfl⟩
  · cases hcached : r.cached s.map f with
    | some v =>
        rw [load_cached hcached]
        exact ⟨h.nested.resume v w, h.own⟩
    | none =>
        rw [load_missing hcached]
        exact ⟨h.nested.push w (h.plain_of_missing hcached) (call_waiting hcall), h.own⟩
  · have hnested := h.nested
    rw [hevals] at hnested
    have hf := hnested.plain _ List.mem_cons_self
    refine ⟨hnested.pop.resume v w, fun q u hq => ?_⟩
    -- the new entry is for the file that was evaluated
    have hfind : (s.map.set f v).own.find q = some u := hq
    rw [PlainObject.find_set hf] at hfind
    split at hfind
    · next heq => exact heq ▸ hf
    · exact h.own q u hfind

end Realm

/-! ## Two files -/

/-- JavaScript values, as far as the files below export them. -/
inductive Value where
  | number (n : Int)
  | function (name : Str)
  deriving DecidableEq, Repr

def Value.truthy : Value → Bool
  | number n => n != 0
  | function _ => true

def aJs : Str := ofChars "/a.js".toList

def bJs : Str := ofChars "/b.js".toList

/-- `a.js` requires `b.js` twice, and `b.js` exports the number `n`. -/
def twice (n : Int) : Realm Unit Value where
  truthy := Value.truthy
  inherited := .function
  contents f _ :=
    if f = aJs then .require bJs () fun _ _ => .require bJs () fun v _ => .exports v ()
    else .exports (.number n) ()

theorem twice_requires {n : Int} {f g : Str} (h : (twice n).Requires f g) : f = aJs ∧ g = bJs := by
  obtain ⟨w, h⟩ := h
  by_cases hf : f = aJs
  · refine ⟨hf, ?_⟩
    simp only [twice, if_pos hf] at h
    cases h with
    | here => rfl
    | later _ _ h =>
        cases h with
        | here => rfl
        | later _ _ h => cases h
  · simp only [twice, if_neg hf] at h
    cases h

theorem twice_grounded (n : Int) (f : Str) : Cycles.Grounded (twice n).Requires f := by
  refine Cycles.grounded_of_rank (fun f => if f = aJs then 1 else 0) (fun f g h => ?_) f
  obtain ⟨rfl, rfl⟩ := twice_requires h
  decide

end NoJs.Loader
