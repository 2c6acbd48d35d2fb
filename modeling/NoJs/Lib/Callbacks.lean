/-
  NoJs.Lib.Callbacks

  A library that calls back into code it does not control.

  The stack holds the activations, the newest first: those of the library, each
  with what it still has to do once the activation above it is gone, and those
  of foreign code.  While foreign code runs it may call the library, return, or
  throw; it may do so in any order and to any depth, so a callback may re-enter
  the library whose activation is still below it.  An exception drops the
  library's activations down to the next foreign one, which may catch it.

  `keeps_of_replies` is the rule for invariants of the whole stack: they need to
  be closed under dropping the newest activations, and every reply of the library
  has to keep them.  `keeps_data` is the case of the data alone.  `returns_control`
  is the rule for termination: where every step of the library's own makes the
  state smaller, it gets back to foreign code, whatever is on the stack.
-/

import Mathlib.Data.List.Basic
import NoJs.Lib.Machine

namespace Callbacks

open Machine

/-- An activation: one of the library's, or one of foreign code. -/
inductive Frame (κ φ : Type _) where
  | own (k : κ)
  | foreign (f : φ)
  deriving DecidableEq, Repr

/-- What a piece of the library's code does: it goes on with new activations above
    what is left of the stack, or throws. -/
inductive Reply (σ κ φ ε : Type _) where
  | go (s : σ) (frames : List (Frame κ φ))
  | throw (s : σ) (e : ε)
  deriving DecidableEq, Repr

structure State (σ κ φ : Type _) where
  data : σ
  /-- The newest activation first. -/
  stack : List (Frame κ φ)
  deriving DecidableEq, Repr

/-- What happens next.  A call, a return and an exception are choices of the
    foreign code that runs. -/
inductive Label (γ : Type _) where
  | call (c : γ)
  | ret
  | throw
  | resume
  deriving DecidableEq, Repr

variable {σ γ κ φ ε : Type _}

namespace Frame

def isOwn : Frame κ φ → Bool
  | own _ => true
  | foreign _ => false

end Frame

/-- The stack after an exception: down to the next foreign activation. -/
def unwind (stack : List (Frame κ φ)) : List (Frame κ φ) := stack.dropWhile Frame.isOwn

/-- Foreign code runs, or nothing does and the host may call the library. -/
def ForeignRuns : List (Frame κ φ) → Prop
  | .own _ :: _ => False
  | _ => True

instance decidableForeignRuns : ∀ stack : List (Frame κ φ), Decidable (ForeignRuns stack)
  | [] => isTrue trivial
  | .own _ :: _ => isFalse id
  | .foreign _ :: _ => isTrue trivial

namespace Reply

/-- The data a piece of code leaves. -/
def data : Reply σ κ φ ε → σ
  | go s _ => s
  | throw s _ => s

/-- The state after a reply, `stack` being the activations below. -/
def land (stack : List (Frame κ φ)) : Reply σ κ φ ε → State σ κ φ
  | go s frames => ⟨s, frames ++ stack⟩
  | throw s _ => ⟨s, unwind stack⟩

/-- Go on with `frames` once the activations of the reply are gone. -/
def andThen (r : Reply σ κ φ ε) (frames : List (Frame κ φ)) : Reply σ κ φ ε :=
  match r with
  | go s above => go s (above ++ frames)
  | throw s e => throw s e

@[simp] theorem data_go (s : σ) (frames : List (Frame κ φ)) :
    (go s frames : Reply σ κ φ ε).data = s := rfl

@[simp] theorem data_throw (s : σ) (e : ε) : (throw s e : Reply σ κ φ ε).data = s := rfl

@[simp] theorem land_go (s : σ) (frames stack : List (Frame κ φ)) :
    (go s frames : Reply σ κ φ ε).land stack = ⟨s, frames ++ stack⟩ := rfl

@[simp] theorem land_throw (s : σ) (e : ε) (stack : List (Frame κ φ)) :
    (throw s e : Reply σ κ φ ε).land stack = ⟨s, unwind stack⟩ := rfl

@[simp] theorem land_data (r : Reply σ κ φ ε) (stack : List (Frame κ φ)) :
    (r.land stack).data = r.data := by
  cases r <;> rfl

@[simp] theorem andThen_data (r : Reply σ κ φ ε) (frames : List (Frame κ φ)) :
    (r.andThen frames).data = r.data := by
  cases r <;> rfl

end Reply

end Callbacks

open Machine Callbacks

/-- A library: what each call of it does, and each activation when it goes on. -/
structure Callbacks (σ γ κ φ ε : Type _) where
  init : σ
  call : γ → σ → Reply σ κ φ ε
  resume : κ → σ → Reply σ κ φ ε

namespace Callbacks

variable {σ γ κ φ ε : Type _} (p : Callbacks σ γ κ φ ε)

/-- One step of the library and of the code around it. -/
def step (s : State σ κ φ) : Label γ → Outcome (State σ κ φ)
  | .call c => if ForeignRuns s.stack then .next ((p.call c s.data).land s.stack) else .disabled
  | .resume =>
      match s.stack with
      | .own k :: rest => .next ((p.resume k s.data).land rest)
      | _ => .disabled
  | .ret =>
      match s.stack with
      | .foreign _ :: rest => .next ⟨s.data, rest⟩
      | _ => .disabled
  | .throw =>
      match s.stack with
      | .foreign _ :: rest => .next ⟨s.data, unwind rest⟩
      | _ => .disabled

/-- The library with its callers and the functions it calls. -/
def machine : Machine (State σ κ φ) (Label γ) := ⟨⟨p.init, []⟩, p.step⟩

variable {p} {s t : State σ κ φ} {a : Label γ} {d : σ} {rest : List (Frame κ φ)}

@[simp] theorem machine_init : p.machine.init = ⟨p.init, []⟩ := rfl

@[simp] theorem machine_step : p.machine.step = p.step := rfl

/-! ## The stack -/

@[simp] theorem unwind_nil : unwind ([] : List (Frame κ φ)) = [] := rfl

@[simp] theorem unwind_own (k : κ) (rest : List (Frame κ φ)) :
    unwind (.own k :: rest) = unwind rest := rfl

@[simp] theorem unwind_foreign (f : φ) (rest : List (Frame κ φ)) :
    unwind (.foreign f :: rest) = .foreign f :: rest := rfl

theorem unwind_suffix (stack : List (Frame κ φ)) : unwind stack <:+ stack :=
  List.dropWhile_suffix _

/-- Library code runs. -/
theorem exists_own_of_not_foreignRuns {stack : List (Frame κ φ)} (h : ¬ ForeignRuns stack) :
    ∃ k rest, stack = .own k :: rest := by
  match stack, h with
  | [], h => exact absurd trivial h
  | .own k :: rest, _ => exact ⟨k, rest, rfl⟩
  | .foreign f :: rest, h => exact absurd trivial h

/-! ## What a step can do -/

/-- The four kinds of steps. -/
inductive Stepped (p : Callbacks σ γ κ φ ε) (s : State σ κ φ) :
    Label γ → State σ κ φ → Prop where
  | call (c : γ) (hruns : ForeignRuns s.stack) :
      Stepped p s (.call c) ((p.call c s.data).land s.stack)
  | resume (k : κ) (rest : List (Frame κ φ)) (hstack : s.stack = .own k :: rest) :
      Stepped p s .resume ((p.resume k s.data).land rest)
  | ret (f : φ) (rest : List (Frame κ φ)) (hstack : s.stack = .foreign f :: rest) :
      Stepped p s .ret ⟨s.data, rest⟩
  | throw (f : φ) (rest : List (Frame κ φ)) (hstack : s.stack = .foreign f :: rest) :
      Stepped p s .throw ⟨s.data, unwind rest⟩

theorem stepped_of_next (h : p.step s a = .next t) : Stepped p s a t := by
  obtain ⟨d, stack⟩ := s
  cases a with
  | call c =>
      by_cases hruns : ForeignRuns stack
      · rw [step, if_pos hruns] at h
        obtain rfl := Outcome.next.inj h
        exact .call c hruns
      · rw [step, if_neg hruns] at h
        exact absurd h (by simp)
  | resume =>
      match stack, h with
      | .own k :: rest, h =>
          obtain rfl := Outcome.next.inj h
          exact .resume k rest rfl
  | ret =>
      match stack, h with
      | .foreign f :: rest, h =>
          obtain rfl := Outcome.next.inj h
          exact .ret f rest rfl
  | throw =>
      match stack, h with
      | .foreign f :: rest, h =>
          obtain rfl := Outcome.next.inj h
          exact .throw f rest rfl

theorem step_resume (k : κ) (rest : List (Frame κ φ)) (d : σ) :
    p.step ⟨d, .own k :: rest⟩ .resume = .next ((p.resume k d).land rest) := rfl

theorem step_call (c : γ) (h : ForeignRuns s.stack) :
    p.step s (.call c) = .next ((p.call c s.data).land s.stack) := if_pos h

/-! ## Invariants -/

/-- The state a reply leads to satisfies `J`, `stack` being below; after an
    exception the claim is made of all of `stack`. -/
def Reply.Lands (J : State σ κ φ → Prop) (stack : List (Frame κ φ)) : Reply σ κ φ ε → Prop
  | .go s frames => J ⟨s, frames ++ stack⟩
  | .throw s _ => J ⟨s, stack⟩

/-- `J` does not depend on the newest activations being there. -/
def SuffixClosed (J : State σ κ φ → Prop) : Prop :=
  ∀ d stack below, below <:+ stack → J ⟨d, stack⟩ → J ⟨d, below⟩

theorem Reply.Lands.land {J : State σ κ φ → Prop} (hJ : SuffixClosed J) {r : Reply σ κ φ ε}
    (h : r.Lands J rest) : J (r.land rest) := by
  cases r with
  | go s frames => exact h
  | throw s e => exact hJ s rest _ (unwind_suffix rest) h

theorem Reply.Lands.imp {J K : State σ κ φ → Prop} {r : Reply σ κ φ ε} (h : r.Lands J rest)
    (hJK : ∀ s, J s → K s) : r.Lands K rest := by
  cases r with
  | go s frames => exact hJK _ h
  | throw s e => exact hJK _ h

/-- A reply above activations of its own. -/
theorem Reply.Lands.andThen {J : State σ κ φ → Prop} (hJ : SuffixClosed J) {r : Reply σ κ φ ε}
    {frames : List (Frame κ φ)} (h : r.Lands J (frames ++ rest)) :
    (r.andThen frames).Lands J rest := by
  cases r with
  | go s above =>
      show J ⟨s, (above ++ frames) ++ rest⟩
      rw [List.append_assoc]
      exact h
  | throw s e => exact hJ s _ _ (List.suffix_append frames rest) h

/-- An invariant of data and stack, for the steps that meet a condition: it is
    enough to look at the replies. -/
theorem keepsWhen_of_replies {G : State σ κ φ → Label γ → Prop} {J : State σ κ φ → Prop}
    (hJ : SuffixClosed J)
    (hcall : ∀ c d stack, J ⟨d, stack⟩ → G ⟨d, stack⟩ (.call c) →
      (p.call c d).Lands J stack)
    (hresume : ∀ k d rest, J ⟨d, .own k :: rest⟩ → (p.resume k d).Lands J rest) :
    p.machine.KeepsWhen G J := by
  rintro ⟨d, stack⟩ a t hs hG hstep
  cases stepped_of_next hstep with
  | call c hruns => exact (hcall c d stack hs hG).land hJ
  | resume k rest hstack =>
      obtain rfl : stack = .own k :: rest := hstack
      exact (hresume k d rest hs).land hJ
  | ret f rest hstack =>
      obtain rfl : stack = .foreign f :: rest := hstack
      exact hJ d _ _ (List.suffix_cons _ _) hs
  | throw f rest hstack =>
      obtain rfl : stack = .foreign f :: rest := hstack
      exact hJ d _ _ ((unwind_suffix rest).trans (List.suffix_cons _ _)) hs

theorem keeps_of_replies {J : State σ κ φ → Prop} (hJ : SuffixClosed J)
    (hcall : ∀ c d stack, J ⟨d, stack⟩ → (p.call c d).Lands J stack)
    (hresume : ∀ k d rest, J ⟨d, .own k :: rest⟩ → (p.resume k d).Lands J rest) :
    p.machine.Keeps J := fun s a t hs hstep =>
  keepsWhen_of_replies (G := fun _ _ => True) hJ (fun c d stack h _ => hcall c d stack h)
    hresume s a t hs trivial hstep

/-- An invariant of the data alone, for the calls that meet a condition. -/
theorem keepsWhen_data {G : Label γ → Prop} {I : σ → Prop}
    (hcall : ∀ c d, I d → G (.call c) → I (p.call c d).data)
    (hresume : ∀ k d, I d → I (p.resume k d).data) :
    p.machine.KeepsWhen (fun _ a => G a) fun s => I s.data := by
  rintro ⟨d, stack⟩ a t hs hG hstep
  cases stepped_of_next hstep with
  | call c hruns => exact (Reply.land_data _ _).symm ▸ hcall c d hs hG
  | resume k rest hstack => exact (Reply.land_data _ _).symm ▸ hresume k d hs
  | ret f rest hstack => exact hs
  | throw f rest hstack => exact hs

theorem keeps_data {I : σ → Prop} (hcall : ∀ c d, I d → I (p.call c d).data)
    (hresume : ∀ k d, I d → I (p.resume k d).data) : p.machine.Keeps fun s => I s.data :=
  fun s a t hs hstep => keepsWhen_data (G := fun _ => True) (fun c d hd _ => hcall c d hd) hresume
    s a t hs trivial hstep

/-! ## Termination -/

/-- Where the library's own steps make the state smaller, the library gets back
    to foreign code in finitely many of them. -/
theorem returns_control {J : State σ κ φ → Prop} {r : State σ κ φ → State σ κ φ → Prop}
    (hwf : WellFounded r) (hkeeps : p.machine.Keeps J)
    (hless : ∀ k d rest, J ⟨d, .own k :: rest⟩ →
      r ((p.resume k d).land rest) ⟨d, .own k :: rest⟩) (s : State σ κ φ) (hs : J s) :
    ∃ n t, p.machine.runFrom s (List.replicate n .resume) = .next t ∧ ForeignRuns t.stack := by
  induction s using hwf.induction with
  | _ s ih =>
      by_cases hruns : ForeignRuns s.stack
      · exact ⟨0, s, rfl, hruns⟩
      · obtain ⟨k, rest, hstack⟩ := exists_own_of_not_foreignRuns hruns
        obtain ⟨d, stack⟩ := s
        obtain rfl : stack = .own k :: rest := hstack
        have hstep : p.machine.step ⟨d, .own k :: rest⟩ .resume =
            .next ((p.resume k d).land rest) := step_resume k rest d
        obtain ⟨n, t, hrun, ht⟩ :=
          ih _ (hless k d rest hs) (hkeeps _ _ _ hs hstep)
        refine ⟨n + 1, t, ?_, ht⟩
        rw [List.replicate_succ, runFrom_cons, hstep, Outcome.bind_next]
        exact hrun

end Callbacks
