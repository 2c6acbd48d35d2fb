/-
  NoJs.Lib.Cycles

  Directed graphs, given by their edges `r a b`: the nodes from which every path
  ends, those from which a cycle can be reached, and paths listed from their end.

  A node from which every path ends is an accessible one of the edges taken
  backwards.  On a set of finitely many nodes that no edge leaves, these are the
  nodes from which no cycle can be reached.
-/

import Mathlib.Data.Fintype.Card
import Mathlib.Data.List.Chain
import Mathlib.Data.Set.Finite.Basic
import Mathlib.Logic.Relation

namespace Cycles

open Relation

variable {α : Type _} {r : α → α → Prop} {a b : α}

/-- Every path from `a` ends. -/
def Grounded (r : α → α → Prop) (a : α) : Prop := Acc (Function.swap r) a

/-- A cycle can be reached from `a`. -/
def ReachesCycle (r : α → α → Prop) (a : α) : Prop := ∃ c, ReflTransGen r a c ∧ TransGen r c c

theorem grounded_intro (h : ∀ b, r a b → Grounded r b) : Grounded r a := Acc.intro a h

theorem Grounded.edge (h : Grounded r a) (hab : r a b) : Grounded r b := h.inv hab

theorem Grounded.reach (h : Grounded r a) (hab : ReflTransGen r a b) : Grounded r b := by
  induction hab with
  | refl => exact h
  | tail _ hbc ih => exact ih.edge hbc

/-- With fewer edges, paths end all the sooner. -/
theorem Grounded.mono {q : α → α → Prop} (hq : ∀ a b, q a b → r a b) (h : Grounded r a) :
    Grounded q a := by
  induction h with
  | intro a _ ih => exact grounded_intro fun b hab => ih b (hq a b hab)

/-- No cycle goes through a node from which every path ends. -/
theorem Grounded.not_cycle (h : Grounded r a) : ¬ TransGen r a a := by
  induction h with
  | intro a _ ih =>
    intro hcycle
    -- the cycle goes through the next node, too
    obtain ⟨b, hab, hba⟩ := TransGen.head'_iff.mp hcycle
    exact ih b hab (TransGen.tail' hba hab)

theorem Grounded.not_reachesCycle (h : Grounded r a) : ¬ ReachesCycle r a := by
  rintro ⟨c, hreach, hcycle⟩
  exact (h.reach hreach).not_cycle hcycle

/-- A node that is not grounded has a successor that is not. -/
theorem exists_edge_of_not_grounded (h : ¬ Grounded r a) : ∃ b, r a b ∧ ¬ Grounded r b := by
  by_contra hnone
  refine h (grounded_intro fun b hab => ?_)
  by_contra hb
  exact hnone ⟨b, hab, hb⟩

/-- On a finite type, every path of a graph without cycles ends. -/
theorem grounded_of_finite [Finite α] (h : ∀ a, ¬ TransGen r a a) (a : α) : Grounded r a := by
  have : IsTrans α (fun b a => TransGen r a b) := ⟨fun _ _ _ hab hbc => hbc.trans hab⟩
  have : Std.Irrefl (fun b a => TransGen r a b) := ⟨h⟩
  have hwf : WellFounded fun b a => TransGen r a b := Finite.wellFounded_of_trans_of_irrefl _
  induction hwf.apply a with
  | intro a _ ih => exact grounded_intro fun b hab => ih b (TransGen.single hab)

/-- The nodes that can be reached from `a` decide. -/
theorem Grounded.of_reachable {q : { b // ReflTransGen r a b } → { b // ReflTransGen r a b } → Prop}
    (hq : ∀ b c, r b.1 c.1 → q b c) {b : { b // ReflTransGen r a b }} (h : Grounded q b) :
    Grounded r b.1 := by
  induction h with
  | intro b _ ih =>
    exact grounded_intro fun c hbc => ih ⟨c, b.2.tail hbc⟩ (hq b ⟨c, b.2.tail hbc⟩ hbc)

/-- Among finitely many nodes, a path that does not end runs into a cycle. -/
theorem grounded_of_not_reachesCycle {S : Set α} (hfinite : S.Finite)
    (hclosed : ∀ a ∈ S, ∀ b, r a b → b ∈ S) (ha : a ∈ S) (h : ¬ ReachesCycle r a) :
    Grounded r a := by
  have hreach : ∀ b, ReflTransGen r a b → b ∈ S := by
    intro b hab
    induction hab with
    | refl => exact ha
    | tail _ hbc ih => exact hclosed _ ih _ hbc
  have : Finite { b // ReflTransGen r a b } := (hfinite.subset hreach).to_subtype
  have hacyclic : ∀ b : { b // ReflTransGen r a b },
      ¬ TransGen (fun b c : { b // ReflTransGen r a b } => r b.1 c.1) b b := by
    intro b hcycle
    exact h ⟨b.1, b.2, hcycle.lift Subtype.val fun _ _ hbc => hbc⟩
  exact Grounded.of_reachable (fun _ _ hbc => hbc)
    (grounded_of_finite hacyclic ⟨a, ReflTransGen.refl⟩)

theorem grounded_iff {S : Set α} (hfinite : S.Finite) (hclosed : ∀ a ∈ S, ∀ b, r a b → b ∈ S)
    (ha : a ∈ S) : Grounded r a ↔ ¬ ReachesCycle r a :=
  ⟨Grounded.not_reachesCycle, grounded_of_not_reachesCycle hfinite hclosed ha⟩

/-- Every path of a graph whose edges descend ends. -/
theorem grounded_of_rank (rank : α → Nat) (h : ∀ a b, r a b → rank b < rank a) (a : α) :
    Grounded r a :=
  Subrelation.accessible (fun hba => h _ _ hba) ((measure rank).wf.apply a)

/-! ## Paths listed from their end -/

/-- Every node of the list can be reached from those behind it. -/
theorem pairwise_of_chain {path : List α} (h : path.IsChain (Function.swap r)) :
    path.Pairwise fun b a => TransGen r a b := by
  have : IsTrans α (fun b a => TransGen r a b) := ⟨fun _ _ _ hab hbc => hbc.trans hab⟩
  exact List.isChain_iff_pairwise.mp (h.imp fun _ _ hab => TransGen.single hab)

/-- A path that no cycle goes through has no node twice. -/
theorem nodup_of_chain {path : List α} (h : path.IsChain (Function.swap r))
    (hcycle : ∀ a ∈ path, ¬ TransGen r a a) : path.Nodup := by
  refine (pairwise_of_chain h).imp_of_mem fun hb _ hab => ?_
  rintro rfl
  exact hcycle _ hb hab

end Cycles
