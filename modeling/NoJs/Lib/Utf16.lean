/-
  NoJs.Lib.Utf16

  UTF-16 strings: sequences of arbitrary 16-bit code units, surrogates that do
  not pair up included, read as sequences of code points.

  `codePoints` and `ofCodePoints` are inverse on every string; on a sequence of
  Unicode scalar values they are inverse the other way round too.  Code points of
  a concatenation are those of its parts unless the seam joins a surrogate pair.
-/

import Mathlib.Data.List.Basic
import Mathlib.Tactic.Common

namespace Utf16

/-- A string of 16-bit code units. -/
abbrev Str := List UInt16

def isHigh (u : UInt16) : Bool := decide (0xD800 ≤ u.toNat ∧ u.toNat ≤ 0xDBFF)

def isLow (u : UInt16) : Bool := decide (0xDC00 ≤ u.toNat ∧ u.toNat ≤ 0xDFFF)

/-- The code point of a surrogate pair. -/
def pair (hi lo : UInt16) : Nat := 0x10000 + (hi.toNat - 0xD800) * 0x400 + (lo.toNat - 0xDC00)

/-- The code points of a string; a surrogate without its partner is its own. -/
def codePoints : Str → List Nat
  | [] => []
  | [u] => [u.toNat]
  | u :: v :: s =>
      if isHigh u && isLow v then pair u v :: codePoints s else u.toNat :: codePoints (v :: s)

/-- The code units of a code point. -/
def ofCodePoint (c : Nat) : Str :=
  if c < 0x10000 then [UInt16.ofNat c]
  else [UInt16.ofNat (0xD800 + (c - 0x10000) / 0x400), UInt16.ofNat (0xDC00 + (c - 0x10000) % 0x400)]

def ofCodePoints (cs : List Nat) : Str := cs.flatMap ofCodePoint

/-- The string of a sequence of Unicode scalar values. -/
def ofChars (cs : List Char) : Str := ofCodePoints (cs.map Char.toNat)

@[simp] theorem ofCodePoints_cons (c : Nat) (cs : List Nat) :
    ofCodePoints (c :: cs) = ofCodePoint c ++ ofCodePoints cs := rfl

theorem ofCodePoint_toNat (u : UInt16) : ofCodePoint u.toNat = [u] := by
  rw [ofCodePoint, if_pos u.toNat_lt, UInt16.ofNat_toNat]

theorem ofCodePoint_pair {hi lo : UInt16} (hhi : isHigh hi) (hlo : isLow lo) :
    ofCodePoint (pair hi lo) = [hi, lo] := by
  simp only [isHigh, isLow, decide_eq_true_eq] at hhi hlo
  have h1 : 0xD800 + (pair hi lo - 0x10000) / 0x400 = hi.toNat := by
    unfold pair
    omega
  have h2 : 0xDC00 + (pair hi lo - 0x10000) % 0x400 = lo.toNat := by
    unfold pair
    omega
  have hge : ¬ pair hi lo < 0x10000 := by
    unfold pair
    omega
  rw [ofCodePoint, if_neg hge, h1, h2, UInt16.ofNat_toNat, UInt16.ofNat_toNat]

/-- A string is the string of its code points. -/
theorem ofCodePoints_codePoints (s : Str) : ofCodePoints (codePoints s) = s := by
  fun_induction codePoints s with
  | case1 => rfl
  | case2 u => rw [ofCodePoints_cons, ofCodePoint_toNat]; rfl
  | case3 u v s hpair ih =>
      rw [Bool.and_eq_true] at hpair
      rw [ofCodePoints_cons, ofCodePoint_pair hpair.1 hpair.2, ih]
      rfl
  | case4 u v s hpair ih =>
      rw [ofCodePoints_cons, ofCodePoint_toNat, ih]
      rfl

/-- The code points of a string are in the Unicode range. -/
theorem codePoints_le (s : Str) : ∀ c ∈ codePoints s, c ≤ 0x10FFFF := by
  fun_induction codePoints s with
  | case1 => simp
  | case2 u =>
      intro c hc
      have hlt := u.toNat_lt
      rw [List.mem_singleton] at hc
      omega
  | case3 u v s hpair ih =>
      intro c hc
      rcases List.mem_cons.mp hc with hc | hc
      · simp only [isHigh, isLow, Bool.and_eq_true, decide_eq_true_eq] at hpair
        rw [hc]
        unfold pair
        omega
      · exact ih c hc
  | case4 u v s hpair ih =>
      intro c hc
      rcases List.mem_cons.mp hc with rfl | hc
      · have hlt := u.toNat_lt
        omega
      · exact ih c hc

/-- A code unit that is no high surrogate stands for itself. -/
theorem codePoints_cons {u : UInt16} (hu : isHigh u = false) (s : Str) :
    codePoints (u :: s) = u.toNat :: codePoints s := by
  cases s with
  | nil => rfl
  | cons v s => rw [codePoints, hu, Bool.false_and, if_neg (by decide)]

/-- The last code unit of `s` and the first of `t` are a surrogate pair. -/
def joins (s t : Str) : Bool := s.getLast?.any isHigh && t.head?.any isLow

theorem isHigh_of_isLow {u : UInt16} (h : isLow u) : isHigh u = false := by
  simp only [isLow, decide_eq_true_eq] at h
  rw [isHigh, decide_eq_false_iff_not]
  omega

theorem isLow_of_isHigh {u : UInt16} (h : isHigh u) : isLow u = false := by
  simp only [isHigh, decide_eq_true_eq] at h
  rw [isLow, decide_eq_false_iff_not]
  omega

/-- Where the seam joins no pair the code points are those of the parts. -/
theorem codePoints_append_of_not_joins {s t : Str} (h : joins s t = false) :
    codePoints (s ++ t) = codePoints s ++ codePoints t := by
  fun_induction codePoints s with
  | case1 => rfl
  | case2 u =>
      cases t with
      | nil => rfl
      | cons v t =>
          have hseam : ¬ (isHigh u && isLow v) := by simpa [joins] using h
          rw [List.singleton_append, codePoints, if_neg hseam]
          rfl
  | case3 u v s hpair ih =>
      -- a pair that is complete joins nothing, so the seam is that of the rest
      have hrest : joins s t = false := by
        cases s with
        | nil => rfl
        | cons w s => simpa [joins] using h
      rw [List.cons_append, List.cons_append, codePoints, if_pos hpair, ih hrest]
      rfl
  | case4 u v s hpair ih =>
      have hrest : joins (v :: s) t = false := by simpa [joins] using h
      rw [List.cons_append, List.cons_append, codePoints, if_neg hpair, ← List.cons_append,
        ih hrest]
      rfl

/-- Before a code unit that is no low surrogate a string can be cut. -/
theorem codePoints_append (s : Str) {u : UInt16} (hu : isLow u = false) (t : Str) :
    codePoints (s ++ u :: t) = codePoints s ++ codePoints (u :: t) :=
  codePoints_append_of_not_joins (by simp [joins, hu])

theorem joins_iff {s t : Str} : joins s t ↔
    ∃ s' hi lo t', s = s' ++ [hi] ∧ t = lo :: t' ∧ isHigh hi ∧ isLow lo := by
  constructor
  · intro h
    rw [joins, Bool.and_eq_true, Option.any_eq_true, Option.any_eq_true] at h
    obtain ⟨⟨hi, hlast, hhi⟩, lo, hfirst, hlo⟩ := h
    obtain ⟨s', rfl⟩ := List.getLast?_eq_some_iff.mp hlast
    obtain ⟨t', rfl⟩ := List.head?_eq_some_iff.mp hfirst
    exact ⟨s', hi, lo, t', rfl, rfl, hhi, hlo⟩
  · rintro ⟨s', hi, lo, t', rfl, rfl, hhi, hlo⟩
    simp [joins, hhi, hlo]

/-- Where it does, one code point takes the place of two. -/
theorem codePoints_append_of_joins {s t : Str} (h : joins s t) :
    ∃ cs hi lo ds, isHigh hi ∧ isLow lo ∧ codePoints s = cs ++ [hi.toNat] ∧
      codePoints t = lo.toNat :: ds ∧ codePoints (s ++ t) = cs ++ pair hi lo :: ds := by
  obtain ⟨s, hi, lo, t, rfl, rfl, hhi, hlo⟩ := joins_iff.mp h
  have hcut := isLow_of_isHigh hhi
  refine ⟨codePoints s, hi, lo, codePoints t, hhi, hlo, codePoints_append s hcut [],
    codePoints_cons (isHigh_of_isLow hlo) t, ?_⟩
  have hpair : isHigh hi && isLow lo := by rw [hhi, hlo]; rfl
  rw [List.append_assoc, List.singleton_append, codePoints_append s hcut, codePoints, if_pos hpair]

/-- A code point of the basic plane is a code unit of the string. -/
theorem mem_of_mem_codePoints {s : Str} {c : Nat} (hc : c ∈ codePoints s) (hlt : c < 0x10000) :
    UInt16.ofNat c ∈ s := by
  fun_induction codePoints s with
  | case1 => exact absurd hc List.not_mem_nil
  | case2 u =>
      rw [List.mem_singleton] at hc
      rw [hc, UInt16.ofNat_toNat]
      exact List.mem_singleton_self u
  | case3 u v s hpair ih =>
      rcases List.mem_cons.mp hc with hc | hc
      · unfold pair at hc
        omega
      · exact List.mem_cons_of_mem u (List.mem_cons_of_mem v (ih hc))
  | case4 u v s hpair ih =>
      rcases List.mem_cons.mp hc with hc | hc
      · rw [hc, UInt16.ofNat_toNat]
        exact List.mem_cons_self
      · exact List.mem_cons_of_mem u (ih hc)

/-- The code points of the string of scalar values are these values. -/
theorem codePoints_ofChars (cs : List Char) : codePoints (ofChars cs) = cs.map Char.toNat := by
  induction cs with
  | nil => rfl
  | cons c cs ih =>
      have hvalid : c.toNat < 0xD800 ∨ 0xDFFF < c.toNat ∧ c.toNat < 0x110000 := c.valid
      have hcons : ofChars (c :: cs) = ofCodePoint c.toNat ++ ofChars cs := rfl
      rw [hcons, ofCodePoint, List.map_cons]
      split
      · next hbmp =>
        have hunit : (UInt16.ofNat c.toNat).toNat = c.toNat := UInt16.toNat_ofNat_of_lt hbmp
        have hhigh : isHigh (UInt16.ofNat c.toNat) = false := by
          rw [isHigh, hunit, decide_eq_false_iff_not]
          omega
        rw [List.singleton_append, codePoints_cons hhigh, hunit, ih]
      · next hbmp =>
        have hhi : (UInt16.ofNat (0xD800 + (c.toNat - 0x10000) / 0x400)).toNat
            = 0xD800 + (c.toNat - 0x10000) / 0x400 := UInt16.toNat_ofNat_of_lt (by rw [UInt16.size]; omega)
        have hlo : (UInt16.ofNat (0xDC00 + (c.toNat - 0x10000) % 0x400)).toNat
            = 0xDC00 + (c.toNat - 0x10000) % 0x400 := UInt16.toNat_ofNat_of_lt (by rw [UInt16.size]; omega)
        have hpair : isHigh (UInt16.ofNat (0xD800 + (c.toNat - 0x10000) / 0x400)) &&
            isLow (UInt16.ofNat (0xDC00 + (c.toNat - 0x10000) % 0x400)) := by
          rw [isHigh, isLow, hhi, hlo, Bool.and_eq_true, decide_eq_true_eq, decide_eq_true_eq]
          omega
        have hvalue : pair (UInt16.ofNat (0xD800 + (c.toNat - 0x10000) / 0x400))
            (UInt16.ofNat (0xDC00 + (c.toNat - 0x10000) % 0x400)) = c.toNat := by
          unfold pair
          rw [hhi, hlo]
          omega
        rw [List.cons_append, List.cons_append, codePoints, if_pos hpair, hvalue,
          List.nil_append, ih]

/-! ## Well-formed strings -/

/-- A string without unpaired surrogates. -/
def WellFormed (s : Str) : Prop := ∃ cs, s = ofChars cs

def replacement : Char := Char.ofNat 0xFFFD

@[simp] theorem ofChars_append (cs ds : List Char) :
    ofChars (cs ++ ds) = ofChars cs ++ ofChars ds := by
  rw [ofChars, List.map_append, ofCodePoints, List.flatMap_append]
  rfl

theorem ofChars_flatMap {α : Type _} (f : α → List Char) (l : List α) :
    ofChars (l.flatMap f) = l.flatMap fun a => ofChars (f a) := by
  induction l with
  | nil => rfl
  | cons a l ih => rw [List.flatMap_cons, ofChars_append, ih, List.flatMap_cons]

theorem ofChars_inj {cs ds : List Char} : ofChars cs = ofChars ds ↔ cs = ds := by
  refine ⟨fun h => ?_, congrArg ofChars⟩
  have hcodes := congrArg codePoints h
  rw [codePoints_ofChars, codePoints_ofChars] at hcodes
  exact List.map_injective_iff.mpr (fun _ _ => Char.toNat_inj.mp) hcodes

end Utf16
