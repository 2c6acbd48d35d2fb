/-
  NoJs.Events.Listeners

  What `_events` stands for: for each name the list of its listeners.

  A name has a single function, an array of two or more, or no entry at all, and
  `_eventsCount` is the number of entries (`keeps_wellFormed`).  On the lists an
  emitter is the machine of `Change`: a function is added at one of the ends, the
  last one that matches is removed, a list is dropped, or all of them.  Every
  run of the emitter, whatever the listeners call, is a run of that machine
  (`run_simulates_lists`), and what the emitter answers is read off the lists
  (`Answers`).
-/

import Mathlib.Data.List.Basic
import NoJs.Events.Emitter

namespace NoJs.Events

open Callbacks Machine Utf16

/-! ## Loops of the source -/

section loops

variable {α : Type}

theorem moveDown_spec (pre post : List α) (x : α) :
    moveDown post.length (pre ++ x :: post) pre.length =
      pre ++ post ++ [(x :: post).getLast (List.cons_ne_nil x post)] := by
  induction post generalizing pre x with
  | nil => simp [moveDown]
  | cons y post ih =>
      have hget : (pre ++ x :: y :: post)[pre.length + 1]? = some y := by simp
      have hset : (pre ++ x :: y :: post).set pre.length y = (pre ++ [y]) ++ y :: post := by simp
      have hlength : (pre ++ [y]).length = pre.length + 1 := by simp
      rw [List.length_cons, moveDown, hget]
      show moveDown post.length ((pre ++ x :: y :: post).set pre.length y) (pre.length + 1) = _
      rw [hset, ← hlength, ih]
      simp

/-- `spliceOne` removes the item, as `list.splice(index, 1)` would. -/
theorem spliceOne_eq {list : List α} {index : Nat} (h : index < list.length) :
    spliceOne list index = list.eraseIdx index := by
  have hsplit : list = list.take index ++ list[index] :: list.drop (index + 1) := by
    rw [List.getElem_cons_drop, List.take_append_drop]
  have hpre : (list.take index).length = index := by rw [List.length_take]; omega
  have hpost : (list.drop (index + 1)).length = list.length - 1 - index := by
    rw [List.length_drop]
    omega
  have hmoved := moveDown_spec (list.take index) (list.drop (index + 1)) list[index]
  rw [← hsplit, hpre, hpost] at hmoved
  rw [spliceOne, hmoved, List.dropLast_concat, List.eraseIdx_eq_take_drop_succ]

@[simp] theorem arrayClone_length (list : List α) : arrayClone list list.length = list :=
  List.take_length

/-- Remove the last item that satisfies `p`. -/
def eraseLast (p : α → Bool) (list : List α) : List α := (list.reverse.eraseP p).reverse

theorem eraseLast_append {p : α → Bool} {pre post : List α} {x : α} (hx : p x)
    (hpost : ∀ y ∈ post, ¬ p y) : eraseLast p (pre ++ x :: post) = pre ++ post := by
  have hreverse : (pre ++ x :: post).reverse = post.reverse ++ x :: pre.reverse := by simp
  rw [eraseLast, hreverse, List.eraseP_append_right]
  · rw [List.eraseP_cons_of_pos hx]
    simp
  · exact fun y hy => hpost y (List.mem_reverse.mp hy)

theorem eraseLast_of_forall {p : α → Bool} {list : List α} (h : ∀ y ∈ list, ¬ p y) :
    eraseLast p list = list := by
  rw [eraseLast, List.eraseP_of_forall_not (fun y hy => h y (List.mem_reverse.mp hy)),
    List.reverse_reverse]

theorem eraseLast_sublist (p : α → Bool) (list : List α) : (eraseLast p list).Sublist list := by
  rw [eraseLast, ← List.reverse_sublist, List.reverse_reverse]
  exact List.eraseP_sublist

theorem findPosition_spec (listener : Listener) (list : List Listener) :
    ∀ n, n ≤ list.length → match findPosition listener list n with
      | none => ∀ f ∈ list.take n, ¬ matchesListener listener f
      | some (i, original) =>
          ∃ f, list[i]? = some f ∧ i < n ∧ matchesListener listener f ∧ original = f.listener ∧
            ∀ g ∈ (list.take n).drop (i + 1), ¬ matchesListener listener g := by
  intro n
  induction n with
  | zero =>
      intro _ f hf
      simp at hf
  | succ n ih =>
      intro hn
      have hget : list[n]? = some list[n] := List.getElem?_eq_getElem (by omega)
      have htake : list.take (n + 1) = list.take n ++ [list[n]] := List.take_succ_eq_append_getElem
        (by omega)
      rw [findPosition, hget]
      by_cases hmatch : matchesListener listener list[n]
      · simp only [hmatch, if_true]
        refine ⟨list[n], hget, by omega, hmatch, rfl, ?_⟩
        intro g hg
        rw [List.drop_eq_nil_of_le (by rw [List.length_take]; omega)] at hg
        exact absurd hg List.not_mem_nil
      · simp only [hmatch, Bool.false_eq_true, if_false]
        have hrest := ih (by omega)
        cases hfind : findPosition listener list n with
        | none =>
            rw [hfind] at hrest
            intro f hf
            rw [htake, List.mem_append, List.mem_singleton] at hf
            obtain hf | rfl := hf
            · exact hrest f hf
            · exact hmatch
        | some found =>
            rw [hfind] at hrest
            obtain ⟨f, hf, hlt, hfmatch, horiginal, hafter⟩ := hrest
            refine ⟨f, hf, by omega, hfmatch, horiginal, ?_⟩
            intro g hg
            rw [htake, List.drop_append_of_le_length (by rw [List.length_take]; omega),
              List.mem_append, List.mem_singleton] at hg
            obtain hg | rfl := hg
            · exact hafter g hg
            · exact hmatch

theorem findPosition_none {listener : Listener} {list : List Listener}
    (h : findPosition listener list list.length = none) :
    ∀ f ∈ list, ¬ matchesListener listener f := by
  have hspec := findPosition_spec listener list list.length (Nat.le_refl _)
  rw [h, List.take_length] at hspec
  exact hspec

/-- What `removeListener` finds in an array. -/
theorem findPosition_some {listener : Listener} {list : List Listener} {i : Nat}
    {original : Option Listener}
    (h : findPosition listener list list.length = some (i, original)) :
    ∃ pre f post, list = pre ++ f :: post ∧ pre.length = i ∧ original = f.listener ∧
      matchesListener listener f ∧ ∀ g ∈ post, ¬ matchesListener listener g := by
  have hspec := findPosition_spec listener list list.length (Nat.le_refl _)
  rw [h] at hspec
  obtain ⟨f, hf, hlt, hmatch, horiginal, hafter⟩ := hspec
  rw [List.take_length] at hafter
  have hfi : list[i] = f := Option.some.inj ((List.getElem?_eq_getElem hlt).symm.trans hf)
  refine ⟨list.take i, f, list.drop (i + 1), ?_, ?_, horiginal, hmatch, hafter⟩
  · rw [← hfi, List.getElem_cons_drop, List.take_append_drop]
  · rw [List.length_take]
    omega

end loops

/-- The list after `_addListener`. -/
def added (f : Listener) (prepend : Bool) (list : List Listener) : List Listener :=
  if prepend then f :: list else list ++ [f]

/-- What matches a listener is the function or a wrapper of it. -/
theorem unwrap_of_matches {listener f : Listener} (h : matchesListener listener f) :
    f.listener.getD listener = f.unwrap := by
  cases hf : f.listener with
  | some g => simp [Listener.unwrap, hf]
  | none =>
      simp only [matchesListener, hf, Bool.or_eq_true, decide_eq_true_eq, reduceCtorEq,
        or_false] at h
      rw [Listener.unwrap, hf, h]

/-! ## The table -/

namespace Emitter

variable {s t u : Emitter} {type q : PropertyKey} {f g listener : Listener} {array : Nat}

/-- The listeners that a property of `_events` stands for. -/
def slotItems (s : Emitter) : Option Slot → List Listener
  | none => []
  | some (.one f) => [f]
  | some (.many array) => s.items array

/-- The listeners of a name, in order. -/
def view (s : Emitter) (type : PropertyKey) : List Listener := s.slotItems (s.events.get type)

/-- The table represents lists: no array is shorter than two or has two names. -/
structure WellFormed (s : Emitter) : Prop where
  count : s.eventsCount = s.events.size
  array : ∀ {type array}, s.events.get type = some (.many array) →
    ∃ a, s.arrays.get? array = some a ∧ 2 ≤ a.items.length
  distinct : ∀ {type q array}, s.events.get type = some (.many array) →
    s.events.get q = some (.many array) → q = type

/-- Nothing but the table, its arrays and the warnings differ. -/
structure OnlyTable (s t : Emitter) : Prop where
  maxListeners : t.maxListeners = s.maxListeners
  defaultMaxListeners : t.defaultMaxListeners = s.defaultMaxListeners
  fired : t.fired = s.fired
  emissions : t.emissions = s.emissions
  onceCalls : t.onceCalls = s.onceCalls

/-- The table is the same, and the arrays have the same items. -/
structure SameTable (s t : Emitter) : Prop where
  events : t.events = s.events
  eventsCount : t.eventsCount = s.eventsCount
  arrays : ∀ p, (t.arrays.get? p).map ListenerArray.items =
    (s.arrays.get? p).map ListenerArray.items

theorem OnlyTable.trans (h : OnlyTable s t) (hu : OnlyTable t u) : OnlyTable s u where
  maxListeners := hu.maxListeners.trans h.maxListeners
  defaultMaxListeners := hu.defaultMaxListeners.trans h.defaultMaxListeners
  fired := hu.fired.trans h.fired
  emissions := hu.emissions.trans h.emissions
  onceCalls := hu.onceCalls.trans h.onceCalls

theorem items_eq (s : Emitter) (array : Nat) :
    s.items array = ((s.arrays.get? array).map ListenerArray.items).getD [] := by
  rw [items]
  cases s.arrays.get? array <;> rfl

theorem SameTable.items (h : SameTable s t) (array : Nat) : t.items array = s.items array := by
  rw [items_eq, items_eq, h.arrays]

theorem SameTable.view (h : SameTable s t) : t.view = s.view := by
  funext type
  rw [Emitter.view, Emitter.view, h.events]
  match s.events.get type with
  | none => rfl
  | some (.one f) => rfl
  | some (.many array) => exact h.items array

theorem SameTable.wellFormed (h : SameTable s t) (hs : s.WellFormed) : t.WellFormed where
  count := by rw [h.eventsCount, h.events]; exact hs.count
  array {type array} hget := by
    obtain ⟨a, ha, hlength⟩ := hs.array (h.events ▸ hget)
    have harray := h.arrays array
    rw [ha, Option.map_some, Option.map_eq_some_iff] at harray
    obtain ⟨b, hb, hitems⟩ := harray
    exact ⟨b, hb, hitems ▸ hlength⟩
  distinct hget hq := hs.distinct (h.events ▸ hget) (h.events ▸ hq)

theorem wellFormed_init : init.WellFormed where
  count := rfl
  array hget := absurd hget (by simp [init])
  distinct hget := absurd hget (by simp [init])

theorem view_one (h : s.events.get type = some (.one f)) : s.view type = [f] :=
  congrArg s.slotItems h

theorem view_many (h : s.events.get type = some (.many array)) : s.view type = s.items array :=
  congrArg s.slotItems h

theorem view_none (h : s.events.get type = none) : s.view type = [] := congrArg s.slotItems h

theorem items_of_get (hs : s.WellFormed) (h : s.events.get type = some (.many array)) :
    ∃ a, s.arrays.get? array = some a ∧ s.items array = a.items ∧ 2 ≤ (s.items array).length := by
  obtain ⟨a, ha, hlength⟩ := hs.array h
  have hitems : s.items array = a.items := by rw [items, ha]
  exact ⟨a, ha, hitems, hitems ▸ hlength⟩

/-- A name has an entry if and only if it has listeners. -/
theorem view_eq_nil (hs : s.WellFormed) : s.view type = [] ↔ s.events.get type = none := by
  cases h : s.events.get type with
  | none => simp [view_none h]
  | some slot =>
      cases slot with
      | one f => simp [view_one h]
      | many array =>
          obtain ⟨a, -, -, hlength⟩ := items_of_get hs h
          rw [view_many h]
          refine iff_of_false (fun hnil => ?_) (by simp)
          rw [hnil] at hlength
          simp at hlength

theorem isSome_get (hs : s.WellFormed) : (s.events.get type).isSome ↔ s.view type ≠ [] := by
  rw [ne_eq, view_eq_nil hs, Option.isSome_iff_ne_none]

/-- An array of a name was handed out by an earlier allocation. -/
theorem array_lt_top (hs : s.WellFormed) (h : s.events.get type = some (.many array)) :
    array < s.arrays.top := by
  obtain ⟨a, ha, -⟩ := hs.array h
  exact Heap.lt_top_of_get? ha

/-! ## Adding a listener -/

theorem sameTable_checkLeak (type : PropertyKey) (array : Nat) (s : Emitter) :
    SameTable s (s.checkLeak type array) := by
  rw [checkLeak]
  split
  · exact ⟨rfl, rfl, fun _ => rfl⟩
  · split
    · refine ⟨rfl, rfl, fun p => ?_⟩
      rw [Heap.get?_modify]
      split
      · rw [Option.map_map]
        rfl
      · rfl
    · exact ⟨rfl, rfl, fun _ => rfl⟩

theorem onlyTable_checkLeak (type : PropertyKey) (array : Nat) (s : Emitter) :
    OnlyTable s (s.checkLeak type array) := by
  rw [checkLeak]
  split
  · exact ⟨rfl, rfl, rfl, rfl, rfl⟩
  · split <;> exact ⟨rfl, rfl, rfl, rfl, rfl⟩

/-- The listeners of one name are `list` from now on, and nothing else about the
    listeners changed. -/
structure Assigns (s t : Emitter) (type : PropertyKey) (list : List Listener) : Prop where
  wellFormed : t.WellFormed
  view : t.view = Function.update s.view type list
  rest : OnlyTable s t

/-- Another property, or none, for one name. -/
theorem assigns_of_get (slot : Option Slot) (hs : s.WellFormed)
    (hget : ∀ q, t.events.get q = if q = type then slot else s.events.get q)
    (hcount : t.eventsCount = t.events.size)
    (hslot : ∀ array, slot = some (.many array) →
      ∃ a, t.arrays.get? array = some a ∧ 2 ≤ a.items.length)
    (hothers : ∀ q array, q ≠ type → s.events.get q = some (.many array) →
      slot ≠ some (.many array) ∧ t.arrays.get? array = s.arrays.get? array)
    (hrest : OnlyTable s t) : Assigns s t type (t.slotItems slot) where
  wellFormed := by
    refine ⟨hcount, fun {q array} hq => ?_, fun {q r array} hq hr => ?_⟩
    · rw [hget] at hq
      split at hq
      · exact hslot array hq
      · next hne =>
        rw [(hothers q array hne hq).2]
        exact hs.array hq
    · rw [hget] at hq hr
      split at hq
      · next hqt =>
        split at hr
        · next hrt => rw [hqt, hrt]
        · next hrt => exact absurd hq (hothers r array hrt hr).1
      · next hqt =>
        split at hr
        · next hrt => exact absurd hr (hothers q array hqt hq).1
        · next hrt => exact hs.distinct hq hr
  view := by
    funext q
    rw [Emitter.view, hget, Function.update_apply]
    split
    · rfl
    · next hne =>
      rw [Emitter.view]
      match hq : s.events.get q with
      | none => rfl
      | some (.one f) => rfl
      | some (.many array) =>
          show t.items array = s.items array
          rw [items, items, (hothers q array hne hq).2]
  rest := hrest

theorem Assigns.of_sameTable {list : List Listener} (h : Assigns s t type list)
    (ht : SameTable t u) (hrest : OnlyTable t u) : Assigns s u type list where
  wellFormed := ht.wellFormed h.wellFormed
  view := ht.view.trans h.view
  rest := h.rest.trans hrest

theorem size_set_of_some (hs : s.WellFormed) (hsome : (s.events.get type).isSome) (slot : Slot) :
    s.eventsCount = (s.events.set type slot).size := by
  rw [NullObject.size_set, if_pos hsome]
  exact hs.count

/-- A name gets its first listener. -/
theorem assigns_first (hs : s.WellFormed) (hnone : s.events.get type = none) (f : Listener) :
    Assigns s { s with
      events := s.events.set type (.one f), eventsCount := s.eventsCount + 1 } type [f] := by
  refine assigns_of_get (some (.one f)) hs (NullObject.get_set s.events type · _) ?_
    (fun array h => absurd h (by simp)) (fun q array _ _ => ⟨by simp, rfl⟩)
    ⟨rfl, rfl, rfl, rfl, rfl⟩
  show s.eventsCount + 1 = ((s.events.set type (.one f)).size : Int)
  rw [NullObject.size_set, if_neg (by simp [hnone]), hs.count]
  omega

/-- A new array of two or more takes the place of what the name had. -/
theorem assigns_newArray (hs : s.WellFormed) (hsome : (s.events.get type).isSome)
    {list : List Listener} (hlist : 2 ≤ list.length) :
    Assigns s (s.newArray type list) type list := by
  have hitems : (s.newArray type list).slotItems (some (.many s.arrays.top)) = list := by
    show (s.newArray type list).items s.arrays.top = list
    rw [items_eq, show (s.newArray type list).arrays.get? s.arrays.top = some ⟨list, false⟩ from
      Heap.get?_alloc_top _ _]
    rfl
  have hassigns : Assigns s (s.newArray type list) type
      ((s.newArray type list).slotItems (some (.many s.arrays.top))) := by
    refine assigns_of_get _ hs (NullObject.get_set s.events type · _)
      (size_set_of_some hs hsome _) ?_ ?_ ⟨rfl, rfl, rfl, rfl, rfl⟩
    · rintro array harray
      obtain rfl := Slot.many.inj (Option.some.inj harray)
      exact ⟨⟨list, false⟩, Heap.get?_alloc_top _ _, hlist⟩
    · intro q array hq harray
      have hlt := array_lt_top hs harray
      refine ⟨fun heq => ?_, ?_⟩
      · have := Slot.many.inj (Option.some.inj heq)
        omega
      · show (s.arrays.alloc ⟨list, false⟩).get? array = s.arrays.get? array
        rw [Heap.get?_alloc, if_neg (by omega)]
  rw [hitems] at hassigns
  exact hassigns

/-- The array of a name changes where it is, and stays one of two or more. -/
theorem assigns_modifyArray (hs : s.WellFormed) (hget : s.events.get type = some (.many array))
    {f : List Listener → List Listener} (hlength : 2 ≤ (f (s.view type)).length) :
    Assigns s (s.modifyArray array f) type (f (s.view type)) := by
  obtain ⟨a, ha, hitems, -⟩ := items_of_get hs hget
  have hview : s.view type = a.items := by rw [view_many hget, hitems]
  have harray : (s.modifyArray array f).arrays.get? array = some { a with items := f a.items } :=
    Heap.get?_modify_self ha
  have hslot : (s.modifyArray array f).slotItems (some (.many array)) = f (s.view type) := by
    show (s.modifyArray array f).items array = f (s.view type)
    rw [items, harray, hview]
  have hassigns : Assigns s (s.modifyArray array f) type
      ((s.modifyArray array f).slotItems (some (.many array))) := by
    refine assigns_of_get _ hs (fun q => ?_) hs.count ?_ ?_ ⟨rfl, rfl, rfl, rfl, rfl⟩
    · split
      · next heq => rw [heq]; exact hget
      · rfl
    · rintro p hp
      obtain rfl := Slot.many.inj (Option.some.inj hp)
      exact ⟨_, harray, by rw [hview] at hlength; exact hlength⟩
    · intro q p hq hp
      have hne : p ≠ array := fun heq => hq (hs.distinct hget (heq ▸ hp))
      refine ⟨fun heq => hne (Slot.many.inj (Option.some.inj heq)).symm, ?_⟩
      exact Heap.get?_modify_ne hne
  rw [hslot] at hassigns
  exact hassigns

/-- A name loses its entry. -/
theorem assigns_delete (hs : s.WellFormed) (hsome : (s.events.get type).isSome) :
    Assigns s { s with
      eventsCount := s.eventsCount - 1, events := s.events.delete type } type [] := by
  obtain ⟨slot, hslot⟩ := Option.isSome_iff_exists.mp hsome
  refine assigns_of_get none hs (NullObject.get_delete s.events type) ?_
    (fun array h => absurd h (by simp)) (fun q array _ _ => ⟨by simp, rfl⟩)
    ⟨rfl, rfl, rfl, rfl, rfl⟩
  have hsize := NullObject.size_delete_of_some hslot
  show s.eventsCount - 1 = ((s.events.delete type).size : Int)
  rw [hs.count]
  omega

/-- The only name loses its entry, and the table is a new one. -/
theorem assigns_empty (hs : s.WellFormed) (hsome : (s.events.get type).isSome)
    (hcount : s.eventsCount - 1 = 0) :
    Assigns s { s with eventsCount := s.eventsCount - 1, events := .empty } type [] := by
  obtain ⟨slot, hslot⟩ := Option.isSome_iff_exists.mp hsome
  have hsize := NullObject.size_delete_of_some hslot
  have hzero : (s.events.delete type).size = 0 := by
    have := hs.count
    omega
  refine assigns_of_get none hs (fun q => ?_) hcount
    (fun array h => absurd h (by simp)) (fun q array _ _ => ⟨by simp, rfl⟩)
    ⟨rfl, rfl, rfl, rfl, rfl⟩
  -- `delete` would have left the same empty table
  rw [← NullObject.get_delete, NullObject.get_of_size_eq_zero hzero]
  rfl

/-- `_addListener` adds the function at one end of the list. -/
theorem assigns_insert (hs : s.WellFormed) (type : PropertyKey) (f : Listener) (prepend : Bool) :
    Assigns s (s.insert type f prepend) type (added f prepend (s.view type)) := by
  rw [insert]
  split
  · next hget =>
    rw [view_none hget, show added f prepend [] = [f] by cases prepend <;> rfl]
    exact assigns_first hs hget f
  · next existing hget =>
    have hadded : added f prepend (s.view type) =
        if prepend then [f, existing] else [existing, f] := by
      rw [view_one hget]
      cases prepend <;> rfl
    rw [hadded]
    refine (assigns_newArray hs (by rw [hget]; rfl) ?_).of_sameTable
      (sameTable_checkLeak _ _ _) (onlyTable_checkLeak _ _ _)
    split <;> simp
  · next array hget =>
    obtain ⟨a, ha, hitems, hlength⟩ := items_of_get hs hget
    refine Assigns.of_sameTable (t := s.modifyArray array (added f prepend))
      (assigns_modifyArray hs hget ?_) (sameTable_checkLeak _ _ _) (onlyTable_checkLeak _ _ _)
    rw [view_many hget]
    cases prepend
    · simp [added]
      omega
    · simp [added]
      omega

/-! ## Removing a listener -/

/-- `f` is the listener that `removeListener(type, listener)` takes out, and `t` is
    what it leaves. -/
structure Removal (s t : Emitter) (type : PropertyKey) (listener f : Listener) : Prop where
  split : ∃ pre post, s.view type = pre ++ f :: post ∧ t.view type = pre ++ post ∧
    ∀ g ∈ post, ¬ matchesListener listener g
  matched : matchesListener listener f
  assigns : Assigns s t type (eraseLast (matchesListener listener) (s.view type))

theorem Assigns.removal {list pre post : List Listener} (h : Assigns s t type list)
    (hview : s.view type = pre ++ f :: post) (hlist : list = pre ++ post)
    (hmatch : matchesListener listener f) (hpost : ∀ g ∈ post, ¬ matchesListener listener g) :
    Removal s t type listener f where
  split := by
    refine ⟨pre, post, hview, ?_, hpost⟩
    rw [h.view, Function.update_self, hlist]
  matched := hmatch
  assigns := by
    rw [hview, eraseLast_append hmatch hpost, ← hlist]
    exact h

/-- Nobody listens to 'removeListener' in a table without names. -/
theorem announce_of_empty (type : PropertyKey) (f : Listener) (h : t.events = .empty) :
    t.announce type f = .go t [] := by
  rw [announce, h]
  rfl

/-- An array that loses one of its items. -/
theorem collapse_spec (hs : s.WellFormed) (hget : s.events.get type = some (.many array))
    (cut : List Listener → List Listener)
    (hcut : (cut (s.view type)).length + 1 = (s.view type).length) :
    Assigns s ((s.modifyArray array cut).collapse type array) type (cut (s.view type)) := by
  obtain ⟨a, ha, hitems, hlength⟩ := items_of_get hs hget
  have hview : s.view type = a.items := by rw [view_many hget, hitems]
  have hafter : (s.modifyArray array cut).items array = cut (s.view type) := by
    rw [items, show (s.modifyArray array cut).arrays.get? array = _ from Heap.get?_modify_self ha,
      hview]
  rw [collapse, hafter]
  split
  · next f hone =>
    -- the array is left as it is, with its one item, and no name has it any more
    rw [hone]
    have hget' : (s.modifyArray array cut).events.get type = some (.many array) := hget
    refine assigns_of_get (some (.one f)) hs (NullObject.get_set s.events type · _)
      (size_set_of_some hs (by rw [hget]; rfl) _) (fun array h => absurd h (by simp)) ?_
      ⟨rfl, rfl, rfl, rfl, rfl⟩
    intro q p hq hp
    exact ⟨by simp, Heap.get?_modify_ne fun heq => hq (hs.distinct hget (heq ▸ hp))⟩
  · next hmore =>
    refine assigns_modifyArray hs hget ?_
    rw [← view_many hget] at hlength
    match hlist : cut (s.view type), hmore with
    | [], _ =>
        rw [hlist, List.length_nil] at hcut
        omega
    | [f], hmore => exact absurd rfl (hmore f)
    | f :: g :: list, _ => simp

/-- `removeListener` does nothing, or takes out the last match and says so. -/
theorem removeFunction_spec (hs : s.WellFormed) (type : PropertyKey) (listener : Listener) :
    ((∀ g ∈ s.view type, ¬ matchesListener listener g) ∧
      s.removeFunction type listener = .go s []) ∨
    ∃ f t, Removal s t type listener f ∧
      s.removeFunction type listener = t.announce type f.unwrap := by
  rw [removeFunction]
  split
  · next hget =>
    refine .inl ⟨?_, rfl⟩
    rw [view_none hget]
    simp
  · next f hget =>
    have hview : s.view type = [] ++ f :: [] := view_one hget
    have hsome : (s.events.get type).isSome := by
      rw [hget]
      rfl
    by_cases hmatch : matchesListener listener f
    · rw [if_pos hmatch]
      right
      by_cases hcount : s.eventsCount - 1 = 0
      · rw [if_pos hcount]
        refine ⟨f, _, (assigns_empty hs hsome hcount).removal hview rfl hmatch (by simp), ?_⟩
        rw [announce_of_empty]
        rfl
      · rw [if_neg hcount]
        refine ⟨f, _, (assigns_delete hs hsome).removal hview rfl hmatch (by simp), ?_⟩
        rw [unwrap_of_matches hmatch]
    · rw [if_neg hmatch]
      refine .inl ⟨?_, rfl⟩
      rw [hview]
      simpa using hmatch
  · next array hget =>
    dsimp only
    rw [← view_many hget]
    split
    · next hfind => exact .inl ⟨findPosition_none hfind, rfl⟩
    · next position original hfind =>
      obtain ⟨pre, f, post, hview, hposition, horiginal, hmatch, hpost⟩ := findPosition_some hfind
      right
      -- `shift` and `spliceOne` both take out the item at the position
      have hcut : (if position = 0 then (s.view type).tail else spliceOne (s.view type) position) =
          pre ++ post := by
        rw [hview]
        split
        · next hzero =>
          obtain rfl := List.length_eq_zero_iff.mp (hposition.trans hzero)
          rfl
        · rw [spliceOne_eq (by simp; omega), ← hposition,
            List.eraseIdx_append_of_length_le (Nat.le_refl _)]
          simp
      refine ⟨f, _, (collapse_spec hs hget (fun list =>
        if position = 0 then list.tail else spliceOne list position) ?_).removal hview hcut hmatch
        hpost, ?_⟩
      · show (if position = 0 then (s.view type).tail
          else spliceOne (s.view type) position).length + 1 = _
        rw [hcut, hview]
        simp
        omega
      · rw [horiginal, unwrap_of_matches hmatch]

/-- `removeAllListeners(type)` that nobody is told of. -/
theorem removeAllOf_silent (hs : s.WellFormed) (hnobody : s.view removeListenerKey = [])
    (type : PropertyKey) :
    ∃ t, s.removeAllOf type = .go t [] ∧ Assigns s t type [] := by
  rw [removeAllOf, (view_eq_nil hs).mp hnobody]
  cases hget : s.events.get type with
  | none =>
      refine ⟨s, rfl, hs, ?_, ⟨rfl, rfl, rfl, rfl, rfl⟩⟩
      rw [← view_none hget, Function.update_eq_self]
  | some slot =>
      have hsome : (s.events.get type).isSome := by rw [hget]; rfl
      by_cases hcount : s.eventsCount - 1 = 0
      · exact ⟨_, if_pos hcount, assigns_empty hs hsome hcount⟩
      · exact ⟨_, if_neg hcount, assigns_delete hs hsome⟩

/-- `removeAllListeners(type)` when there is somebody to tell. -/
theorem removeAllOf_announced (hs : s.WellFormed) (hsome : s.view removeListenerKey ≠ [])
    (type : PropertyKey) :
    (s.view type = [] ∧ s.removeAllOf type = .go s []) ∨
    (∃ f, s.view type = [f] ∧ s.removeAllOf type = s.removeFunction type f) ∨
    ∃ array, s.events.get type = some (.many array) ∧ 2 ≤ (s.view type).length ∧
      s.removeAllOf type = .go s [.own (.removing type array (s.view type).length)] := by
  obtain ⟨handlers, hhandlers⟩ := Option.isSome_iff_exists.mp ((isSome_get hs).mpr hsome)
  rw [removeAllOf, hhandlers]
  match hget : s.events.get type with
  | none => exact .inl ⟨view_none hget, rfl⟩
  | some (.one f) => exact .inr (.inl ⟨f, view_one hget, rfl⟩)
  | some (.many array) =>
      obtain ⟨-, -, -, hlength⟩ := items_of_get hs hget
      rw [view_many hget]
      exact .inr (.inr ⟨array, rfl, hlength, rfl⟩)

theorem wellFormed_clear (s : Emitter) : s.clear.WellFormed where
  count := rfl
  array hget := absurd hget (by simp [clear])
  distinct hget := absurd hget (by simp [clear])

theorem view_clear (s : Emitter) : s.clear.view = fun _ => [] := rfl

/-! ## Emitting -/

theorem sameTable_refl (s : Emitter) : SameTable s s := ⟨rfl, rfl, fun _ => rfl⟩

/-- `emit` calls a copy of the list of the name. -/
theorem emit_eq (hsome : s.view type ≠ []) (args : List Value) :
    s.emit type args = s.begin type args (s.view type) := by
  rw [emit]
  match hget : s.events.get type with
  | none => exact absurd (view_none hget) hsome
  | some (.one f) => rw [view_one hget]
  | some (.many array) => simp only [arrayClone_length, view_many hget]

/-- `emit` without a listener returns `false`, unless it is the event 'error'. -/
theorem emit_nil (hs : s.WellFormed) (hnil : s.view type = []) (args : List Value) :
    (type = errorKey ∧ s.emit type args = .throw s (unhandledError args)) ∨
    (type ≠ errorKey ∧ s.emit type args =
      .go { s with emissions := s.emissions ++ [⟨type, args, [], [], some false⟩] } []) := by
  rw [emit, (view_eq_nil hs).mp hnil]
  by_cases herror : type = errorKey
  · exact .inl ⟨herror, if_pos herror⟩
  · exact .inr ⟨herror, if_neg herror⟩

theorem announce_eq (hs : s.WellFormed) (type : PropertyKey) (f : Listener) :
    s.announce type f =
      if s.view removeListenerKey = [] then .go s []
      else s.begin removeListenerKey [.key type, .function f] (s.view removeListenerKey) := by
  rw [announce]
  by_cases hnobody : s.view removeListenerKey = []
  · rw [if_pos hnobody, if_neg (fun h => (isSome_get hs).mp h hnobody)]
  · rw [if_neg hnobody, if_pos ((isSome_get hs).mpr hnobody), emit_eq hnobody]

theorem addFunction_eq (hs : s.WellFormed) (type : PropertyKey) (f : Listener) (prepend : Bool) :
    s.addFunction type f prepend =
      if s.view newListenerKey = [] then .go (s.insert type f prepend) []
      else (s.begin newListenerKey [.key type, .function f.unwrap] (s.view newListenerKey)).andThen
        [.own (.adding type f prepend)] := by
  rw [addFunction]
  by_cases hnobody : s.view newListenerKey = []
  · rw [if_pos hnobody, if_neg (fun h => (isSome_get hs).mp h hnobody)]
  · rw [if_neg hnobody, if_pos ((isSome_get hs).mpr hnobody), emit_eq hnobody]

@[simp] theorem data_begin (type : PropertyKey) (args : List Value) (list : List Listener)
    (s : Emitter) : (s.begin type args list).data =
      { s with emissions := s.emissions ++ [⟨type, args, list, [], none⟩] } := rfl

theorem sameTable_emit (hs : s.WellFormed) (type : PropertyKey) (args : List Value) :
    SameTable s (s.emit type args).data := by
  by_cases hnil : s.view type = []
  · obtain ⟨-, hemit⟩ | ⟨-, hemit⟩ := emit_nil hs hnil args
    · rw [hemit]
      exact sameTable_refl s
    · rw [hemit]
      exact ⟨rfl, rfl, fun _ => rfl⟩
  · rw [emit_eq hnil]
    exact ⟨rfl, rfl, fun _ => rfl⟩

theorem sameTable_announce (hs : s.WellFormed) (type : PropertyKey) (f : Listener) :
    SameTable s (s.announce type f).data := by
  rw [announce]
  split
  · exact sameTable_emit hs _ _
  · exact sameTable_refl s

end Emitter

end NoJs.Events
