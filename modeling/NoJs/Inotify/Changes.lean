/-
  NoJs.Inotify.Changes

  One change event in `libs/inotify/index.js`, with callbacks that unwatch.

  The closure of `watch` takes the queue of the entry once and indexes it while
  it lasts.  It is the array itself: what `unwatch(filename, cb)` splices out
  moves the items behind it up, and what `unwatch(filename)` drops from `map`
  the closure still has.

  The delivery comes out right when an item is unwatched before its call, and
  when nothing is left to call.
-/

import NoJs.Inotify.Watch

namespace NoJs.Inotify

open Machine IoUring Utf16

namespace Change

/-! ## The delivery loop -/

inductive Stage where
  /-- At `i < queue.length`. -/
  | head
  /-- In the callback of the item. -/
  | callback (item : Item)
  | done
  deriving DecidableEq, Repr

/-- What is recorded of a delivery. -/
inductive Mark where
  | called (item : Item)
  /-- The items an `unwatch` has removed when it returns. -/
  | removed (items : List Item)
  deriving DecidableEq, Repr

end Change

structure Change where
  js : Watching
  /-- The array of the closure, once `map` does not lead to it any more. -/
  detached : Option (List Item)
  i : Nat
  stage : Change.Stage
  log : List Change.Mark

namespace Change

/-- The items watching the file. -/
def watching (filename : Str) (js : Watching) : List Item :=
  match js.map.own.find filename with
  | none => []
  | some e => e.queue

/-- The `queue` of the closure. -/
def queue (filename : Str) (s : Change) : List Item := s.detached.getD (watching filename s.js)

/-- `unwatch` from a callback; only `delete` parts the array from `map`. -/
def unwatch (filename : Str) (callback : Option JsFunction) (s : Change) : Outcome Change :=
  (s.js.unwatch filename callback).bind fun js => .next
    { s with
      js
      detached :=
        if js.map.own.find filename = none then some (s.queue filename) else s.detached
      log := s.log ++ [.removed
        ((watching filename s.js).filter fun item => item ∉ watching filename js)] }

inductive Act where
  /-- The condition of the loop, and the call when it holds. -/
  | head
  /-- The callback calls `unwatch(filename, …)`. -/
  | unwatch (callback : Option JsFunction)
  /-- The callback returns, and `i++`. -/
  | ret
  deriving DecidableEq, Repr

def step (filename : Str) (s : Change) : Act → Outcome Change
  | .head =>
      if s.stage = .head then
        match (s.queue filename)[s.i]? with
        | some item => .next { s with stage := .callback item, log := s.log ++ [.called item] }
        | none => .next { s with stage := .done }
      else .disabled
  | .unwatch callback =>
      match s.stage with
      | .callback _ => s.unwatch filename callback
      | _ => .disabled
  | .ret =>
      match s.stage with
      | .callback _ => .next { s with i := s.i + 1, stage := .head }
      | _ => .disabled

/-- The closure of `filename`, called for a change. -/
def machine (filename : Str) (js : Watching) : Machine Change Act :=
  ⟨⟨js, none, 0, .head, []⟩, step filename⟩

/-- The items called, in order. -/
def called (s : Change) : List Item :=
  s.log.filterMap fun
    | .called item => some item
    | .removed _ => none

/-! ## What is to come of it -/

/-- What the closure finds: an entry, with different objects in its queue. -/
structure Watched (filename : Str) (js : Watching) : Prop where
  entry : (js.map.own.find filename).isSome
  key : ¬ PlainObject.Inherited filename
  nodup : (watching filename js).Nodup

/-- The law: who stays is called once, and nobody after his `unwatch`. -/
structure Exact (filename : Str) (js : Watching) (s : Change) : Prop where
  once : s.stage = .done → ∀ item ∈ watching filename js, item ∈ watching filename s.js →
    s.called.count item = 1
  after : s.log.Pairwise fun a b => ∀ item, b = .called item → ∀ items, a = .removed items →
    item ∉ items

/-- Nothing is left to call. -/
def Last (filename : Str) (s : Change) : Prop := (s.queue filename).length ≤ s.i + 1

/-- The callback unwatches an item still to be called, or nothing is left to
    call. -/
def Ahead (filename : Str) (s : Change) : Act → Prop
  | .unwatch none => s.Last filename ∨ s.js.map.own.find filename = none
  | .unwatch (some callback) => s.Last filename ∨
      ∀ item ∈ (watching filename s.js).find? (·.cb == callback), item ∉ s.called
  | _ => True

instance (filename : Str) (s : Change) : Decidable (s.Last filename) :=
  inferInstanceAs (Decidable (_ ≤ _))

instance (filename : Str) (s : Change) : ∀ a, Decidable (s.Ahead filename a)
  | .head => isTrue trivial
  | .unwatch none => inferInstanceAs (Decidable (_ ∨ _))
  | .unwatch (some _) => inferInstanceAs (Decidable (_ ∨ ∀ item ∈ _, _))
  | .ret => isTrue trivial

/-! ## unwatch -/

variable {filename : Str} {js js' : Watching} {s t : Change}

/-- What `unwatch` does to the file's entry. -/
theorem unwatch_watching (js : Watching) (hkey : ¬ PlainObject.Inherited filename)
    (callback : Option JsFunction) :
    ∃ js', js.unwatch filename callback = .next js' ∧
      (js.map.own.find filename = none → js'.map.own.find filename = none) ∧
      ((js.map.own.find filename).isSome →
        match callback with
        | none => js'.map.own.find filename = none
        | some callback => (js'.map.own.find filename).isSome ∧
            watching filename js' = (watching filename js).eraseP (·.cb == callback)) := by
  cases hfind : js.map.own.find filename with
  | none =>
      refine ⟨js, ?_, fun _ => hfind, by simp⟩
      simp only [Watching.unwatch, PlainObject.get_of_not_inherited hkey, hfind]
  | some e =>
      cases callback with
      | none =>
          simp only [Watching.unwatch, PlainObject.get_of_find hfind]
          refine ⟨_, rfl, by simp, fun _ => ?_⟩
          show (js.map.delete filename).own.find filename = none
          rw [PlainObject.find_delete, if_pos rfl]
      | some callback =>
          simp only [Watching.unwatch, PlainObject.get_of_find hfind]
          refine ⟨_, rfl, by simp, fun _ => ?_⟩
          -- `off` leaves the map alone
          have hmap : ∀ u : Watching, ∀ b : Prop, [Decidable b] → ∀ ctx,
              (if b then u.off ctx else u).map = u.map := by
            intro u b _ ctx
            split
            · rfl
            · rfl
          simp only [watching, hmap, PlainObject.find_set hkey, if_true, hfind]
          exact ⟨rfl, rfl⟩

theorem called_called (s : Change) (item : Item) (stage : Stage) :
    called { s with stage, log := s.log ++ [.called item] } = s.called ++ [item] := by
  simp [called]

theorem called_removed (s : Change) (js : Watching) (detached : Option (List Item))
    (items : List Item) :
    called { s with js, detached, log := s.log ++ [.removed items] } = s.called := by
  simp [called]

/-! ## The invariant -/

/-- The items the loop has passed. -/
def passed (s : Change) : Nat :=
  match s.stage with
  | .callback _ => s.i + 1
  | _ => s.i

/-- The queue is a part that was called and one that is to be called; the index
    is between them unless nothing is to be called. -/
structure Split (called queue : List Item) (passed : Nat) (front rest : List Item) : Prop where
  parts : queue = front ++ rest
  old : front ⊆ called
  new : ∀ x ∈ rest, x ∉ called
  le : front.length ≤ passed
  eq : rest ≠ [] → front.length = passed

structure Straight (filename : Str) (s : Change) : Prop where
  key : ¬ PlainObject.Inherited filename
  /-- The array is that of the entry, or there is no entry. -/
  attached : s.detached = none ∧ (s.js.map.own.find filename).isSome ∨
    s.js.map.own.find filename = none
  nodup : (s.queue filename).Nodup
  split : ∃ front rest, Split s.called (s.queue filename) s.passed front rest
  called : s.called.Nodup
  gone : ∀ items, .removed items ∈ s.log → ∀ x ∈ items, x ∈ s.queue filename → x ∈ s.called
  after : s.log.Pairwise fun a b => ∀ item, b = .called item → ∀ items, a = .removed items →
    item ∉ items
  ended : s.stage = .done → (s.queue filename).length ≤ s.i

theorem straight_init (h : Watched filename js) : Straight filename (machine filename js).init where
  key := h.key
  attached := .inl ⟨rfl, h.entry⟩
  nodup := h.nodup
  split := ⟨[], watching filename js, rfl, List.nil_subset _, by simp [called, machine],
    Nat.le_refl 0, fun _ => rfl⟩
  called := List.nodup_nil
  gone := by simp [machine]
  after := List.Pairwise.nil
  ended := by simp [machine]

/-- With nothing behind the index everything in the queue was called. -/
theorem Split.all_called {called queue front rest : List Item} {n : Nat}
    (h : Split called queue n front rest) (hlen : queue.length ≤ n) : rest = [] := by
  by_contra hne
  have hfront := h.eq hne
  have hpos := List.length_pos_of_ne_nil hne
  rw [h.parts, List.length_append] at hlen
  omega

/-- Splicing behind what was called leaves that part. -/
theorem eraseP_behind {front rest : List Item} {p : Item → Bool} {called : List Item}
    (hold : front ⊆ called) (hbehind : ∀ item ∈ (front ++ rest).find? p, item ∉ called) :
    (front ++ rest).eraseP p = front ++ rest.eraseP p := by
  apply List.eraseP_append_right
  intro x hx
  by_contra hp
  -- otherwise the first match is among those called
  have hsome : (front.find? p).isSome := List.find?_isSome.mpr ⟨x, hx, by simpa using hp⟩
  obtain ⟨y, hy⟩ := Option.isSome_iff_exists.mp hsome
  have hfirst : (front ++ rest).find? p = some y := by rw [List.find?_append, hy]; rfl
  exact hbehind y hfirst (hold (List.mem_of_find?_eq_some hy))

/-- A callback is spliced out: behind what was called, or with nothing left to call. -/
theorem Split.splice {called queue front rest : List Item} {n : Nat}
    (h : Split called queue n front rest) {callback : JsFunction}
    (hahead : queue.length ≤ n ∨ ∀ item ∈ queue.find? (·.cb == callback), item ∉ called) :
    ∃ front' rest', Split called (queue.eraseP (·.cb == callback)) n front' rest' := by
  have hsub : (queue.eraseP (·.cb == callback)).Sublist queue := List.eraseP_sublist
  rcases hahead with hlast | hbehind
  · have hrest := h.all_called hlast
    subst hrest
    rw [h.parts, List.append_nil] at hsub ⊢
    exact ⟨_, [], (List.append_nil _).symm, fun x hx => h.old (hsub.subset hx), by simp,
      Nat.le_trans hsub.length_le h.le, fun hne => absurd rfl hne⟩
  · rw [h.parts] at hbehind ⊢
    refine ⟨front, rest.eraseP (·.cb == callback), eraseP_behind h.old hbehind, h.old, ?_, h.le, ?_⟩
    · exact fun x hx => h.new x (List.mem_of_mem_eraseP hx)
    · intro hne
      apply h.eq
      rintro rfl
      exact hne rfl

namespace Straight

/-- The call of the next item. -/
theorem call (h : Straight filename s) (hstage : s.stage = .head) {item : Item}
    (hitem : (s.queue filename)[s.i]? = some item) :
    Straight filename { s with stage := .callback item, log := s.log ++ [.called item] } := by
  obtain ⟨front, rest, hsplit⟩ := h.split
  have hpassed : s.passed = s.i := by rw [passed, hstage]
  rw [hpassed] at hsplit
  -- the item is the first of those to be called
  have hrest : rest ≠ [] := by
    rintro rfl
    have hlt := (List.getElem?_eq_some_iff.mp hitem).1
    have hle := hsplit.le
    rw [hsplit.parts, List.append_nil] at hlt
    omega
  have hlen := hsplit.eq hrest
  rw [hsplit.parts, ← hlen, List.getElem?_append_right (Nat.le_refl _), Nat.sub_self] at hitem
  cases rest with
  | nil => exact absurd rfl hrest
  | cons x rest =>
      obtain rfl := Option.some.inj hitem
      have hnew : x ∉ s.called := hsplit.new x (List.mem_cons_self ..)
      have hnodup := h.nodup
      rw [hsplit.parts, List.nodup_append] at hnodup
      have hx : x ∉ rest := (List.nodup_cons.mp hnodup.2.1).1
      refine ⟨h.key, h.attached, h.nodup, ⟨front ++ [x], rest, ?_⟩, ?_, ?_, ?_, by simp⟩
      · rw [called_called]
        refine ⟨?_, ?_, ?_, ?_, fun _ => ?_⟩
        · rw [List.append_assoc]
          exact hsplit.parts
        · exact List.append_subset.mpr ⟨List.Subset.trans hsplit.old (List.subset_append_left _ _),
            List.subset_append_right _ _⟩
        · intro y hy hcalled
          rcases List.mem_append.mp hcalled with hcalled | hcalled
          · exact hsplit.new y (List.mem_cons_of_mem _ hy) hcalled
          · exact hx (List.mem_singleton.mp hcalled ▸ hy)
        · rw [List.length_append, hlen]
          exact Nat.le_refl _
        · rw [List.length_append, hlen]
          rfl
      · rw [called_called, List.nodup_append]
        refine ⟨h.called, List.nodup_singleton _, ?_⟩
        intro y hy z hz heq
        rw [List.mem_singleton.mp hz] at heq
        exact hnew (heq ▸ hy)
      · intro items hitems y hy hqueue
        rw [called_called]
        have hold := (List.mem_append.mp hitems).resolve_right (by simp)
        exact List.mem_append_left _ (h.gone items hold y hy hqueue)
      · rw [List.pairwise_append]
        refine ⟨h.after, List.pairwise_singleton _ _, ?_⟩
        intro a ha b hb item hitem items hitems hin
        rw [List.mem_singleton.mp hb] at hitem
        obtain rfl := Mark.called.inj hitem
        subst hitems
        apply hnew
        apply h.gone items ha x hin
        rw [hsplit.parts]
        exact List.mem_append_right _ (List.mem_cons_self ..)

/-- An `unwatch` that leaves the loop a queue of which it has passed what it has
    called. -/
theorem removed (h : Straight filename s) {item : Item} (hstage : s.stage = .callback item)
    {js : Watching} {detached : Option (List Item)} {items front rest : List Item}
    (queue : List Item) (hqueue : detached.getD (watching filename js) = queue)
    (hsub : queue.Sublist (s.queue filename))
    (hattached : detached = none ∧ (js.map.own.find filename).isSome ∨
      js.map.own.find filename = none)
    (hsplit : Split s.called queue (s.i + 1) front rest)
    (hgone : ∀ x ∈ items, x ∈ queue → x ∈ s.called) :
    Straight filename { s with js, detached, log := s.log ++ [.removed items] } := by
  have hq : Change.queue filename { s with js, detached, log := s.log ++ [.removed items] }
      = queue := hqueue
  refine ⟨h.key, hattached, ?_, ⟨front, rest, ?_⟩, ?_, ?_, ?_, ?_⟩
  · rw [hq]
    exact h.nodup.sublist hsub
  · rw [hq, called_removed]
    show Split s.called queue (passed { s with js, detached, log := s.log ++ [.removed items] }) _ _
    rw [show passed { s with js, detached, log := s.log ++ [.removed items] } = s.i + 1 by
      simp only [passed, hstage]]
    exact hsplit
  · rw [called_removed]
    exact h.called
  · intro items' hitems' x hx hin
    rw [called_removed]
    rw [hq] at hin
    rcases List.mem_append.mp hitems' with hold | hnew
    · exact h.gone items' hold x hx (hsub.subset hin)
    · obtain rfl := Mark.removed.inj (List.mem_singleton.mp hnew)
      exact hgone x hx hin
  · rw [List.pairwise_append]
    refine ⟨h.after, List.pairwise_singleton _ _, ?_⟩
    intro a _ b hb x hx
    rw [List.mem_singleton.mp hb] at hx
    exact absurd hx (by simp)
  · intro hdone
    exact absurd (hstage.symm.trans hdone) (by simp)

theorem unwatch (h : Straight filename s) {item : Item} (hstage : s.stage = .callback item)
    {callback : Option JsFunction} (hahead : s.Ahead filename (.unwatch callback)) :
    (s.unwatch filename callback).Holds (Straight filename) := by
  obtain ⟨front, rest, hsplit⟩ := h.split
  rw [show s.passed = s.i + 1 by simp only [passed, hstage]] at hsplit
  obtain ⟨js', hrun, hgone, hthere⟩ := unwatch_watching s.js h.key callback
  simp only [Change.unwatch, hrun, Outcome.bind_next]
  rcases h.attached with ⟨hdetached, hentry⟩ | hentry
  · -- the array is that of the entry
    have hqueue : s.queue filename = watching filename s.js := by rw [queue, hdetached]; rfl
    cases callback with
    | none =>
        have hnone : js'.map.own.find filename = none := hthere hentry
        have hlast : s.Last filename := by
          rcases hahead with hlast | habsent
          · exact hlast
          · rw [habsent] at hentry
            exact absurd hentry (by simp)
        have hrest := hsplit.all_called hlast
        subst hrest
        refine h.removed hstage (s.queue filename) (by rw [if_pos hnone]; rfl)
          (List.Sublist.refl _) (.inr hnone) hsplit ?_
        intro x _ hx
        rw [hsplit.parts, List.append_nil] at hx
        exact hsplit.old hx
    | some callback =>
        obtain ⟨hsome, hspliced⟩ := hthere hentry
        have hne : js'.map.own.find filename ≠ none := by
          intro hnone
          rw [hnone] at hsome
          exact absurd hsome (by simp)
        rw [← hqueue] at hspliced
        -- what was removed is in the array no more
        have hgone' : ∀ x ∈ (watching filename s.js).filter (fun x => x ∉ watching filename js'),
            x ∈ watching filename js' → x ∈ s.called := by
          intro x hx hin
          have hnot := (List.mem_filter.mp hx).2
          exact absurd hin (of_decide_eq_true hnot)
        have hsub : (watching filename js').Sublist (s.queue filename) := by
          rw [hspliced]
          exact List.eraseP_sublist
        have hleft : ∃ front' rest',
            Split s.called (watching filename js') (s.i + 1) front' rest' := by
          rw [hspliced]
          refine hsplit.splice (hahead.imp_right fun hbehind => ?_)
          rw [hqueue]
          exact hbehind
        obtain ⟨front', rest', hsplit'⟩ := hleft
        refine h.removed hstage (watching filename js') ?_ hsub (.inl ⟨?_, hsome⟩)
          hsplit' hgone'
        · rw [if_neg hne, hdetached]
          rfl
        · rw [if_neg hne, hdetached]
  · -- nobody is watching any more, and the array is on its own
    have hnone := hgone hentry
    refine h.removed hstage (s.queue filename) (by rw [if_pos hnone]; rfl)
      (List.Sublist.refl _) (.inr hnone) hsplit ?_
    intro x hx _
    simp only [watching, hentry, List.filter_nil, List.not_mem_nil] at hx

theorem step (h : Straight filename s) {a : Act} (hahead : s.Ahead filename a) :
    (Change.step filename s a).Holds (Straight filename) := by
  cases a with
  | head =>
      simp only [Change.step]
      split
      · next hstage =>
        split
        · next item hitem => exact h.call hstage hitem
        · next hitem =>
          obtain ⟨front, rest, hsplit⟩ := h.split
          rw [show s.passed = s.i by simp only [passed, hstage]] at hsplit
          exact ⟨h.key, h.attached, h.nodup, ⟨front, rest, hsplit⟩, h.called, h.gone, h.after,
            fun _ => List.getElem?_eq_none_iff.mp hitem⟩
      · trivial
  | unwatch callback =>
      simp only [Change.step]
      split
      · next item hstage => exact h.unwatch hstage hahead
      · trivial
  | ret =>
      simp only [Change.step]
      split
      · next item hstage =>
        obtain ⟨front, rest, hsplit⟩ := h.split
        rw [show s.passed = s.i + 1 by simp only [passed, hstage]] at hsplit
        exact ⟨h.key, h.attached, h.nodup, ⟨front, rest, hsplit⟩, h.called, h.gone, h.after,
          by simp⟩
      · trivial

/-- At the end everybody still watching has been called, once. -/
theorem exact (h : Straight filename s) (js : Watching) : Exact filename js s where
  once := by
    intro hdone item _ hitem
    obtain ⟨front, rest, hsplit⟩ := h.split
    rw [show s.passed = s.i by simp only [passed, hdone]] at hsplit
    have hrest := hsplit.all_called (h.ended hdone)
    subst hrest
    have hin : item ∈ s.queue filename := by
      rcases h.attached with ⟨hdetached, -⟩ | hentry
      · rw [queue, hdetached]
        exact hitem
      · rw [watching, hentry] at hitem
        exact absurd hitem (by simp)
    rw [hsplit.parts, List.append_nil] at hin
    exact List.count_eq_one_of_mem h.called (hsplit.old hin)
  after := h.after

end Straight

/-! ## The queues of the table -/

/-- Every entry of `map` is one that a closure can find. -/
def Built (js : Watching) : Prop :=
  ∀ filename e, js.map.own.find filename = some e →
    ¬ PlainObject.Inherited filename ∧ e.queue.Nodup ∧ ∀ item ∈ e.queue, item.object < js.items

theorem Built.set (h : Built js) (hkey : ¬ PlainObject.Inherited filename) {e : Entry}
    {items : Nat} (hitems : js.items ≤ items) (hnodup : e.queue.Nodup)
    (hold : ∀ item ∈ e.queue, item.object < items) :
    Built { js with map := js.map.set filename e, items } := by
  intro q e' he'
  rw [PlainObject.find_set hkey] at he'
  split at he'
  · next hq =>
    obtain rfl := Option.some.inj he'
    exact ⟨hq ▸ hkey, hnodup, hold⟩
  · obtain ⟨hkey', hnodup', hold'⟩ := h q e' he'
    exact ⟨hkey', hnodup', fun item hitem => Nat.lt_of_lt_of_le (hold' item hitem) hitems⟩

theorem built_step (h : Built js) {a : Watching.Act} (hstep : js.step a = .next js') :
    Built js' := by
  cases a with
  | watch filename cb id =>
      simp only [Watching.step, Watching.watch] at hstep
      cases hget : js.map.get filename with
      | own e =>
          simp only [hget] at hstep
          obtain rfl := Outcome.next.inj hstep
          obtain ⟨hkey, hnodup, hold⟩ := h filename e (PlainObject.find_of_get hget)
          refine h.set hkey (Nat.le_succ _) ?_ ?_
          · rw [List.nodup_append]
            refine ⟨hnodup, List.nodup_singleton _, ?_⟩
            intro x hx y hy heq
            have hlt := hold x hx
            rw [heq, List.mem_singleton.mp hy] at hlt
            exact Nat.lt_irrefl _ hlt
          · intro x hx
            rcases List.mem_append.mp hx with hx | hx
            · exact Nat.lt_succ_of_lt (hold x hx)
            · rw [List.mem_singleton.mp hx]
              exact Nat.lt_succ_self _
      | inherited =>
          simp only [hget] at hstep
          exact Outcome.next.inj hstep ▸ h
      | absent =>
          simp only [hget] at hstep
          obtain ⟨⟨ctx, u⟩, hon, hu⟩ := Outcome.bind_eq_next.mp hstep
          obtain ⟨w, -, hw⟩ := Outcome.bind_eq_next.mp hon
          obtain ⟨rfl, rfl⟩ := Prod.mk.inj (Outcome.next.inj hw)
          obtain rfl := Outcome.next.inj hu
          have hregistered : Built
              { js with watcher := w, closures := js.closures ++ [filename] } := h
          refine hregistered.set (PlainObject.not_inherited_of_get hget) (Nat.le_succ _)
            (List.nodup_singleton _) ?_
          intro x hx
          rw [List.mem_singleton.mp hx]
          exact Nat.lt_succ_self _
  | unwatch filename callback =>
      simp only [Watching.step, Watching.unwatch] at hstep
      cases hget : js.map.get filename with
      | own e =>
          obtain ⟨hkey, hnodup, hold⟩ := h filename e (PlainObject.find_of_get hget)
          cases callback with
          | none =>
              simp only [hget] at hstep
              obtain rfl := Outcome.next.inj hstep
              intro q e' he'
              exact h q e' (StdMap.of_find_erase he').2
          | some callback =>
              simp only [hget] at hstep
              obtain rfl := Outcome.next.inj hstep
              have hset := h.set (e := { e with queue := Watching.splice e.queue callback }) hkey
                (Nat.le_refl _) (hnodup.sublist (List.eraseP_sublist))
                fun x hx => hold x (List.mem_of_mem_eraseP hx)
              split
              · exact hset
              · exact hset
      | inherited =>
          simp only [hget] at hstep
          exact absurd hstep (by simp)
      | absent =>
          simp only [hget] at hstep
          exact Outcome.next.inj hstep ▸ h

/-- Whatever was watched and unwatched, a closure finds a queue of this kind. -/
theorem watched_of_run (fd : Int32) (as : List Watching.Act)
    (hrun : (Watching.machine fd).run as = .next js) (hentry : (js.map.own.find filename).isSome) :
    Watched filename js := by
  have hkeeps : (Watching.machine fd).Keeps Built := fun _ _ _ h hstep => built_step h hstep
  have hinit : Built (Watching.init fd) :=
    fun _ _ he => absurd he (by simp [Watching.init])
  have hbuilt : Built js := hkeeps.run hinit hrun
  obtain ⟨e, he⟩ := Option.isSome_iff_exists.mp hentry
  obtain ⟨hkey, hnodup, -⟩ := hbuilt filename e he
  exact ⟨hentry, hkey, by rw [watching, he]; exact hnodup⟩

/-! ## The law -/

/-- A delivery whose callbacks all unwatch ahead of the index, or when nothing is
    left to call, is exact in every state. -/
theorem change_exact (filename : Str) (js : Watching) (hwatched : Watched filename js)
    (as : List Act) (hahead : (machine filename js).StepsMeet (Ahead filename)
      (machine filename js).init as) :
    ((machine filename js).run as).Holds (Exact filename js) := by
  have hpres : (machine filename js).PreservesWhen (Ahead filename) (Straight filename) :=
    fun _ _ h hmeet => h.step hmeet
  exact (hpres.run (straight_init hwatched) as hahead).imp fun _ h => h.exact js

/-- The file 'a' watched by the callbacks given. -/
def watchedBy (cbs : List JsFunction) : Watching :=
  match (Watching.machine 3).run (cbs.map fun cb => .watch (ofChars ['a']) cb 1) with
  | .next js => js
  | _ => .init 3

/-- The first of three callbacks unwatches the second, and the third is called. -/
def unwatchesSecond : List Act := [.head, .unwatch (some 1), .ret, .head, .ret, .head]

theorem change_exact_three :
    ∃ s, (machine (ofChars ['a']) (watchedBy [0, 1, 2])).run unwatchesSecond = .next s ∧
      s.stage = .done ∧ s.called.map (·.cb) = [0, 2] ∧
      Exact (ofChars ['a']) (watchedBy [0, 1, 2]) s := by
  have hwatched : Watched (ofChars ['a']) (watchedBy [0, 1, 2]) :=
    watched_of_run 3 ([0, 1, 2].map fun cb => .watch (ofChars ['a']) cb 1) rfl rfl
  have hholds := change_exact (ofChars ['a']) (watchedBy [0, 1, 2]) hwatched unwatchesSecond
    (by decide)
  exact ⟨_, rfl, rfl, rfl, hholds.of_next rfl⟩

/-- Two callbacks, of which the first unwatches itself: where that ends. -/
def skipped : Change :=
  match (machine (ofChars ['a']) (watchedBy [0, 1])).run
    [.head, .unwatch (some 0), .ret, .head] with
  | .next s => s
  | _ => ⟨.init 3, none, 0, .head, []⟩

/-- The second is still watching, and was not called. -/
theorem change_skips :
    ¬ ∀ filename js, Watched filename js → ∀ as,
      ((machine filename js).run as).Holds (Exact filename js) := by
  intro h
  have hwatched : Watched (ofChars ['a']) (watchedBy [0, 1]) :=
    watched_of_run 3 [.watch (ofChars ['a']) 0 1, .watch (ofChars ['a']) 1 1] rfl rfl
  have hrun := h _ _ hwatched [.head, .unwatch (some 0), .ret, .head]
  rw [show (machine (ofChars ['a']) (watchedBy [0, 1])).run
    [.head, .unwatch (some 0), .ret, .head] = .next skipped from rfl] at hrun
  have hone := hrun.once rfl ⟨1, 1⟩ (by decide) (by decide)
  exact absurd hone (by decide)

end Change

end NoJs.Inotify
