/-
  NoJs.Inotify.Watch

  `libs/inotify/index.js` over the native listeners.

  `map` has one entry for a filename: the context that `inotify.on` returned and
  the queue of callbacks.  `watch` takes the presence of an entry to mean that a
  native listener is registered.  It is a plain object, so the names of
  Object.prototype are present from the start.

  The kernel may answer `inotify_add_watch` with any watch.  Each native listener
  is registered with a closure of its own, which knows its filename.
-/

import NoJs.Inotify.Table
import NoJs.Lib.PlainObject

namespace NoJs.Inotify

open Machine IoUring Utf16

/-! ## The data -/

/-- `{ cb, options }`, an object with an identity; the options are not read. -/
structure Item where
  object : Nat
  cb : JsFunction
  deriving DecidableEq, Repr

/-- `{ ctx, queue }`; `ctx` is -1 when `inotify.on` failed. -/
structure Entry where
  ctx : Option Context
  queue : List Item
  deriving DecidableEq, Repr

structure Watching where
  watcher : Watcher
  map : PlainObject Entry
  /-- The filename in the closure of each call of `inotify.on`. -/
  closures : List Str
  /-- The items made so far. -/
  items : Nat

namespace Watching

def init (fd : Int32) : Watching := ⟨.init fd, .empty, [], 0⟩

/-! ## The native functions -/

/-- `inotify.on(filename, closure)`, with the answer of `inotify_add_watch`. -/
def on (filename : Str) (id : Int32) (s : Watching) : Outcome (Option Context × Watching) :=
  (s.watcher.On (some s.closures.length) id).bind fun watcher => .next
    (if id = -1 then none else some ⟨id, watcher.lastId.toUInt32.toInt32⟩,
      { s with watcher, closures := s.closures ++ [filename] })

/-- `inotify.off(ctx)`: -1 has no property `watchId`. -/
def off (ctx : Option Context) (s : Watching) : Watching :=
  { s with watcher := s.watcher.Off (ctx.map (·.watchId)) (ctx.map (·.funcId)) }

/-! ## index.js -/

/-- `watch(filename, cb)`, with the answer of `inotify_add_watch`. -/
def watch (filename : Str) (cb : JsFunction) (id : Int32) (s : Watching) : Outcome Watching :=
  let item : Item := ⟨s.items, cb⟩
  match s.map.get filename with
  | .own e => .next
      { s with map := s.map.set filename { e with queue := e.queue ++ [item] }, items := s.items + 1 }
  -- `queue` of a function is undefined, and `push` of that a TypeError
  | .inherited => .next s
  | .absent => (s.on filename id).bind fun (ctx, s) => .next
      { s with map := s.map.set filename ⟨ctx, [item]⟩, items := s.items + 1 }

/-- The loop of `unwatch`: the first item with the callback is spliced out. -/
def splice (queue : List Item) (callback : JsFunction) : List Item :=
  queue.eraseP (·.cb == callback)

/-- `unwatch(filename, callback)`; no callback when it is not a function. -/
def unwatch (filename : Str) (callback : Option JsFunction) (s : Watching) : Outcome Watching :=
  match s.map.get filename, callback with
  | .absent, _ => .next s
  -- `inotify.off(undefined)`
  | .inherited, _ => .fault
  | .own e, none => .next ({ s with map := s.map.delete filename }.off e.ctx)
  | .own e, some callback =>
      let queue := splice e.queue callback
      let s := { s with map := s.map.set filename { e with queue } }
      .next (if queue = [] then s.off e.ctx else s)

/-- The callbacks that the closure for `filename` calls, one after the other. -/
def dispatch (filename : Str) (s : Watching) : List JsFunction :=
  match s.map.get filename with
  | .own e => e.queue.map (·.cb)
  -- no queue: the default `[]`; no entry: a TypeError
  | _ => []

/-- The callbacks called when the kernel reports a change for the watch `wd`. -/
def changed (wd : Int32) (s : Watching) : List JsFunction :=
  (s.watcher.listeners wd).flatMap fun c =>
    match c.object.bind (s.closures[·]?) with
    | some filename => s.dispatch filename
    | none => []

inductive Act where
  | watch (filename : Str) (cb : JsFunction) (id : Int32)
  | unwatch (filename : Str) (callback : Option JsFunction)
  deriving DecidableEq

def step (s : Watching) : Act → Outcome Watching
  | .watch filename cb id => s.watch filename cb id
  | .unwatch filename callback => s.unwatch filename callback

def machine (fd : Int32) : Machine Watching Act := ⟨init fd, step⟩

/-! ## What the table is to mirror -/

/-- The callbacks watched and not unwatched since. -/
def watchedAct (m : Multimap Str JsFunction) : Act → Multimap Str JsFunction
  | .watch filename cb _ => m.add filename cb
  | .unwatch filename none => m.removeAll filename
  | .unwatch filename (some callback) => m.remove filename callback

def watched (as : List Act) : Multimap Str JsFunction := as.foldl watchedAct .empty

/-- The native listener `c` of `wd` is the one the entry of `filename` is for. -/
structure Listens (s : Watching) (filename : Str) (e : Entry) (wd : Int32)
    (c : InotifyRequestContext) : Prop where
  ctx : e.ctx = some ⟨wd, c.id⟩
  listener : c ∈ s.watcher.listeners wd
  closure : c.object.bind (s.closures[·]?) = some filename

/-- Every callback watched for a file is called when the watch of its entry
    reports a change. -/
def Delivers (s : Watching) (m : Multimap Str JsFunction) : Prop :=
  ∀ filename, ∀ cb ∈ m.get filename, ∃ e ctx, s.map.own.find filename = some e ∧
    e.ctx = some ctx ∧ cb ∈ s.changed ctx.watchId

/-- Entries and native listeners belong together, and the queues are what is
    watched. -/
structure Mirrors (s : Watching) (m : Multimap Str JsFunction) : Prop where
  entry : ∀ filename e, s.map.own.find filename = some e →
    (∃ wd c, s.Listens filename e wd c) ∧ e.queue ≠ [] ∧ e.queue.map (·.cb) = m.get filename
  listener : ∀ wd, ∀ c ∈ s.watcher.listeners wd, ∃ filename e,
    s.map.own.find filename = some e ∧ s.Listens filename e wd c
  unwatched : ∀ filename, s.map.own.find filename = none → m.get filename = []

/-- The steps that keep them together: no filename is a name of Object.prototype,
    a first `watch` succeeds, and the last callback is not unwatched by itself.
    The id of a new listener is not in use, which takes 2^32 calls to fail. -/
def Careful (s : Watching) : Act → Prop
  | .watch filename _ id =>
      ¬ PlainObject.Inherited filename ∧
        (s.map.own.find filename = none →
          id ≠ -1 ∧ ∀ c ∈ s.watcher.listeners id, c.id ≠ (s.watcher.nextContext none).id)
  | .unwatch filename none => ¬ PlainObject.Inherited filename
  | .unwatch filename (some callback) =>
      ¬ PlainObject.Inherited filename ∧
        ∀ e ∈ s.map.own.find filename, splice e.queue callback ≠ []

instance (s : Watching) : ∀ a, Decidable (s.Careful a)
  | .watch _ _ _ => inferInstanceAs (Decidable (_ ∧ (_ → _ ∧ _)))
  | .unwatch _ none => inferInstanceAs (Decidable (¬ _))
  | .unwatch _ (some _) => inferInstanceAs (Decidable (_ ∧ ∀ e ∈ _, _))

/-! ## The invariant -/

structure Inv (s : Watching) (m : Multimap Str JsFunction) : Prop where
  sound : ∃ n, s.watcher.env.Sound n
  keyed : s.watcher.Keyed
  distinct : ∀ wd, ((s.watcher.listeners wd).map (·.id)).Nodup
  mirrors : s.Mirrors m

variable {s : Watching} {m : Multimap Str JsFunction} {filename : Str} {e : Entry}

theorem inv_init (fd : Int32) : Inv (init fd) .empty where
  sound := ⟨0, Environment.sound_init⟩
  keyed := fun _ => by simp [init, Watcher.init]
  distinct := fun _ => List.nodup_nil
  mirrors := by
    refine ⟨fun f e h => absurd h (by simp [init]), fun wd c hc => ?_,
      fun _ _ => rfl⟩
    exact absurd hc (by simp [init, Watcher.listeners, Watcher.init])

/-- Splicing an item out of the queue erases its callback from the callbacks. -/
theorem map_splice (queue : List Item) (callback : JsFunction) :
    (splice queue callback).map (·.cb) = (queue.map (·.cb)).erase callback := by
  rw [List.erase_eq_eraseP', List.eraseP_map]
  rfl

/-- A listener belongs to one filename. -/
theorem Listens.inj (hdistinct : ∀ wd, ((s.watcher.listeners wd).map (·.id)).Nodup)
    {filename' : Str} {e' : Entry} {wd wd' : Int32} {c c' : InotifyRequestContext}
    (h : s.Listens filename e wd c) (h' : s.Listens filename' e' wd' c') (hwd : wd = wd')
    (hid : c.id = c'.id) : filename = filename' := by
  subst hwd
  have hc := List.inj_on_of_nodup_map (hdistinct wd) h.listener h'.listener hid
  have hclosure := h.closure
  rw [hc, h'.closure] at hclosure
  exact (Option.some.inj hclosure).symm

/-- A closure keeps its filename when another one is made. -/
theorem closure_append {closures : List Str} {o : Option JsFunction} {q : Str} (filename : Str)
    (h : o.bind (closures[·]?) = some q) : o.bind ((closures ++ [filename])[·]?) = some q := by
  obtain ⟨k, rfl, hk⟩ := Option.bind_eq_some_iff.mp h
  show (closures ++ [filename])[k]? = some q
  rw [List.getElem?_append_left (List.getElem?_eq_some_iff.mp hk).1]
  exact hk

/-- The queue of an entry changes. -/
theorem Inv.requeue (h : Inv s m) (hin : ¬ PlainObject.Inherited filename)
    (hfind : s.map.own.find filename = some e) {queue : List Item} {items : Nat}
    {m' : Multimap Str JsFunction} (hne : queue ≠ []) (hqueue : queue.map (·.cb) = m'.get filename)
    (hm' : ∀ q, q ≠ filename → m'.get q = m.get q) :
    Inv { s with map := s.map.set filename { e with queue }, items } m' := by
  refine ⟨h.sound, h.keyed, h.distinct, ?_, ?_, ?_⟩
  · intro q e' he'
    rw [PlainObject.find_set hin] at he'
    split at he'
    · next hq =>
      obtain rfl := Option.some.inj he'
      subst hq
      obtain ⟨⟨wd, c, hl⟩, -, -⟩ := h.mirrors.entry q e hfind
      exact ⟨⟨wd, c, hl.ctx, hl.listener, hl.closure⟩, hne, hqueue⟩
    · next hq =>
      obtain ⟨⟨wd, c, hl⟩, hne', hq'⟩ := h.mirrors.entry q e' he'
      exact ⟨⟨wd, c, hl.ctx, hl.listener, hl.closure⟩, hne', by rw [hm' q hq, hq']⟩
  · intro wd c hc
    obtain ⟨q, e', he', hl⟩ := h.mirrors.listener wd c hc
    by_cases hq : q = filename
    · subst hq
      obtain rfl := Option.some.inj (hfind.symm.trans he')
      exact ⟨q, { e with queue }, by rw [PlainObject.find_set hin, if_pos rfl],
        hl.ctx, hl.listener, hl.closure⟩
    · exact ⟨q, e', by rw [PlainObject.find_set hin, if_neg hq, he'],
        hl.ctx, hl.listener, hl.closure⟩
  · intro q hq
    rw [PlainObject.find_set hin] at hq
    split at hq
    · exact absurd hq (by simp)
    · next hne' => rw [hm' q hne', h.mirrors.unwatched q hq]

/-- The first callback for a filename. -/
theorem Inv.register (h : Inv s m) (hin : ¬ PlainObject.Inherited filename)
    (hfind : s.map.own.find filename = none) {id : Int32} (hid : id ≠ -1)
    (hfresh : ∀ c ∈ s.watcher.listeners id, c.id ≠ (s.watcher.nextContext none).id)
    (cb : JsFunction) : (s.watch filename cb id).Holds fun t => Inv t (m.add filename cb) := by
  obtain ⟨w, hw, hreg⟩ := Watcher.On_spec h.sound h.keyed (some s.closures.length) hid
  let c : InotifyRequestContext := s.watcher.nextContext (some s.closures.length)
  have hget : s.map.get filename = .absent := by
    rw [PlainObject.get_of_not_inherited hin, hfind]
  have hclosure : c.object.bind ((s.closures ++ [filename])[·]?) = some filename := by
    simp [c, Watcher.nextContext]
  simp only [watch, hget, on, hw, Outcome.bind_next, if_neg hid, hreg.lastId]
  refine ⟨hreg.sound, hreg.keyed, hreg.nodup h.distinct hfresh, ?_, ?_, ?_⟩
  · intro q e' he'
    rw [PlainObject.find_set hin] at he'
    split at he'
    · next hq =>
      -- the new entry and the new listener
      obtain rfl := Option.some.inj he'
      subst hq
      refine ⟨⟨id, c, rfl, (hreg.mem id c).mpr (Or.inr ⟨rfl, rfl⟩), hclosure⟩, by simp, ?_⟩
      rw [Multimap.get_add, if_pos rfl, h.mirrors.unwatched q hfind]
      rfl
    · next hq =>
      obtain ⟨⟨wd, c', hl⟩, hne, hqueue⟩ := h.mirrors.entry q e' he'
      refine ⟨⟨wd, c', hl.ctx, (hreg.mem wd c').mpr (Or.inl hl.listener),
        closure_append filename hl.closure⟩, hne, ?_⟩
      rw [Multimap.get_add, if_neg hq, hqueue]
  · intro wd c' hc'
    have hin' : c' ∈ w.listeners wd := hc'
    rcases (hreg.mem wd c').mp hin' with hc | ⟨rfl, rfl⟩
    · obtain ⟨q, e', he', hl⟩ := h.mirrors.listener wd c' hc
      have hq : q ≠ filename := by
        rintro rfl
        exact absurd (hfind.symm.trans he') (by simp)
      exact ⟨q, e', by rw [PlainObject.find_set hin, if_neg hq, he'], hl.ctx, hin',
        closure_append filename hl.closure⟩
    · exact ⟨filename, _, by rw [PlainObject.find_set hin, if_pos rfl], rfl, hin', hclosure⟩
  · intro q hq
    rw [PlainObject.find_set hin] at hq
    split at hq
    · exact absurd hq (by simp)
    · next hne => rw [Multimap.get_add, if_neg hne, h.mirrors.unwatched q hq]

/-- `unwatch(filename)`: the entry goes with its listener. -/
theorem Inv.unregister (h : Inv s m) (hfind : s.map.own.find filename = some e) :
    Inv ({ s with map := s.map.delete filename }.off e.ctx) (m.removeAll filename) := by
  obtain ⟨⟨wd, c, hl⟩, -, -⟩ := h.mirrors.entry filename e hfind
  have hrm := Watcher.OffCalls_spec h.keyed wd c.id
  rw [Watcher.OffCalls_fst] at hrm
  have hoff : { s with map := s.map.delete filename }.off e.ctx
      = { s with
        map := s.map.delete filename
        watcher := s.watcher.Off (some wd) (some c.id) } := by
    rw [off, hl.ctx]
    rfl
  rw [hoff]
  refine ⟨hrm.sound h.sound, hrm.keyed, hrm.nodup h.distinct, ?_, ?_, ?_⟩
  · intro q e' he'
    rw [PlainObject.find_delete] at he'
    split at he'
    · exact absurd he' (by simp)
    · next hq =>
      obtain ⟨⟨wd', c', hl'⟩, hne, hqueue⟩ := h.mirrors.entry q e' he'
      -- the listener of another filename stays
      have hstays : ¬ (wd' = wd ∧ c'.id = c.id) :=
        fun hand => hq (hl'.inj h.distinct hl hand.1 hand.2)
      refine ⟨⟨wd', c', hl'.ctx, (hrm.mem h.distinct wd' c').mpr ⟨hl'.listener, hstays⟩,
        hl'.closure⟩, hne, ?_⟩
      rw [Multimap.get_removeAll, if_neg hq, hqueue]
  · intro wd' c' hc'
    obtain ⟨hold, hother⟩ := (hrm.mem h.distinct wd' c').mp hc'
    obtain ⟨q, e', he', hl'⟩ := h.mirrors.listener wd' c' hold
    have hq : q ≠ filename := by
      rintro rfl
      obtain rfl := Option.some.inj (hfind.symm.trans he')
      have hctx := hl.ctx.symm.trans hl'.ctx
      simp only [Option.some.injEq, Context.mk.injEq] at hctx
      exact hother ⟨hctx.1.symm, hctx.2.symm⟩
    exact ⟨q, e', by rw [PlainObject.find_delete, if_neg hq, he'], hl'.ctx, hc', hl'.closure⟩
  · intro q hq
    rw [PlainObject.find_delete] at hq
    rw [Multimap.get_removeAll]
    split
    · rfl
    · next hne =>
      rw [if_neg hne] at hq
      exact h.mirrors.unwatched q hq

/-- A call that finds no entry. -/
theorem Inv.forget (h : Inv s m) (hfind : s.map.own.find filename = none)
    {m' : Multimap Str JsFunction} (hm' : m'.get filename = [])
    (hothers : ∀ q, q ≠ filename → m'.get q = m.get q) : Inv s m' := by
  refine ⟨h.sound, h.keyed, h.distinct, ?_, h.mirrors.listener, ?_⟩
  · intro q e' he'
    obtain ⟨hl, hne, hqueue⟩ := h.mirrors.entry q e' he'
    have hq : q ≠ filename := by
      rintro rfl
      exact absurd (hfind.symm.trans he') (by simp)
    exact ⟨hl, hne, by rw [hothers q hq, hqueue]⟩
  · intro q hq
    by_cases heq : q = filename
    · rw [heq, hm']
    · rw [hothers q heq, h.mirrors.unwatched q hq]

theorem Inv.step (h : Inv s m) {a : Act} (ha : s.Careful a) :
    (s.step a).Holds fun t => Inv t (watchedAct m a) := by
  cases a with
  | watch filename cb id =>
      obtain ⟨hin, hnew⟩ := ha
      cases hfind : s.map.own.find filename with
      | none =>
          obtain ⟨hid, hfresh⟩ := hnew hfind
          exact h.register hin hfind hid hfresh cb
      | some e =>
          simp only [Watching.step, watch, PlainObject.get_of_find hfind]
          apply h.requeue hin hfind (by simp)
          · obtain ⟨-, -, hqueue⟩ := h.mirrors.entry filename e hfind
            rw [List.map_append, hqueue, watchedAct, Multimap.get_add, if_pos rfl]
            rfl
          · intro q hq
            rw [watchedAct, Multimap.get_add, if_neg hq]
  | unwatch filename callback =>
      cases hfind : s.map.own.find filename with
      | none =>
          have hin : ¬ PlainObject.Inherited filename := by
            cases callback with
            | none => exact ha
            | some callback => exact ha.1
          have hnil := h.mirrors.unwatched filename hfind
          simp only [Watching.step, unwatch, PlainObject.get_of_not_inherited hin, hfind]
          cases callback with
          | none =>
              apply h.forget hfind
              · rw [watchedAct, Multimap.get_removeAll, if_pos rfl]
              · intro q hq
                rw [watchedAct, Multimap.get_removeAll, if_neg hq]
          | some callback =>
              apply h.forget hfind
              · rw [watchedAct, Multimap.get_remove, if_pos rfl, hnil, List.erase_nil]
              · intro q hq
                rw [watchedAct, Multimap.get_remove, if_neg hq]
      | some e =>
          simp only [Watching.step, unwatch, PlainObject.get_of_find hfind]
          cases callback with
          | none => exact h.unregister hfind
          | some callback =>
              obtain ⟨hin, hlast⟩ := ha
              have hne := hlast e hfind
              simp only [if_neg hne]
              apply h.requeue hin hfind hne
              · obtain ⟨-, -, hqueue⟩ := h.mirrors.entry filename e hfind
                rw [map_splice, hqueue, watchedAct, Multimap.get_remove, if_pos rfl]
              · intro q hq
                rw [watchedAct, Multimap.get_remove, if_neg hq]

theorem watched_concat (as : List Act) (a : Act) :
    watched (as ++ [a]) = watchedAct (watched as) a := by
  rw [watched, List.foldl_append]
  rfl

/-- Whoever is watched is called when the watch of his entry changes. -/
theorem Mirrors.delivers (h : s.Mirrors m) : s.Delivers m := by
  intro filename cb hcb
  cases hfind : s.map.own.find filename with
  | none =>
      rw [h.unwatched filename hfind] at hcb
      exact absurd hcb (by simp)
  | some e =>
      obtain ⟨⟨wd, c, hl⟩, -, hqueue⟩ := h.entry filename e hfind
      refine ⟨e, _, rfl, hl.ctx, ?_⟩
      rw [changed, List.mem_flatMap]
      refine ⟨c, hl.listener, ?_⟩
      rw [hl.closure]
      show cb ∈ s.dispatch filename
      rw [dispatch, PlainObject.get_of_find hfind]
      show cb ∈ e.queue.map (·.cb)
      rw [hqueue]
      exact hcb

/-- In a run whose steps all are careful, the table mirrors the native listeners
    in every state, and every callback watched gets the changes. -/
theorem watch_table_mirrors (fd : Int32) (as : List Act)
    (hcareful : (machine fd).StepsMeet Careful (init fd) as) :
    ((machine fd).run as).Holds fun s => s.Mirrors (watched as) ∧ s.Delivers (watched as) := by
  have hrun : ((machine fd).run as).Holds fun s => Inv s (watched as) := by
    apply StepsMeet.holds_history (R := fun as s => Inv s (watched as)) (inv_init fd) _ as hcareful
    intro as s a ha h
    rw [watched_concat]
    exact h.step ha
  exact hrun.imp fun s h => ⟨h.mirrors, h.mirrors.delivers⟩

/-- Two callbacks for one file, of which one is unwatched, and the other with the
    file; then the file is watched anew. -/
def rewatchActs : List Act :=
  [.watch (ofChars ['a']) 0 1, .watch (ofChars ['a']) 1 1, .unwatch (ofChars ['a']) (some 0),
    .unwatch (ofChars ['a']) none, .watch (ofChars ['a']) 0 2]

theorem watch_table_mirrors_rewatch :
    ∃ s, (machine 3).run rewatchActs = .next s ∧
      s.Mirrors (watched rewatchActs) ∧ s.Delivers (watched rewatchActs) :=
  ⟨_, rfl, (watch_table_mirrors 3 rewatchActs (by decide)).of_next rfl⟩

/-- The only callback is unwatched by itself, and watched again. -/
def lastCallbackActs : List Act :=
  [.watch (ofChars ['a']) 0 1, .unwatch (ofChars ['a']) (some 0), .watch (ofChars ['a']) 0 1]

/-- The state they lead to. -/
def lastCallback : Watching :=
  match (machine 3).run lastCallbackActs with
  | .next s => s
  | _ => init 3

/-- The entry has outlived its listener, so the callback is never called. -/
theorem watch_table_stale :
    ¬ ∀ fd as, ((machine fd).run as).Holds fun s =>
      s.Mirrors (watched as) ∧ s.Delivers (watched as) := by
  intro h
  have hrun := h 3 lastCallbackActs
  rw [show (machine 3).run lastCallbackActs = .next lastCallback from rfl] at hrun
  obtain ⟨e, ctx, he, hctx, hcalled⟩ := hrun.2 (ofChars ['a']) 0 (by decide)
  have hentry : lastCallback.map.own.find (ofChars ['a']) = some ⟨some ⟨1, 1⟩, [⟨1, 0⟩]⟩ := rfl
  obtain rfl := Option.some.inj (hentry.symm.trans he)
  obtain rfl := Option.some.inj hctx
  -- no native listener is left
  have hnone : lastCallback.changed 1 = [] := rfl
  rw [hnone] at hcalled
  exact absurd hcalled (by simp)

end Watching

end NoJs.Inotify
