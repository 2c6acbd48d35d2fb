/-
  NoJs.Async.Reports

  Every asynchronous operation but `openat` reports its results.

  `Tracks s running x` is what holds of one started operation, with the request
  whose completion is being handled as a parameter, as in the conservation
  invariant of the event loop.  Blocks and contexts of different operations are
  different, so a step moves one operation and frames the others; each operation
  of the loop has one lemma, and the run lemma of NoJs.Lib.Machine does the
  induction over any interleaving.
-/

import NoJs.Async.Machine

namespace NoJs.Async

open Machine NoJs.IoUring

theorem results_append (p : Ptr) (l l' : List Cqe) :
    results p (l ++ l') = results p l ++ results p l' := by
  simp [results]

theorem results_singleton (p : Ptr) (c : Cqe) :
    results p [c] = if c.user_data = p then [c.res] else [] := by
  by_cases h : c.user_data = p <;> simp [results, h]

theorem results_eq_nil {p : Ptr} {l : List Cqe} (h : ∀ c ∈ l, c.user_data ≠ p) :
    results p l = [] := by
  simp only [results, List.map_eq_nil_iff, List.filter_eq_nil_iff, beq_iff_eq]
  exact h

namespace Started

/-- The request as submitted. -/
def request (x : Started) : Request := x.async.request x.context

/-- What the completion function invokes for one completion. -/
def calls (x : Started) (res : Int32) : List Invocation :=
  if x.call.entry = .openat then []
  else (x.call.callback.map (⟨x.block, ·, res⟩)).toList

theorem calls_block {x : Started} {res : Int32} {i : Invocation} (hi : i ∈ x.calls res) :
    i.block = x.block := by
  rw [calls] at hi
  split at hi
  · exact absurd hi (by simp)
  · simp only [Option.mem_toList, Option.map_eq_some_iff] at hi
    obtain ⟨f, -, rfl⟩ := hi
    rfl

theorem flatMap_calls {x : Started} {f : JsFunction} (hentry : x.call.entry ≠ .openat)
    (hf : x.call.callback = some f) (l : List Int32) :
    l.flatMap x.calls = l.map (⟨x.block, f, ·⟩) := by
  have hcalls : x.calls = fun res => [⟨x.block, f, res⟩] := by
    funext res
    rw [calls, if_neg hentry, hf]
    rfl
  rw [hcalls, List.map_eq_flatMap]

end Started

namespace Runtime

/-- What holds of one operation, while the completion of `running` is handled. -/
structure Tracks (s : Runtime) (running : Option Ptr) (x : Started) : Prop where
  block_lt : x.block < s.env.heap.top
  context_lt : x.context < s.contexts.top
  /-- In flight or being handled, the request and its context are what they were. -/
  live : x.block ∈ s.env.outstanding ∨ running = some x.block →
    (∃ res, s.env.heap.get? x.block = some { x.request with res }) ∧
      s.contexts.get? x.context = some x.async.context
  invoked : s.invocations x = (results x.block s.trace.reaped).flatMap x.calls
  once : x.async.again = false →
    (results x.block s.trace.reaped).length + s.env.outstanding.count x.block = 1
  destroyed : x.async.again = false → x.call.entry ≠ .openat →
    s.trace.destroyed.count x.context + (if running = some x.block then 1 else 0)
      = (results x.block s.trace.reaped).length
  leaked : x.call.entry = .openat → s.trace.destroyed.count x.context = 0
  silent : x.call.entry = .openat → running = some x.block → s.ctl = .inner

/-- The records are about blocks handed out. -/
structure Past (s : Runtime) : Prop where
  invoked : ∀ i ∈ s.trace.invoked, i.block < s.env.heap.top
  reaped : ∀ c ∈ s.trace.reaped, c.user_data < s.env.heap.top
  destroyed : ∀ p ∈ s.trace.destroyed, p < s.contexts.top

structure Inv (s : Runtime) (running : Option Ptr) : Prop where
  sound : s.env.Sound 0
  delivered : s.trace.posted = s.trace.reaped ++ s.env.io_uring_data.ring.cq
  known : ∀ p, p ∈ s.env.outstanding ∨ running = some p → ∃ x ∈ s.trace.started, x.block = p
  reaped : ∀ p, running = some p → p ∉ s.env.outstanding
  started : ∀ x ∈ s.trace.started, x.call.start = some x.async
  distinct : ∀ x ∈ s.trace.started, ∀ y ∈ s.trace.started,
    x.block = y.block ∨ x.context = y.context → x = y
  past : s.Past
  tracks : ∀ x ∈ s.trace.started, s.Tracks running x

/-- The invariant at the points between two steps. -/
def AtRest (s : Runtime) : Prop := s.Inv s.ctl.running

/-- With the completion `c` of `x` taken, and with what `x` is to report for it. -/
def counted (s : Runtime) (x : Started) (c : Cqe) (env : Environment) : Runtime :=
  { s with
    env
    trace := { s.trace with
      reaped := s.trace.reaped ++ [c]
      invoked := s.trace.invoked ++ x.calls c.res } }

/-- Where the loop goes with the completion of `x`, whose request is `p`. -/
def handle (s : Runtime) (x : Started) (p : Ptr) : Outcome Runtime :=
  if x.call.entry = .openat then s.openAfter p
  else if x.call.callback = none then s.finishCallback p
  else .next { s with ctl := .callback p }

theorem inv_init : init.Inv none where
  sound := Environment.sound_init
  delivered := rfl
  known := by simp [init, Environment.init, Environment.outstanding]
  reaped := by simp
  started := by simp [init]
  distinct := by simp [init]
  past := ⟨by simp [init], by simp [init], by simp [init]⟩
  tracks := by simp [init]

namespace Inv

variable {s : Runtime} {running : Option Ptr}

/-- Changing only `ctl` keeps the invariant, unless an `openat` is being handled. -/
theorem setCtl (h : s.Inv running) (c : Ctl)
    (hsilent : ∀ x ∈ s.trace.started, running = some x.block → x.call.entry ≠ .openat) :
    Inv { s with ctl := c } running :=
  ⟨h.sound, h.delivered, h.known, h.reaped, h.started, h.distinct,
    ⟨h.past.invoked, h.past.reaped, h.past.destroyed⟩,
    fun x hx => ⟨(h.tracks x hx).block_lt, (h.tracks x hx).context_lt, (h.tracks x hx).live,
      (h.tracks x hx).invoked, (h.tracks x hx).once, (h.tracks x hx).destroyed,
      (h.tracks x hx).leaked, fun hentry hrun => absurd hentry (hsilent x hx hrun)⟩⟩

theorem setCtl_idle (h : s.Inv none) (c : Ctl) : Inv { s with ctl := c } none :=
  h.setCtl c fun _ _ hrun => absurd hrun (by simp)

/-- Changes of the ring that keep the outstanding requests keep the invariant. -/
theorem setEnv (h : s.Inv running) {env : Environment} {posted : List Cqe}
    (hsound : env.Sound 0) (hheap : env.heap = s.env.heap)
    (hperm : env.outstanding.Perm s.env.outstanding)
    (hposted : posted = s.trace.reaped ++ env.io_uring_data.ring.cq) :
    Inv { s with env, trace := { s.trace with posted } } running := by
  refine ⟨hsound, hposted, ?_, ?_, h.started, h.distinct, ⟨?_, ?_, h.past.destroyed⟩, ?_⟩
  · intro p
    rw [hperm.mem_iff]
    exact h.known p
  · intro p hp
    rw [hperm.mem_iff]
    exact h.reaped p hp
  · rw [hheap]
    exact h.past.invoked
  · rw [hheap]
    exact h.past.reaped
  · intro x hx
    have ht := h.tracks x hx
    refine ⟨?_, ht.context_lt, ?_, ht.invoked, ?_, ht.destroyed, ht.leaked, ht.silent⟩
    · rw [hheap]
      exact ht.block_lt
    · rw [hheap, hperm.mem_iff]
      exact ht.live
    · rw [hperm.count_eq]
      exact ht.once

theorem complete (h : s.Inv running) (i : Nat) (res : Int32) :
    (s.complete i res).Holds fun t => t.Inv running ∧ t.ctl = s.ctl := by
  rw [Runtime.complete]
  cases hsqe : s.env.io_uring_data.ring.kernel[i]? with
  | none => trivial
  | some sqe =>
      obtain ⟨env, henv, hsound, hheap, -, hcq, hperm⟩ := h.sound.complete res hsqe
      simp only [henv, Outcome.bind_next, Outcome.holds_next]
      refine ⟨h.setEnv hsound hheap hperm ?_, trivial⟩
      rw [hcq, h.delivered, List.append_assoc]

theorem stop (h : s.Inv running) :
    Inv { s with env := { s.env with io_uring_data := Stop s.env.io_uring_data } } running :=
  h.setEnv h.sound.stop rfl (List.Perm.refl _) h.delivered

theorem submitAndWait (h : s.Inv running) : Inv { s with env := s.env.submitAndWait } running := by
  obtain ⟨hsound, hout⟩ := h.sound.submitAndWait
  exact h.setEnv hsound rfl (hout ▸ List.Perm.refl _) h.delivered

/-! ### Starting an operation -/

/-- An operation that was there keeps what holds of it. -/
private theorem tracks_start (h : s.Inv running) {env : Environment} {x : Started}
    {a : AsyncRequest} {req : Request} {started : List Started} (hx : x ∈ s.trace.started)
    (hheap : env.heap = s.env.heap.alloc req)
    (hsub : Environment.Submits s.env.heap.top s.env env) :
    Tracks { s with env, contexts := s.contexts.alloc a.context,
                    trace := { s.trace with started } } running x := by
  have ht := h.tracks x hx
  have hne : x.block ≠ s.env.heap.top := Nat.ne_of_lt ht.block_lt
  have hmem : x.block ∈ env.outstanding ↔ x.block ∈ s.env.outstanding := by
    rw [hsub.outstanding.mem_iff, List.mem_cons]
    exact ⟨fun hor => hor.resolve_left hne, Or.inr⟩
  refine ⟨?_, ?_, ?_, ht.invoked, ?_, ht.destroyed, ht.leaked, ht.silent⟩
  · simp only [hheap, Heap.top_alloc]
    exact Nat.lt_succ_of_lt ht.block_lt
  · exact Nat.lt_succ_of_lt ht.context_lt
  · intro hlive
    rw [hmem] at hlive
    obtain ⟨⟨res, hreq⟩, hctx⟩ := ht.live hlive
    refine ⟨⟨res, ?_⟩, Heap.get?_alloc_of_some hctx⟩
    rw [hheap, Heap.get?_alloc_of_some hreq]
  · intro hagain
    rw [hsub.outstanding.count_eq, List.count_cons_of_ne (Ne.symm hne)]
    exact ht.once hagain

theorem start (h : s.Inv running) (c : Call) :
    (s.start c).Holds fun t => t.Inv running ∧ t.ctl = s.ctl := by
  rw [Runtime.start]
  cases hc : c.start with
  | none => trivial
  | some a =>
      obtain ⟨env, henv, hsound, hheap, hsub⟩ :=
        h.sound.submitNew (a.request s.contexts.top) (Call.start_wired hc).1
      let x : Started := ⟨c, a, s.env.heap.top, s.contexts.top⟩
      have hmem : ∀ p, p ∈ env.outstanding ↔ p = s.env.heap.top ∨ p ∈ s.env.outstanding := by
        intro p
        rw [hsub.outstanding.mem_iff, List.mem_cons]
      have hstarted : ∀ y, y ∈ s.trace.started ++ [x] ↔ y ∈ s.trace.started ∨ y = x := by
        simp
      -- the new blocks differ from those of every operation there is
      have hother : ∀ y ∈ s.trace.started, y.block ≠ x.block ∧ y.context ≠ x.context :=
        fun y hy => ⟨Nat.ne_of_lt (h.tracks y hy).block_lt, Nat.ne_of_lt (h.tracks y hy).context_lt⟩
      have hidle : running ≠ some s.env.heap.top := by
        intro hrun
        obtain ⟨y, hy, hblock⟩ := h.known _ (Or.inr hrun)
        exact (hother y hy).1 hblock
      simp only [henv, Outcome.bind_next, Outcome.holds_next]
      refine ⟨⟨hsound, ?_, ?_, ?_, ?_, ?_, ⟨?_, ?_, ?_⟩, ?_⟩, trivial⟩
      · -- delivered
        rw [hsub.cq]
        exact h.delivered
      · -- known
        intro p hp
        rw [hmem] at hp
        by_cases htop : p = s.env.heap.top
        · exact ⟨x, (hstarted x).mpr (Or.inr rfl), htop.symm⟩
        · obtain ⟨y, hy, hblock⟩ := h.known p (hp.imp_left fun hor => hor.resolve_left htop)
          exact ⟨y, (hstarted y).mpr (Or.inl hy), hblock⟩
      · -- reaped
        intro p hp
        rw [hmem]
        exact fun hor => hor.elim (fun htop => hidle (htop ▸ hp)) (h.reaped p hp)
      · -- started
        intro y hy
        rcases (hstarted y).mp hy with hy | rfl
        · exact h.started y hy
        · exact hc
      · -- distinct
        intro y hy z hz hsame
        rcases (hstarted y).mp hy with hy | rfl <;> rcases (hstarted z).mp hz with hz | rfl
        · exact h.distinct y hy z hz hsame
        · exact hsame.elim (fun heq => absurd heq (hother y hy).1)
            fun heq => absurd heq (hother y hy).2
        · exact hsame.elim (fun heq => absurd heq.symm (hother z hz).1)
            fun heq => absurd heq.symm (hother z hz).2
        · rfl
      · -- past
        intro i hi
        simp only [hheap, Heap.top_alloc]
        exact Nat.lt_succ_of_lt (h.past.invoked i hi)
      · intro c hc
        simp only [hheap, Heap.top_alloc]
        exact Nat.lt_succ_of_lt (h.past.reaped c hc)
      · intro p hp
        exact Nat.lt_succ_of_lt (h.past.destroyed p hp)
      · -- tracks
        intro y hy
        rcases (hstarted y).mp hy with hy | rfl
        · exact h.tracks_start hy hheap hsub
        have hnone : results s.env.heap.top s.trace.reaped = [] :=
          results_eq_nil fun c hc => Nat.ne_of_lt (h.past.reaped c hc)
        have hcontext : s.trace.destroyed.count s.contexts.top = 0 :=
          List.count_eq_zero.mpr fun hmem => Nat.lt_irrefl _ (h.past.destroyed _ hmem)
        have hqueued : s.env.outstanding.count s.env.heap.top = 0 :=
          List.count_eq_zero.mpr fun hmem => Nat.lt_irrefl _ (h.sound.lt_top hmem)
        refine ⟨?_, Nat.lt_succ_self _, fun _ => ⟨⟨0, ?_⟩, Heap.get?_alloc_top _ _⟩, ?_, ?_, ?_,
          fun _ => hcontext, fun _ hrun => absurd hrun hidle⟩
        · simp only [hheap, Heap.top_alloc]
          exact Nat.lt_succ_self _
        · rw [hheap]
          exact Heap.get?_alloc_top _ _
        · simp only [invocations, x, hnone, List.flatMap_nil, List.filter_eq_nil_iff, beq_iff_eq]
          exact fun i hi => Nat.ne_of_lt (h.past.invoked i hi)
        · intro _
          simp only [x, hnone, hsub.outstanding.count_eq, List.count_cons_self, hqueued]
          rfl
        · intro _ _
          simp only [x, hnone, hcontext, if_neg hidle]
          rfl

/-! ### Handling a completion -/

/-- The loop reaps a completion of `x`, and its completion function invokes what
    it is to invoke. -/
theorem reap (h : s.Inv none) {c : Cqe} {env : Environment} {x : Started}
    (hpeek : io_uring_peek_cqe s.env.io_uring_data.ring = some c) (hsound : env.Sound 0)
    (hreaps : Environment.Reaps c s.env env) (hctl : s.ctl = .inner)
    (hx : x ∈ s.trace.started) (hblock : x.block = c.user_data) :
    Inv { s with
          env
          trace := { s.trace with
            reaped := s.trace.reaped ++ [c]
            invoked := s.trace.invoked ++ x.calls c.res } } (some c.user_data) := by
  have hin : c.user_data ∈ s.env.outstanding :=
    hreaps.outstanding.mem_iff.mpr List.mem_cons_self
  have hmem : ∀ p, p ∈ s.env.outstanding ↔ p = c.user_data ∨ p ∈ env.outstanding := by
    intro p
    rw [hreaps.outstanding.mem_iff, List.mem_cons]
  have hlt : c.user_data < s.env.heap.top := h.sound.lt_top hin
  refine ⟨hsound, ?_, ?_, ?_, h.started, h.distinct, ⟨?_, ?_, h.past.destroyed⟩, ?_⟩
  · -- delivered
    obtain ⟨cs, hcs⟩ := List.head?_eq_some_iff.mp hpeek
    rw [h.delivered, hreaps.ring, io_uring_cq_advance, hcs, List.append_assoc]
    rfl
  · -- known
    rintro p (hp | hp)
    · exact h.known p (Or.inl ((hmem p).mpr (Or.inr hp)))
    · obtain rfl := Option.some.inj hp
      exact h.known _ (Or.inl hin)
  · -- reaped
    intro p hp
    obtain rfl := Option.some.inj hp
    exact hreaps.reaped
  · -- past
    intro i hi
    simp only [hreaps.heap, Heap.top_modify]
    rcases List.mem_append.mp hi with hi | hi
    · exact h.past.invoked i hi
    · rw [Started.calls_block hi, hblock]
      exact hlt
  · intro d hd
    simp only [hreaps.heap, Heap.top_modify]
    rcases List.mem_append.mp hd with hd | hd
    · exact h.past.reaped d hd
    · rw [List.mem_singleton.mp hd]
      exact hlt
  · -- tracks
    intro y hy
    have ht := h.tracks y hy
    have hcount := hreaps.outstanding.count_eq y.block
    by_cases hsame : y.block = c.user_data
    · -- the operation itself: one result more, one request in flight less
      obtain rfl : y = x := h.distinct y hy x hx (Or.inl (hsame.trans hblock.symm))
      obtain ⟨⟨res, hreq⟩, hctx⟩ := ht.live (Or.inl (hsame ▸ hin))
      have hresults : results y.block (s.trace.reaped ++ [c])
          = results y.block s.trace.reaped ++ [c.res] := by
        rw [results_append, results_singleton, if_pos hsame.symm]
      rw [hsame, List.count_cons_self] at hcount
      refine ⟨?_, ht.context_lt, fun _ => ⟨⟨c.res, ?_⟩, hctx⟩, ?_, ?_, ?_, ht.leaked,
        fun _ _ => hctl⟩
      · simp only [hreaps.heap, Heap.top_modify]
        exact ht.block_lt
      · rw [hsame] at hreq ⊢
        simp only [hreaps.heap, Heap.get?_modify_self hreq]
      · have hfilter : (y.calls c.res).filter (·.block == y.block) = y.calls c.res := by
          apply List.filter_eq_self.mpr
          intro i hi
          rw [Started.calls_block hi, beq_self_eq_true]
        rw [hresults, List.flatMap_append, ← ht.invoked, invocations, List.filter_append, hfilter]
        simp [invocations]
      · intro hagain
        have honce := ht.once hagain
        rw [hsame, hcount] at honce
        rw [hresults, List.length_append, List.length_singleton, hsame, Nat.add_assoc,
          Nat.add_comm 1]
        exact honce
      · intro hagain hentry
        have hdestroyed := ht.destroyed hagain hentry
        rw [if_neg (by simp)] at hdestroyed
        rw [hresults, List.length_append, List.length_singleton, hsame, if_pos rfl, ← hsame,
          ← hdestroyed]
    · have hresults : results y.block (s.trace.reaped ++ [c]) = results y.block s.trace.reaped := by
        rw [results_append, results_singleton, if_neg (Ne.symm hsame), List.append_nil]
      rw [List.count_cons_of_ne (Ne.symm hsame)] at hcount
      refine ⟨?_, ht.context_lt, ?_, ?_, ?_, ?_, ht.leaked, fun _ _ => hctl⟩
      · simp only [hreaps.heap, Heap.top_modify]
        exact ht.block_lt
      · rintro (hlive | hlive)
        · obtain ⟨⟨res, hreq⟩, hctx⟩ := ht.live (Or.inl ((hmem _).mpr (Or.inr hlive)))
          refine ⟨⟨res, ?_⟩, hctx⟩
          rw [hreaps.heap, Heap.get?_modify_ne hsame, hreq]
        · exact absurd (Option.some.inj hlive).symm hsame
      · have hfilter : (x.calls c.res).filter (·.block == y.block) = [] := by
          apply List.filter_eq_nil_iff.mpr
          intro i hi
          rw [Started.calls_block hi, hblock, beq_iff_eq]
          exact Ne.symm hsame
        rw [hresults, ← ht.invoked, invocations, List.filter_append, hfilter, List.append_nil]
        rfl
      · intro hagain
        rw [hresults, ← hcount]
        exact ht.once hagain
      · intro hagain hentry
        have hdestroyed := ht.destroyed hagain hentry
        rw [if_neg (by simp)] at hdestroyed
        rw [hresults, if_neg (by simpa using Ne.symm hsame)]
        exact hdestroyed

/-- A request that is armed again goes back in flight. -/
theorem rearm {p : Ptr} {x : Started} (h : s.Inv (some p)) (hx : x ∈ s.trace.started)
    (hblock : x.block = p) (hagain : x.async.again = true) {env : Environment}
    (hsound : env.Sound 0) (hheap : env.heap = s.env.heap)
    (hsub : Environment.Submits p s.env env) : Inv { s with env } none := by
  have hmem : ∀ q, q ∈ env.outstanding ↔ q = p ∨ q ∈ s.env.outstanding := by
    intro q
    rw [hsub.outstanding.mem_iff, List.mem_cons]
  have hlive : ∀ q, (q ∈ env.outstanding ∨ none = some q) →
      q ∈ s.env.outstanding ∨ some p = some q := by
    intro q hq
    rcases (hmem q).mp (hq.resolve_right (by simp)) with rfl | hq
    · exact Or.inr rfl
    · exact Or.inl hq
  refine ⟨hsound, ?_, fun q hq => h.known q (hlive q hq), by simp, h.started, h.distinct,
    ⟨?_, ?_, h.past.destroyed⟩, ?_⟩
  · rw [hsub.cq]
    exact h.delivered
  · rw [hheap]
    exact h.past.invoked
  · rw [hheap]
    exact h.past.reaped
  · intro y hy
    have ht := h.tracks y hy
    refine ⟨?_, ht.context_lt, ?_, ht.invoked, ?_, ?_, ht.leaked, by simp⟩
    · rw [hheap]
      exact ht.block_lt
    · intro hq
      rw [hheap]
      exact ht.live (hlive _ hq)
    · -- the operation counts its completions only if it is not armed again
      intro hy'
      have hne : y.block ≠ p := by
        rintro rfl
        rw [h.distinct y hy x hx (Or.inl hblock.symm), hagain] at hy'
        exact absurd hy' (by simp)
      rw [hsub.outstanding.count_eq, List.count_cons_of_ne (Ne.symm hne)]
      exact ht.once hy'
    · intro hy' hentry
      have hne : p ≠ y.block := by
        rintro rfl
        rw [h.distinct y hy x hx (Or.inl hblock.symm), hagain] at hy'
        exact absurd hy' (by simp)
      have hdestroyed := ht.destroyed hy' hentry
      rw [if_neg (by simpa using hne)] at hdestroyed
      exact hdestroyed

/-- The request that was handled is freed, with its context unless it is one of
    `openat`. -/
theorem release {p : Ptr} {x : Started} (h : s.Inv (some p)) (hx : x ∈ s.trace.started)
    (hblock : x.block = p) {contexts : Heap RequestContext} {destroyed : List Ptr}
    (hcontext : if x.call.entry = .openat then
        contexts = s.contexts ∧ destroyed = s.trace.destroyed
      else contexts = s.contexts.free x.context ∧
        destroyed = s.trace.destroyed ++ [x.context])
    (hsound : Environment.Sound { s.env with heap := s.env.heap.free p } 0) :
    Inv { s with
          env := { s.env with heap := s.env.heap.free p }
          contexts
          trace := { s.trace with destroyed } } none := by
  have hout : p ∉ s.env.outstanding := h.reaped p rfl
  have htop : contexts.top = s.contexts.top := by
    split at hcontext
    · rw [hcontext.1]
    · rw [hcontext.1, Heap.top_free]
  -- a context other than that of `x` is not touched
  have hframe : ∀ d, d ≠ x.context →
      contexts.get? d = s.contexts.get? d ∧
        destroyed.count d = s.trace.destroyed.count d := by
    intro d hd
    split at hcontext
    · rw [hcontext.1, hcontext.2]
      exact ⟨rfl, rfl⟩
    · rw [hcontext.1, hcontext.2, Heap.get?_free_ne hd, List.count_append,
        List.count_singleton, if_neg (by simpa using Ne.symm hd)]
      exact ⟨rfl, rfl⟩
  refine ⟨hsound, h.delivered, ?_, by simp, h.started, h.distinct,
    ⟨h.past.invoked, h.past.reaped, ?_⟩, ?_⟩
  · exact fun q hq => h.known q (Or.inl (hq.resolve_right (by simp)))
  · intro d hd
    rw [htop]
    split at hcontext
    · exact h.past.destroyed d (hcontext.2 ▸ hd)
    · rw [hcontext.2] at hd
      rcases List.mem_append.mp hd with hd | hd
      · exact h.past.destroyed d hd
      · rw [List.mem_singleton.mp hd]
        exact (h.tracks x hx).context_lt
  · intro y hy
    have ht := h.tracks y hy
    have hlt : y.context < contexts.top := htop ▸ ht.context_lt
    by_cases hsame : y.block = p
    · obtain rfl : y = x := h.distinct y hy x hx (Or.inl (hsame.trans hblock.symm))
      refine ⟨ht.block_lt, hlt, ?_, ht.invoked, ht.once, ?_, ?_, by simp⟩
      · rintro (hq | hq)
        · exact absurd (hsame ▸ hq) hout
        · exact absurd hq (by simp)
      · intro hagain hentry
        have hdestroyed := ht.destroyed hagain hentry
        rw [if_pos (congrArg some hsame.symm)] at hdestroyed
        rw [if_neg hentry] at hcontext
        rw [if_neg (by simp), hcontext.2, List.count_append, List.count_singleton_self]
        exact hdestroyed
      · intro hentry
        rw [if_pos hentry] at hcontext
        rw [hcontext.2]
        exact ht.leaked hentry
    · have hne : y.context ≠ x.context := by
        intro heq
        obtain rfl := h.distinct y hy x hx (Or.inr heq)
        exact hsame hblock
      obtain ⟨hget, hcount⟩ := hframe y.context hne
      refine ⟨ht.block_lt, hlt, ?_, ht.invoked, ht.once, ?_, ?_, by simp⟩
      · intro hq
        obtain ⟨hreq, hctx⟩ := ht.live (Or.inl (hq.resolve_right (by simp)))
        refine ⟨?_, hget.trans hctx⟩
        rw [Heap.get?_free_ne hsame]
        exact hreq
      · intro hagain hentry
        have hdestroyed := ht.destroyed hagain hentry
        rw [if_neg (by simpa using Ne.symm hsame)] at hdestroyed
        rw [hcount, if_neg (by simp)]
        exact hdestroyed
      · intro hentry
        rw [hcount]
        exact ht.leaked hentry

/-- `makeCallback` after the JavaScript call. -/
theorem finishCallback {p : Ptr} {x : Started} (h : s.Inv (some p)) (hx : x ∈ s.trace.started)
    (hblock : x.block = p) (hentry : x.call.entry ≠ .openat) :
    (s.finishCallback p).Holds fun t => t.Inv none ∧ t.ctl = .inner := by
  obtain ⟨⟨res, hreq⟩, hctx⟩ := (h.tracks x hx).live (Or.inr (congrArg some hblock.symm))
  rw [hblock] at hreq
  have hout := h.reaped p rfl
  have hdata : s.contexts.get? ({ x.request with res } : Request).data = some x.async.context :=
    hctx
  have hagain : ({ x.request with res } : Request).again = x.async.again := rfl
  simp only [Runtime.finishCallback, hreq, hdata, hagain]
  by_cases hflag : x.async.again = true
  · rw [if_pos hflag]
    obtain ⟨env, henv, hsound, hheap, hsub⟩ :=
      h.sound.resubmit hreq (Call.start_wired (h.started x hx)).1 hout
    simp only [henv, Outcome.bind_next, Outcome.holds_next]
    exact ⟨(h.rearm hx hblock hflag hsound hheap hsub).setCtl_idle .inner, trivial⟩
  · rw [if_neg hflag]
    obtain ⟨henv, hsound⟩ := h.sound.free hreq hout
    simp only [henv, Outcome.bind_next, Outcome.holds_next]
    exact ⟨(h.release hx hblock (by rw [if_neg hentry]; exact ⟨rfl, rfl⟩) hsound).setCtl_idle .inner,
      trivial⟩

theorem openAfter {p : Ptr} {x : Started} (h : s.Inv (some p)) (hx : x ∈ s.trace.started)
    (hblock : x.block = p) (hentry : x.call.entry = .openat) :
    (s.openAfter p).Holds fun t => t.Inv none ∧ t.ctl = s.ctl := by
  obtain ⟨⟨res, hreq⟩, -⟩ := (h.tracks x hx).live (Or.inr (congrArg some hblock.symm))
  rw [hblock] at hreq
  obtain ⟨henv, hsound⟩ := h.sound.free hreq (h.reaped p rfl)
  simp only [Runtime.openAfter, henv, Outcome.bind_next, Outcome.holds_next]
  exact ⟨h.release hx hblock (by rw [if_pos hentry]; exact ⟨rfl, rfl⟩) hsound, trivial⟩

/-- With a completion `c` of `x` taken and counted, the loop calls `openAfter` or
    enters `makeCallback`, which looks for the callback. -/
theorem innerLoop_eq (h : s.Inv none) (hctl : s.ctl = .inner) {c : Cqe}
    (hpeek : io_uring_peek_cqe s.env.io_uring_data.ring = some c) :
    ∃ x env, x ∈ s.trace.started ∧ x.block = c.user_data ∧ Environment.Reaps c s.env env ∧
      env.heap.get? c.user_data = some { x.request with res := c.res } ∧
      (s.counted x c env).Inv (some c.user_data) ∧
      s.innerLoop = (s.counted x c env).handle x c.user_data := by
  obtain ⟨req, env, hreq, hreap, hsound, hreaps⟩ := h.sound.reap hpeek
  have hin : c.user_data ∈ s.env.outstanding :=
    hreaps.outstanding.mem_iff.mpr List.mem_cons_self
  obtain ⟨x, hx, hblock⟩ := h.known c.user_data (Or.inl hin)
  -- in flight, the request and its context are what the entry point made them
  obtain ⟨⟨res, hget⟩, hctx⟩ := (h.tracks x hx).live (Or.inl (hblock ▸ hin))
  obtain rfl := Option.some.inj (hreq.symm.trans (hblock ▸ hget))
  have hget' : env.heap.get? c.user_data = some { x.request with res := c.res } := by
    rw [hreaps.heap, Heap.get?_modify_self hreq]
  refine ⟨x, env, hx, hblock, hreaps, hget', h.reap hpeek hsound hreaps hctl hx hblock, ?_⟩
  have hwired := (Call.start_wired (h.started x hx)).2
  simp only [Runtime.innerLoop, hpeek, hreap, Outcome.bind_next, handle, counted]
  by_cases hentry : x.call.entry = .openat
  · -- `openAfter` calls nothing
    rw [if_pos hentry] at hwired
    have hcb : x.request.cb = some .openAfter := congrArg some hwired.1
    have hcalls : x.calls c.res = [] := if_pos hentry
    simp only [hcb, if_pos hentry, hcalls, List.append_nil]
  · -- `makeCallback` looks for the callback under its event
    rw [if_neg hentry] at hwired
    obtain ⟨event, hevent, hlookup⟩ := hwired
    have hcb : x.request.cb = some (.makeCallback event) := congrArg some hevent
    have hdata : s.contexts.get? ({ x.request with res := c.res } : Request).data
        = some x.async.context := hctx
    simp only [hcb, Runtime.makeCallback, hget', hdata, hlookup, if_neg hentry]
    cases hf : x.call.callback with
    | none =>
        have hcalls : x.calls c.res = [] := by
          rw [Started.calls, if_neg hentry, hf]
          rfl
        rw [hcalls, List.append_nil]
        rfl
    | some f =>
        have hcalls : x.calls c.res = [⟨c.user_data, f, c.res⟩] := by
          rw [Started.calls, if_neg hentry, hf, ← hblock]
          rfl
        rw [hcalls]
        rfl

/-- One round of the inner loop. -/
theorem innerLoop (h : s.Inv none) (hctl : s.ctl = .inner) : s.innerLoop.Holds AtRest := by
  cases hpeek : io_uring_peek_cqe s.env.io_uring_data.ring with
  | none =>
      rw [Runtime.innerLoop, hpeek]
      exact h.setCtl_idle .outer
  | some c =>
      obtain ⟨x, env, hx, hblock, -, -, hinv, heq⟩ := h.innerLoop_eq hctl hpeek
      rw [heq, handle]
      by_cases hentry : x.call.entry = .openat
      · rw [if_pos hentry]
        refine (hinv.openAfter hx hblock hentry).imp fun t ht => ?_
        have hrest : t.ctl = .inner := ht.2.trans hctl
        rw [AtRest, hrest]
        exact ht.1
      · rw [if_neg hentry]
        split
        · refine (hinv.finishCallback hx hblock hentry).imp fun t ht => ?_
          rw [AtRest, ht.2]
          exact ht.1
        · refine hinv.setCtl (.callback c.user_data) fun y hy hrun => ?_
          obtain rfl := h.distinct y hy x hx
            (Or.inl ((Option.some.inj hrun).symm.trans hblock.symm))
          exact hentry

theorem outerLoop (h : s.Inv none) : s.outerLoop.AtRest := by
  rw [Runtime.outerLoop]
  split
  · exact h.submitAndWait.setCtl_idle .inner
  · exact h.setCtl_idle .exited

/-- The JavaScript callback returns. -/
theorem ret {p : Ptr} (h : s.Inv (some p)) (hctl : s.ctl = .callback p) :
    (s.finishCallback p).Holds AtRest := by
  obtain ⟨x, hx, hblock⟩ := h.known p (Or.inr rfl)
  have hentry : x.call.entry ≠ .openat := by
    intro hopen
    have hinner := (h.tracks x hx).silent hopen (congrArg some hblock.symm)
    rw [hctl] at hinner
    exact absurd hinner (by simp)
  exact (h.finishCallback hx hblock hentry).imp fun t ht => by rw [AtRest, ht.2]; exact ht.1

end Inv

/-- The step lemma: every step keeps the invariant and faults nowhere. -/
theorem preserves : machine.Preserves AtRest := by
  intro s a h
  have hkeep : ∀ {o : Outcome Runtime},
      (o.Holds fun t => t.Inv s.ctl.running ∧ t.ctl = s.ctl) → o.Holds AtRest := by
    intro o ho
    exact ho.imp fun t ht => by rw [AtRest, ht.2]; exact ht.1
  cases a with
  | start c =>
      simp only [machine, step]
      split
      · exact hkeep (h.start c)
      · trivial
  | stop =>
      simp only [machine, step]
      split
      · exact h.stop
      · trivial
  | run =>
      simp only [machine, step]
      split
      · next hctl =>
        rw [AtRest, hctl] at h
        exact h.setCtl_idle .outer
      · trivial
  | outer =>
      simp only [machine, step]
      split
      · next hctl =>
        rw [AtRest, hctl] at h
        exact h.outerLoop
      · trivial
  | inner =>
      simp only [machine, step]
      split
      · next hctl =>
        rw [AtRest, hctl] at h
        exact h.innerLoop hctl
      · trivial
  | ret =>
      simp only [machine, step]
      split
      · next p hctl =>
        rw [AtRest, hctl] at h
        exact h.ret hctl
      · trivial
  | complete i res => exact hkeep (h.complete i res)

theorem atRest (as : List Act) : (machine.run as).Holds AtRest :=
  preserves.run inv_init as

namespace AtRest

variable {s : Runtime} {x : Started}

/-- What the kernel posted is what the loop has taken and what it will take. -/
theorem posted_eq (h : s.AtRest) (x : Started) :
    s.posted x = results x.block s.trace.reaped ++ s.waiting x := by
  rw [posted, h.delivered, results_append, waiting]

/-- A request that is not armed again: one completion, in the queue or not. -/
theorem once (h : s.AtRest) (hx : x ∈ s.trace.started) (hagain : x.async.again = false) :
    (s.posted x).length ≤ 1 := by
  have honce := (h.tracks x hx).once hagain
  have hqueued : (s.waiting x).length ≤ s.env.outstanding.count x.block := by
    have hcq : (s.waiting x).length
        = (s.env.io_uring_data.ring.cq.map (·.user_data)).count x.block := by
      rw [waiting, results, List.length_map, List.count_eq_countP, List.countP_map,
        List.countP_eq_length_filter]
      rfl
    rw [hcq, Environment.outstanding, Ring.outstanding, List.count_append]
    exact Nat.le_add_left _ _
  rw [h.posted_eq, List.length_append]
  omega

/-- What the loop has taken is reported, unless it is the completion of an `openat`. -/
theorem reports (h : s.AtRest) (hx : x ∈ s.trace.started) {f : JsFunction}
    (hf : x.call.callback = some f)
    (hopen : x.call.entry = .openat → s.posted x = s.waiting x) : s.Reports x f := by
  have ht := h.tracks x hx
  have hposted := h.posted_eq x
  by_cases hentry : x.call.entry = .openat
  · have hnone : results x.block s.trace.reaped = [] := by
      rw [hopen hentry] at hposted
      exact List.append_left_eq_self.mp hposted.symm
    have hidle : x.async.again = false → s.ctl.running ≠ some x.block := by
      intro hagain hrun
      have hinner := ht.silent hentry hrun
      rw [hinner] at hrun
      exact absurd hrun (by simp [Ctl.running])
    refine ⟨?_, h.once hx, fun hagain => ?_⟩
    · rw [ht.invoked, hnone, hopen hentry]
      rfl
    · rw [ht.leaked hentry, if_neg (hidle hagain), hopen hentry]
      omega
  · refine ⟨?_, h.once hx, fun hagain => ?_⟩
    · rw [ht.invoked, Started.flatMap_calls hentry hf, ← List.map_append, hposted]
    · have hdestroyed := ht.destroyed hagain hentry
      rw [hposted, List.length_append]
      omega

/-- The completion of an `openat` is lost when the loop takes it. -/
theorem not_reports (h : s.AtRest) (hx : x ∈ s.trace.started) {f : JsFunction}
    (hentry : x.call.entry = .openat) (hreports : s.Reports x f) : s.posted x = s.waiting x := by
  have ht := h.tracks x hx
  have hlen := congrArg List.length hreports.invoked
  have hinvoked : s.invocations x = [] := by
    rw [ht.invoked, List.flatMap_eq_nil_iff]
    exact fun res _ => if_pos hentry
  rw [hinvoked, List.nil_append, List.length_map, List.length_map, h.posted_eq,
    List.length_append] at hlen
  have hnone : results x.block s.trace.reaped = [] := List.eq_nil_of_length_eq_zero (by omega)
  rw [h.posted_eq, hnone, List.nil_append]

end AtRest

/-- **Every operation reports its result**, in every run, exactly when it is no
    `openat` whose completion the loop has taken. -/
theorem reports_iff (as : List Act) : (machine.run as).Holds fun s =>
    ∀ x ∈ s.trace.started, ∀ f, x.call.callback = some f →
      (s.Reports x f ↔ (x.call.entry = .openat → s.posted x = s.waiting x)) := by
  refine (atRest as).imp fun s h x hx f hf => ⟨?_, h.reports hx hf⟩
  exact fun hreports hentry => h.not_reports hx hentry hreports

/-- `fs.openat(null, path, O_RDONLY, 0o644, f)`. -/
def openCall (f : JsFunction) : Call where
  entry := .openat
  args := [.null, .other, .number 0, .number 420, .function f]

/-- The callback of an `openat` that completes with descriptor 3 is not invoked. -/
theorem openat_not_reported : ¬ ∀ as : List Act, (machine.run as).Holds fun s =>
    ∀ x ∈ s.trace.started, ∀ f, x.call.callback = some f → s.Reports x f := by
  intro h
  have hopen := h [.start (openCall 7), .run, .outer, .complete 0 3, .inner]
  have hlost : ∃ s,
      machine.run [.start (openCall 7), .run, .outer, .complete 0 3, .inner] = .next s ∧
      ∃ x, x ∈ s.trace.started ∧ x.call.callback = some 7 ∧ s.invocations x = [] ∧
        s.waiting x = [] ∧ s.posted x = [3] :=
    ⟨_, rfl, _, List.mem_cons_self, rfl, rfl, rfl, rfl⟩
  obtain ⟨s, hrun, x, hx, hf, hinvoked, hwaiting, hposted⟩ := hlost
  have hreports := (hopen.of_next hrun x hx 7 hf).invoked
  rw [hinvoked, hwaiting, hposted] at hreports
  exact absurd hreports (by simp)

end Runtime

end NoJs.Async
