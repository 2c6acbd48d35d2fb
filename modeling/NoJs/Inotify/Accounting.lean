/-
  NoJs.Inotify.Accounting

  `pending` against the watches: while something is watched the read in flight
  keeps the loop alive, and when nothing is watched any more one `decPending`
  takes it out of the count.

  That `decPending` is made when `count` falls to zero, and `count` counts
  successful `on` calls, not watches: with two listeners on one path, or with a
  watch the kernel has dropped, it never does.  And `on` does not take the
  decrement back when something is watched again.  `Counted` excludes these.
-/

import NoJs.Inotify.Machine

namespace NoJs.Inotify

open Machine IoUring

def Ctl.inCallback : Ctl → Bool
  | callback _ => true
  | handler _ => true
  | _ => false

def Ctl.inHandler : Ctl → Bool
  | handler _ => true
  | _ => false

/-- Whether a request is a read of the inotify descriptor. -/
def isRead (r : Request) : Bool := r.cb == some .inotifyHandler

namespace Watcher

/-- The inotify reads in flight. -/
def reads (s : Watcher) : Nat := s.env.tally isRead

/-- The other requests in flight. -/
def others (s : Watcher) : Nat := s.env.tally fun r => !isRead r

/-- The reference `pending` is meant to hold for the watches. -/
def watching (s : Watcher) : Nat := if s.inotifyMap.size = 0 then 0 else 1

/-- `pending` counts the other requests, and one while something is watched. -/
def Accounted (s : Watcher) : Prop :=
  s.env.io_uring_data.pending.toInt = s.others + s.watching

instance (s : Watcher) : Decidable s.Accounted :=
  inferInstanceAs (Decidable (s.env.io_uring_data.pending.toInt = s.others + s.watching))

/-- The watch whose entry a call of `off` erases. -/
def removed (s : Watcher) (watchId funcId : Option Int32) : Option Int32 :=
  watchId.filter fun id =>
    (s.inotifyMap.find id).any fun listeners =>
      match funcId with
      | none => true
      | some f => (listeners.eraseP (·.id == f)).isEmpty

/-- The steps that keep the count: a watch is added when something is watched or
    no watch was ever added before, and the last entry is removed while its
    watch exists and `count` is 1. -/
def Kept (s : Watcher) : Act → Bool
  | .on _ id => id == -1 || s.inotifyMap.size != 0 || s.needSubmit
  | .off watchId funcId =>
      (s.removed watchId funcId).all fun id =>
        s.inotifyMap.size != 1 || (s.watches id && s.count == 1)
  | _ => true

/-- Steps that keep the count and the range of the two counters. -/
def Counted (s : Watcher) (a : Act) : Prop :=
  s.Kept a ∧ s.count.toInt + 1 < 2 ^ 31 ∧ s.others + 2 < 2 ^ 31

instance (s : Watcher) (a : Act) : Decidable (s.Counted a) :=
  inferInstanceAs (Decidable (_ ∧ _ ∧ _))

/-- A request whose completion the loop of this machine can handle. -/
structure Handled (r : Request) : Prop where
  supported : r.supported
  cb : r.cb = some .inotifyHandler ∨ ∃ e, r.cb = some (.makeCallback e)

/-- The references of the watches, against the read in flight. -/
def owed (s : Watcher) : Int := s.watching - if s.needSubmit then 0 else 1

structure Inv (s : Watcher) : Prop where
  sound : s.env.Sound s.owed
  request : ∀ p ∈ s.env.outstanding, ∃ r, s.env.heap.get? p = some r ∧ Handled r
  reads : (s.reads + if s.ctl.inHandler then 1 else 0) = if s.needSubmit then 0 else 1
  callback : ∀ p, s.ctl = .callback p →
    p ∉ s.env.outstanding ∧ ∃ r, s.env.heap.get? p = some r ∧ Handled r ∧ isRead r = false
  handler : ∀ p, s.ctl = .handler p → p ∉ s.env.outstanding ∧ (s.env.heap.get? p).isSome
  unused : s.needSubmit = true → s.inotifyMap.size = 0
  count : s.inotifyMap.size ≤ s.count.toInt

/-- The invariant of a counted run. -/
structure Balanced (s : Watcher) : Prop where
  inv : s.Inv
  range : s.others + 1 < 2 ^ 31

theorem balanced_init (fd : Int32) : (init fd).Balanced where
  inv := {
    sound := Environment.sound_init
    request := by simp [init, Environment.init, Environment.outstanding]
    reads := rfl
    callback := by simp [init]
    handler := by simp [init]
    unused := fun _ => rfl
    count := Int.le_refl 0 }
  range := by
    show 0 + 1 < 2 ^ 31
    omega

namespace Inv

variable {s : Watcher}

/-- The equation of `pending`, outside `inotifyHandler`. -/
theorem accounted (h : s.Inv) (hrange : s.others + 1 < 2 ^ 31) (hctl : s.ctl.inCallback = false) :
    s.Accounted := by
  have hlen := Environment.tally_add_tally_not (f := isRead) h.sound
  have hreads := h.reads
  have hhandler : s.ctl.inHandler = false := by
    cases hc : s.ctl <;> simp_all [Ctl.inCallback, Ctl.inHandler]
  have hwatching : s.watching ≤ 1 := by
    rw [watching]
    split <;> omega
  simp only [hhandler, Bool.false_eq_true, if_false, Nat.add_zero] at hreads
  -- the read in flight cancels against what is owed for it
  have htotal : (s.env.outstanding.length : Int) + s.owed = s.others + s.watching := by
    rw [← hlen, owed]
    simp only [others, Watcher.reads] at hreads ⊢
    cases hneed : s.needSubmit with
    | true =>
        simp only [hneed, if_true] at hreads ⊢
        omega
    | false =>
        simp only [hneed, Bool.false_eq_true, if_false] at hreads ⊢
        omega
  rw [Accounted, ← htotal]
  apply h.sound.accounts.toInt
  · rw [Environment.outstanding] at htotal
    omega
  · rw [Environment.outstanding] at htotal
    omega

/-! ## Frames -/

/-- The request that a callback or the handler is at stays as it is. -/
theorem at_hand (h : s.Inv) {env : Environment}
    (hframe : ∀ p r, p ∉ s.env.outstanding → s.env.heap.get? p = some r →
      p ∉ env.outstanding ∧ env.heap.get? p = some r) :
    (∀ p, s.ctl = .callback p →
        p ∉ env.outstanding ∧ ∃ r, env.heap.get? p = some r ∧ Handled r ∧ isRead r = false) ∧
      ∀ p, s.ctl = .handler p → p ∉ env.outstanding ∧ (env.heap.get? p).isSome := by
  constructor
  · intro p hp
    obtain ⟨hout, r, hr, hhandled⟩ := h.callback p hp
    obtain ⟨hout', hr'⟩ := hframe p r hout hr
    exact ⟨hout', r, hr', hhandled⟩
  · intro p hp
    obtain ⟨hout, hlive⟩ := h.handler p hp
    obtain ⟨r, hr⟩ := Option.isSome_iff_exists.mp hlive
    obtain ⟨hout', hr'⟩ := hframe p r hout hr
    exact ⟨hout', Option.isSome_iff_exists.mpr ⟨r, hr'⟩⟩

/-- What submitting a new request keeps. -/
theorem submits (h : s.Inv) {req : Request} {env : Environment} (hreq : Handled req)
    (hheap : env.heap = s.env.heap.alloc req)
    (hsub : Environment.Submits s.env.heap.top s.env env) :
    (∀ p ∈ env.outstanding, ∃ r, env.heap.get? p = some r ∧ Handled r) ∧
      ∀ p r, p ∉ s.env.outstanding → s.env.heap.get? p = some r →
        p ∉ env.outstanding ∧ env.heap.get? p = some r := by
  constructor
  · intro p hp
    rw [hheap]
    rcases List.mem_cons.mp (hsub.outstanding.mem_iff.mp hp) with rfl | hp
    · exact ⟨req, Heap.get?_alloc_top _ _, hreq⟩
    · obtain ⟨r, hr, hhandled⟩ := h.request p hp
      exact ⟨r, Heap.get?_alloc_of_some hr, hhandled⟩
  · intro p r hout hr
    refine ⟨fun hp => ?_, by rw [hheap, Heap.get?_alloc_of_some hr]⟩
    rcases List.mem_cons.mp (hsub.outstanding.mem_iff.mp hp) with rfl | hp
    · exact Nat.lt_irrefl _ (Heap.lt_top_of_get? hr)
    · exact hout hp

/-- A step that leaves the requests in flight what they are. -/
theorem of_frame (h : s.Inv) {t : Watcher} (hsound : t.env.Sound t.owed)
    (hheap : t.env.heap = s.env.heap) (hout : t.env.outstanding.Perm s.env.outstanding)
    (hctl : t.ctl = s.ctl) (hneed : t.needSubmit = s.needSubmit)
    (hunused : t.needSubmit = true → t.inotifyMap.size = 0)
    (hcount : t.inotifyMap.size ≤ t.count.toInt) : t.Inv ∧ t.others = s.others := by
  have htally : ∀ f, t.env.tally f = s.env.tally f :=
    fun f => Environment.tally_congr hout fun p _ => by rw [hheap]
  refine ⟨⟨hsound, ?_, ?_, ?_, ?_, hunused, hcount⟩, htally _⟩
  · intro p hp
    rw [hheap]
    exact h.request p (hout.mem_iff.mp hp)
  · rw [Watcher.reads, htally, hctl, hneed]
    exact h.reads
  · intro p hp
    rw [hheap, hout.mem_iff]
    exact h.callback p (hctl ▸ hp)
  · intro p hp
    rw [hheap, hout.mem_iff]
    exact h.handler p (hctl ▸ hp)

/-! ## On and Off -/

theorem readRequest_handled (fd : Int32) (buf : Ptr) : Handled (readRequest fd buf) :=
  ⟨by show IORING_OP_READ ∈ switchOps; decide, Or.inl rfl⟩

/-- What `SubmitReadRequest` does when it is needed. -/
theorem submitReadRequest {n : Int} (hsound : s.env.Sound n) (hneed : s.needSubmit = true) :
    ∃ env, s.SubmitReadRequest
        = .next { s with env, needSubmit := false, buffers := s.buffers + 1 } ∧ env.Sound n ∧
      env.heap = s.env.heap.alloc (readRequest s.inotify_fd s.buffers) ∧
      Environment.Submits s.env.heap.top s.env env := by
  obtain ⟨env, henv, hsound', hheap, hsub⟩ :=
    hsound.submitNew _ (readRequest_handled s.inotify_fd s.buffers).supported
  refine ⟨env, ?_, hsound', hheap, hsub⟩
  rw [SubmitReadRequest, if_pos hneed, henv]
  rfl

/-- A listener is added to an entry that exists, or makes a new one. -/
theorem size_addListener (s : Watcher) (object : Option JsFunction) (id : Int32) :
    (s.addListener object id).inotifyMap.size = s.inotifyMap.size ∧ 0 < s.inotifyMap.size ∨
      (s.addListener object id).inotifyMap.size = s.inotifyMap.size + 1 := by
  rw [addListener]
  cases hfind : s.inotifyMap.find id with
  | none => exact Or.inr (StdMap.size_insert hfind)
  | some vec =>
      refine Or.inl ⟨StdMap.size_update, Nat.pos_of_ne_zero fun hzero => ?_⟩
      exact absurd (hfind.symm.trans (StdMap.size_eq_zero.mp hzero id)) (by simp)

/-- Once the read is in flight and something is watched nothing is owed. -/
theorem owed_used {t : Watcher} (hsize : 0 < t.inotifyMap.size)
    (hneed : t.needSubmit = false) : t.owed = 0 := by
  rw [owed, watching, if_neg (Nat.ne_of_gt hsize), hneed]
  rfl

theorem sound_used {t : Watcher} (hsound : t.env.Sound 0) (hsize : 0 < t.inotifyMap.size)
    (hneed : t.needSubmit = false) : t.env.Sound t.owed := by
  rw [owed_used hsize hneed]
  exact hsound

theorem On (h : s.Inv) (object : Option JsFunction) (id : Int32)
    (hkept : s.Kept (.on object id)) (hcount : s.count.toInt + 1 < 2 ^ 31) :
    (s.On object id).Holds fun t => t.Inv ∧ t.others = s.others ∧ t.ctl = s.ctl := by
  have hincr := (toInt_add_one_iff s.count).mpr hcount
  have hle := h.count
  rw [Watcher.On]
  split
  · exact ⟨h, rfl, rfl⟩
  · next hid =>
    let s₁ : Watcher :=
      { s with watches := Function.update s.watches id true, count := s.count + 1 }
    have hpos : ∀ u : Watcher, u.inotifyMap = s.inotifyMap →
        0 < (u.addListener object id).inotifyMap.size ∧
          (u.addListener object id).inotifyMap.size ≤ s.inotifyMap.size + 1 := by
      intro u hu
      have hsize := size_addListener u object id
      rw [hu] at hsize
      omega
    by_cases hneed : s.needSubmit = true
    · -- the first watch ever: the read is submitted
      have hzero := h.unused hneed
      have howed : s.owed = 0 := by
        rw [owed, watching, if_pos hzero, hneed]
        rfl
      obtain ⟨env, hrun, hsound, hheap, hsub⟩ := submitReadRequest (s := s₁) h.sound hneed
      obtain ⟨hrequest, hframe⟩ := h.submits (readRequest_handled _ _) hheap hsub
      have hreads : env.tally isRead = s.env.tally isRead + 1 :=
        Environment.tally_submit h.sound hheap hsub
      have hothers : (env.tally fun r => !isRead r) = s.env.tally fun r => !isRead r :=
        Environment.tally_submit h.sound hheap hsub
      have holdReads := h.reads
      simp only [hneed, if_true, Watcher.reads] at holdReads
      obtain ⟨hlo, hhi⟩ := hpos { s₁ with env, needSubmit := false, buffers := s₁.buffers + 1 } rfl
      rw [hrun, Outcome.bind_next]
      obtain ⟨hcallback, hhandler⟩ := h.at_hand hframe
      refine ⟨⟨?_, hrequest, ?_, hcallback, hhandler, by simp [addListener], ?_⟩, hothers, rfl⟩
      · exact sound_used (howed ▸ hsound) hlo rfl
      · show (env.tally isRead + if s.ctl.inHandler then 1 else 0) = 1
        omega
      · show (StdMap.size _ : Int) ≤ (s.count + 1).toInt
        omega
    · have hneed' := Bool.eq_false_iff.mpr hneed
      have hused : 0 < s.inotifyMap.size := by
        apply Nat.pos_of_ne_zero
        intro hzero
        simp [Kept, hneed', hzero, hid] at hkept
      have hsub : SubmitReadRequest s₁ = .next s₁ := if_neg hneed
      have howed : s.owed = 0 := owed_used hused hneed'
      obtain ⟨hlo, hhi⟩ := hpos s₁ rfl
      rw [hsub, Outcome.bind_next]
      refine ⟨⟨?_, h.request, h.reads, h.callback, h.handler, ?_, ?_⟩, rfl, rfl⟩
      · exact sound_used (howed ▸ h.sound) hlo hneed'
      · exact fun hn => absurd hn hneed
      · show (StdMap.size _ : Int) ≤ (s.count + 1).toInt
        omega

/-- `Off` once the entry of `id` is to go. -/
theorem removeWatch (h : s.Inv) {id : Int32} {listeners : List InotifyRequestContext}
    (hfind : s.inotifyMap.find id = some listeners)
    (hlast : s.inotifyMap.size = 1 → s.watches id = true ∧ s.count = 1) :
    (s.removeWatch id).Inv ∧ (s.removeWatch id).others = s.others := by
  have hsize := StdMap.size_erase hfind
  have hle := h.count
  have hpos : 0 < s.inotifyMap.size := by omega
  -- an entry exists, so the first watch has submitted the read
  have hneed : s.needSubmit = false := by
    by_contra hneed
    have hzero := h.unused (by simpa using hneed)
    omega
  have hdecr : (s.count - 1).toInt = s.count.toInt - 1 := toInt_sub_one (by omega)
  have howed : s.owed = 0 := owed_used hpos hneed
  have hsound := h.sound
  rw [howed] at hsound
  simp only [Watcher.removeWatch]
  split
  · split
    · next hwatched hzero =>
      -- the last watch: `pending` gives up its reference
      have hone : (s.inotifyMap.erase id).size = 0 := by
        have hzero' : (s.count - 1).toInt = 0 := congrArg Int32.toInt hzero
        omega
      refine h.of_frame ?_ rfl (List.Perm.refl _) rfl rfl (fun _ => hone) ?_
      · rw [owed, watching, if_pos hone, hneed]
        exact hsound.dec
      · show ((s.inotifyMap.erase id).size : Int) ≤ (s.count - 1).toInt
        omega
    · next hwatched hne =>
      have hmore : 0 < (s.inotifyMap.erase id).size := by
        refine Nat.pos_of_ne_zero fun hzero => hne ?_
        rw [(hlast (by omega)).2]
        rfl
      refine h.of_frame ?_ rfl (List.Perm.refl _) rfl rfl ?_ ?_
      · exact sound_used hsound hmore hneed
      · exact fun hn => absurd (hneed.symm.trans hn) (by decide)
      · show ((s.inotifyMap.erase id).size : Int) ≤ (s.count - 1).toInt
        omega
  · next hdropped =>
    -- the kernel has dropped the watch, so `count` stays and an entry remains
    have hmore : 0 < (s.inotifyMap.erase id).size := by
      refine Nat.pos_of_ne_zero fun hzero => hdropped ?_
      exact (hlast (by omega)).1
    refine h.of_frame ?_ rfl (List.Perm.refl _) rfl rfl ?_ ?_
    · exact sound_used hsound hmore hneed
    · exact fun hn => absurd (hneed.symm.trans hn) (by decide)
    · show ((s.inotifyMap.erase id).size : Int) ≤ s.count.toInt
      omega

theorem Off (h : s.Inv) (watchId funcId : Option Int32) (hkept : s.Kept (.off watchId funcId)) :
    (s.Off watchId funcId).Inv ∧ (s.Off watchId funcId).others = s.others := by
  have hlast : ∀ id, s.removed watchId funcId = some id → s.inotifyMap.size = 1 →
      s.watches id = true ∧ s.count = 1 := by
    intro id hid hone
    simpa [Kept, hid, hone] using hkept
  simp only [Watcher.Off]
  cases watchId with
  | none => exact ⟨h, rfl⟩
  | some id =>
      cases hfind : s.inotifyMap.find id with
      | none =>
          simp only [hfind]
          exact ⟨h, trivial⟩
      | some listeners =>
          cases funcId with
          | none =>
              simp only [hfind]
              refine h.removeWatch hfind (hlast id ?_)
              simp [removed, hfind]
          | some f =>
              simp only [hfind]
              have hupdate := h.of_frame
                (t := { s with inotifyMap := s.inotifyMap.update id (listeners.eraseP (·.id == f)) })
                (by rw [owed, watching, StdMap.size_update]; exact h.sound) rfl (List.Perm.refl _)
                rfl rfl (by rw [StdMap.size_update]; exact h.unused)
                (by rw [StdMap.size_update]; exact h.count)
              split
              · exact hupdate
              · next hempty =>
                have hfind' : (s.inotifyMap.update id (listeners.eraseP (·.id == f))).find id
                    = some (listeners.eraseP (·.id == f)) := by
                  rw [StdMap.find_update (by rw [hfind]; rfl), if_pos rfl]
                have hremove := hupdate.1.removeWatch hfind' ?_
                · exact ⟨hremove.1, hremove.2.trans hupdate.2⟩
                · rw [StdMap.size_update]
                  apply hlast id
                  have hnil : listeners.eraseP (·.id == f) = [] :=
                    List.eq_nil_of_length_eq_zero (by omega)
                  simp [removed, hfind, hnil]

/-! ## The loop -/

theorem setCtl (h : s.Inv) {c : Ctl} (hfrom : s.ctl.inHandler = false) (hto : c.inCallback = false) :
    Inv { s with ctl := c } := by
  have hreads := h.reads
  rw [hfrom] at hreads
  refine ⟨h.sound, h.request, ?_, ?_, ?_, h.unused, h.count⟩
  · have hc : c.inHandler = false := by
      cases c <;> simp_all [Ctl.inCallback, Ctl.inHandler]
    rw [hc]
    exact hreads
  · rintro p rfl
    exact absurd hto (by simp [Ctl.inCallback])
  · rintro p rfl
    exact absurd hto (by simp [Ctl.inCallback])

/-- The end of `inotifyHandler`: the next read takes the place of the last. -/
theorem inotifyHandler_return (h : s.Inv) {p : Ptr} (hctl : s.ctl = .handler p) :
    (s.inotifyHandler_return p).Holds fun t => t.Inv ∧ t.others = s.others := by
  obtain ⟨hout, hlive⟩ := h.handler p hctl
  obtain ⟨req, hreq⟩ := Option.isSome_iff_exists.mp hlive
  obtain ⟨hfree, hsound⟩ := h.sound.free hreq hout
  have hreads := h.reads
  simp only [hctl, Ctl.inHandler, if_true] at hreads
  -- the read whose completion is handled was the one in flight
  have hneed : s.needSubmit = false := by
    by_contra hneed
    rw [if_pos (by simpa using hneed)] at hreads
    omega
  rw [hneed] at hreads
  let s₁ : Watcher :=
    { s with env := { s.env with heap := s.env.heap.free p }, needSubmit := true, ctl := .inner }
  have hne : ∀ q ∈ s.env.outstanding, q ≠ p := fun q hq heq => hout (heq ▸ hq)
  obtain ⟨env, hrun, hsound', hheap, hsub⟩ := submitReadRequest (s := s₁) hsound rfl
  -- one request is freed and one submitted, both reads
  have htally : ∀ f, env.tally f = s.env.tally f + if f (readRequest s.inotify_fd s.buffers) then 1
      else 0 := by
    intro f
    rw [Environment.tally_submit hsound hheap hsub, Environment.tally_free hout]
  have hothers : (env.tally fun r => !isRead r) = s.env.tally fun r => !isRead r := htally _
  have hread : env.tally isRead = s.env.tally isRead + 1 := htally _
  rw [Watcher.inotifyHandler_return, hfree, Outcome.bind_next, hrun]
  refine ⟨⟨?_, ?_, ?_, by simp [s₁], by simp [s₁], by simp, h.count⟩, hothers⟩
  · show env.Sound (s.watching - 1)
    rw [owed, hneed] at hsound'
    exact hsound'
  · intro q hq
    rcases List.mem_cons.mp (hsub.outstanding.mem_iff.mp hq) with rfl | hq
    · exact ⟨_, by rw [hheap, Heap.get?_alloc_top], readRequest_handled _ _⟩
    · obtain ⟨r, hr, hhandled⟩ := h.request q hq
      have hr' : (s.env.heap.free p).get? q = some r := by rw [Heap.get?_free_ne (hne q hq), hr]
      exact ⟨r, by rw [hheap, Heap.get?_alloc_of_some hr'], hhandled⟩
  · show env.tally isRead + 0 = 1
    simp only [Watcher.reads, Bool.false_eq_true, if_false] at hreads
    omega

/-- The end of another operation's callback. -/
theorem finishCallback (h : s.Inv) {p : Ptr} (hctl : s.ctl = .callback p) :
    (s.finishCallback p).Holds fun t => t.Inv ∧ t.others ≤ s.others + 1 := by
  obtain ⟨hout, req, hreq, hhandled, hread⟩ := h.callback p hctl
  have hreads := h.reads
  simp only [hctl, Ctl.inHandler, Bool.false_eq_true, if_false, Nat.add_zero] at hreads
  simp only [Watcher.finishCallback, hreq]
  cases req.again with
  | true =>
      obtain ⟨env, henv, hsound, hheap, hsub⟩ := h.sound.resubmit hreq hhandled.supported hout
      have htally : ∀ f, env.tally f = s.env.tally f + if f req then 1 else 0 := fun f =>
        Environment.tally_cons hsub.outstanding (by rw [hheap, hreq]) fun q _ => by rw [hheap]
      simp only [if_true, henv, Outcome.bind_next]
      refine ⟨⟨hsound, ?_, ?_, by simp, by simp, h.unused, h.count⟩, ?_⟩
      · intro q hq
        rw [hheap]
        rcases List.mem_cons.mp (hsub.outstanding.mem_iff.mp hq) with rfl | hq
        · exact ⟨req, hreq, hhandled⟩
        · exact h.request q hq
      · simp only [Watcher.reads, htally, hread, Ctl.inHandler] at hreads ⊢
        simpa using hreads
      · simp only [others, htally, hread]
        simp
  | false =>
      obtain ⟨hfree, hsound⟩ := h.sound.free hreq hout
      have htally : ∀ f, Environment.tally f { s.env with heap := s.env.heap.free p }
          = s.env.tally f := fun f => Environment.tally_free hout
      simp only [Bool.false_eq_true, if_false, hfree, Outcome.bind_next]
      refine ⟨⟨hsound, ?_, ?_, by simp, by simp, h.unused, h.count⟩, ?_⟩
      · intro q hq
        have hne : q ≠ p := fun heq => hout (heq ▸ hq)
        obtain ⟨r, hr, hhandled'⟩ := h.request q hq
        exact ⟨r, by rw [Heap.get?_free_ne hne, hr], hhandled'⟩
      · simp only [Watcher.reads, htally, Ctl.inHandler] at hreads ⊢
        simpa using hreads
      · simp only [others, htally]
        omega

theorem innerLoop (h : s.Inv) (hctl : s.ctl = .inner) :
    s.innerLoop.Holds fun t => t.Inv ∧ t.others ≤ s.others := by
  rw [Watcher.innerLoop]
  cases hc : io_uring_peek_cqe s.env.io_uring_data.ring with
  | none => exact ⟨h.setCtl (by rw [hctl]; rfl) rfl, Nat.le_refl _⟩
  | some c =>
      obtain ⟨req, env, hreq, henv, hsound, hreaps⟩ := h.sound.reap hc
      obtain ⟨r, hr, hhandled⟩ := h.request c.user_data
        (hreaps.outstanding.mem_iff.mpr (List.mem_cons_self ..))
      obtain rfl := Option.some.inj (hreq.symm.trans hr)
      have htally : ∀ f, s.env.tally f = env.tally f + if f req then 1 else 0 :=
        fun f => Environment.tally_reap hreq hreaps
      have hself : env.heap.get? c.user_data = some { req with res := c.res } := by
        rw [hreaps.heap, Heap.get?_modify_self hreq]
      have hreads := h.reads
      simp only [hctl, Ctl.inHandler, Bool.false_eq_true, if_false, Nat.add_zero, Watcher.reads,
        htally] at hreads
      have hrequest : ∀ p ∈ env.outstanding, ∃ r, env.heap.get? p = some r ∧ Handled r := by
        intro p hp
        have hne : p ≠ c.user_data := fun heq => hreaps.reaped (heq ▸ hp)
        rw [hreaps.heap, Heap.get?_modify_ne hne]
        exact h.request p (hreaps.outstanding.mem_iff.mpr (List.mem_cons_of_mem _ hp))
      simp only [henv, Outcome.bind_next]
      rcases hhandled.cb with hcb | ⟨e, hcb⟩
      · have hread : isRead req = true := by rw [isRead, hcb]; rfl
        simp only [hcb]
        refine ⟨⟨hsound, hrequest, ?_, by simp, ?_, h.unused, h.count⟩, ?_⟩
        · simp only [hread, if_true] at hreads
          exact hreads
        · intro p hp
          obtain rfl := Ctl.handler.inj hp
          exact ⟨hreaps.reaped, by rw [hself]; rfl⟩
        · simp only [others, htally]
          omega
      · have hread : isRead req = false := by rw [isRead, hcb]; rfl
        simp only [hcb]
        refine ⟨⟨hsound, hrequest, ?_, ?_, by simp, h.unused, h.count⟩, ?_⟩
        · simp only [hread, Bool.false_eq_true, if_false] at hreads
          exact hreads
        · intro p hp
          obtain rfl := Ctl.callback.inj hp
          exact ⟨hreaps.reaped, _, hself, ⟨hhandled.supported, Or.inr ⟨e, hcb⟩⟩, hread⟩
        · simp only [others, htally]
          omega

/-- Starting another operation. -/
theorem start (h : s.Inv) {kind : Kind} (event : EventName) (flag : Int32)
    (hkind : kind.op ∈ switchOps) :
    ∃ env, s.env.submitNew { kind, cb := some (.makeCallback event), flag } = .next env ∧
      Inv { s with env } ∧ others { s with env } = s.others + 1 := by
  obtain ⟨env, henv, hsound, hheap, hsub⟩ :=
    h.sound.submitNew { kind, cb := some (.makeCallback event), flag } hkind
  have hreq : Handled { kind, cb := some (.makeCallback event), flag } :=
    ⟨hkind, Or.inr ⟨event, rfl⟩⟩
  obtain ⟨hrequest, hframe⟩ := h.submits hreq hheap hsub
  have hreads : env.tally isRead = s.env.tally isRead :=
    Environment.tally_submit h.sound hheap hsub
  have hothers : (env.tally fun r => !isRead r) = s.env.tally (fun r => !isRead r) + 1 :=
    Environment.tally_submit h.sound hheap hsub
  obtain ⟨hcallback, hhandler⟩ := h.at_hand hframe
  refine ⟨env, henv, ⟨hsound, hrequest, ?_, hcallback, hhandler, h.unused, h.count⟩, hothers⟩
  · show (env.tally isRead + _) = _
    rw [hreads]
    exact h.reads

end Inv

/-- The step lemma: a counted step keeps the invariant and faults nowhere. -/
theorem preserves_balanced (fd : Int32) : (machine fd).PreservesWhen Counted Balanced := by
  rintro s a ⟨h, hrange⟩ ⟨hkept, hcount, hload⟩
  have hkeep : ∀ {t : Watcher}, t.Inv ∧ t.others ≤ s.others + 1 → t.Balanced :=
    fun ht => ⟨ht.1, by omega⟩
  have hsame : ∀ {t : Watcher}, t.Inv ∧ t.others = s.others → t.Balanced :=
    fun ht => ⟨ht.1, by omega⟩
  cases a with
  | on object id =>
      simp only [machine, step]
      split
      · exact (h.On object id hkept hcount).imp fun t ht => hsame ⟨ht.1, ht.2.1⟩
      · trivial
  | off watchId funcId =>
      simp only [machine, step]
      split
      · exact hsame (h.Off watchId funcId hkept)
      · trivial
  | dropped id => exact hsame (h.of_frame h.sound rfl (List.Perm.refl _) rfl rfl h.unused h.count)
  | start kind event flag =>
      simp only [machine, step]
      split
      · next hcond =>
        simp only [Bool.and_eq_true, decide_eq_true_eq] at hcond
        obtain ⟨env, henv, hinv, hothers⟩ := h.start event flag hcond.2
        rw [henv]
        exact hkeep ⟨hinv, by omega⟩
      · trivial
  | stop =>
      simp only [machine, step]
      split
      · exact hsame
          (h.of_frame h.sound.stop rfl (List.Perm.refl _) rfl rfl h.unused h.count)
      · trivial
  | run =>
      simp only [machine, step]
      split
      · next hctl => exact hsame ⟨h.setCtl (by rw [hctl]; rfl) rfl, rfl⟩
      · trivial
  | outer =>
      simp only [machine, step]
      split
      · next hctl =>
        rw [outerLoop]
        split
        · obtain ⟨hsound, hout⟩ := h.sound.submitAndWait
          have hframe := h.of_frame (t := { s with env := s.env.submitAndWait }) hsound rfl
            (by rw [hout]) rfl rfl h.unused h.count
          exact hsame ⟨hframe.1.setCtl (by rw [hctl]; rfl) rfl, hframe.2⟩
        · exact hsame ⟨h.setCtl (by rw [hctl]; rfl) rfl, rfl⟩
      · trivial
  | inner =>
      simp only [machine, step]
      split
      · next hctl => exact (h.innerLoop hctl).imp fun t ht => hkeep ⟨ht.1, by omega⟩
      · trivial
  | ret =>
      simp only [machine, step]
      split
      · next p hctl => exact (h.finishCallback hctl).imp fun t ht => hkeep ht
      · next p hctl => exact (h.inotifyHandler_return hctl).imp fun t ht => hsame ht
      · trivial
  | complete i res =>
      simp only [machine, step]
      apply h.sound.complete_holds i res
      intro env hsound hheap hout
      exact hsame (h.of_frame hsound hheap hout rfl rfl h.unused h.count)

/-- **Inotify keeps the loop alive while something is watched**, in a run that
    does not watch again after the last watch has gone, and removes the last
    entry while its watch exists and was the only `on` not undone. -/
theorem inotify_accounting (fd : Int32) (as : List Act)
    (h : (machine fd).StepsMeet Counted (init fd) as) :
    ((machine fd).run as).Holds fun s => s.ctl.inCallback = false → s.Accounted :=
  ((preserves_balanced fd).run (balanced_init fd) as h).imp
    fun _ hs hctl => hs.inv.accounted hs.range hctl

/-- A file watched, changed, and unwatched in the callback of another operation. -/
def unwatchActs : List Act :=
  [.on (some 0) 1, .on none (-1), .start (.close { fd := 7 }) .onclose 0, .run, .outer,
    .complete 0 32, .complete 0 0, .inner, .ret, .inner, .off (some 1) (some 1), .ret, .inner,
    .outer]

theorem inotify_accounting_unwatch :
    (machine 3).StepsMeet Counted (init 3) unwatchActs ∧
      ∃ s, (machine 3).run unwatchActs = .next s ∧ s.ctl.inCallback = false ∧ s.Accounted :=
  have h : (machine 3).StepsMeet Counted (init 3) unwatchActs := by decide
  ⟨h, _, rfl, rfl, (inotify_accounting 3 unwatchActs h).of_next rfl rfl⟩

/-- Two listeners on one path, both switched off: nothing is watched, and
    `pending` is still 1. -/
theorem inotify_accounting_two_listeners :
    ¬ ∀ fd as, ((machine fd).run as).Holds fun s => s.ctl.inCallback = false → s.Accounted := by
  intro h
  have hrun := h 3 [.on (some 0) 1, .on (some 1) 1, .off (some 1) (some 1), .off (some 1) (some 2),
    .run]
  exact absurd (hrun rfl) (by decide)

end Watcher

end NoJs.Inotify
