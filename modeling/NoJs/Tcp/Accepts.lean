/-
  NoJs.Tcp.Accepts

  `Server` of `libs/tcp/index.js` over the asynchronous runtime: `tcp.listen`
  makes one ACCEPT request, which is armed again after every completion, and its
  callback counts a connection, makes a socket of the result and emits it.

  The result goes from the completion into the callback, and from there into the
  socket, without being looked at.  A failed accept is a connection too.
-/

import NoJs.Tcp.Reads

namespace NoJs.Tcp

open Machine NoJs.IoUring NoJs.Async
open NoJs.Buffer (Bytes)

/-- One server: the runtime, the backing stores of the buffers, the block of its
    ACCEPT request once it listens, `connections`, and the descriptors of the
    sockets it has emitted. -/
structure Server where
  runtime : Runtime
  memory : Heap Bytes
  acceptor : Option Ptr
  connections : Nat
  emitted : List Int32

namespace Server

def init : Server where
  runtime := .init
  memory := .empty
  acceptor := none
  connections := 0
  emitted := []

/-- The request of the server. -/
def own (s : Server) (p : Ptr) : Bool := s.acceptor == some p

/-- `tcp.listen(fd, 512, (clientFd) => …)`; `listen` is the system call. -/
def listenCall (fd : Int32) (f : JsFunction) (listen : Int32 → Int32 → Int32) : Call where
  entry := .listen
  args := [.number fd.toInt, .number 512, .function f]
  listen

/-- The constructor of `Server`, which makes a request if `listen` succeeds. -/
def construct (fd : Int32) (f : JsFunction) (listen : Int32 → Int32 → Int32) (s : Server) :
    Outcome Server :=
  (s.runtime.step (.start (listenCall fd f listen))).bind fun runtime => .next
    { s with runtime, acceptor := some s.runtime.env.heap.top }

/-- The callback of `tcp.listen`, up to the listeners: `clientFd` is the result in
    the request.  The constructor of `ServerSocket` calls `read`. -/
def onconnect (p : Ptr) (s : Server) : Outcome Server :=
  match s.runtime.env.heap.get? p with
  | none => .fault
  | some req =>
      (s.runtime.step (.start (ServerSocket.readCall req.res s.memory.top))).bind fun runtime =>
        .next
          { s with
            runtime
            memory := s.memory.alloc (List.replicate 1024 0)
            connections := s.connections + 1
            emitted := s.emitted ++ [req.res] }

/-- A step of the runtime: it may enter the server's callback. -/
def other (a : Runtime.Act) (s : Server) : Outcome Server :=
  (s.runtime.step a).bind fun runtime =>
    match a, runtime.handling s.own with
    | .inner, some p => onconnect p { s with runtime }
    | _, _ => .next { s with runtime }

inductive Act where
  /-- `new Server(options)`; the argument answers the system call `listen`. -/
  | construct (listen : Int32 → Int32 → Int32)
  /-- Anything else that happens. -/
  | other (a : Runtime.Act)

def step (fd : Int32) (f : JsFunction) (s : Server) : Act → Outcome Server
  | .construct listen => if s.acceptor = none then s.construct fd f listen else .disabled
  | .other a => s.other a

/-- A server that listens on `fd` with the callback `f`. -/
def machine (fd : Int32) (f : JsFunction) : Machine Server Act := ⟨init, step fd f⟩

/-! ## Connections and accepts -/

/-- The results of the accepts the server has seen, in order. -/
def results (s : Server) : List Int32 := (s.runtime.taken s.own).map (·.res)

/-- Its ACCEPT requests in flight. -/
def inFlight (s : Server) : List Ptr := s.runtime.flying s.own

/-- What is to hold of a listening server while no callback is running. -/
structure Serves (s : Server) : Prop where
  inFlight : s.inFlight.length = 1
  emitted : s.emitted = s.results.filter (0 ≤ ·)
  connections : s.connections = (s.results.filter (0 ≤ ·)).length

/-- An accept: it has a callback and is armed again. -/
def IsAccept (x : Started) : Prop := Runtime.Callable x ∧ x.async.again = true

/-- Every completion is a connection, whatever its result is. -/
structure Inv (s : Server) : Prop where
  atRest : s.runtime.AtRest
  group : s.runtime.Group s.own IsAccept
  emitted : s.emitted = s.results
  connections : s.connections = s.results.length
  inFlight : s.inFlight.length + (s.runtime.handling s.own).toList.length
    = s.acceptor.toList.length

variable {fd : Int32} {f : JsFunction} {s : Server}

theorem own_iff {p : Ptr} : s.own p = true ↔ s.acceptor = some p := by
  simp [own]

theorem own_of_none (hnone : s.acceptor = none) : s.own = fun _ => false := by
  funext p
  simp [own, hnone]

theorem handling_of_none (hnone : s.acceptor = none) : s.runtime.handling s.own = none := by
  rw [Runtime.handling, own_of_none hnone]
  cases s.runtime.ctl.running <;> rfl

theorem inv_init : Inv init where
  atRest := Runtime.inv_init
  group := ⟨by simp [init, Runtime.init], by simp [init, own]⟩
  emitted := rfl
  connections := rfl
  inFlight := rfl

/-- The request of `Listen` is armed again. -/
theorem Listen_again {listen : Int32 → Int32 → Int32} {args : List Value} {a : AsyncRequest}
    (h : Listen listen args = some a) : a.again = true := by
  simp only [Listen, Option.bind_eq_bind, Option.bind_eq_some_iff] at h
  obtain ⟨fd, -, backlog, -, hrest⟩ := h
  split at hrest
  · exact absurd hrest (by simp)
  · obtain rfl := Option.some.inj hrest
    simp [AsyncRequest.again, AsyncRequest.request, Request.again, IO_URING_REQUEST_AGAIN]

theorem isAccept_listenCall {listen : Int32 → Int32 → Int32} {x : Started}
    (hcall : x.call = listenCall fd f listen)
    (hstart : (listenCall fd f listen).start = some x.async) : IsAccept x := by
  refine ⟨⟨by simp [hcall, listenCall], f, by simp [hcall, listenCall, Call.callback, arg,
    EntryPoint.callbackArg, Value.function?]⟩, ?_⟩
  exact Listen_again hstart

theorem Inv.construct (h : s.Inv) (hnone : s.acceptor = none)
    {listen : Int32 → Int32 → Int32} : (s.construct fd f listen).Holds Inv := by
  rw [Server.construct]
  refine (h.atRest.step (.start (listenCall fd f listen))).bind_next fun runtime hstep hat => ?_
  have hstarts := h.atRest.starts hstep
  let t : Server := { s with runtime, acceptor := some s.runtime.env.heap.top }
  have hmem : ∀ p, t.own p = true ↔ s.own p = true ∨ p = s.runtime.env.heap.top := by
    intro p
    simp only [own_iff, t, hnone, reduceCtorEq, false_or, Option.some.injEq]
    exact eq_comm
  obtain ⟨htaken, hflying, hhandling⟩ := hstarts.extend h.atRest hmem
  have hresults : t.results = s.results := congrArg (List.map Cqe.res) htaken
  -- before `listen` no request was the server's
  have hbefore : s.inFlight.length = 0 := by
    have hinFlight := h.inFlight
    rw [hnone, Option.toList_none, List.length_nil] at hinFlight
    omega
  refine ⟨hat, hstarts.group h.group hmem h.atRest fun x =>
    isAccept_listenCall, h.emitted.trans hresults.symm, ?_, ?_⟩
  · exact h.connections.trans (congrArg List.length hresults.symm)
  · have hlength := hflying.length_eq
    rw [hhandling, handling_of_none hnone]
    show t.inFlight.length + 0 = 1
    rw [List.length_cons] at hlength
    exact hlength.trans (congrArg (· + 1) hbefore)

/-- A step that does not concern the server. -/
theorem Inv.same (h : s.Inv) {a : Runtime.Act} {runtime : Runtime}
    (hstep : s.runtime.step a = .next runtime)
    (htaken : runtime.taken s.own = s.runtime.taken s.own)
    (hflying : (runtime.flying s.own).Perm (s.runtime.flying s.own))
    (hhandling : runtime.handling s.own = s.runtime.handling s.own) : Inv { s with runtime } := by
  have hresults : results { s with runtime } = s.results := congrArg (List.map Cqe.res) htaken
  refine ⟨(h.atRest.step a).of_next hstep, h.group.step h.atRest hstep,
    h.emitted.trans hresults.symm, h.connections.trans (congrArg List.length hresults.symm), ?_⟩
  show (runtime.flying s.own).length + (runtime.handling s.own).toList.length = _
  rw [hflying.length_eq, hhandling]
  exact h.inFlight

/-- The loop calls the server's callback. -/
theorem Inv.called (h : s.Inv) {p : Ptr} {res : Int32} {runtime : Runtime}
    (hstep : s.runtime.step .inner = .next runtime)
    (htaken : runtime.taken s.own = s.runtime.taken s.own ++ [⟨p, res⟩])
    (hflying : (s.runtime.flying s.own).Perm (p :: runtime.flying s.own))
    (hidle : s.runtime.handling s.own = none)
    (hrunning : runtime.handling s.own = some p)
    (hres : (runtime.env.heap.get? p).map (·.res) = some res) :
    (onconnect p { s with runtime }).Holds Inv := by
  obtain ⟨req, hreq, rfl⟩ := Option.map_eq_some_iff.mp hres
  have hat : runtime.AtRest := (h.atRest.step .inner).of_next hstep
  have hgroup : runtime.Group s.own IsAccept := h.group.step h.atRest hstep
  have hcallback : (runtime.handling s.own).isSome := by rw [hrunning]; rfl
  have hjs := Runtime.runsJs_of_handling hcallback
  obtain ⟨runtime', hread⟩ := hat.start_next hjs
    (show (ServerSocket.readCall req.res s.memory.top).start = some _ from rfl)
  -- the read of the new socket leaves the ACCEPT request alone
  have hnew : s.own runtime.env.heap.top = false := by
    by_contra hown
    rw [Bool.not_eq_false] at hown
    exact Nat.lt_irrefl _ (hgroup.lt_top hat hown)
  have hstarts := hat.starts hread
  have htaken' : runtime'.taken s.own = runtime.taken s.own := by
    rw [Runtime.taken, Runtime.taken, hstarts.reaped]
  have hflying' : (runtime'.flying s.own).length = (runtime.flying s.own).length :=
    (Runtime.flying_other hstarts.outstanding hnew).length_eq
  have hresults : (runtime'.taken s.own).map (·.res) = s.results ++ [req.res] := by
    rw [htaken', htaken, List.map_append]
    rfl
  simp only [onconnect, hreq, hread, Outcome.bind_next]
  refine ⟨(hat.step _).of_next hread, hgroup.step hat hread, ?_, ?_, ?_⟩
  · rw [h.emitted]
    exact hresults.symm
  · rw [h.connections]
    show s.results.length + 1 = ((runtime'.taken s.own).map (·.res)).length
    rw [hresults, List.length_append]
    rfl
  · have hbefore := h.inFlight
    rw [hidle, Server.inFlight, hflying.length_eq, List.length_cons] at hbefore
    show (runtime'.flying s.own).length + (runtime'.handling s.own).toList.length = _
    rw [hflying', Runtime.handling, hstarts.ctl, ← Runtime.handling, hrunning, ← hbefore]
    rfl

/-- The server's callback returns, and the request goes back in flight. -/
theorem Inv.returned (h : s.Inv) {x : Started} {runtime : Runtime}
    (hstep : s.runtime.step .ret = .next runtime)
    (hx : x ∈ s.runtime.trace.started) (hmem : s.own x.block = true)
    (htaken : runtime.taken s.own = s.runtime.taken s.own)
    (hflying : (runtime.flying s.own).Perm
      (if x.async.again then x.block :: s.runtime.flying s.own else s.runtime.flying s.own))
    (hrunning : s.runtime.handling s.own = some x.block) (hctl : runtime.ctl = .inner) :
    Inv { s with runtime } := by
  have hresults : results { s with runtime } = s.results := congrArg (List.map Cqe.res) htaken
  -- the completion function arms the request again behind the callback
  have hagain : x.async.again = true := (h.group.each x hx hmem).2
  rw [if_pos hagain] at hflying
  refine ⟨(h.atRest.step .ret).of_next hstep, h.group.step h.atRest hstep,
    h.emitted.trans hresults.symm, h.connections.trans (congrArg List.length hresults.symm), ?_⟩
  have hbefore := h.inFlight
  rw [hrunning] at hbefore
  show (runtime.flying s.own).length + (runtime.handling s.own).toList.length = _
  rw [hflying.length_eq, Runtime.handling_none (congrArg Ctl.running hctl), ← hbefore]
  rfl

theorem Inv.other (h : s.Inv) {a : Runtime.Act} : (s.other a).Holds Inv := by
  rw [Server.other]
  refine (h.atRest.step a).bind_next fun runtime hstep hat => ?_
  cases h.atRest.progress (h.group.imp fun x hx => hx.1) hstep with
  | called p res hmem htaken hflying hidle hctl hres =>
      have hrunning : runtime.handling s.own = some p :=
        Runtime.handling_own (congrArg Ctl.running hctl) hmem
      simp only [hrunning]
      exact h.called hstep htaken hflying hidle hrunning hres
  | returned x hx hmem htaken hflying hrunning hctl =>
      exact h.returned hstep hx hmem htaken hflying hrunning hctl
  | same htaken hflying hhandling hidle =>
      have hsame := h.same hstep htaken hflying hhandling
      cases a with
      | inner =>
          simp only [hhandling, hidle (Or.inl rfl)]
          exact hsame
      | start c | stop | run | outer | ret | complete i res => exact hsame

theorem preserves : (machine fd f).Preserves Inv := by
  intro s a h
  cases a with
  | construct listen =>
      simp only [machine, step]
      split
      · next hnone => exact h.construct hnone
      · trivial
  | other a => exact h.other

/-- One ACCEPT is in flight in any case; the connections are the successful
    accepts exactly when every accept was successful. -/
theorem Inv.serves_iff (h : s.Inv) (hlistens : s.acceptor.isSome)
    (hidle : s.runtime.ctl.running = none) : s.Serves ↔ ∀ res ∈ s.results, 0 ≤ res := by
  obtain ⟨p, hp⟩ := Option.isSome_iff_exists.mp hlistens
  have hone := h.inFlight
  rw [Runtime.handling_none hidle, hp] at hone
  constructor
  · -- the filter of the results is the results themselves
    intro hserves
    have hall := h.emitted.symm.trans hserves.emitted
    exact fun res hres => by simpa using List.filter_eq_self.mp hall.symm res hres
  · intro hall
    have hself : s.results.filter (0 ≤ ·) = s.results :=
      List.filter_eq_self.mpr fun res hres => by simpa using hall res hres
    exact ⟨hone, hself.symm ▸ h.emitted, hself.symm ▸ h.connections⟩

/-- **Connections are the successful accepts**, in every run and at every point
    where no callback is running, exactly when no accept the server has seen
    failed. -/
theorem connections_are_accepts_iff (fd : Int32) (f : JsFunction) (as : List Act) :
    ((machine fd f).run as).Holds fun s =>
      s.acceptor.isSome → s.runtime.ctl.running = none →
        (s.Serves ↔ ∀ res ∈ s.results, 0 ≤ res) :=
  (preserves.run inv_init as).imp fun _ h => h.serves_iff

/-- Two clients connect, and the first sends something in between. -/
def twoClients : List Act :=
  [.construct fun _ _ => 0, .other .run, .other .outer, .other (.complete 0 8), .other .inner,
    .other .ret, .other (.complete 0 5), .other (.complete 0 9), .other .inner, .other .ret,
    .other .inner, .other .ret]

theorem connections_are_accepts_two :
    ∃ s, (machine 3 7).run twoClients = .next s ∧ s.runtime.ctl.running = none ∧
      s.results = [8, 9] ∧ s.Serves := by
  obtain ⟨s, hrun, hacceptor, hctl, hresults⟩ : ∃ s, (machine 3 7).run twoClients = .next s ∧
      s.acceptor.isSome ∧ s.runtime.ctl.running = none ∧ s.results = [8, 9] :=
    ⟨_, rfl, rfl, rfl, rfl⟩
  have hserves := (connections_are_accepts_iff 3 7 twoClients).of_next hrun hacceptor hctl
  refine ⟨s, hrun, hctl, hresults, hserves.mpr fun res hres => ?_⟩
  rw [hresults] at hres
  rcases List.mem_pair.mp hres with rfl | rfl
  · decide
  · decide

/-- An accept that fails for want of descriptors is a connection. -/
theorem failed_accept_emitted : ¬ ∀ (fd : Int32) (f : JsFunction) (as : List Act),
    ((machine fd f).run as).Holds fun s =>
      s.acceptor.isSome → s.runtime.ctl.running = none → s.Serves := by
  intro h
  have hfailed : ∃ s, (machine 3 7).run
      [.construct fun _ _ => 0, .other .run, .other .outer, .other (.complete 0 (-24)),
        .other .inner, .other .ret] = .next s ∧
      s.acceptor = some 0 ∧ s.runtime.ctl = .inner ∧ s.emitted = [-24] ∧ s.results = [-24] :=
    ⟨_, rfl, rfl, rfl, rfl, rfl⟩
  obtain ⟨s, hrun, hacceptor, hctl, hemitted, hresults⟩ := hfailed
  have hserves := (h 3 7 _).of_next hrun (by rw [hacceptor]; rfl) (by rw [hctl]; rfl)
  have hnone := hserves.emitted
  rw [hemitted, hresults] at hnone
  exact absurd hnone (by decide)

end Server

end NoJs.Tcp
