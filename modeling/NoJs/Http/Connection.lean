/-
  NoJs.Http.Connection

  The messages of one connection as the server's `request` listener sees them:
  the callbacks of `core/http.h` and the `HTTPRequest` of `libs/http/index.js`.

  A connection has a single `HTTPRequest`, made when it is accepted.  The parser
  callbacks set its fields and emit on it, and every message is announced with
  this one object, so a listener registered for one message hears the later ones
  too, and the fields it reads are those of the message parsed last.

  `newString` is `newStringToLcal` on the bytes of a `std::string`.
-/

import NoJs.Http.HeaderParser
import NoJs.Lib.PlainObject
import NoJs.Util.Strings

namespace NoJs.Http

open Utf16

/-! ## The objects -/

/-- A property value, as far as the callbacks set one. -/
inductive JsValue where
  | undefined
  | integer (n : Nat)
  | string (s : Str)
  /-- The `headers` object, by its own properties. -/
  | headers (object : Str → Option Str)

/-- What identifies the listener that the `request` listener registers: the
    number of the message it was called for. -/
abbrev Listener := Nat

/-- `class HTTPRequest`: its own fields and its `data` listeners. -/
structure HTTPRequest where
  major : JsValue := .undefined
  minor : JsValue := .undefined
  keepalive : JsValue := .undefined
  upgrade : JsValue := .undefined
  headers : JsValue := .undefined
  listeners : List Listener := []

/-- A connection: its `HTTPRequest`, how often it was handed to the `request`
    listener, and the calls of `data` listeners. -/
structure Connection where
  req : HTTPRequest := {}
  requests : Nat := 0
  deliveries : List (Listener × Str) := []

section

variable (newString : CString → Str)

/-- `headers->Set(context, key, value)` for each pair.  It is an assignment: that to
    `__proto__` makes no property. -/
def headersObject (pairs : List (CString × CString)) : PlainObject Str :=
  pairs.foldl (fun headers pair => headers.set (newString pair.1) (newString pair.2)) .empty

/-- The `obj` handed to `onHeaderComplete`, by its properties. -/
def infoObject (info : HeadersCompleteInfo) (pairs : List (CString × CString)) :
    String → JsValue
  | "major_version" => .integer info.majorVersion.toNat
  | "minor_version" => .integer info.minorVersion.toNat
  | "keepalive" => .integer info.keepalive.toNat
  | "upgrade" => .integer info.upgrade.toNat
  | "url" => .string (newString info.url)
  | "headers" => .headers (headersObject newString pairs).own.find
  | _ => .undefined

namespace Connection

/-- `this.httpparser.onHeaderComplete`, with the `request` listener, which
    registers a `data` listener for the message. -/
def onHeaderComplete (data : String → JsValue) (c : Connection) : Connection :=
  { c with
    req := { c.req with
      major := data "major"
      minor := data "minor"
      keepalive := data "keepalive"
      upgrade := data "upgrade"
      headers := data "headers"
      listeners := c.req.listeners ++ [c.requests] }
    requests := c.requests + 1 }

/-- `this.httpparser.onBody`: `emit('data', data)` calls every listener. -/
def onBody (data : Str) (c : Connection) : Connection :=
  { c with deliveries := c.deliveries ++ c.req.listeners.map (·, data) }

/-- A call of the parser callback; `none` when it reads past the end of
    `info.values`. -/
def handle (c : Connection) : Emitted → Option (Connection)
  | .onHeadersComplete info => do
      let pairs ← setHeaders info.keys info.values
      return c.onHeaderComplete (infoObject newString info pairs)
  | .onBody body => some (c.onBody (newString body))
  -- `onBodyComplete` does nothing
  | .onBodyComplete _ => some c

/-- The calls of the parser callback, one after the other. -/
def handleAll (c : Connection) : List Emitted → Option (Connection)
  | [] => some c
  | e :: events => (c.handle newString e).bind fun c => c.handleAll events

/-- What a `request` listener reads of the object it was handed: all messages
    are handed the one `req`. -/
def visible (c : Connection) : JsValue × JsValue × JsValue :=
  (c.req.headers, c.req.major, c.req.minor)

end Connection

/-! ## Messages -/

/-- A message as llhttp reports it: its head, body fragments, trailer fields. -/
structure Message where
  head : RequestHead
  body : List CString
  trailers : List HeaderField
  finish : Int

/-- The callbacks llhttp makes for a message, in order. -/
def Message.calls (m : Message) : List Callback :=
  m.head.calls ++ m.body.map .body ++ m.trailers.flatMap HeaderField.calls
    ++ [.messageComplete m.finish]

/-- What the callback for the complete head of a message is given. -/
def RequestHead.info (head : RequestHead) : HeadersCompleteInfo where
  majorVersion := head.parser.httpMajor
  minorVersion := head.parser.httpMinor
  upgrade := head.parser.upgrade
  keepalive := head.parser.shouldKeepAlive
  parseStartTime := head.start
  headerEndTime := head.finish
  messageEndTime := 0
  url := head.url.flatten
  status := []
  keys := head.fields.flatMap (·.name.fragments)
  values := head.fields.flatMap (·.value.fragments)

/-- What a parser emits for the messages of a connection. -/
def emitted (p : HTTPParser) (messages : List Message) : List Emitted :=
  (p.parse (messages.flatMap Message.calls)).2

/-! ## Isolation -/

/-- The body fragments among the events, each with the message it belongs to;
    `n` heads came before. -/
def bodyFragments : Nat → List Emitted → List (Nat × CString)
  | _, [] => []
  | n, .onHeadersComplete _ :: events => bodyFragments (n + 1) events
  | n, .onBody body :: events => (n - 1, body) :: bodyFragments n events
  | n, .onBodyComplete _ :: events => bodyFragments n events

/-- The heads among the events. -/
def heads : List Emitted → List HeadersCompleteInfo
  | [] => []
  | .onHeadersComplete info :: events => info :: heads events
  | .onBody _ :: events => heads events
  | .onBodyComplete _ :: events => heads events

/-- At every point, each body fragment so far was delivered once, to the listener
    of its message and to no other, and the request object handed out for a
    message shows what it shows when that message is the only one. -/
def Isolated (p : HTTPParser) (messages : List Message) : Prop :=
  ∀ events, events <+: emitted p messages → ∃ c, Connection.handleAll newString {} events = some c ∧
    c.deliveries = (bodyFragments 0 events).map (fun x => (x.1, newString x.2)) ∧
    ∀ info ∈ heads events, ∃ alone,
      Connection.handleAll newString {} [.onHeadersComplete info] = some alone ∧
        c.visible = alone.visible

end

/-! ## What is emitted -/

theorem HTTPParser.parse_head_body (p : HTTPParser) (head : RequestHead) :
    (p.parse head.calls).1.body = [] := by
  rw [RequestHead.calls, parse_append, parse_append, parse_fields]
  simp [parse, callback, parse_url, onMessageBegin, onHeadersComplete]

theorem HTTPParser.parse_body (p : HTTPParser) (body : List CString) :
    p.parse (body.map .body) = ({ p with body := p.body ++ body.flatten }, body.map .onBody) := by
  induction body generalizing p with
  | nil => simp [parse]
  | cons data body ih => simp [parse, callback, onBody, ih]

/-- The events of a message. -/
def Message.emits (m : Message) : List Emitted :=
  .onHeadersComplete m.head.info :: m.body.map .onBody ++ [.onBodyComplete m.body.flatten]

theorem HTTPParser.parse_message (p : HTTPParser) (m : Message) :
    (p.parse m.calls).2 = m.emits := by
  rw [Message.calls, parse_append, parse_append, parse_append, parse_head, parse_body, parse_fields]
  simp [parse, callback, onMessageComplete, parse_head_body, Message.emits, RequestHead.info]

theorem emitted_eq (p : HTTPParser) (messages : List Message) :
    emitted p messages = messages.flatMap Message.emits := by
  induction messages generalizing p with
  | nil => rfl
  | cons m messages ih =>
      rw [emitted, List.flatMap_cons, HTTPParser.parse_append, p.parse_message, List.flatMap_cons]
      exact congrArg (m.emits ++ ·) (ih _)

theorem heads_append (events more : List Emitted) :
    heads (events ++ more) = heads events ++ heads more := by
  induction events with
  | nil => rfl
  | cons e events ih => cases e <;> simp [heads, ih]

theorem heads_body (body : List CString) : heads (body.map .onBody) = [] := by
  induction body with
  | nil => rfl
  | cons data body ih => exact ih

theorem heads_emitted (p : HTTPParser) (messages : List Message) :
    heads (emitted p messages) = messages.map (·.head.info) := by
  rw [emitted_eq]
  induction messages with
  | nil => rfl
  | cons m messages ih =>
      rw [List.flatMap_cons, heads_append, ih, Message.emits, heads_append, heads, heads_body]
      rfl

/-! ## Who hears what -/

/-- The body fragments with the listeners that hear them, `n` heads having come
    before: all that were registered until then. -/
def heard : Nat → List Emitted → List (Listener × CString)
  | _, [] => []
  | n, .onHeadersComplete _ :: events => heard (n + 1) events
  | n, .onBody body :: events => (List.range n).map (·, body) ++ heard n events
  | n, .onBodyComplete _ :: events => heard n events

/-- Every body fragment comes while there is a single listener. -/
def SingleListener : Nat → List Emitted → Prop
  | _, [] => True
  | n, .onHeadersComplete _ :: events => SingleListener (n + 1) events
  | n, .onBody _ :: events => n = 1 ∧ SingleListener n events
  | n, .onBodyComplete _ :: events => SingleListener n events

theorem SingleListener.heard_eq {n : Nat} {events : List Emitted} (h : SingleListener n events) :
    heard n events = bodyFragments n events := by
  induction events generalizing n with
  | nil => rfl
  | cons e events ih =>
      cases e with
      | onHeadersComplete info => exact ih h
      | onBodyComplete body => exact ih h
      | onBody body =>
          obtain ⟨rfl, hrest⟩ := h
          rw [heard, bodyFragments, ih hrest]
          rfl

theorem SingleListener.of_prefix {n : Nat} {events all : List Emitted} (hpre : events <+: all)
    (h : SingleListener n all) : SingleListener n events := by
  induction events generalizing n all with
  | nil => trivial
  | cons e events ih =>
      obtain ⟨rest, rfl⟩ := hpre
      have hrest : events <+: events ++ rest := List.prefix_append _ _
      cases e with
      | onHeadersComplete info => exact ih hrest h
      | onBodyComplete body => exact ih hrest h
      | onBody body => exact ⟨h.1, ih hrest h.2⟩

theorem singleListener_body {n : Nat} {body : List CString} {events : List Emitted}
    (hbody : n = 1 ∨ body = []) (h : SingleListener n events) :
    SingleListener n (body.map .onBody ++ events) := by
  induction body with
  | nil => exact h
  | cons data body ih =>
      have hone := hbody.resolve_right (List.cons_ne_nil _ _)
      exact ⟨hone, ih (Or.inl hone)⟩

/-- Messages without a body, whatever the number of listeners. -/
theorem singleListener_empty (n : Nat) {messages : List Message}
    (h : ∀ m ∈ messages, m.body = []) : SingleListener n (messages.flatMap Message.emits) := by
  induction messages generalizing n with
  | nil => trivial
  | cons m messages ih =>
      obtain ⟨hm, hrest⟩ := List.forall_mem_cons.mp h
      rw [List.flatMap_cons, Message.emits, hm]
      exact ih (n + 1) hrest

/-- Only the first message has a body. -/
theorem singleListener_first {messages : List Message} (h : ∀ m ∈ messages.tail, m.body = []) :
    SingleListener 0 (messages.flatMap Message.emits) := by
  cases messages with
  | nil => trivial
  | cons m messages =>
      rw [List.flatMap_cons, Message.emits, List.append_assoc]
      exact singleListener_body (Or.inl rfl) (singleListener_empty 1 h)

theorem heard_body (n : Nat) (body : List CString) (events : List Emitted) :
    (heard n (body.map .onBody ++ events)).length = n * body.length + (heard n events).length := by
  induction body with
  | nil => simp
  | cons data body ih =>
      rw [List.map_cons, List.cons_append, heard, List.length_append, List.length_map,
        List.length_range, ih, List.length_cons, Nat.mul_succ]
      omega

theorem bodyFragments_body (n : Nat) (body : List CString) (events : List Emitted) :
    (bodyFragments n (body.map .onBody ++ events)).length
      = body.length + (bodyFragments n events).length := by
  induction body with
  | nil => simp
  | cons data body ih =>
      rw [List.map_cons, List.cons_append, bodyFragments, List.length_cons, ih, List.length_cons]
      omega

theorem heard_cons (n : Nat) (m : Message) (messages : List Message) :
    (heard n ((m :: messages).flatMap Message.emits)).length
      = (n + 1) * m.body.length
        + (heard (n + 1) (messages.flatMap Message.emits)).length := by
  rw [List.flatMap_cons, Message.emits, List.append_assoc]
  exact heard_body (n + 1) m.body _

theorem bodyFragments_cons (n : Nat) (m : Message) (messages : List Message) :
    (bodyFragments n ((m :: messages).flatMap Message.emits)).length
      = m.body.length + (bodyFragments (n + 1) (messages.flatMap Message.emits)).length := by
  rw [List.flatMap_cons, Message.emits, List.append_assoc]
  exact bodyFragments_body (n + 1) m.body _

/-- After the first message every fragment is heard at least twice. -/
theorem heard_length (n : Nat) (messages : List Message) :
    (bodyFragments (n + 1) (messages.flatMap Message.emits)).length
        ≤ (heard (n + 1) (messages.flatMap Message.emits)).length ∧
      ((bodyFragments (n + 1) (messages.flatMap Message.emits)).length
          = (heard (n + 1) (messages.flatMap Message.emits)).length →
        ∀ m ∈ messages, m.body = []) := by
  induction messages generalizing n with
  | nil => exact ⟨Nat.le_refl 0, fun _ m hm => absurd hm List.not_mem_nil⟩
  | cons m messages ih =>
      obtain ⟨hle, hempty⟩ := ih (n + 1)
      have htwice : (n + 1 + 1) * m.body.length = n * m.body.length + 2 * m.body.length :=
        Nat.add_mul n 2 m.body.length
      rw [heard_cons, bodyFragments_cons]
      refine ⟨by omega, fun heq => List.forall_mem_cons.mpr ⟨?_, hempty (by omega)⟩⟩
      exact List.eq_nil_of_length_eq_zero (by omega)

/-! ## The callbacks on a connection -/

section

variable (newString : CString → Str)

/-- The properties of the headers object a head gives rise to; `none` when the loop over its fields
    reads past the end of `info.values`. -/
def HeadersCompleteInfo.shown (info : HeadersCompleteInfo) : Option (Str → Option Str) :=
  (setHeaders info.keys info.values).map fun pairs => (headersObject newString pairs).own.find

/-- What is visible of a request object with these headers.  `data.major` and
    `data.minor` are no properties of the object `onHeaderComplete` is given. -/
def withHeaders (object : Str → Option Str) : JsValue × JsValue × JsValue :=
  (.headers object, .undefined, .undefined)

theorem withHeaders_inj {object object' : Str → Option Str}
    (h : withHeaders object = withHeaders object') : object = object' :=
  JsValue.headers.inj (Prod.mk.inj h).1

namespace Connection

/-- The listeners of the request object are those of the messages so far. -/
structure Announced (c : Connection) : Prop where
  listeners : c.req.listeners = List.range c.requests

theorem onBody_deliveries {c : Connection} (h : c.Announced) (data : Str) :
    (c.onBody data).deliveries = c.deliveries ++ (List.range c.requests).map (·, data) := by
  rw [onBody, h.listeners]

/-- One more head. -/
theorem handle_head {c : Connection} (h : c.Announced) (info : HeadersCompleteInfo) :
    (∃ object c', info.shown newString = some object ∧
        c.handle newString (.onHeadersComplete info) = some c' ∧ c'.Announced ∧
        c'.requests = c.requests + 1 ∧ c'.deliveries = c.deliveries ∧
        c'.visible = withHeaders object) ∨
      info.values.length < info.keys.length ∧
        c.handle newString (.onHeadersComplete info) = none := by
  cases hpairs : setHeaders info.keys info.values with
  | none =>
      refine Or.inr ⟨(setHeaders_eq_none _ _).mp hpairs, ?_⟩
      simp only [handle, hpairs, Option.bind_eq_bind, Option.bind_none]
  | some pairs =>
      refine Or.inl ⟨(headersObject newString pairs).own.find,
        c.onHeaderComplete (infoObject newString info pairs), ?_, ?_, ⟨?_⟩, rfl, rfl, rfl⟩
      · rw [HeadersCompleteInfo.shown, hpairs]
        rfl
      · simp only [handle, hpairs, Option.bind_eq_bind, Option.bind_some, Option.pure_def]
      · simp only [onHeaderComplete, h.listeners, List.range_succ]

/-- The events are handled when no head is out of range: what is heard is
    delivered, and the object shows a head handled, once there was one. -/
theorem handleAll_some {c : Connection} {events : List Emitted} (h : c.Announced)
    (hrange : ∀ info ∈ heads events, info.keys.length ≤ info.values.length) :
    ∃ c', c.handleAll newString events = some c' ∧
      c'.deliveries = c.deliveries
        ++ (heard c.requests events).map (fun x => (x.1, newString x.2)) ∧
      (heads events = [] ∧ c'.visible = c.visible ∨
        ∃ info ∈ heads events, ∃ object, info.shown newString = some object ∧
          c'.visible = withHeaders object) := by
  induction events generalizing c with
  | nil => exact ⟨c, rfl, by simp [heard], Or.inl ⟨rfl, rfl⟩⟩
  | cons e events ih =>
      cases e with
      | onHeadersComplete info =>
          obtain ⟨hinfo, hrest⟩ := List.forall_mem_cons.mp hrange
          rcases handle_head newString h info with hhead | ⟨hlt, -⟩
          · obtain ⟨object, d, hshown, hhandle, hd, hrequests, hdeliveries, hvisible⟩ := hhead
            obtain ⟨c', hrun, hheard, hlast⟩ := ih hd hrest
            refine ⟨c', ?_, ?_, Or.inr ?_⟩
            · rw [handleAll, hhandle, Option.bind_some, hrun]
            · rw [hheard, hdeliveries, hrequests, heard]
            · -- this head, unless another follows
              rcases hlast with ⟨-, hsame⟩ | ⟨info', hinfo', hlater⟩
              · exact ⟨info, List.mem_cons_self, object, hshown, hsame.trans hvisible⟩
              · exact ⟨info', List.mem_cons_of_mem _ hinfo', hlater⟩
          · omega
      | onBody body =>
          obtain ⟨c', hrun, hheard, hlast⟩ :=
            ih (c := c.onBody (newString body)) ⟨h.listeners⟩ hrange
          refine ⟨c', hrun, ?_, hlast⟩
          rw [hheard, onBody_deliveries h, heard, List.map_append, List.append_assoc, List.map_map]
          rfl
      | onBodyComplete body => exact ih h hrange

/-- A head out of range ends the run. -/
theorem handleAll_range {c c' : Connection} {events : List Emitted} (h : c.Announced)
    (hrun : c.handleAll newString events = some c') :
    ∀ info ∈ heads events, info.keys.length ≤ info.values.length := by
  induction events generalizing c with
  | nil => exact fun info hinfo => absurd hinfo List.not_mem_nil
  | cons e events ih =>
      rw [handleAll, Option.bind_eq_some_iff] at hrun
      obtain ⟨d, hhandle, hrest⟩ := hrun
      cases e with
      | onHeadersComplete info =>
          rcases handle_head newString h info with hhead | ⟨-, hnone⟩
          · obtain ⟨object, d', -, hhandle', hd', -⟩ := hhead
            obtain rfl := Option.some.inj (hhandle.symm.trans hhandle')
            refine List.forall_mem_cons.mpr ⟨?_, ih hd' hrest⟩
            by_contra hlt
            obtain ⟨pairs, hpairs⟩ : ∃ pairs, setHeaders info.keys info.values = some pairs := by
              simp only [handle, Option.bind_eq_bind, Option.bind_eq_some_iff] at hhandle
              exact hhandle.imp fun pairs hpairs => hpairs.1
            rw [(setHeaders_eq_none _ _).mpr (by omega)] at hpairs
            exact absurd hpairs (by simp)
          · rw [hnone] at hhandle
            exact absurd hhandle (by simp)
      | onBody body =>
          obtain rfl := Option.some.inj hhandle
          exact ih (c := c.onBody (newString body)) ⟨h.listeners⟩ hrest
      | onBodyComplete body =>
          obtain rfl := Option.some.inj hhandle
          exact ih h hrest

end Connection

theorem announced_init : ({} : Connection).Announced := ⟨rfl⟩

/-- A connection with a single head shows its headers. -/
theorem handleAll_alone {info : HeadersCompleteInfo} {alone : Connection}
    (h : Connection.handleAll newString {} [.onHeadersComplete info] = some alone) :
    ∃ object, info.shown newString = some object ∧ alone.visible = withHeaders object := by
  have hrange := Connection.handleAll_range newString announced_init h
  obtain ⟨c', hrun, -, hshown⟩ := Connection.handleAll_some newString announced_init hrange
  obtain rfl := Option.some.inj (hrun.symm.trans h)
  rcases hshown with ⟨hnone, -⟩ | ⟨info', hinfo', hshown⟩
  · exact absurd hnone (List.cons_ne_nil _ _)
  · obtain rfl := List.mem_singleton.mp hinfo'
    exact hshown

/-- The requests of a connection that do not get mixed up. -/
structure Undisturbed (messages : List Message) : Prop where
  /-- The loop over the header fields stays in range. -/
  in_range : ∀ m ∈ messages, m.head.info.keys.length ≤ m.head.info.values.length
  no_later_body : ∀ m ∈ messages.tail, m.body = []
  same_headers : ∀ m ∈ messages, ∀ m' ∈ messages,
    m.head.info.shown newString = m'.head.info.shown newString

theorem undisturbed_of_isolated {p : HTTPParser} {messages : List Message}
    (h : Isolated newString p messages) : Undisturbed newString messages := by
  obtain ⟨c, hrun, hdeliveries, hvisible⟩ := h _ List.prefix_rfl
  have hheads := heads_emitted p messages
  have hmem : ∀ m ∈ messages, m.head.info ∈ heads (emitted p messages) := by
    intro m hm
    rw [hheads]
    exact List.mem_map_of_mem hm
  have hrange := Connection.handleAll_range newString announced_init hrun
  refine ⟨fun m hm => hrange _ (hmem m hm), ?_, ?_⟩
  · -- count the calls of listeners against the fragments
    obtain ⟨c', hrun', hheard, -⟩ := Connection.handleAll_some newString announced_init hrange
    obtain rfl := Option.some.inj (hrun.symm.trans hrun')
    have hlength := congrArg List.length (hheard.symm.trans hdeliveries)
    cases messages with
    | nil => exact fun m hm => absurd hm List.not_mem_nil
    | cons m messages =>
        have hfirst := heard_cons 0 m messages
        have hfragments := bodyFragments_cons 0 m messages
        rw [List.nil_append, List.length_map, List.length_map, emitted_eq, hfirst,
          hfragments] at hlength
        exact (heard_length 0 messages).2 (by omega)
  · intro m hm m' hm'
    obtain ⟨alone, halone, heq⟩ := hvisible _ (hmem m hm)
    obtain ⟨alone', halone', heq'⟩ := hvisible _ (hmem m' hm')
    obtain ⟨object, hshown, hobject⟩ := handleAll_alone newString halone
    obtain ⟨object', hshown', hobject'⟩ := handleAll_alone newString halone'
    rw [hshown, hshown', withHeaders_inj (hobject.symm.trans
      (heq.symm.trans (heq'.trans hobject')))]

theorem isolated_of_undisturbed {messages : List Message} (h : Undisturbed newString messages)
    (p : HTTPParser) : Isolated newString p messages := by
  intro events hpre
  have hheads : ∀ info ∈ heads events, ∃ m ∈ messages, m.head.info = info := by
    intro info hinfo
    obtain ⟨rest, hrest⟩ := hpre
    have hall : info ∈ heads (emitted p messages) := by
      rw [← hrest, heads_append]
      exact List.mem_append_left _ hinfo
    rw [heads_emitted] at hall
    exact List.mem_map.mp hall
  have hrange : ∀ info ∈ heads events, info.keys.length ≤ info.values.length := by
    intro info hinfo
    obtain ⟨m, hm, rfl⟩ := hheads info hinfo
    exact h.in_range m hm
  obtain ⟨c, hrun, hheard, hshown⟩ := Connection.handleAll_some newString announced_init hrange
  have hsingle : SingleListener 0 events := by
    apply SingleListener.of_prefix hpre
    rw [emitted_eq]
    exact singleListener_first h.no_later_body
  refine ⟨c, hrun, ?_, ?_⟩
  · rw [hheard, hsingle.heard_eq]
    rfl
  · intro info hinfo
    have halone : ∀ i ∈ heads [.onHeadersComplete info], i.keys.length ≤ i.values.length := by
      intro i hi
      obtain rfl := List.mem_singleton.mp hi
      exact hrange _ hinfo
    obtain ⟨alone, hrun', -, -⟩ := Connection.handleAll_some newString announced_init halone
    obtain ⟨object, hobject, hvisible⟩ := handleAll_alone newString hrun'
    refine ⟨alone, hrun', ?_⟩
    rcases hshown with ⟨hnone, -⟩ | ⟨info', hinfo', object', hobject', hvisible'⟩
    · rw [hnone] at hinfo
      exact absurd hinfo List.not_mem_nil
    · -- the head shown last has the headers of this one
      obtain ⟨m, hm, rfl⟩ := hheads info hinfo
      obtain ⟨m', hm', rfl⟩ := hheads info' hinfo'
      have hsame := h.same_headers m hm m' hm'
      rw [hobject, hobject', Option.some.injEq] at hsame
      rw [hvisible, hvisible', hsame]

/-- **Requests on one connection are isolated** exactly when only the first has a
    body and all have the same headers, each within its range. -/
theorem isolated_iff (p : HTTPParser) (messages : List Message) :
    Isolated newString p messages ↔ Undisturbed newString messages :=
  ⟨undisturbed_of_isolated newString, fun h => isolated_of_undisturbed newString h p⟩

end

/-- A `POST` without header fields and with the body `a`. -/
def postA : Message where
  head := { start := 0, url := [str "/"], fields := [], parser := ⟨1, 1, 0, 1⟩, finish := 0 }
  body := [str "a"]
  trailers := []
  finish := 0

/-- The second of two such requests is heard by the listener of the first, too. -/
theorem not_isolated_two_bodies : ¬ ∀ (p : HTTPParser) (messages : List Message),
    Isolated Util.newStringToLcal p messages := by
  intro h
  have hundisturbed := undisturbed_of_isolated _ (h fresh [postA, postA])
  exact absurd (hundisturbed.no_later_body postA List.mem_cons_self) (by decide)

end NoJs.Http
