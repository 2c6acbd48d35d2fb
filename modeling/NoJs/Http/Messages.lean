/-
  NoJs.Http.Messages

  What the callbacks installed on an `HTTP_Parser` observe of the messages of a
  connection.

  The callbacks of llhttp share the accumulators of the parser: `url` and
  `status` grow until the head is complete, `body` until the message is.  All of
  them are emptied by `on_message_begin` and by nothing else, so a message that
  never completes leaves its fragments behind, for the next one to discard.
-/

import NoJs.Http.HeaderParser

namespace NoJs.Http

/-! ## The installed callbacks -/

/-- `struct parser_callback`: which of its function pointers are set. -/
structure ParserCallback where
  onHeadersComplete : Bool
  onBody : Bool
  onBodyComplete : Bool
  deriving DecidableEq, Repr

/-- `if (callback.on_headers_complete)`, and its like. -/
def ParserCallback.installed (cb : ParserCallback) : Emitted → Bool
  | .onHeadersComplete _ => cb.onHeadersComplete
  | .onBody _ => cb.onBody
  | .onBodyComplete _ => cb.onBodyComplete

/-- The calls that the callbacks of `cb` observe while the buffers are parsed.  What
a callback does to the parser does not depend on whether it passes anything on. -/
def HTTPParser.observe (p : HTTPParser) (cb : ParserCallback) (buffers : List (List Callback)) :
    List Emitted :=
  (p.parseBuffers buffers).2.filter cb.installed

/-! ## Messages as llhttp reports them -/

/-- A callback between the beginning of a message and the end of its head. -/
inductive HeadCall where
  | url (data : CString)
  | status (data : CString)
  | headerField (data : CString)
  | headerValue (data : CString)
  deriving DecidableEq, Repr

/-- A callback behind the head: a body fragment or one of a trailer field. -/
inductive BodyCall where
  | body (data : CString)
  | headerField (data : CString)
  | headerValue (data : CString)
  deriving DecidableEq, Repr

/-- A message from the end of its head on; `finish` is missing when it was
abandoned there. -/
structure Remainder where
  parser : Llhttp
  now : Int
  body : List BodyCall
  finish : Option Int
  deriving DecidableEq, Repr

/-- A message; `remainder` is missing when it was abandoned in its head. -/
structure Report where
  start : Int
  head : List HeadCall
  remainder : Option Remainder
  deriving DecidableEq, Repr

def HeadCall.call : HeadCall → Callback
  | .url data => .url data
  | .status data => .status data
  | .headerField data => .headerField data
  | .headerValue data => .headerValue data

def BodyCall.call : BodyCall → Callback
  | .body data => .body data
  | .headerField data => .headerField data
  | .headerValue data => .headerValue data

def Remainder.calls (r : Remainder) : List Callback :=
  .headersComplete r.parser r.now :: r.body.map BodyCall.call
    ++ (r.finish.map .messageComplete).toList

/-- The callbacks llhttp makes for a message, in order. -/
def Report.calls (m : Report) : List Callback :=
  .messageBegin m.start :: m.head.map HeadCall.call ++ m.remainder.elim [] Remainder.calls

/-! ## What the fragments of a message say -/

def HeadCall.url? : HeadCall → Option CString
  | .url data => some data
  | _ => none

def HeadCall.status? : HeadCall → Option CString
  | .status data => some data
  | _ => none

def HeadCall.field? : HeadCall → Option CString
  | .headerField data => some data
  | _ => none

def HeadCall.value? : HeadCall → Option CString
  | .headerValue data => some data
  | _ => none

def BodyCall.body? : BodyCall → Option CString
  | .body data => some data
  | _ => none

/-- The body fragments of a message. -/
def Remainder.fragments (r : Remainder) : List CString := r.body.filterMap BodyCall.body?

/-- The head of a message: its url and status are the concatenations of its own
fragments. -/
def Report.info (m : Report) (r : Remainder) : HeadersCompleteInfo where
  majorVersion := r.parser.httpMajor
  minorVersion := r.parser.httpMinor
  upgrade := r.parser.upgrade
  keepalive := r.parser.shouldKeepAlive
  parseStartTime := m.start
  headerEndTime := r.now
  messageEndTime := 0
  url := (m.head.filterMap HeadCall.url?).flatten
  status := (m.head.filterMap HeadCall.status?).flatten
  keys := m.head.filterMap HeadCall.field?
  values := m.head.filterMap HeadCall.value?

/-- What there is to observe of a message: its head once, its body fragments in
order, and its body once; as far as it got. -/
def Report.observed (m : Report) : List Emitted :=
  m.remainder.elim [] fun r =>
    .onHeadersComplete (m.info r) :: r.fragments.map .onBody
      ++ (r.finish.map fun _ => Emitted.onBodyComplete r.fragments.flatten).toList

/-! ## One message -/

namespace HTTPParser

/-- The callbacks of a head only accumulate. -/
theorem parse_headCalls (p : HTTPParser) (head : List HeadCall) :
    p.parse (head.map HeadCall.call)
      = ({ p with
            url := p.url ++ (head.filterMap HeadCall.url?).flatten
            status := p.status ++ (head.filterMap HeadCall.status?).flatten
            keys := p.keys ++ head.filterMap HeadCall.field?
            values := p.values ++ head.filterMap HeadCall.value? }, []) := by
  induction head generalizing p with
  | nil => simp [parse]
  | cons call head ih =>
      rw [List.map_cons, parse]
      cases call with
      | url data =>
          simp [HeadCall.call, callback, onUrl, ih, List.filterMap_cons, HeadCall.url?,
            HeadCall.status?, HeadCall.field?, HeadCall.value?]
      | status data =>
          simp [HeadCall.call, callback, onStatus, ih, List.filterMap_cons, HeadCall.url?,
            HeadCall.status?, HeadCall.field?, HeadCall.value?]
      | headerField data =>
          simp [HeadCall.call, callback, onHeaderField, ih, List.filterMap_cons, HeadCall.url?,
            HeadCall.status?, HeadCall.field?, HeadCall.value?]
      | headerValue data =>
          simp [HeadCall.call, callback, onHeaderValue, ih, List.filterMap_cons, HeadCall.url?,
            HeadCall.status?, HeadCall.field?, HeadCall.value?]

/-- Behind the head, every body fragment is passed on and kept. -/
theorem parse_bodyCalls (p : HTTPParser) (calls : List BodyCall) :
    (p.parse (calls.map BodyCall.call)).1.body
        = p.body ++ (calls.filterMap BodyCall.body?).flatten ∧
      (p.parse (calls.map BodyCall.call)).2
        = (calls.filterMap BodyCall.body?).map .onBody := by
  induction calls generalizing p with
  | nil => simp [parse]
  | cons call calls ih =>
      rw [List.map_cons, parse]
      cases call with
      | body data =>
          simp [BodyCall.call, callback, onBody, ih, BodyCall.body?]
      | headerField data =>
          simp [BodyCall.call, callback, onHeaderField, ih, List.filterMap_cons, BodyCall.body?]
      | headerValue data =>
          simp [BodyCall.call, callback, onHeaderValue, ih, List.filterMap_cons, BodyCall.body?]

/-- The body is passed on as a whole when the message is complete. -/
theorem parse_finish (p : HTTPParser) (finish : Option Int) :
    (p.parse (finish.map .messageComplete).toList).2
      = (finish.map fun _ => Emitted.onBodyComplete p.body).toList := by
  cases finish with
  | none => rfl
  | some now => rfl

/-- From the end of the head on, when no body was collected yet. -/
theorem parse_remainder {p : HTTPParser} (hbody : p.body = []) (r : Remainder) :
    (p.parse r.calls).2
      = .onHeadersComplete (p.onHeadersComplete r.parser r.now).info :: r.fragments.map .onBody
          ++ (r.finish.map fun _ => Emitted.onBodyComplete r.fragments.flatten).toList := by
  obtain ⟨hkept, hpassed⟩ := parse_bodyCalls (p.onHeadersComplete r.parser r.now) r.body
  have hempty : (p.onHeadersComplete r.parser r.now).body = [] := hbody
  rw [hempty, List.nil_append] at hkept
  rw [Remainder.calls, parse_append, parse_finish]
  show Emitted.onHeadersComplete (p.onHeadersComplete r.parser r.now).info
        :: ((p.onHeadersComplete r.parser r.now).parse (r.body.map BodyCall.call)).2
      ++ (r.finish.map fun _ => Emitted.onBodyComplete
        ((p.onHeadersComplete r.parser r.now).parse (r.body.map BodyCall.call)).1.body).toList = _
  rw [hpassed, hkept]
  rfl

/-- A message is reported from its own fragments, whatever the parser saw before. -/
theorem parse_report (p : HTTPParser) (m : Report) : (p.parse m.calls).2 = m.observed := by
  have hhead := parse_headCalls (p.onMessageBegin m.start) m.head
  rw [Report.calls, parse_append, Report.observed]
  show ((p.onMessageBegin m.start).parse (m.head.map HeadCall.call)).2
      ++ (((p.onMessageBegin m.start).parse (m.head.map HeadCall.call)).1.parse _).2 = _
  rw [hhead, List.nil_append]
  cases m.remainder with
  | none => rfl
  | some r =>
      -- everything collected before the message was emptied when it began
      exact parse_remainder rfl r

end HTTPParser

/-! ## All messages -/

theorem HTTPParser.parse_reports (p : HTTPParser) (messages : List Report) :
    (p.parse (messages.flatMap Report.calls)).2 = messages.flatMap Report.observed := by
  induction messages generalizing p with
  | nil => rfl
  | cons m messages ih =>
      rw [List.flatMap_cons, parse_append, parse_report, ih, List.flatMap_cons]

/-- **Every message is reported from its own fragments only**, however the
messages are cut into fragments and buffers and wherever one was abandoned. -/
theorem HTTPParser.messages_observed (p : HTTPParser) (cb : ParserCallback) (messages : List Report)
    (buffers : List (List Callback)) (hcut : buffers.flatten = messages.flatMap Report.calls) :
    p.observe cb buffers = messages.flatMap fun m => m.observed.filter cb.installed := by
  rw [observe, parseBuffers_eq, hcut, parse_reports, List.filter_flatMap]

/-- A request abandoned in its body, and one that is complete, its target and its
body in two fragments each. -/
def abandonedThenComplete : List Report :=
  [{ start := 0
     head := [.url (str "/old")]
     remainder := some { parser := ⟨1, 1, 0, 1⟩, now := 1, body := [.body (str "lost")]
                         finish := none } },
   { start := 2
     head := [.url (str "/n"), .url (str "ew"), .headerField (str "k"), .headerValue (str "v")]
     remainder := some { parser := ⟨1, 1, 0, 1⟩, now := 3
                         body := [.body (str "a"), .headerField (str "t"), .body (str "b")]
                         finish := some 4 } }]

def allInstalled : ParserCallback := ⟨true, true, true⟩

/-- Cut into two buffers behind the target of the complete request. -/
theorem HTTPParser.messages_observed_abandoned :
    let calls := abandonedThenComplete.flatMap Report.calls
    [calls.take 6, calls.drop 6].flatten = calls ∧
      fresh.observe allInstalled [calls.take 6, calls.drop 6]
        = abandonedThenComplete.flatMap fun m => m.observed.filter allInstalled.installed :=
  ⟨by decide, messages_observed fresh allInstalled abandonedThenComplete _ (by decide)⟩

end NoJs.Http
