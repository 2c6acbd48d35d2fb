/-
  NoJs.Http.HeaderParser

  `HTTP_Parser` of `core/HTTP_Parser.cc`: the callbacks llhttp runs while it
  parses, and the two vectors the header fields are collected in.

  llhttp reports a name or a value as a span of one or more fragments, a new one
  whenever the buffer given to `parse` ends inside or right behind it.  Every
  fragment is pushed as an element of its own, so the vectors hold the header
  fields if and only if no span was fragmented.
-/

import Mathlib.Algebra.Ring.Nat
import Mathlib.Data.List.Basic
import Mathlib.Tactic.Common

namespace NoJs.Http

/-- The contents of a `std::string`. -/
abbrev CString := List UInt8

/-- The fields of `llhttp_t` that the callbacks read, and the answer of
`llhttp_should_keep_alive`. -/
structure Llhttp where
  httpMajor : UInt8
  httpMinor : UInt8
  upgrade : UInt8
  shouldKeepAlive : UInt8
  deriving DecidableEq, Repr

/-- `class HTTP_Parser`. -/
structure HTTPParser where
  majorVersion : UInt8
  minorVersion : UInt8
  upgrade : UInt8
  keepalive : UInt8
  parseStartTime : Int
  headerEndTime : Int
  messageEndTime : Int
  url : CString
  status : CString
  keys : List CString
  values : List CString
  body : CString
  deriving DecidableEq, Repr

/-- `on_headers_complete_info` -/
structure HeadersCompleteInfo where
  majorVersion : UInt8
  minorVersion : UInt8
  upgrade : UInt8
  keepalive : UInt8
  parseStartTime : Int
  headerEndTime : Int
  messageEndTime : Int
  url : CString
  status : CString
  keys : List CString
  values : List CString
  deriving DecidableEq, Repr

/-- A call of llhttp; `now` is the `time(NULL)` the callback reads. -/
inductive Callback where
  | messageBegin (now : Int)
  | url (data : CString)
  | status (data : CString)
  | headerField (data : CString)
  | headerValue (data : CString)
  | headersComplete (parser : Llhttp) (now : Int)
  | body (data : CString)
  | messageComplete (now : Int)
  deriving DecidableEq, Repr

/-- A call of the `parser_callback` set by `No::HTTP::Parser`. -/
inductive Emitted where
  | onHeadersComplete (info : HeadersCompleteInfo)
  | onBody (body : CString)
  | onBodyComplete (body : CString)
  deriving DecidableEq, Repr

namespace HTTPParser

/-! ## The callbacks -/

def onMessageBegin (p : HTTPParser) (now : Int) : HTTPParser :=
  { p with
    majorVersion := 0, minorVersion := 0, upgrade := 0, keepalive := 0
    headerEndTime := 0, messageEndTime := 0
    url := [], status := [], keys := [], values := [], body := []
    parseStartTime := now }

def onStatus (p : HTTPParser) (data : CString) : HTTPParser :=
  { p with status := p.status ++ data }

def onUrl (p : HTTPParser) (data : CString) : HTTPParser := { p with url := p.url ++ data }

def onHeaderField (p : HTTPParser) (data : CString) : HTTPParser :=
  { p with keys := p.keys ++ [data] }

def onHeaderValue (p : HTTPParser) (data : CString) : HTTPParser :=
  { p with values := p.values ++ [data] }

def onHeadersComplete (p : HTTPParser) (parser : Llhttp) (now : Int) : HTTPParser :=
  { p with
    headerEndTime := now
    majorVersion := parser.httpMajor
    minorVersion := parser.httpMinor
    upgrade := parser.upgrade
    keepalive := parser.shouldKeepAlive }

/-- The `info` of `on_headers_complete`. -/
def info (p : HTTPParser) : HeadersCompleteInfo where
  majorVersion := p.majorVersion
  minorVersion := p.minorVersion
  upgrade := p.upgrade
  keepalive := p.keepalive
  parseStartTime := p.parseStartTime
  headerEndTime := p.headerEndTime
  messageEndTime := p.messageEndTime
  url := p.url
  status := p.status
  keys := p.keys
  values := p.values

def onBody (p : HTTPParser) (data : CString) : HTTPParser := { p with body := p.body ++ data }

def onMessageComplete (p : HTTPParser) (now : Int) : HTTPParser :=
  { p with messageEndTime := now }

/-- The `settings` table, and what each callback passes on. -/
def callback (p : HTTPParser) : Callback → HTTPParser × List Emitted
  | .messageBegin now => (p.onMessageBegin now, [])
  | .url data => (p.onUrl data, [])
  | .status data => (p.onStatus data, [])
  | .headerField data => (p.onHeaderField data, [])
  | .headerValue data => (p.onHeaderValue data, [])
  | .headersComplete parser now =>
      let p := p.onHeadersComplete parser now
      (p, [.onHeadersComplete p.info])
  | .body data => (p.onBody data, [.onBody data])
  | .messageComplete now =>
      let p := p.onMessageComplete now
      (p, [.onBodyComplete p.body])

/-- `parse` of one buffer, for which llhttp makes the calls `calls`. -/
def parse (p : HTTPParser) : List Callback → HTTPParser × List Emitted
  | [] => (p, [])
  | call :: calls =>
      let (p, emitted) := p.callback call
      let (p, rest) := p.parse calls
      (p, emitted ++ rest)

/-- `parse` of one buffer after the other. -/
def parseBuffers (p : HTTPParser) : List (List Callback) → HTTPParser × List Emitted
  | [] => (p, [])
  | calls :: buffers =>
      let (p, emitted) := p.parse calls
      let (p, rest) := p.parseBuffers buffers
      (p, emitted ++ rest)

theorem parse_append (p : HTTPParser) (calls more : List Callback) :
    p.parse (calls ++ more)
      = (((p.parse calls).1.parse more).1,
        (p.parse calls).2 ++ ((p.parse calls).1.parse more).2) := by
  induction calls generalizing p with
  | nil => rfl
  | cons call calls ih => simp [parse, ih]

/-- The parser does not see where one buffer ends and the next begins; only the
fragments tell. -/
theorem parseBuffers_eq (p : HTTPParser) (buffers : List (List Callback)) :
    p.parseBuffers buffers = p.parse buffers.flatten := by
  induction buffers generalizing p with
  | nil => rfl
  | cons calls buffers ih => simp [parseBuffers, parse_append, ih]

end HTTPParser

/-! ## The headers object -/

/-- The loop of the callback in `core/http.h` over `i < info.keys.size()`: the
pairs it sets on the `headers` object, `none` when `info.values[i]` is out of
range. -/
def setHeaders : List CString → List CString → Option (List (CString × CString))
  | [], _ => some []
  | _ :: _, [] => none
  | key :: keys, value :: values => (setHeaders keys values).map ((key, value) :: ·)

/-- The loop stays in range exactly when every key has a value. -/
theorem setHeaders_eq_none (keys values : List CString) :
    setHeaders keys values = none ↔ values.length < keys.length := by
  induction keys generalizing values with
  | nil => simp [setHeaders]
  | cons key keys ih =>
      cases values with
      | nil => simp [setHeaders]
      | cons value values =>
          rw [setHeaders, Option.map_eq_none_iff, ih, List.length_cons, List.length_cons]
          omega

/-! ## Request heads as llhttp reports them -/

/-- A name or value, reported in one or more fragments. -/
structure Span where
  fragments : List CString
  reported : fragments ≠ []
  deriving DecidableEq, Repr

namespace Span

def text (s : Span) : CString := s.fragments.flatten

/-- Reported in one piece. -/
def Whole (s : Span) : Prop := s.fragments.length = 1

instance (s : Span) : Decidable s.Whole := inferInstanceAs (Decidable (_ = _))

theorem length_fragments_pos (s : Span) : 0 < s.fragments.length :=
  List.length_pos_iff.mpr s.reported

theorem Whole.fragments_eq {s : Span} (h : s.Whole) : s.fragments = [s.text] := by
  obtain ⟨fragment, hfragment⟩ := List.length_eq_one_iff.mp h
  rw [text, hfragment, List.flatten_singleton]

theorem length_le_fragments (spans : List Span) :
    spans.length ≤ (spans.flatMap fragments).length := by
  induction spans with
  | nil => exact Nat.le_refl 0
  | cons s spans ih =>
      -- every span has a fragment, so there are no fewer fragments than spans
      have hpos := s.length_fragments_pos
      rw [List.flatMap_cons, List.length_append, List.length_cons]
      omega

/-- Pushing fragments gives the texts exactly when each is in one piece. -/
theorem fragments_eq_texts_iff (spans : List Span) :
    spans.flatMap fragments = spans.map text ↔ ∀ s ∈ spans, s.Whole := by
  induction spans with
  | nil => simp
  | cons s spans ih =>
      rw [List.flatMap_cons, List.map_cons, List.forall_mem_cons]
      constructor
      · intro h
        -- a second fragment anywhere makes the left side too long
        have hlength := congrArg List.length h
        have hle := length_le_fragments spans
        have hpos := s.length_fragments_pos
        rw [List.length_append, List.length_cons, List.length_map] at hlength
        have hwhole : s.Whole := by
          show s.fragments.length = 1
          omega
        rw [hwhole.fragments_eq] at h
        exact ⟨hwhole, ih.mp (List.cons.inj h).2⟩
      · rintro ⟨hwhole, hrest⟩
        rw [hwhole.fragments_eq, ih.mpr hrest, List.singleton_append]

end Span

/-- A header field of the message. -/
structure HeaderField where
  name : Span
  value : Span
  deriving DecidableEq, Repr

/-- A request head, with its target and header fields as llhttp reports them. -/
structure RequestHead where
  start : Int
  url : List CString
  fields : List HeaderField
  parser : Llhttp
  finish : Int
  deriving DecidableEq, Repr

def HeaderField.calls (field : HeaderField) : List Callback :=
  field.name.fragments.map .headerField ++ field.value.fragments.map .headerValue

/-- The callbacks llhttp makes for a head, in order. -/
def RequestHead.calls (head : RequestHead) : List Callback :=
  .messageBegin head.start :: head.url.map .url ++ head.fields.flatMap HeaderField.calls
    ++ [.headersComplete head.parser head.finish]

namespace HTTPParser

theorem parse_url (p : HTTPParser) (fragments : List CString) :
    p.parse (fragments.map .url) = ({ p with url := p.url ++ fragments.flatten }, []) := by
  induction fragments generalizing p with
  | nil => simp [parse]
  | cons data fragments ih => simp [parse, callback, onUrl, ih]

theorem parse_name (p : HTTPParser) (fragments : List CString) :
    p.parse (fragments.map .headerField) = ({ p with keys := p.keys ++ fragments }, []) := by
  induction fragments generalizing p with
  | nil => simp [parse]
  | cons data fragments ih => simp [parse, callback, onHeaderField, ih]

theorem parse_value (p : HTTPParser) (fragments : List CString) :
    p.parse (fragments.map .headerValue) = ({ p with values := p.values ++ fragments }, []) := by
  induction fragments generalizing p with
  | nil => simp [parse]
  | cons data fragments ih => simp [parse, callback, onHeaderValue, ih]

theorem parse_fields (p : HTTPParser) (fields : List HeaderField) :
    p.parse (fields.flatMap HeaderField.calls)
      = ({ p with
            keys := p.keys ++ fields.flatMap (·.name.fragments)
            values := p.values ++ fields.flatMap (·.value.fragments) }, []) := by
  induction fields generalizing p with
  | nil => simp [parse]
  | cons field fields ih =>
      rw [List.flatMap_cons, HeaderField.calls, parse_append, parse_append, parse_name, parse_value,
        ih]
      simp

/-- What the callback for the complete head is given, whatever the parser saw
before the message. -/
theorem parse_head (p : HTTPParser) (head : RequestHead) :
    (p.parse head.calls).2
      = [.onHeadersComplete {
          majorVersion := head.parser.httpMajor
          minorVersion := head.parser.httpMinor
          upgrade := head.parser.upgrade
          keepalive := head.parser.shouldKeepAlive
          parseStartTime := head.start
          headerEndTime := head.finish
          messageEndTime := 0
          url := head.url.flatten
          status := []
          keys := head.fields.flatMap (·.name.fragments)
          values := head.fields.flatMap (·.value.fragments) }] := by
  rw [RequestHead.calls, parse_append, parse_append, parse_fields]
  simp [parse, callback, parse_url, onMessageBegin, onHeadersComplete, info]

end HTTPParser

/-! ## The header fields of a message -/

/-- What the callback for the complete head should find: the vectors hold the
names and values in order, and the loop pairs them without leaving its range. -/
structure HeadersOf (fields : List HeaderField) (info : HeadersCompleteInfo) : Prop where
  length_eq : info.keys.length = info.values.length
  keys_eq : info.keys = fields.map (·.name.text)
  values_eq : info.values = fields.map (·.value.text)
  pairs_eq : setHeaders info.keys info.values
    = some (fields.map fun field => (field.name.text, field.value.text))

theorem setHeaders_map {α : Type} (key value : α → CString) (fields : List α) :
    setHeaders (fields.map key) (fields.map value)
      = some (fields.map fun field => (key field, value field)) := by
  induction fields with
  | nil => rfl
  | cons field fields ih =>
      rw [List.map_cons, List.map_cons, setHeaders, ih]
      rfl

/-- The vectors alone decide. -/
theorem headersOf_iff (fields : List HeaderField) (info : HeadersCompleteInfo) :
    HeadersOf fields info
      ↔ info.keys = fields.map (·.name.text) ∧ info.values = fields.map (·.value.text) := by
  constructor
  · intro h
    exact ⟨h.keys_eq, h.values_eq⟩
  · rintro ⟨hkeys, hvalues⟩
    refine { length_eq := ?_, keys_eq := hkeys, values_eq := hvalues, pairs_eq := ?_ }
    · rw [hkeys, hvalues, List.length_map, List.length_map]
    · rw [hkeys, hvalues, setHeaders_map]

/-- The callback is called once, with the header fields of the message. -/
def Delivered (fields : List HeaderField) (emitted : List Emitted) : Prop :=
  ∃ info, emitted = [.onHeadersComplete info] ∧ HeadersOf fields info

/-- However a request head is cut into buffers, its header fields are delivered
if and only if every name and every value was reported in one piece. -/
theorem headers_delivered_iff (p : HTTPParser) (head : RequestHead)
    (buffers : List (List Callback)) (hcut : buffers.flatten = head.calls) :
    Delivered head.fields (p.parseBuffers buffers).2
      ↔ ∀ field ∈ head.fields, field.name.Whole ∧ field.value.Whole := by
  -- names and values are decided apart: each vector is a sequence of fragments
  have hnames := Span.fragments_eq_texts_iff (head.fields.map (·.name))
  have hvalues := Span.fragments_eq_texts_iff (head.fields.map (·.value))
  rw [List.flatMap_map, List.map_map, List.forall_mem_map] at hnames hvalues
  rw [p.parseBuffers_eq, hcut, HTTPParser.parse_head, Delivered]
  constructor
  · rintro ⟨info, heq, hinfo⟩
    obtain ⟨hkeys, hvals⟩ := (headersOf_iff _ _).mp hinfo
    cases heq
    intro field hfield
    exact ⟨hnames.mp hkeys field hfield, hvalues.mp hvals field hfield⟩
  · intro h
    refine ⟨_, rfl, (headersOf_iff _ _).mpr ⟨?_, ?_⟩⟩
    · exact hnames.mpr fun field hfield => (h field hfield).1
    · exact hvalues.mpr fun field hfield => (h field hfield).2

/-- The loop reads past the end of `values` exactly when the names of the head
were reported in more fragments than the values. -/
theorem headers_out_of_range_iff (p : HTTPParser) (head : RequestHead)
    (buffers : List (List Callback)) (hcut : buffers.flatten = head.calls) :
    (∃ info, (p.parseBuffers buffers).2 = [.onHeadersComplete info] ∧
        setHeaders info.keys info.values = none)
      ↔ (head.fields.map (·.value.fragments.length)).sum
          < (head.fields.map (·.name.fragments.length)).sum := by
  rw [p.parseBuffers_eq, hcut, HTTPParser.parse_head, ← List.length_flatMap,
    ← List.length_flatMap, ← setHeaders_eq_none]
  constructor
  · rintro ⟨info, heq, hnone⟩
    cases heq
    exact hnone
  · intro hnone
    exact ⟨_, rfl, hnone⟩

/-! ## The request of the repository's client test -/

def str (text : String) : CString := text.toList.map fun c => UInt8.ofNat c.toNat

def whole (text : String) : Span := ⟨[str text], List.cons_ne_nil _ _⟩

/-- `hello:world` and a `content-length` whose value is reported as `length`. -/
def testHead (length : Span) : RequestHead where
  start := 0
  url := [str "/1.html"]
  fields := [⟨whole "hello", whole "world"⟩, ⟨whole "content-length", length⟩]
  parser := { httpMajor := 1, httpMinor := 1, upgrade := 0, shouldKeepAlive := 1 }
  finish := 0

/-- A parser that has seen no message. -/
def fresh : HTTPParser where
  majorVersion := 0
  minorVersion := 0
  upgrade := 0
  keepalive := 0
  parseStartTime := 0
  headerEndTime := 0
  messageEndTime := 0
  url := []
  status := []
  keys := []
  values := []
  body := []

/-- The head in two buffers, cut between its two fields. -/
def fieldBuffers : List (List Callback) :=
  [(testHead (whole "1")).calls.take 4, (testHead (whole "1")).calls.drop 4]

theorem headers_delivered_field_buffers :
    Delivered (testHead (whole "1")).fields (fresh.parseBuffers fieldBuffers).2 :=
  (headers_delivered_iff fresh (testHead (whole "1")) fieldBuffers rfl).mpr (by decide)

/-- The client sends the head in two buffers, the first of which ends behind
`content-length:1`: the end of the value comes as an empty fragment. -/
def splitHead : RequestHead := testHead ⟨[str "1", str ""], List.cons_ne_nil _ _⟩

def splitBuffers : List (List Callback) := [splitHead.calls.take 6, splitHead.calls.drop 6]

theorem headers_not_delivered_split :
    splitBuffers.flatten = splitHead.calls ∧
      ¬ Delivered splitHead.fields (fresh.parseBuffers splitBuffers).2 := by
  have hcut : splitBuffers.flatten = splitHead.calls := rfl
  refine ⟨hcut, ?_⟩
  rintro ⟨info, heq, hinfo⟩
  rw [HTTPParser.parseBuffers_eq, hcut, HTTPParser.parse_head] at heq
  cases heq
  exact absurd hinfo.length_eq (by decide)

end NoJs.Http
