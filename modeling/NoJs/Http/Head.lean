/-
  NoJs.Http.Head

  A request head on its way to the `request` listener: the object that the
  callback of `core/http.h` makes of it, and the fields that `HTTPRequest` of
  `libs/http/index.js` takes from this object.

  The object has `major_version` and `minor_version`, and `HTTPRequest` reads
  `major` and `minor`, so no request has a version.  The header fields become
  properties of an object, so of the fields with one name the last is kept.
-/

import Mathlib.Data.List.Induction
import NoJs.Http.Connection
import NoJs.Util.Strings

namespace NoJs.Http

open Utf16 NoJs.Util

/-! ## The request object -/

/-- What the request object owes to the head `info`. -/
structure HandedOver (info : HeadersCompleteInfo) (req : HTTPRequest) : Prop where
  major : req.major = .integer info.majorVersion.toNat
  minor : req.minor = .integer info.minorVersion.toNat
  keepalive : req.keepalive = .integer info.keepalive.toNat
  upgrade : req.upgrade = .integer info.upgrade.toNat
  headers : ∃ object, req.headers = .headers object ∧ ∀ field ∈ info.keys.zip info.values,
    object (newStringToLcal field.1) = some (newStringToLcal field.2)

theorem setHeaders_eq_zip {keys values : List CString} (h : keys.length = values.length) :
    setHeaders keys values = some (keys.zip values) := by
  induction keys generalizing values with
  | nil => rfl
  | cons key keys ih =>
      obtain ⟨value, values, rfl⟩ := List.exists_cons_of_length_eq_add_one h.symm
      rw [setHeaders, ih (Nat.succ.inj h)]
      rfl

theorem emitted_head (p : HTTPParser) (head : RequestHead) :
    (p.parse head.calls).2 = [.onHeadersComplete head.info] := p.parse_head head

/-- The fields of the request object after a head. -/
theorem handle_head_req (c : Connection) {info : HeadersCompleteInfo}
    (h : info.keys.length = info.values.length) :
    ∃ c', c.handle newStringToLcal (.onHeadersComplete info) = some c' ∧
      c'.req.major = .undefined ∧ c'.req.minor = .undefined ∧
      c'.req.keepalive = .integer info.keepalive.toNat ∧
      c'.req.upgrade = .integer info.upgrade.toNat ∧
      c'.req.headers
        = .headers (headersObject newStringToLcal (info.keys.zip info.values)).own.find := by
  refine ⟨c.onHeaderComplete (infoObject newStringToLcal info (info.keys.zip info.values)), ?_,
    rfl, rfl, rfl, rfl, rfl⟩
  rw [Connection.handle, setHeaders_eq_zip h]
  rfl

/-- **No request head is handed over**: `major` and `minor` are no properties of the
object that `onHeaderComplete` is given. -/
theorem head_not_handed_over (p : HTTPParser) (c : Connection) (head : RequestHead)
    (h : head.info.keys.length = head.info.values.length) :
    ∃ c', c.handleAll newStringToLcal (p.parse head.calls).2 = some c' ∧
      ¬ HandedOver head.info c'.req := by
  obtain ⟨c', hhandle, hmajor, -⟩ := handle_head_req c h
  refine ⟨c', ?_, fun hover => ?_⟩
  · rw [emitted_head, Connection.handleAll, hhandle]
    rfl
  · have hversion := hover.major
    rw [hmajor] at hversion
    exact absurd hversion (by simp)

/-- `GET / HTTP/1.1` with one header field. -/
def getHello : RequestHead where
  start := 0
  url := [str "/"]
  fields := [⟨whole "hello", whole "world"⟩]
  parser := ⟨1, 1, 0, 1⟩
  finish := 0

theorem length_getHello : getHello.info.keys.length = getHello.info.values.length := by
  have hwhole : ∀ text : String, (whole text).fragments.length = 1 := fun _ => rfl
  simp only [RequestHead.info, getHello, List.flatMap_cons, List.flatMap_nil, List.append_nil,
    hwhole]

theorem head_not_handed_over_hello :
    getHello.info.keys.length = getHello.info.values.length ∧
      ∃ c', Connection.handleAll newStringToLcal {} (fresh.parse getHello.calls).2 = some c' ∧
        ¬ HandedOver getHello.info c'.req :=
  ⟨length_getHello, head_not_handed_over fresh {} getHello length_getHello⟩

/-- Its version is lost. -/
theorem version_lost : ¬ ∀ (p : HTTPParser) (c c' : Connection) (head : RequestHead),
    head.info.keys.length = head.info.values.length →
    c.handleAll newStringToLcal (p.parse head.calls).2 = some c' → HandedOver head.info c'.req := by
  intro h
  obtain ⟨c', hhandle, hmajor, -⟩ := handle_head_req {} length_getHello
  have hall : Connection.handleAll newStringToLcal {} (fresh.parse getHello.calls).2 = some c' := by
    rw [emitted_head, Connection.handleAll, hhandle]
    rfl
  have hversion := (h fresh {} c' getHello length_getHello hall).major
  rw [hmajor] at hversion
  exact absurd hversion (by simp)

/-! ## The header fields -/

section

variable {newString : CString → Str} {fields : List (CString × CString)} {field : CString × CString}

/-- One more field. -/
theorem headersObject_concat (fields : List (CString × CString)) (field : CString × CString) :
    headersObject newString (fields ++ [field])
      = (headersObject newString fields).set (newString field.1) (newString field.2) :=
  List.foldl_concat ..

/-- No field makes a property `__proto__`. -/
theorem find_headersObject_proto (fields : List (CString × CString)) :
    (headersObject newString fields).own.find PlainObject.protoKey = none := by
  induction fields using List.reverseRecOn with
  | nil => exact PlainObject.find_empty _
  | append_singleton fields field ih =>
      rw [headersObject_concat]
      by_cases hproto : newString field.1 = PlainObject.protoKey
      · rw [hproto, PlainObject.set_proto, ih]
      · rw [PlainObject.find_set_of_ne hproto, if_neg (Ne.symm hproto), ih]

/-- A name of the object is that of a field, and has the value of one. -/
theorem headersObject_mem (h : field ∈ fields) (hproto : newString field.1 ≠ PlainObject.protoKey) :
    ∃ last ∈ fields, newString last.1 = newString field.1 ∧
      (headersObject newString fields).own.find (newString field.1)
        = some (newString last.2) := by
  induction fields using List.reverseRecOn with
  | nil => exact absurd h List.not_mem_nil
  | append_singleton fields last ih =>
      rw [headersObject_concat]
      by_cases hsame : newString field.1 = newString last.1
      · refine ⟨last, List.mem_append_right _ (List.mem_singleton_self last), hsame.symm, ?_⟩
        rw [← hsame, PlainObject.find_set_of_ne hproto, if_pos rfl]
      · -- the last field has another name, so the field is before it
        have hbefore : field ∈ fields := by
          rcases List.mem_append.mp h with hmem | hmem
          · exact hmem
          · exact absurd (congrArg _ (congrArg Prod.fst (List.mem_singleton.mp hmem))) hsame
        obtain ⟨found, hfound, hname, hvalue⟩ := ih hbefore
        refine ⟨found, List.mem_append_left _ hfound, hname, ?_⟩
        by_cases hlast : newString last.1 = PlainObject.protoKey
        · rw [hlast, PlainObject.set_proto, hvalue]
        · rw [PlainObject.find_set_of_ne hlast, if_neg hsame, hvalue]

/-- The values of a head can all be read back exactly when no field is named
`__proto__` and fields of one name have one value. -/
theorem fields_read_back_iff (fields : List (CString × CString)) :
    (∀ field ∈ fields, (headersObject newString fields).own.find (newString field.1)
        = some (newString field.2)) ↔
      (∀ field ∈ fields, newString field.1 ≠ PlainObject.protoKey) ∧
        ∀ field ∈ fields, ∀ other ∈ fields, newString field.1 = newString other.1 →
          newString field.2 = newString other.2 := by
  constructor
  · intro h
    refine ⟨fun field hfield hproto => ?_, fun field hfield other hother hname => ?_⟩
    · have hfind := h field hfield
      rw [hproto, find_headersObject_proto] at hfind
      exact absurd hfind (by simp)
    · -- one property cannot have the values of both
      have hfind := h other hother
      rw [← hname, h field hfield] at hfind
      exact Option.some.inj hfind
  · rintro ⟨hproto, hsame⟩ field hfield
    obtain ⟨last, hlast, hname, hvalue⟩ := headersObject_mem hfield (hproto field hfield)
    rw [hvalue, hsame last hlast field hfield hname]

end

/-- What is left of the hand-over: the fields of a head are all on the request object
exactly when none is lost in the headers object. -/
theorem headers_handed_over_iff (c : Connection) {info : HeadersCompleteInfo}
    (h : info.keys.length = info.values.length) :
    (∃ c' object, c.handle newStringToLcal (.onHeadersComplete info) = some c' ∧
        c'.req.headers = .headers object ∧ ∀ field ∈ info.keys.zip info.values,
          object (newStringToLcal field.1) = some (newStringToLcal field.2)) ↔
      (∀ field ∈ info.keys.zip info.values, newStringToLcal field.1 ≠ PlainObject.protoKey) ∧
        ∀ field ∈ info.keys.zip info.values, ∀ other ∈ info.keys.zip info.values,
          newStringToLcal field.1 = newStringToLcal other.1 →
            newStringToLcal field.2 = newStringToLcal other.2 := by
  obtain ⟨d, hhandle, -, -, -, -, hheaders⟩ := handle_head_req c h
  rw [← fields_read_back_iff]
  constructor
  · rintro ⟨c', object, hc', hobject, hread⟩
    obtain rfl := Option.some.inj (hhandle.symm.trans hc')
    obtain rfl := JsValue.headers.inj (hheaders.symm.trans hobject)
    exact hread
  · exact fun hread => ⟨d, _, hhandle, hheaders, hread⟩

/-- Two cookies, of which the second is kept. -/
example : (headersObject newStringToLcal [(str "cookie", str "a"), (str "cookie", str "b")]).get
    (newStringToLcal (str "cookie")) = .own (newStringToLcal (str "b")) := by decide

end NoJs.Http
