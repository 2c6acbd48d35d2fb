/-
  NoJs.Http.ContentLength

  The length a response declares: `setHeader` and `setHeaders` of `HTTPResponse`
  in `libs/http/index.js`, and the header block that `end` writes after them.

  `end` adds the length under the name `Content-length`, and the object spread
  replaces a property of exactly this name.  A caller who has set the length
  under another spelling is left with two fields, which HTTP takes for one name.
-/

import Mathlib.Data.List.Induction
import NoJs.Http.Response
import NoJs.Lib.PlainObject

namespace NoJs.Http

open Utf16 NoJs.Buffer
open PlainObject (arrayIndex)

/-! ## setHeader -/

/-- Array indices come first among the own properties, and in ascending order. -/
def insertIndex (n : Nat) (entry : Str × Str) : Entries → Entries
  | [] => [entry]
  | first :: entries =>
      if (arrayIndex first.1).any (· < n) then first :: insertIndex n entry entries
      else entry :: first :: entries

/-- `object[k] = v`, for a string `v`. -/
def assign (entries : Entries) (k v : Str) : Entries :=
  if k = PlainObject.protoKey then entries
  else if entries.any (·.1 = k) then entries.map fun entry => if entry.1 = k then (k, v) else entry
  else
    match arrayIndex k with
    | some n => insertIndex n (k, v) entries
    | none => entries ++ [(k, v)]

/-- The names of the own properties. -/
def names (entries : Entries) : List Str := entries.map (·.1)

namespace HTTPResponse

def setHeader (res : HTTPResponse) (k v : Str) : HTTPResponse :=
  { res with headers := assign res.headers k v }

/-- `setHeaders(headers)`, by the entries of `headers`. -/
def setHeaders (res : HTTPResponse) (headers : Entries) : HTTPResponse :=
  headers.foldl (fun res field => res.setHeader field.1 field.2) res

end HTTPResponse

/-- A call that sets header fields. -/
inductive HeaderCall where
  | setHeader (k v : Str)
  | setHeaders (headers : Entries)
  deriving DecidableEq, Repr

/-- The fields a call sets. -/
def HeaderCall.fields : HeaderCall → Entries
  | setHeader k v => [(k, v)]
  | setHeaders headers => headers

def HeaderCall.apply (res : HTTPResponse) : HeaderCall → HTTPResponse
  | setHeader k v => res.setHeader k v
  | setHeaders headers => res.setHeaders headers

/-- A response after calls that set header fields. -/
def respond (calls : List HeaderCall) : HTTPResponse := calls.foldl HeaderCall.apply {}

/-- The header fields the calls ask for. -/
def requested (calls : List HeaderCall) : Entries := calls.flatMap HeaderCall.fields

/-! ## The length -/

/-- A name that HTTP takes for Content-length. -/
def isContentLength (name : Str) : Prop :=
  name.map HTTPResponse.lowerUnit = lit "content-length"

instance (name : Str) : Decidable (isContentLength name) := inferInstanceAs (Decidable (_ = _))

/-- The header fields a reader finds in the bytes of a response. -/
def readFields (bytes : Bytes) : Option (List (Bytes × Bytes)) := do
  let (_, rest) ← Http1.readLine bytes
  let (headers, _) ← Http1.readHeaders rest
  return headers

/-- The text `end(data)` writes before the data. -/
def HTTPResponse.before (res : HTTPResponse) (data : Str) : Str :=
  res.responseLine ++ CRLF ++ HTTPResponse.buildHeaders (res.endHeaders data) ++ CRLF ++ CRLF

/-- A response declares the number of bytes that `data` takes up, once. -/
structure DeclaresLength (res : HTTPResponse) (data : Str) : Prop where
  /-- The bytes of `data`, between those of the text before and behind it. -/
  occupied : res.written data = from' (res.before data) ++ from' data ++ from' (CRLF ++ CRLF)
  once : ∃ fields, readFields (res.written data) = some fields ∧
    (fields.filter fun field => field.1.map Http1.lower = Http1.contentLengthName).map (·.2)
      = [Http1.decimal (from' data).length]

/-- Names and values that keep to their line. -/
structure Legal (fields : Entries) : Prop where
  name : ∀ field ∈ fields, 58 ∉ field.1 ∧ 13 ∉ field.1 ∧ 10 ∉ field.1
  value : ∀ field ∈ fields, 13 ∉ field.2 ∧ 10 ∉ field.2

/-- The length is set under no other spelling. -/
def OneSpelling (fields : Entries) : Prop :=
  ∀ field ∈ fields, isContentLength field.1 → field.1 = lit "Content-length"

instance (fields : Entries) : Decidable (OneSpelling fields) :=
  inferInstanceAs (Decidable (∀ _ ∈ _, _))

/-! ## The own properties -/

section

variable {entries : Entries} {k v q : Str}

theorem insertIndex_perm (n : Nat) (entry : Str × Str) (entries : Entries) :
    (insertIndex n entry entries).Perm (entry :: entries) := by
  induction entries with
  | nil => exact List.Perm.refl _
  | cons first entries ih =>
      rw [insertIndex]
      split
      · exact (ih.cons first).trans (List.Perm.swap _ _ _)
      · exact List.Perm.refl _

/-- A new property. -/
theorem assign_new (hproto : k ≠ PlainObject.protoKey) (hnew : k ∉ names entries) (v : Str) :
    (assign entries k v).Perm ((k, v) :: entries) := by
  have hany : ¬ entries.any (·.1 = k) := by
    intro hany
    obtain ⟨entry, hentry, heq⟩ := List.any_eq_true.mp hany
    exact hnew (of_decide_eq_true heq ▸ List.mem_map_of_mem hentry)
  rw [assign, if_neg hproto, if_neg hany]
  split
  · exact insertIndex_perm _ _ _
  · exact List.perm_append_singleton _ _

/-- A property that is there. -/
theorem assign_old (hproto : k ≠ PlainObject.protoKey) (hold : k ∈ names entries) (v : Str) :
    assign entries k v = entries.map fun entry => if entry.1 = k then (k, v) else entry := by
  have hany : entries.any (·.1 = k) := by
    obtain ⟨entry, hentry, heq⟩ := List.mem_map.mp hold
    exact List.any_eq_true.mpr ⟨entry, hentry, decide_eq_true heq⟩
  rw [assign, if_neg hproto, if_pos hany]

theorem names_replace (entries : Entries) (k v : Str) :
    names (entries.map fun entry => if entry.1 = k then (k, v) else entry) = names entries := by
  rw [names, List.map_map]
  refine List.map_congr_left fun entry _ => ?_
  show (if entry.1 = k then (k, v) else entry).1 = entry.1
  split
  · next heq => exact heq.symm
  · rfl

/-- The names there are after an assignment. -/
theorem mem_names_assign :
    q ∈ names (assign entries k v) ↔ q ∈ names entries ∨ k = q ∧ q ≠ PlainObject.protoKey := by
  by_cases hproto : k = PlainObject.protoKey
  · rw [assign, if_pos hproto]
    exact ⟨Or.inl, fun h => h.resolve_right fun hk => hk.2 (hk.1 ▸ hproto)⟩
  by_cases hold : k ∈ names entries
  · rw [assign_old hproto hold, names_replace]
    exact ⟨Or.inl, fun h => h.elim id fun hk => hk.1 ▸ hold⟩
  · have hperm : (names (assign entries k v)).Perm (k :: names entries) :=
      (assign_new hproto hold v).map _
    rw [hperm.mem_iff, List.mem_cons]
    constructor
    · rintro (rfl | hq)
      · exact Or.inr ⟨rfl, hproto⟩
      · exact Or.inl hq
    · rintro (hq | ⟨rfl, -⟩)
      · exact Or.inr hq
      · exact Or.inl rfl

theorem nodup_names_assign (h : (names entries).Nodup) : (names (assign entries k v)).Nodup := by
  by_cases hproto : k = PlainObject.protoKey
  · rw [assign, if_pos hproto]
    exact h
  by_cases hold : k ∈ names entries
  · rw [assign_old hproto hold, names_replace]
    exact h
  · have hperm : (names (assign entries k v)).Perm (k :: names entries) :=
      (assign_new hproto hold v).map _
    exact hperm.nodup_iff.mpr (List.nodup_cons.mpr ⟨hold, h⟩)

theorem mem_assign {entry : Str × Str} (h : entry ∈ assign entries k v) :
    entry = (k, v) ∨ entry ∈ entries := by
  by_cases hproto : k = PlainObject.protoKey
  · rw [assign, if_pos hproto] at h
    exact Or.inr h
  by_cases hold : k ∈ names entries
  · rw [assign_old hproto hold] at h
    obtain ⟨entry', hentry, heq⟩ := List.mem_map.mp h
    split at heq
    · exact Or.inl heq.symm
    · exact Or.inr (heq ▸ hentry)
  · exact List.mem_cons.mp ((assign_new hproto hold v).mem_iff.mp h)

/-- Of the property assigned there is one. -/
theorem filter_assign (h : (names entries).Nodup) (hproto : k ≠ PlainObject.protoKey) :
    (assign entries k v).filter (·.1 = k) = [(k, v)] := by
  have hall : ∀ entry ∈ (assign entries k v).filter (·.1 = k), entry = (k, v) := by
    intro entry hentry
    obtain ⟨hmem, hname⟩ := List.mem_filter.mp hentry
    have hname : entry.1 = k := of_decide_eq_true hname
    by_cases hold : k ∈ names entries
    · rw [assign_old hproto hold] at hmem
      obtain ⟨entry', -, heq⟩ := List.mem_map.mp hmem
      split at heq
      · exact heq.symm
      · next hne => exact absurd (heq ▸ hname) hne
    · rcases List.mem_cons.mp ((assign_new hproto hold v).mem_iff.mp hmem) with heq | hmem
      · exact heq
      · exact absurd (hname ▸ List.mem_map_of_mem hmem) hold
  -- all of them are the entry assigned, and there is one
  have hcount : ((assign entries k v).filter (·.1 = k)).length
      = (names (assign entries k v)).count k := by
    rw [names, List.count_eq_countP, List.countP_map, List.countP_eq_length_filter]
    congr 1
    exact List.filter_congr fun entry _ => (beq_eq_decide ..).symm
  have hone : (names (assign entries k v)).count k = 1 :=
    List.count_eq_one_of_mem (nodup_names_assign h) (mem_names_assign.mpr (Or.inr ⟨rfl, hproto⟩))
  rw [hone] at hcount
  rw [List.eq_replicate_iff.mpr ⟨hcount, hall⟩]
  rfl

/-- The other properties are kept. -/
theorem mem_assign_of_ne {entry : Str × Str} (h : entry ∈ entries) (hne : entry.1 ≠ k) :
    entry ∈ assign entries k v := by
  by_cases hproto : k = PlainObject.protoKey
  · rw [assign, if_pos hproto]
    exact h
  by_cases hold : k ∈ names entries
  · rw [assign_old hproto hold]
    exact List.mem_map.mpr ⟨entry, h, if_neg hne⟩
  · exact (assign_new hproto hold v).mem_iff.mpr (List.mem_cons_of_mem _ h)

/-- The spread of `end` is an assignment to the copy. -/
theorem spread_eq_assign (hproto : k ≠ PlainObject.protoKey) (hindex : arrayIndex k = none) :
    spread entries k v = assign entries k v := by
  rw [spread, assign, if_neg hproto, hindex]

end

/-! ## After the calls -/

theorem respond_eq (calls : List HeaderCall) :
    respond calls = HTTPResponse.setHeaders {} (requested calls) := by
  have happly : ∀ (res : HTTPResponse) (call : HeaderCall),
      call.apply res = res.setHeaders call.fields := by
    rintro res (⟨k, v⟩ | headers) <;> rfl
  have hcalls : ∀ res : HTTPResponse,
      calls.foldl HeaderCall.apply res = res.setHeaders (requested calls) := by
    induction calls with
    | nil => exact fun _ => rfl
    | cons call calls ih =>
        intro res
        have hcons : requested (call :: calls) = call.fields ++ requested calls := rfl
        rw [List.foldl_cons, ih, happly, hcons, HTTPResponse.setHeaders, HTTPResponse.setHeaders,
          HTTPResponse.setHeaders, List.foldl_append]
  exact hcalls {}

/-- What holds of the headers after the fields were set. -/
structure HeadersAfter (fields : Entries) (res : HTTPResponse) : Prop where
  nodup : (names res.headers).Nodup
  names : ∀ q, q ∈ names res.headers ↔
    q = lit "Server" ∨ ∃ field ∈ fields, field.1 = q ∧ q ≠ PlainObject.protoKey
  entries : ∀ entry ∈ res.headers, entry = (lit "Server", lit "No.js") ∨ entry ∈ fields

theorem headersAfter (fields : Entries) :
    HeadersAfter fields (HTTPResponse.setHeaders {} fields) := by
  induction fields using List.reverseRecOn with
  | nil => exact ⟨List.nodup_singleton _, by simp [HTTPResponse.setHeaders, names], by
      simp [HTTPResponse.setHeaders]⟩
  | append_singleton fields field ih =>
      have hlast : HTTPResponse.setHeaders {} (fields ++ [field])
          = (HTTPResponse.setHeaders {} fields).setHeader field.1 field.2 := by
        rw [HTTPResponse.setHeaders, List.foldl_concat]
        rfl
      rw [hlast]
      refine ⟨nodup_names_assign ih.nodup, fun q => ?_, fun entry hentry => ?_⟩
      · rw [HTTPResponse.setHeader, mem_names_assign, ih.names q]
        simp only [List.mem_append, List.mem_singleton, or_and_right, exists_or, exists_eq_left,
          or_assoc]
      · rcases mem_assign hentry with rfl | hentry
        · exact Or.inr (List.mem_append_right _ (List.mem_singleton_self _))
        · exact (ih.entries entry hentry).imp_right (List.mem_append_left _)

/-! ## The header block -/

/-- The units of a name for Content-length are ASCII. -/
theorem isContentLength.ascii {name : Str} (h : isContentLength name) :
    ∀ u ∈ name, 0 < u.toNat ∧ u.toNat < 0x7F := by
  intro u hu
  have hlower : HTTPResponse.lowerUnit u ∈ lit "content-length" :=
    h ▸ List.mem_map_of_mem hu
  have hname : (lit "content-length").all fun x => 0x20 ≤ x.toNat ∧ x.toNat < 0x7F := by decide
  have hbounds := of_decide_eq_true (List.all_eq_true.mp hname _ hlower)
  rw [HTTPResponse.lowerUnit] at hbounds
  split at hbounds
  · omega
  · omega

/-- On the wire the names for Content-length are those of the entries. -/
theorem lower_encodeEntry (entry : Str × Str) :
    (HTTPResponse.encodeEntry entry).1.map Http1.lower = Http1.contentLengthName
      ↔ isContentLength entry.1 := by
  refine ⟨HTTPResponse.lower_from', fun h => ?_⟩
  have hascii := h.ascii
  show (from' entry.1).map Http1.lower = Http1.contentLengthName
  have hunits : ((from' entry.1).map Http1.lower).map UInt8.toUInt16 = lit "content-length" := by
    rw [← h, from'_ascii hascii, List.map_map, List.map_map]
    refine List.map_congr_left fun u hu => ?_
    obtain ⟨-, hlt⟩ := hascii u hu
    exact (HTTPResponse.lowerUnit_eq (by omega)).symm
  have hname : Http1.contentLengthName.map UInt8.toUInt16 = lit "content-length" := by decide
  exact List.map_injective_iff.mpr (fun _ _ => UInt8.toUInt16_inj.mp) (hunits.trans hname.symm)

/-- `Content-length`, the name `end` uses. -/
def ownName : Str := lit "Content-length"

section

variable {calls : List HeaderCall} {data : Str}

/-- The entries `end` prints. -/
theorem endHeaders_assign (res : HTTPResponse) (data : Str) :
    res.endHeaders data = assign res.headers ownName (number (strlen data)) :=
  spread_eq_assign (by decide) (by decide)

theorem endHeaders_legal (h : Legal (requested calls)) (data : Str) :
    ∀ entry ∈ (respond calls).endHeaders data,
      58 ∉ entry.1 ∧ 13 ∉ entry.1 ∧ 13 ∉ entry.2 := by
  intro entry hentry
  rw [endHeaders_assign, respond_eq] at hentry
  rcases mem_assign hentry with rfl | hentry
  · exact ⟨show 58 ∉ ownName by decide, show 13 ∉ ownName by decide,
      HTTPResponse.cr_not_mem_number _⟩
  rcases (headersAfter (requested calls)).entries entry hentry with rfl | hfield
  · exact ⟨by decide, by decide, by decide⟩
  · obtain ⟨hcolon, hcr, -⟩ := h.name entry hfield
    exact ⟨hcolon, hcr, (h.value entry hfield).1⟩

/-- The header block is read back. -/
theorem readFields_written (h : Legal (requested calls)) (data : Str) :
    readFields ((respond calls).written data)
      = some (((respond calls).endHeaders data).map HTTPResponse.encodeEntry) := by
  have hlegal := endHeaders_legal h data
  have hname : ∀ field ∈ ((respond calls).endHeaders data).map HTTPResponse.encodeEntry,
      13 ∉ field.1 ∧ 58 ∉ field.1 := by
    intro field hfield
    obtain ⟨entry, hentry, rfl⟩ := List.mem_map.mp hfield
    obtain ⟨hcolon, hcr, -⟩ := hlegal entry hentry
    exact ⟨HTTPResponse.cr_not_mem_from' hcr, HTTPResponse.colon_not_mem_from' hcolon⟩
  have hvalue : ∀ field ∈ ((respond calls).endHeaders data).map HTTPResponse.encodeEntry,
      13 ∉ field.2 := by
    intro field hfield
    obtain ⟨entry, hentry, rfl⟩ := List.mem_map.mp hfield
    exact HTTPResponse.cr_not_mem_from' (hlegal entry hentry).2.2
  -- the head, cut behind the response line and behind the empty line
  have hcut : (respond calls).written data
      = from' (respond calls).responseLine ++ Http1.crlf
        ++ (Http1.headerLines (((respond calls).endHeaders data).map HTTPResponse.encodeEntry)
          ++ Http1.crlf ++ (Http1.crlf ++ from' data ++ Http1.crlf ++ Http1.crlf)) := by
    rw [HTTPResponse.written_eq]
    simp [Http1.Message.head, HTTPResponse.message]
  have hline := HTTPResponse.cr_not_mem_from' (respond calls).cr_not_mem_responseLine
  rw [readFields, hcut, Http1.readLine_line hline]
  simp only [Option.bind_eq_bind, Option.bind_some]
  rw [Http1.readHeaders_lines hname hvalue]
  rfl

/-- No pair is at a seam of the template, whatever the data is. -/
theorem not_joins_data (res : HTTPResponse) (data : Str) :
    ¬ joins (res.before data) (data ++ (CRLF ++ CRLF)) ∧ ¬ joins data (CRLF ++ CRLF) := by
  have hbefore : (res.before data).getLast? = some 10 := by
    rw [HTTPResponse.before, List.getLast?_append]
    rfl
  have hbehind : (CRLF ++ CRLF).head? = some 13 := rfl
  rw [joins, joins, hbefore, hbehind]
  exact ⟨by simp [isHigh], by simp [isLow]⟩

/-- The data has its bytes to itself. -/
theorem written_occupied (res : HTTPResponse) (data : Str) :
    res.written data = from' (res.before data) ++ from' data ++ from' (CRLF ++ CRLF) := by
  obtain ⟨hbefore, hbehind⟩ := not_joins_data res data
  have hcut : res.end' data = res.before data ++ (data ++ (CRLF ++ CRLF)) := by
    simp [HTTPResponse.end', HTTPResponse.before]
  rw [HTTPResponse.written, hcut, from'_append_of_not_joins hbefore,
    from'_append_of_not_joins hbehind, List.append_assoc]

/-- What the encoder owes on a concatenation, and on the template of `end`. -/
structure EncodesParts : Prop where
  homomorphism : ∀ s t : Str, toUTF8 (s ++ t) = toUTF8 s ++ toUTF8 t ↔ ¬ joins s t
  additive : ∀ s t : Str, ¬ joins s t → strlen (s ++ t) = strlen s + strlen t
  /-- Of the bytes of the template the data takes up `Buffer.strlen(data)`. -/
  template : ∀ (res : HTTPResponse) (data : Str),
    res.written data = from' (res.before data) ++ from' data ++ from' (CRLF ++ CRLF) ∧
      (from' data).length = strlen data

/-- **The encoder is a homomorphism** exactly where the seam joins no surrogate pair,
and the template of `end` has no such seam. -/
theorem encodes_parts : EncodesParts where
  homomorphism := toUTF8_append_iff
  additive := fun _ _ h => strlen_append h
  template := fun res data => ⟨written_occupied res data, length_from' data⟩

/-- The fields that declare a length. -/
theorem filter_encoded (entries : Entries) :
    ((entries.map HTTPResponse.encodeEntry).filter fun field =>
        field.1.map Http1.lower = Http1.contentLengthName)
      = (entries.filter fun entry => isContentLength entry.1).map HTTPResponse.encodeEntry := by
  rw [List.filter_map]
  congr 1
  refine List.filter_congr fun entry _ => ?_
  exact decide_eq_decide.mpr (lower_encodeEntry entry)

/-- With one spelling there is the field of `end`. -/
theorem filter_endHeaders (h : OneSpelling (requested calls)) (data : Str) :
    ((respond calls).endHeaders data).filter (fun entry => isContentLength entry.1)
      = [(ownName, number (strlen data))] := by
  have hafter := headersAfter (requested calls)
  have hown := filter_assign (k := ownName) (v := number (strlen data)) hafter.nodup (by decide)
  rw [endHeaders_assign, respond_eq, ← hown]
  refine List.filter_congr fun entry hentry => decide_eq_decide.mpr ⟨fun hlength => ?_, ?_⟩
  · rcases mem_assign hentry with rfl | hentry
    · rfl
    rcases hafter.entries entry hentry with rfl | hfield
    · exact absurd hlength (by decide)
    · exact h entry hfield hlength
  · intro hname
    rw [hname]
    decide

/-- Under another spelling a second field stays. -/
theorem two_fields {field : Str × Str} (hfield : field ∈ requested calls)
    (hlength : isContentLength field.1) (hname : field.1 ≠ ownName) (data : Str) :
    2 ≤ (((respond calls).endHeaders data).filter fun entry => isContentLength entry.1).length := by
  have hafter := headersAfter (requested calls)
  have hproto : field.1 ≠ PlainObject.protoKey := by
    intro hproto
    rw [hproto] at hlength
    exact absurd hlength (by decide)
  -- the field of the caller, and that of `end`
  have hset : field.1 ∈ names (HTTPResponse.setHeaders {} (requested calls)).headers :=
    (hafter.names field.1).mpr (Or.inr ⟨field, hfield, rfl, hproto⟩)
  obtain ⟨entry, hentry, hsame⟩ := List.mem_map.mp hset
  have hne : entry.1 ≠ ownName := fun heq => hname (hsame.symm.trans heq)
  have hother : entry ∈ ((respond calls).endHeaders data).filter
      fun entry => isContentLength entry.1 := by
    rw [endHeaders_assign, respond_eq, List.mem_filter]
    exact ⟨mem_assign_of_ne hentry hne, decide_eq_true (hsame ▸ hlength)⟩
  have hown : ownName ∈ names ((respond calls).endHeaders data) := by
    rw [endHeaders_assign, mem_names_assign]
    exact Or.inr ⟨rfl, by decide⟩
  obtain ⟨added, hadded, heq⟩ := List.mem_map.mp hown
  have hadded : added ∈ ((respond calls).endHeaders data).filter
      fun entry => isContentLength entry.1 := by
    rw [List.mem_filter, heq]
    exact ⟨hadded, by decide⟩
  -- a list with at most one element has no two
  revert hother hadded
  generalize ((respond calls).endHeaders data).filter (fun entry => isContentLength entry.1) = found
  intro hother hadded
  rcases found with _ | ⟨first, _ | ⟨second, found⟩⟩
  · exact absurd hother List.not_mem_nil
  · rw [List.mem_singleton] at hother hadded
    exact absurd (hother ▸ hadded ▸ heq) hne
  · simp

/-- **The length is declared exactly once** when no call spells it in another way than
`end` does. -/
theorem declares_length_iff (h : Legal (requested calls)) (data : Str) :
    DeclaresLength (respond calls) data ↔ OneSpelling (requested calls) := by
  constructor
  · rintro ⟨-, fields, hread, hone⟩ field hfield hlength
    by_contra hname
    rw [readFields_written h] at hread
    obtain rfl := Option.some.inj hread
    have htwo := two_fields hfield hlength hname data
    have hcount := congrArg List.length hone
    rw [filter_encoded, List.length_map, List.length_map, List.length_singleton] at hcount
    omega
  · intro hspelling
    refine ⟨written_occupied _ data, _, readFields_written h data, ?_⟩
    rw [filter_encoded, filter_endHeaders hspelling, length_from', ← HTTPResponse.from'_number]
    rfl

end

/-- A length of the caller's own, under the name that `end` gives it, and another header. -/
def ownLength : List HeaderCall :=
  [.setHeader (lit "Content-length") (lit "0"),
    .setHeaders [(lit "X", lit "1"), (lit "Content-length", lit "9")]]

theorem declares_length_own :
    Legal (requested ownLength) ∧ DeclaresLength (respond ownLength) (lit "a") := by
  have hlegal : Legal (requested ownLength) := ⟨by decide, by decide⟩
  exact ⟨hlegal, (declares_length_iff hlegal (lit "a")).mpr (by decide)⟩

/-- The length set in lower case is not replaced. -/
theorem length_declared_twice : ¬ ∀ (calls : List HeaderCall) (data : Str),
    Legal (requested calls) → DeclaresLength (respond calls) data := by
  intro h
  have hlegal : Legal (requested [.setHeader (lit "content-length") (lit "0")]) :=
    ⟨by decide, by decide⟩
  obtain ⟨-, fields, hread, hone⟩ := h _ (lit "a") hlegal
  rw [readFields_written hlegal] at hread
  obtain rfl := Option.some.inj hread
  have hcount := congrArg List.length hone
  rw [filter_encoded, List.length_map, List.length_map] at hcount
  exact absurd hcount (by decide)

end NoJs.Http
