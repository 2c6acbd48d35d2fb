/-
  NoJs.Http.BodyText

  The body of a request as text: what the callbacks of `core/http.h` pass to the
  JavaScript functions `onBody` and `onBodyComplete`.

  Every `std::string` is converted on its own, and as a C string.  A character
  whose bytes are in two fragments is in neither, so `onBody` gets replacement
  characters for it, and behind a zero byte both functions get nothing.
-/

import NoJs.Http.Connection
import NoJs.Util.Strings

namespace NoJs.Http

open Utf16 NoJs.Util

/-! ## The calls -/

/-- The argument `onBody` is called with, if it is called. -/
def Emitted.onBody? : Emitted → Option Str
  | .onBody body => some (newStringToLcal body)
  | _ => none

/-- The argument `onBodyComplete` is called with, if it is called. -/
def Emitted.onBodyComplete? : Emitted → Option Str
  | .onBodyComplete body => some (newStringToLcal body)
  | _ => none

/-- What JavaScript is to be told of the body of a message. -/
structure BodyDelivered (p : HTTPParser) (m : Message) : Prop where
  fragments : ((p.parse m.calls).2.filterMap Emitted.onBody?).flatten
    = newFromUtf8 m.body.flatten
  whole : (p.parse m.calls).2.filterMap Emitted.onBodyComplete? = [newFromUtf8 m.body.flatten]

/-- A body whose fragments can be converted one by one, as C strings. -/
structure TextFragments (body : List CString) : Prop where
  nul : 0 ∉ body.flatten
  uncut : ∀ fragment ∈ body, Utf8.WellFormed fragment

/-! ## What is converted -/

theorem onBody_emits (m : Message) :
    m.emits.filterMap Emitted.onBody? = m.body.map newStringToLcal := by
  have hbody : (m.body.map .onBody).filterMap Emitted.onBody? = m.body.map newStringToLcal := by
    rw [List.filterMap_map, ← List.filterMap_eq_map]
    rfl
  rw [Message.emits, List.cons_append, List.filterMap_cons_none rfl, List.filterMap_append, hbody]
  exact List.append_nil _

theorem onBodyComplete_emits (m : Message) :
    m.emits.filterMap Emitted.onBodyComplete? = [newStringToLcal m.body.flatten] := by
  have hbody : (m.body.map .onBody).filterMap Emitted.onBodyComplete? = [] := by
    rw [List.filterMap_map, List.filterMap_eq_nil_iff]
    exact fun _ _ => rfl
  rw [Message.emits, List.cons_append, List.filterMap_cons_none rfl, List.filterMap_append, hbody]
  rfl

/-- Without zero bytes the fragments are decoded in full. -/
theorem newStringToLcal_fragments {body : List CString} (h : 0 ∉ body.flatten) :
    (body.map newStringToLcal).flatten = ofChars (body.flatMap Utf8.decode) := by
  rw [← List.flatMap_def, ofChars_flatMap]
  refine List.flatMap_congr fun fragment hfragment => ?_
  apply (newStringToLcal_eq_iff fragment).mpr
  exact fun hmem => h (List.mem_flatten.mpr ⟨fragment, hfragment, hmem⟩)

/-- **The text of a body arrives** exactly when it has no zero byte and no
character of it is cut. -/
theorem body_delivered_iff (p : HTTPParser) {m : Message} (h : Utf8.WellFormed m.body.flatten) :
    BodyDelivered p m ↔ TextFragments m.body := by
  have hemits := p.parse_message m
  obtain ⟨cs, hcs⟩ := h
  have hdecode : newFromUtf8 m.body.flatten = ofChars cs := by
    rw [hcs, newFromUtf8_encode]
  -- without zero bytes only a cut can change the text
  have hfragments : 0 ∉ m.body.flatten →
      (((p.parse m.calls).2.filterMap Emitted.onBody?).flatten = newFromUtf8 m.body.flatten ↔
        ∀ fragment ∈ m.body, Utf8.WellFormed fragment) := by
    intro hnul
    rw [hemits, onBody_emits, newStringToLcal_fragments hnul, hdecode, ofChars_inj]
    exact Utf8.decode_fragments_iff hcs
  have hwhole : (p.parse m.calls).2.filterMap Emitted.onBodyComplete?
      = [newFromUtf8 m.body.flatten] ↔ 0 ∉ m.body.flatten := by
    rw [hemits, onBodyComplete_emits, List.singleton_inj, newStringToLcal_eq_iff]
  constructor
  · intro hdelivered
    have hnul := hwhole.mp hdelivered.whole
    exact ⟨hnul, (hfragments hnul).mp hdelivered.fragments⟩
  · intro htext
    exact ⟨(hfragments htext.nul).mpr htext.uncut, hwhole.mpr htext.nul⟩

/-- A `POST` with this body. -/
def post (body : List CString) : Message where
  head := { start := 0, url := [str "/"], fields := [], parser := ⟨1, 1, 0, 1⟩, finish := 0 }
  body := body
  trailers := []
  finish := 0

/-- A word with two letters U+00E9, cut behind the first. -/
def twoFragments : Message := post [[0xC3, 0xA9], [0x74, 0xC3, 0xA9]]

theorem body_delivered_fragments :
    Utf8.WellFormed twoFragments.body.flatten ∧ BodyDelivered fresh twoFragments := by
  have hbody : Utf8.WellFormed twoFragments.body.flatten :=
    ⟨[Char.ofNat 0xE9, 't', Char.ofNat 0xE9], by decide⟩
  refine ⟨hbody, (body_delivered_iff fresh hbody).mpr ⟨by decide, ?_⟩⟩
  intro fragment hfragment
  rcases List.mem_pair.mp hfragment with rfl | rfl
  · exact ⟨[Char.ofNat 0xE9], by decide⟩
  · exact ⟨['t', Char.ofNat 0xE9], by decide⟩

/-- The same letter with its bytes in two fragments is two replacement characters. -/
theorem body_not_delivered : ¬ ∀ (p : HTTPParser) (m : Message),
    Utf8.WellFormed m.body.flatten → BodyDelivered p m := by
  intro h
  have hletter : Utf8.WellFormed (post [[0xC3], [0xA9]]).body.flatten :=
    ⟨[Char.ofNat 0xE9], by decide⟩
  have hfragments := (h fresh (post [[0xC3], [0xA9]]) hletter).fragments
  exact absurd hfragments (by decide)

end NoJs.Http
