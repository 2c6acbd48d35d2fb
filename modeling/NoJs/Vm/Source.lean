/-
  NoJs.Vm.Source

  The text the functions of NoJs.Vm.Load make of a file: the kernel returns its
  content in reads of any sizes, and the text is to be that of the whole content.

  `Run` passes the length of what it has read.  The other two pass a C string,
  which ends at the first zero byte.
-/

import NoJs.Vm.Load

namespace NoJs.Vm

open Utf16 (Str)
open NoJs.Util

/-- A way the kernel returns `content`: positive counts, and then 0. -/
structure Schedule (content : Bytes) where
  chunks : List Chunk
  whole : chunks.flatMap (·.bytes) = content

/-- A file with that content, which opens. -/
structure Served (s : Process) (content : Bytes) where
  fd : {fd : Nat // fd ∉ s.fds}
  schedule : Schedule content
  compiles : Bool

def Schedule.reads {content : Bytes} (schedule : Schedule content) : List ReadOutcome :=
  schedule.chunks.map .data ++ [.eof]

def Served.answers {s : Process} {content : Bytes} (served : Served s content) :
    Answers s.fds where
  opening := fun _ => some served.fd
  reads := served.schedule.reads
  compiles := served.compiles

/-- The text a function hands to V8, once it has read the file. -/
def Loading.text {s : Process} {content : Bytes} (e : Loading) (path : Str)
    (served : Served s content) : Option Str :=
  (e.load path s served.answers).bind fun x => x.2.handed.getLast?

/-- Calls of the three functions for one file: each with its own path to it, its
    own state of the process, and its own reads. -/
structure Calls (content : Bytes) where
  path : Loading → Str
  process : Loading → Process
  served : ∀ e, Served (process e) content

/-- The whole file is compiled, and the same text by all three. -/
structure Calls.WholeFile {content : Bytes} (c : Calls content) : Prop where
  text : ∀ e : Loading, e.text (c.path e) (c.served e) = some (newFromUtf8 content)
  agree : ∀ e e' : Loading, e.text (c.path e) (c.served e) = e'.text (c.path e') (c.served e')

variable {content : Bytes}

theorem Schedule.firstEnd_reads (schedule : Schedule content) :
    firstEnd schedule.reads = some .eof := by
  have hdata : (schedule.chunks.map ReadOutcome.data).find? (!·.isData) = none := by
    simp [ReadOutcome.isData]
  rw [firstEnd, reads, List.find?_append, hdata]
  rfl

/-- The reads of any sizes bring the content. -/
theorem Schedule.received_reads (schedule : Schedule content) :
    received schedule.reads = content := by
  have hdata : ∀ r ∈ schedule.chunks.map ReadOutcome.data, r.isData = true := by
    intro r hr
    obtain ⟨chunk, -, rfl⟩ := List.mem_map.mp hr
    rfl
  rw [received, reads, List.takeWhile_append_of_pos hdata, List.flatMap_append, List.flatMap_map]
  show schedule.chunks.flatMap (·.bytes) ++ [] = content
  rw [List.append_nil, schedule.whole]

/-- The text depends on the content only. -/
theorem Loading.text_eq (e : Loading) (path : Str) {s : Process} (served : Served s content) :
    e.text path served = some (e.source content) := by
  have hopen : served.answers.opening (cStr (utf8Value path)) = some served.fd := rfl
  have hend : firstEnd served.answers.reads = some .eof := served.schedule.firstEnd_reads
  have hreceived : received served.answers.reads = content := served.schedule.received_reads
  simp only [Loading.text, e.load_eq, hopen, hend, hreceived, Option.map_some, Option.bind_some,
    List.getLast?_concat]

/-- **The whole file is compiled**, by all three functions and for every schedule
    of reads, exactly when it has no zero byte. -/
theorem whole_file_iff (content : Bytes) (c : Calls content) : c.WholeFile ↔ 0 ∉ content := by
  constructor
  · -- one function that passes a C string is enough
    intro h
    have htext := h.text .compile
    rw [Loading.text_eq] at htext
    exact (newStringToLcal_eq_iff content).mp (Option.some.inj htext)
  · intro h
    have hsource : ∀ e : Loading, e.source content = newFromUtf8 content := by
      intro e
      cases e with
      | run => rfl
      | compile | compileFunction => exact (newStringToLcal_eq_iff content).mpr h
    refine ⟨fun e => ?_, fun e e' => ?_⟩
    · rw [Loading.text_eq, hsource]
    · rw [Loading.text_eq, Loading.text_eq, hsource, hsource]

/-- The file `a\0b`, in one read. -/
def zeroInside : Calls [97, 0, 98] where
  path := fun _ => [120]
  process := fun _ => standard
  served := fun _ =>
    { fd := ⟨3, three_notMem_standard⟩
      schedule := ⟨[⟨[97, 0, 98], by decide, by decide⟩], rfl⟩
      compiles := true }

/-- `Loader::Compile` compiles `a`. -/
theorem text_cut_at_zero : ¬ ∀ (content : Bytes) (c : Calls content), c.WholeFile := by
  intro h
  have hcut : Loading.text .compile (zeroInside.path .compile) (zeroInside.served .compile)
      = some [97] := rfl
  have hwhole := (h _ zeroInside).text .compile
  rw [hcut] at hwhole
  exact absurd (congrArg (Option.map List.length) hwhole) (by decide)

end NoJs.Vm
