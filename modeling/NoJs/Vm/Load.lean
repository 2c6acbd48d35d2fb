/-
  NoJs.Vm.Load

  The native functions that read code from a file and hand it to V8:
  `Loader::Compile` of `core/loader.cc`, `VM::Run` and `VM::CompileFunction` of
  `core/vm.cc`.

  Each opens the file, appends what `read` returns to a `std::string`, closes the
  descriptor and makes a V8 string of the result.  The read loop has two exits,
  and only the one at the end of the file is followed by `close`.

  What the code itself does when V8 runs it is not part of the model.
-/

import Mathlib.Data.Finset.Basic
import NoJs.Util.Strings

namespace NoJs.Vm

open Utf16 (Str)
open NoJs.Util

abbrev Bytes := List UInt8

/-! ## What the system answers -/

/-- The bytes of one `read(fd, buffer, 4096)` that returns a positive count. -/
structure Chunk where
  bytes : Bytes
  pos : bytes ≠ []
  fits : bytes.length ≤ 4096

/-- One `read(fd, buffer, 4096)`. -/
inductive ReadOutcome where
  /-- -1. -/
  | error
  /-- 0. -/
  | eof
  | data (chunk : Chunk)

namespace ReadOutcome

def isData : ReadOutcome → Bool
  | data _ => true
  | _ => false

def bytes : ReadOutcome → Bytes
  | data chunk => chunk.bytes
  | _ => []

end ReadOutcome

/-- What the system and V8 answer to one call, made with the descriptors `fds`
    open. -/
structure Answers (fds : Finset Nat) where
  /-- `open`: a descriptor that was not open, or -1. -/
  opening : Bytes → Option {fd : Nat // fd ∉ fds}
  /-- The reads of the descriptor, one after the other. -/
  reads : List ReadOutcome
  /-- Whether V8 compiles the text. -/
  compiles : Bool

/-- The open descriptors, and the texts V8 has been handed. -/
structure Process where
  fds : Finset Nat
  handed : List Str

inductive Returned where
  | text (s : String)
  | undefined
  /-- The compiled function, or what the code evaluates to. -/
  | value
  deriving DecidableEq, Repr

/-! ## The read loop -/

/-- How `while (1)` is left. -/
inductive Exit where
  /-- `if (ret == -1) return`. -/
  | failed
  /-- `if (ret == 0) break`, with what has been appended. -/
  | finished (content : Bytes)
  deriving DecidableEq, Repr

/-- The read loop on an open descriptor; `none` while it goes on. -/
def readLoop : List ReadOutcome → Bytes → Option Exit
  | [], _ => none
  | .error :: _, _ => some .failed
  | .eof :: _, content => some (.finished content)
  | .data chunk :: rest, content => readLoop rest (content ++ chunk.bytes)

/-! ## The functions -/

/-- `No::Loader::Compile`.  The result of `open` is not looked at, and a read of
    descriptor -1 fails. -/
def Compile (filename : Str) (s : Process) (answers : Answers s.fds) :
    Option (Returned × Process) :=
  match answers.opening (cStr (utf8Value filename)) with
  | none => some (.text "read file error", s)
  | some fd =>
      match readLoop answers.reads [] with
      | none => none
      | some .failed => some (.text "read file error", { s with fds := insert fd.1 s.fds })
      | some (.finished content) => some
          (if answers.compiles then .value else .undefined,
            { fds := (insert fd.1 s.fds).erase fd.1
              handed := s.handed ++ [newStringToLcal content] })

def FILE_MODE : Int := 2

/-- What `Run` and `CompileFunction` get their code by: an error to return, or
    the bytes in `code`. -/
def getCode (str : Str) (mode : Int) (s : Process) (answers : Answers s.fds) :
    Option (Except Returned Bytes × Finset Nat) :=
  if mode = FILE_MODE then
    match answers.opening (cStr (utf8Value str)) with
    | none => some (.error (.text "open file error"), s.fds)
    | some fd =>
        match readLoop answers.reads [] with
        | none => none
        | some .failed => some (.error (.text "read file error"), insert fd.1 s.fds)
        | some (.finished content) => some (.ok content, (insert fd.1 s.fds).erase fd.1)
  else some (.ok (utf8Value str), s.fds)

/-- `No::VM::Run`: the text is made with the length of `code`. -/
def Run (str : Str) (mode : Int) (s : Process) (answers : Answers s.fds) :
    Option (Returned × Process) :=
  (getCode str mode s answers).map fun
    | (.error e, fds) => (e, { s with fds })
    | (.ok code, fds) =>
        (if answers.compiles then .value else .text "invalid code",
          { fds, handed := s.handed ++ [newFromUtf8 code] })

/-- `No::VM::CompileFunction`: the text is made of `code.c_str()`. -/
def CompileFunction (str : Str) (mode : Int) (s : Process) (answers : Answers s.fds) :
    Option (Returned × Process) :=
  (getCode str mode s answers).map fun
    | (.error e, fds) => (e, { s with fds })
    | (.ok code, fds) =>
        (if answers.compiles then .value else .undefined,
          { fds, handed := s.handed ++ [newStringToLcal code] })

/-- The three functions, reading from a file. -/
inductive Loading where
  | compile
  | run
  | compileFunction
  deriving DecidableEq, Repr

def Loading.load (e : Loading) (path : Str) (s : Process) (answers : Answers s.fds) :
    Option (Returned × Process) :=
  match e with
  | compile => Compile path s answers
  | run => Run path FILE_MODE s answers
  | compileFunction => CompileFunction path FILE_MODE s answers

/-! ## What they do -/

/-- The first read that brings no data. -/
def firstEnd (reads : List ReadOutcome) : Option ReadOutcome := reads.find? (!·.isData)

/-- What the reads before it bring. -/
def received (reads : List ReadOutcome) : Bytes := (reads.takeWhile (·.isData)).flatMap (·.bytes)

/-- The loop runs to the first read that brings no data. -/
theorem readLoop_eq (reads : List ReadOutcome) (content : Bytes) :
    readLoop reads content = (firstEnd reads).map fun
      | .eof => .finished (content ++ received reads)
      | _ => .failed := by
  induction reads generalizing content with
  | nil => rfl
  | cons r rest ih =>
      cases r with
      | error => rfl
      | eof =>
          show some (Exit.finished content) = some (.finished (content ++ []))
          rw [List.append_nil]
      | data chunk =>
          have hreceived : received (.data chunk :: rest) = chunk.bytes ++ received rest := rfl
          rw [readLoop, ih, hreceived, List.append_assoc]
          rfl

namespace Loading

/-- The text a function makes of what it has read. -/
def source : Loading → Bytes → Str
  | run => newFromUtf8
  | _ => newStringToLcal

/-- What a function returns when `open` fails. -/
def openError : Loading → Returned
  | compile => .text "read file error"
  | _ => .text "open file error"

/-- What a function returns when V8 does not compile the text. -/
def rejected : Loading → Returned
  | run => .text "invalid code"
  | _ => .undefined

variable {s : Process} {answers : Answers s.fds} {path : Str}

/-- The three functions differ in the error for a file that is not there, in the
    text they make, and in what they return when it does not compile. -/
theorem load_eq (e : Loading) (path : Str) (s : Process) (answers : Answers s.fds) :
    e.load path s answers = match answers.opening (cStr (utf8Value path)) with
      | none => some (e.openError, s)
      | some fd => (firstEnd answers.reads).map fun
          | .eof => (if answers.compiles then .value else e.rejected,
              { fds := s.fds, handed := s.handed ++ [e.source (received answers.reads)] })
          | _ => (.text "read file error", { s with fds := insert fd.1 s.fds }) := by
  cases hopen : answers.opening (cStr (utf8Value path)) with
  | none => cases e <;> simp [load, Compile, Run, CompileFunction, getCode, hopen, openError]
  | some fd =>
      -- `close` takes out what `open` put in
      have hclosed : (insert fd.1 s.fds).erase fd.1 = s.fds := Finset.erase_insert fd.2
      have hloop := readLoop_eq answers.reads []
      rw [List.nil_append] at hloop
      cases hend : firstEnd answers.reads with
      | none =>
          rw [hend] at hloop
          cases e <;> simp [load, Compile, Run, CompileFunction, getCode, hopen, hloop]
      | some r =>
          rw [hend] at hloop
          cases r <;> cases e <;>
            simp [load, Compile, Run, CompileFunction, getCode, hopen, hloop, hclosed, source,
              rejected]

/-- A call returns once `open` has failed or a read has brought no data. -/
theorem load_isSome_iff (e : Loading) : (e.load path s answers).isSome ↔
    answers.opening (cStr (utf8Value path)) = none ∨ (firstEnd answers.reads).isSome := by
  rw [load_eq]
  cases answers.opening (cStr (utf8Value path)) with
  | none => simp
  | some fd => simp

end Loading

/-! ## Descriptors -/

/-- **Loading leaks no descriptor** exactly when `open` fails or the read loop
    comes to the end of the file: a failed read leaves the descriptor open. -/
theorem descriptors_kept_iff (e : Loading) (path : Str) (s : Process) (answers : Answers s.fds)
    (r : Returned) (t : Process) (h : e.load path s answers = some (r, t)) :
    t.fds = s.fds ↔
      answers.opening (cStr (utf8Value path)) = none ∨
        firstEnd answers.reads = some .eof := by
  rw [e.load_eq] at h
  cases hopen : answers.opening (cStr (utf8Value path)) with
  | none =>
      rw [hopen] at h
      obtain ⟨-, rfl⟩ := Prod.mk.inj (Option.some.inj h)
      exact ⟨fun _ => Or.inl rfl, fun _ => rfl⟩
  | some fd =>
      rw [hopen] at h
      obtain ⟨first, hfirst, hexit⟩ := Option.map_eq_some_iff.mp h
      -- the descriptor was not open before
      have hleaks : insert fd.1 s.fds ≠ s.fds := fun heq => fd.2 (Finset.insert_eq_self.mp heq)
      cases first with
      | eof =>
          obtain ⟨-, rfl⟩ := Prod.mk.inj hexit
          exact ⟨fun _ => Or.inr hfirst, fun _ => rfl⟩
      | error | data _ =>
          obtain ⟨-, rfl⟩ := Prod.mk.inj hexit
          simp [hleaks, hfirst]

/-- Standard input, output and error, and a file that opens as 3. -/
def standard : Process where
  fds := {0, 1, 2}
  handed := []

theorem three_notMem_standard : 3 ∉ standard.fds := by decide

/-- A file whose reads are `reads`. -/
def opened (reads : List ReadOutcome) : Answers standard.fds where
  opening := fun _ => some ⟨3, three_notMem_standard⟩
  reads
  compiles := true

/-- The script `f();` in two reads, and the end of the file. -/
def twoReads : List ReadOutcome :=
  [.data ⟨[102, 40], by decide, by decide⟩, .data ⟨[41, 59], by decide, by decide⟩, .eof]

theorem descriptors_kept_read :
    ∃ t, Loading.load .run [97] standard (opened twoReads) = some (.value, t) ∧
      t.handed = [[102, 40, 41, 59]] ∧ t.fds = standard.fds :=
  ⟨_, rfl, rfl,
    (descriptors_kept_iff .run [97] standard (opened twoReads) .value _ rfl).mpr (.inr rfl)⟩

/-- Reading a directory fails, and its descriptor stays open. -/
theorem descriptor_leaked : ¬ ∀ (e : Loading) (path : Str) (s : Process)
    (answers : Answers s.fds) (r : Returned) (t : Process),
    e.load path s answers = some (r, t) → t.fds = s.fds := by
  intro h
  have hload : Loading.load .run [46] standard (opened [.error])
      = some (.text "read file error", { fds := {3, 0, 1, 2}, handed := [] }) := rfl
  exact absurd (h .run [46] standard (opened [.error]) _ _ hload) (by decide)

end NoJs.Vm
