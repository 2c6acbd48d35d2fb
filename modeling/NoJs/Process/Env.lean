/-
  NoJs.Process.Env

  `process.env` and `process.getEnv` of `core/process.cc`: an object whose named
  properties are intercepted by `EnvGetter`, `EnvSetter` and `EnvDeleter`, over
  the environment of the process.

  A callback that sets no return value has not intercepted, and V8 goes on with
  the own properties of the object.  The setter never sets one, so every
  assignment is made twice, and the deleter always does, so only the variable is
  deleted.

  A variable is named by the bytes of the key, and no two keys have the same,
  so the variable of a key is its own.
-/

import Mathlib.Logic.Function.Basic
import NoJs.Lib.PlainObject
import NoJs.Util.Strings

namespace NoJs.Process

open Utf16 NoJs.Util

/-! ## The environment -/

/-- A C string, without the zero byte at its end. -/
abbrev CStr := {bytes : List UInt8 // 0 ∉ bytes}

/-- What a `char *` to the bytes points to. -/
def toCStr (bytes : List UInt8) : CStr := ⟨cStr bytes, zero_notMem_cStr bytes⟩

/-- `environ`. -/
abbrev Environ := CStr → Option CStr

/-- `setenv` and `unsetenv` refuse a name that is empty or contains `=`. -/
def refused (name : CStr) : Prop := name.1 = [] ∨ 61 ∈ name.1

instance (name : CStr) : Decidable (refused name) := inferInstanceAs (Decidable (_ ∨ _))

def getenv (environ : Environ) (name : CStr) : Option CStr := environ name

/-- `setenv(name, value, 1)`. -/
def setenv (environ : Environ) (name value : CStr) : Environ :=
  if refused name then environ else Function.update environ name (some value)

def unsetenv (environ : Environ) (name : CStr) : Environ :=
  if refused name then environ else Function.update environ name none

/-- `newStringToLcal(isolate, value)`. -/
def text (value : CStr) : Str := newStringToLcal value.1

/-! ## process.env -/

/-- The object: the environment, and its own properties. -/
structure EnvObject where
  environ : Environ
  own : PlainObject Str

namespace EnvObject

/-- `*String::Utf8Value(isolate, name)`. -/
def variableName (name : Str) : CStr := toCStr (utf8Value name)

/-- `process.env[name]`: `EnvGetter`, and the own properties if there is no such
    variable. -/
def get (o : EnvObject) (name : Str) : PlainObject.Lookup Str :=
  match getenv o.environ (variableName name) with
  | some value => .own (text value)
  | none => o.own.get name

/-- `process.env[key] = value`: `EnvSetter`, which does not intercept. -/
def set (o : EnvObject) (key value : Str) : EnvObject where
  environ := setenv o.environ (variableName key) (toCStr (utf8Value value))
  own := o.own.set key value

/-- `delete process.env[key]`: `EnvDeleter`, which intercepts. -/
def delete (o : EnvObject) (key : Str) : EnvObject :=
  { o with environ := unsetenv o.environ (variableName key) }

/-- `process.getEnv(key)`; `none` for `undefined`. -/
def GetEnv (o : EnvObject) (key : Str) : Option Str :=
  (getenv o.environ (variableName key)).map text

end EnvObject

/-! ## What it is to be -/

/-- A name a variable can have and no other property has. -/
@[ext] structure Key where
  str : Str
  nonempty : str ≠ []
  noEquals : 61 ∉ str
  noNul : 0 ∉ str
  notIndex : PlainObject.arrayIndex str = none
  notInherited : ¬ PlainObject.Inherited str

structure Value where
  str : Str
  wellFormed : WellFormed str
  noNul : 0 ∉ str

inductive Op where
  | assign (k : Key) (v : Value)
  | delete (k : Key)
  | read (k : Key)

/-- The object after an operation. -/
def EnvObject.step (o : EnvObject) : Op → EnvObject
  | .assign k v => o.set k.str v.str
  | .delete k => o.delete k.str
  | .read _ => o

/-- The object after operations, from an environment on. -/
def after (environ : Environ) (ops : List Op) : EnvObject :=
  ops.foldl EnvObject.step ⟨environ, .empty⟩

/-- The variable a key names. -/
def Key.variable (k : Key) : CStr := EnvObject.variableName k.str

/-- What the last operation on `k` leaves; what there was if there is none. -/
def latest (k : Key) (initial : Option Str) (ops : List Op) : Option Str :=
  ops.foldl (fun value op =>
    match op with
    | .assign k' v => if k'.str == k.str then some v.str else value
    | .delete k' => if k'.str == k.str then none else value
    | .read _ => value) initial

/-- The value the environment starts with. -/
def initialValue (environ : Environ) (k : Key) : Option Str :=
  (environ k.variable).map fun value => newFromUtf8 value.1

/-- What a read of `k` is to return: `none` for `undefined`. -/
def expected (environ : Environ) (ops : List Op) (k : Key) : Option Str :=
  latest k (initialValue environ k) ops

/-- A JavaScript value. -/
def result : Option Str → PlainObject.Lookup Str
  | some v => .own v
  | none => .absent

/-- A read of `k` returns what it is to return, and `getEnv` the same. -/
structure Right (environ : Environ) (ops : List Op) (k : Key) : Prop where
  value : (after environ ops).get k.str = result (expected environ ops k)
  agrees : (after environ ops).get k.str = result ((after environ ops).GetEnv k.str)

/-- If nothing is due, `k` has not been assigned: it was never deleted after an
    assignment. -/
def NotDeleted (environ : Environ) (ops : List Op) (k : Key) : Prop :=
  expected environ ops k = none → ∀ v, .assign k v ∉ ops

/-- `P` holds of every read in a sequence, with the operations before it. -/
def EveryRead (ops : List Op) (P : List Op → Key → Prop) : Prop :=
  ∀ before k rest, ops = before ++ .read k :: rest → P before k

/-! ## Names and values -/

theorem text_toCStr {v : Value} : text (toCStr (utf8Value v.str)) = v.str := by
  have hbytes := newStringToLcal_utf8Value v.wellFormed v.noNul
  rw [text, newStringToLcal, toCStr, cStr_eq_self (zero_notMem_cStr _)]
  exact hbytes

theorem text_eq (value : CStr) : text value = newFromUtf8 value.1 := by
  rw [text, newStringToLcal, cStr_eq_self value.2]

theorem utf8Value_ne_nil {str : Str} (h : str ≠ []) : utf8Value str ≠ [] := fun hnil =>
  h (utf8Value_inj hnil)

/-- A key has no zero byte, so its variable is named by all of its bytes. -/
theorem Key.variable_eq (k : Key) : k.variable.1 = utf8Value k.str :=
  cStr_eq_self fun hmem => k.noNul (mem_of_mem_utf8Value hmem (by decide))

/-- The variable of a key can be set. -/
theorem Key.not_refused (k : Key) : ¬ refused k.variable := by
  rw [refused, k.variable_eq]
  rintro (hnil | hequals)
  · exact utf8Value_ne_nil k.nonempty hnil
  · exact k.noEquals (mem_of_mem_utf8Value hequals (by decide))

/-- Keys have variables of their own. -/
theorem Key.variable_inj {k k' : Key} (h : k'.variable = k.variable) : k'.str = k.str := by
  apply utf8Value_inj
  rw [← k'.variable_eq, h, k.variable_eq]

/-! ## The two stores -/

/-- The variable of `k` after an operation on `k'`. -/
theorem update_variable (environ : Environ) (k k' : Key) (value : Option CStr) :
    Function.update environ k'.variable value k.variable
      = if (k'.str == k.str) = true then value else environ k.variable := by
  by_cases h : k'.str = k.str
  · rw [if_pos (beq_iff_eq.mpr h), show k'.variable = k.variable from
      congrArg EnvObject.variableName h, Function.update_self]
  · have hne : k.variable ≠ k'.variable := fun heq => h (Key.variable_inj heq.symm)
    rw [if_neg fun hbeq => h (beq_iff_eq.mp hbeq), Function.update_of_ne hne]

/-- The environment keeps what the last operation on the key left. -/
theorem environ_foldl (k : Key) (ops : List Op) (o : EnvObject) :
    ((ops.foldl EnvObject.step o).environ k.variable).map text
      = latest k ((o.environ k.variable).map text) ops := by
  induction ops generalizing o with
  | nil => rfl
  | cons op ops ih =>
      rw [List.foldl_cons, ih]
      refine congrArg (latest k · ops) ?_
      cases op with
      | read k' => rfl
      | assign k' v =>
          have hset : (o.set k'.str v.str).environ
              = Function.update o.environ k'.variable (some (toCStr (utf8Value v.str))) :=
            if_neg k'.not_refused
          rw [EnvObject.step, hset, update_variable, apply_ite (Option.map text), Option.map_some,
            text_toCStr]
      | delete k' =>
          have hdelete : (o.delete k'.str).environ = Function.update o.environ k'.variable none :=
            if_neg k'.not_refused
          rw [EnvObject.step, hdelete, update_variable, apply_ite (Option.map text),
            Option.map_none]

/-- An own property is what some assignment left, whatever was deleted since. -/
theorem own_foldl (k : Key) (ops : List Op) (o : EnvObject) :
    (ops.foldl EnvObject.step o).own.own.find k.str = none ↔
      o.own.own.find k.str = none ∧ ∀ v, .assign k v ∉ ops := by
  induction ops generalizing o with
  | nil => simp
  | cons op ops ih =>
      rw [List.foldl_cons, ih]
      cases op with
      | read k' => simp [EnvObject.step]
      | delete k' =>
          -- the deleter intercepts, so the property stays
          simp [EnvObject.step, EnvObject.delete]
      | assign k' v =>
          have hset : (o.set k'.str v.str).own.own.find k.str
              = if k.str = k'.str then some v.str else o.own.own.find k.str :=
            PlainObject.find_set k'.notInherited
          rw [EnvObject.step, hset]
          by_cases h : k.str = k'.str
          · obtain rfl : k = k' := Key.ext h
            rw [if_pos rfl]
            constructor
            · exact fun hnone => absurd hnone.1 (by simp)
            · exact fun hnone => absurd List.mem_cons_self (hnone.2 v)
          · have hne : ∀ w, Op.assign k w ≠ .assign k' v := by
              intro w heq
              injection heq with hkey
              exact h (congrArg Key.str hkey)
            rw [if_neg h]
            simp [hne]

variable {environ : Environ} {ops : List Op} {k : Key}

theorem getEnv_after (environ : Environ) (ops : List Op) (k : Key) :
    (after environ ops).GetEnv k.str = expected environ ops k := by
  have hinitial : (environ k.variable).map text = initialValue environ k := by
    rw [initialValue]
    exact congrArg (fun f => (environ k.variable).map f) (funext text_eq)
  rw [expected, ← hinitial]
  exact environ_foldl k ops ⟨environ, .empty⟩

/-- A read returns the variable, and the own property if there is none. -/
theorem get_after (environ : Environ) (ops : List Op) (k : Key) :
    (after environ ops).get k.str = match expected environ ops k with
      | some v => .own v
      | none => (after environ ops).own.get k.str := by
  rw [← getEnv_after, EnvObject.GetEnv, EnvObject.get]
  cases getenv (after environ ops).environ (EnvObject.variableName k.str) <;> rfl

theorem own_after_absent (environ : Environ) (ops : List Op) (k : Key) :
    (after environ ops).own.get k.str = .absent ↔ ∀ v, .assign k v ∉ ops := by
  have hfind : (after environ ops).own.own.find k.str = none ↔
      (PlainObject.empty : PlainObject Str).own.find k.str = none ∧ ∀ v, .assign k v ∉ ops :=
    own_foldl k ops ⟨environ, .empty⟩
  rw [PlainObject.find_empty, eq_self_iff_true, true_and] at hfind
  rw [← hfind, PlainObject.get_of_not_inherited k.notInherited]
  cases (after environ ops).own.own.find k.str <;> simp

/-- One read. -/
theorem right_iff : Right environ ops k ↔ NotDeleted environ ops k := by
  have hget := get_after environ ops k
  have habsent := own_after_absent environ ops k
  constructor
  · intro h hnone
    rw [hnone] at hget
    exact habsent.mp (hget.symm.trans (h.value.trans (congrArg result hnone)))
  · intro h
    have hvalue : (after environ ops).get k.str = result (expected environ ops k) := by
      rw [hget]
      cases hexpected : expected environ ops k with
      | some v => rfl
      | none => exact habsent.mpr (h hexpected)
    refine ⟨hvalue, ?_⟩
    rw [getEnv_after, hvalue]

/-- **process.env is the environment** in a sequence of operations exactly when
    no read is of a key that has been deleted after an assignment. -/
theorem env_right_iff (environ : Environ) (ops : List Op) :
    EveryRead ops (Right environ) ↔ EveryRead ops (NotDeleted environ) := by
  constructor
  · exact fun h before k rest heq => right_iff.mp (h before k rest heq)
  · exact fun h before k rest heq => right_iff.mpr (h before k rest heq)

/-- The key `k`. -/
def letterKey : Key where
  str := [107]
  nonempty := by simp
  noEquals := by decide
  noNul := by decide
  notIndex := by decide
  notInherited := by decide

/-- The value `v`. -/
def letterValue : Value where
  str := [118]
  wellFormed := ⟨['v'], rfl⟩
  noNul := by decide

/-- A deleted variable is read as the copy of its value. -/
theorem deleted_read_back : ¬ ∀ (environ : Environ) (ops : List Op),
    EveryRead ops (Right environ) := by
  intro h
  have hright := h (fun _ => none)
    [.assign letterKey letterValue, .delete letterKey, .read letterKey]
    [.assign letterKey letterValue, .delete letterKey] letterKey [] rfl
  exact absurd List.mem_cons_self (right_iff.mp hright rfl letterValue)

end NoJs.Process
