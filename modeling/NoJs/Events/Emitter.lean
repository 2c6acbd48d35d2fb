/-
  NoJs.Events.Emitter

  `EventEmitter` of `libs/events/index.js`: one emitter, the functions that listen
  to its events, and the code that calls it.

  `_events` maps the name of an event to its listener, or to an array of them when
  there are two or more.  The arrays are objects: `removeAllListeners(type)` holds
  on to one while it calls handlers, which may change it or put another in its
  place.  So does every other function that calls listeners in the middle of
  its work; what it still has to do then is an activation of its own, and a
  listener may call any function of the emitter again before it returns or throws.

  A function is known by its identity.  A wrapper made by `_onceWrap` carries the
  type and the listener its state was made with, which never change; whether the
  state is `fired` does, and is kept apart.

  `emissions` and `onceCalls` record what `emit` and the wrappers do.  No function of
  the source reads them.
-/

import Mathlib.Algebra.Order.Ring.Rat
import NoJs.Lib.Callbacks
import NoJs.Lib.Heap
import NoJs.Lib.NullObject

namespace NoJs.Events

open Callbacks Utf16

/-! ## Values -/

/-- A JavaScript number. -/
inductive Number where
  | nan
  | negInfinity
  | finite (q : Rat)
  | infinity
  deriving DecidableEq, Repr

namespace Number

/-- `a < b`. -/
def lt : Number → Number → Bool
  | finite p, finite q => decide (p < q)
  | negInfinity, finite _ => true
  | negInfinity, infinity => true
  | finite _, infinity => true
  | _, _ => false

/-- `list.length`, or a literal of the source. -/
def ofNat (n : Nat) : Number := finite n

end Number

/-- A function: one of the program's, or `onceWrapper` bound to a state. -/
inductive Listener where
  | user (id : Nat)
  | wrapper (state : Nat) (type : PropertyKey) (listener : Listener)
  deriving DecidableEq, Repr

namespace Listener

/-- The property `listener` of a function; the program's functions have none. -/
def listener : Listener → Option Listener
  | user _ => none
  | wrapper _ _ f => some f

/-- `f.listener || f`. -/
def unwrap (f : Listener) : Listener := f.listener.getD f

end Listener

/-- What `typeof` says of a value that is no function. -/
inductive TypeName where
  | undefined
  | boolean
  | number
  | bigint
  | string
  | symbol
  | object
  deriving DecidableEq, Repr

namespace TypeName

def text : TypeName → Str
  | undefined => ofChars "undefined".toList
  | boolean => ofChars "boolean".toList
  | number => ofChars "number".toList
  | bigint => ofChars "bigint".toList
  | string => ofChars "string".toList
  | symbol => ofChars "symbol".toList
  | object => ofChars "object".toList

end TypeName

/-- What is passed as a listener. -/
inductive Argument where
  | function (f : Listener)
  | other (type : TypeName)
  deriving DecidableEq, Repr

/-- What is passed as a limit; of a value that is no number its text is known. -/
inductive Limit where
  | number (n : Number)
  | other (text : Str)
  deriving DecidableEq, Repr

/-- What is passed to the listeners of an event. -/
inductive Value where
  | key (k : PropertyKey)
  | function (f : Listener)
  /-- An instance of `Error`. -/
  | error (id : Nat)
  /-- Any other value; `message` is the text of its property of that name. -/
  | other (id : Nat) (truthy : Bool) (message : Str)
  deriving DecidableEq, Repr

namespace Value

def truthy : Value → Bool
  | key (.string s) => s != []
  | other _ truthy _ => truthy
  | _ => true

/-- The text of `value.message`; strings, symbols and functions have no such
    property. -/
def message : Value → Str
  | other _ _ message => message
  | _ => ofChars "undefined".toList

end Value

/-- What the functions of the emitter throw. -/
inductive Thrown where
  /-- The `TypeError` of `checkListener`. -/
  | listenerType (received : TypeName)
  /-- The `RangeError` of a limit. -/
  | outOfRange (name : Str) (received : Limit)
  /-- The value passed to `emit('error', value)`. -/
  | emitted (er : Value)
  /-- The error made for `emit('error')`. -/
  | unhandled (context : Option Value)
  deriving DecidableEq, Repr

namespace Thrown

/-- The message of an error that the emitter makes; `display` is the text of a
    number. -/
def message (display : Number → Str) : Thrown → Option Str
  | listenerType received => some
      (ofChars "The \"listener\" argument must be of type Function. Received type ".toList
        ++ received.text)
  | outOfRange name received => some
      (ofChars "The value of \"".toList ++ name
        ++ ofChars "\" is out of range. It must be a non-negative number. Received ".toList
        ++ (match received with
          | .number n => display n
          | .other text => text)
        ++ ofChars ".".toList)
  | emitted _ => none
  | unhandled context => some
      (ofChars "Unhandled error.".toList
        ++ (match context with
          | some er =>
              if er.truthy then ofChars " (".toList ++ er.message ++ ofChars ")".toList else []
          | none => []))

end Thrown

/-! ## The emitter -/

/-- An array of listeners, with the property `warned` that the leak check sets. -/
structure ListenerArray where
  items : List Listener
  warned : Bool
  deriving DecidableEq, Repr

/-- The value of a property of `_events`. -/
inductive Slot where
  | one (f : Listener)
  | many (array : Nat)
  deriving DecidableEq, Repr

/-- The warning of the leak check. -/
structure Warning where
  type : PropertyKey
  count : Nat
  deriving DecidableEq, Repr

/-- The message of the warning; `String(type)` is the text of the name. -/
def Warning.message (display : Number → Str) (string : PropertyKey → Str) (w : Warning) : Str :=
  ofChars "Possible EventEmitter memory leak detected. ".toList ++ display (.ofNat w.count)
    ++ ofChars " ".toList ++ string w.type
    ++ ofChars " listeners added. Use emitter.setMaxListeners() to increase limit".toList

/-- A call of `emit` that found listeners or none, and how far it got. -/
structure Emission where
  type : PropertyKey
  args : List Value
  /-- The copy of the listeners. -/
  listeners : List Listener
  /-- The functions called, and with which arguments. -/
  called : List (Listener × List Value)
  /-- What the call returned, if it did. -/
  returned : Option Bool
  deriving DecidableEq, Repr

structure Emitter where
  events : NullObject Slot
  eventsCount : Int
  /-- `none` for `undefined`. -/
  maxListeners : Option Number
  /-- The variable of the module, which all emitters share. -/
  defaultMaxListeners : Number
  arrays : Heap ListenerArray
  /-- The property `fired` of the states of the wrappers. -/
  fired : Heap Bool
  warnings : List Warning
  emissions : List Emission
  /-- The states whose listener was called, in this order. -/
  onceCalls : List Nat

/-- What a suspended function of the emitter still has to do. -/
inductive Activation where
  /-- `emit` has these listeners left to call. -/
  | emitting (id : Nat) (rest : List Listener) (args : List Value)
  /-- `_addListener` has emitted 'newListener'. -/
  | adding (type : PropertyKey) (listener : Listener) (prepend : Bool)
  /-- A wrapper is called. -/
  | onceWrapper (state : Nat) (type : PropertyKey) (listener : Listener) (args : List Value)
  /-- The wrapper has removed itself. -/
  | firing (state : Nat) (listener : Listener) (args : List Value)
  /-- `removeAllListeners(type)` has the first `i` items of the array left. -/
  | removing (type : PropertyKey) (array : Nat) (i : Nat)
  /-- `removeAllListeners()` has these names left. -/
  | removingKeys (keys : List PropertyKey)
  /-- `removeAllListeners()` has removed the listeners of 'removeListener'. -/
  | clearing
  deriving DecidableEq, Repr

/-- The activation of a function of the program. -/
structure Invocation where
  function : Nat
  args : List Value
  deriving DecidableEq, Repr

abbrev Stack := List (Frame Activation Invocation)

abbrev Reply := Callbacks.Reply Emitter Activation Invocation Thrown

/-- `ReflectApply(f, this, args)`: the activation that it begins. -/
def Listener.apply (args : List Value) : Listener → Frame Activation Invocation
  | .user id => .foreign ⟨id, args⟩
  | .wrapper state type f => .own (.onceWrapper state type f args)

def newListenerKey : PropertyKey := .string (ofChars "newListener".toList)

def removeListenerKey : PropertyKey := .string (ofChars "removeListener".toList)

def errorKey : PropertyKey := .string (ofChars "error".toList)

namespace Emitter

/-- `new EventEmitter()`. -/
def init : Emitter where
  events := .empty
  eventsCount := 0
  maxListeners := none
  defaultMaxListeners := .ofNat 10
  arrays := .empty
  fired := .empty
  warnings := []
  emissions := []
  onceCalls := []

/-- The items of an array. -/
def items (s : Emitter) (array : Nat) : List Listener :=
  match s.arrays.get? array with
  | some existing => existing.items
  | none => []

/-- A new array takes the name. -/
def newArray (type : PropertyKey) (items : List Listener) (s : Emitter) : Emitter :=
  { s with
    arrays := s.arrays.alloc ⟨items, false⟩
    events := s.events.set type (.many s.arrays.top) }

/-- Change an array where it is. -/
def modifyArray (array : Nat) (f : List Listener → List Listener) (s : Emitter) : Emitter :=
  { s with
    arrays := s.arrays.modify array fun existing => { existing with items := f existing.items } }

/-- `this._events = Object.create(null); this._eventsCount = 0`. -/
def clear (s : Emitter) : Emitter := { s with events := .empty, eventsCount := 0 }

end Emitter

/-! ## index.js -/

/-- `arrayClone(arr, n)`. -/
def arrayClone {α : Type} (arr : List α) (n : Nat) : List α := arr.take n

/-- The loop of `spliceOne`, which has `steps` steps to go. -/
def moveDown {α : Type} : Nat → List α → Nat → List α
  | 0, list, _ => list
  | steps + 1, list, index =>
      match list[index + 1]? with
      | some x => moveDown steps (list.set index x) (index + 1)
      | none => list

/-- `spliceOne(list, index)`. -/
def spliceOne {α : Type} (list : List α) (index : Nat) : List α :=
  (moveDown (list.length - 1 - index) list index).dropLast

/-- What `emit('error', ...args)` throws if nobody listens. -/
def unhandledError : List Value → Thrown
  | .error id :: _ => .emitted (.error id)
  | er :: _ => .unhandled (some er)
  | [] => .unhandled none

/-- `typeof n !== 'number' || n < 0 || NumberIsNaN(n)`, and the number otherwise. -/
def checkLimit (name : Str) (n : Limit) : Except Thrown Number :=
  match n with
  | .number n =>
      if n.lt (.ofNat 0) ∨ n = .nan then .error (.outOfRange name (.number n)) else .ok n
  | .other text => .error (.outOfRange name (.other text))

/-- Whether `removeListener(type, listener)` takes this function. -/
def matchesListener (listener f : Listener) : Bool :=
  decide (f = listener) || decide (f.listener = some listener)

/-- The loop that looks for the listener, from `i - 1` down; it ends with `position`
    and `originalListener`. -/
def findPosition (listener : Listener) (list : List Listener) : Nat → Option (Nat × Option Listener)
  | 0 => none
  | i + 1 =>
      match list[i]? with
      | some f =>
          if matchesListener listener f then some (i, f.listener) else findPosition listener list i
      | none => none

/-- `checkListener(listener)`. -/
def checkListener : Argument → Except Thrown Listener
  | .function f => .ok f
  | .other type => .error (.listenerType type)

namespace Emitter

/-- `setMaxListeners(n)`. -/
def setMaxListeners (n : Limit) (s : Emitter) : Reply :=
  match checkLimit (ofChars "n".toList) n with
  | .error e => .throw s e
  | .ok n => .go { s with maxListeners := some n } []

/-- `EventEmitter.defaultMaxListeners = arg`. -/
def setDefaultMaxListeners (arg : Limit) (s : Emitter) : Reply :=
  match checkLimit (ofChars "defaultMaxListeners".toList) arg with
  | .error e => .throw s e
  | .ok n => .go { s with defaultMaxListeners := n } []

/-- `_getMaxListeners(that)`. -/
def getMaxListeners (s : Emitter) : Number :=
  match s.maxListeners with
  | none => s.defaultMaxListeners
  | some n => n

/-- The loop of `emit` begins; `emissions` gets a new entry. -/
def begin (type : PropertyKey) (args : List Value) (listeners : List Listener) (s : Emitter) :
    Reply :=
  .go { s with emissions := s.emissions ++ [⟨type, args, listeners, [], none⟩] }
    [.own (.emitting s.emissions.length listeners args)]

/-- `emit(type, ...args)`. -/
def emit (type : PropertyKey) (args : List Value) (s : Emitter) : Reply :=
  match s.events.get type with
  | none =>
      if type = errorKey then .throw s (unhandledError args)
      else .go { s with emissions := s.emissions ++ [⟨type, args, [], [], some false⟩] } []
  | some (.one f) => s.begin type args [f]
  | some (.many array) =>
      s.begin type args (arrayClone (s.items array) (s.items array).length)

/-- `if (events.removeListener !== undefined) this.emit('removeListener', type, listener)`. -/
def announce (type : PropertyKey) (listener : Listener) (s : Emitter) : Reply :=
  if (s.events.get removeListenerKey).isSome then
    s.emit removeListenerKey [.key type, .function listener]
  else .go s []

/-- The leak check of `_addListener`. -/
def checkLeak (type : PropertyKey) (array : Nat) (s : Emitter) : Emitter :=
  let m := s.getMaxListeners
  match s.arrays.get? array with
  | none => s
  | some existing =>
      if Number.lt (.ofNat 0) m ∧ m.lt (.ofNat existing.items.length) ∧ existing.warned = false then
        { s with
          arrays := s.arrays.modify array fun a => { a with warned := true }
          warnings := s.warnings ++ [⟨type, existing.items.length⟩] }
      else s

/-- `_addListener` from `existing = events[type]` on. -/
def insert (type : PropertyKey) (listener : Listener) (prepend : Bool) (s : Emitter) : Emitter :=
  match s.events.get type with
  | none => { s with
      events := s.events.set type (.one listener)
      eventsCount := s.eventsCount + 1 }
  | some (.one existing) =>
      (s.newArray type (if prepend then [listener, existing] else [existing, listener])).checkLeak
        type s.arrays.top
  | some (.many array) =>
      (s.modifyArray array fun list =>
        if prepend then listener :: list else list ++ [listener]).checkLeak type array

/-- `_addListener(this, type, listener, prepend)`, after `checkListener`. -/
def addFunction (type : PropertyKey) (listener : Listener) (prepend : Bool) (s : Emitter) : Reply :=
  if (s.events.get newListenerKey).isSome then
    -- the table may be another one when the listeners of 'newListener' are done
    (s.emit newListenerKey [.key type, .function listener.unwrap]).andThen
      [.own (.adding type listener prepend)]
  else .go (s.insert type listener prepend) []

/-- `addListener(type, listener)`, which is also `on`, and `prependListener`. -/
def addListener (type : PropertyKey) (listener : Argument) (prepend : Bool) (s : Emitter) : Reply :=
  match checkListener listener with
  | .error e => .throw s e
  | .ok f => s.addFunction type f prepend

/-- `once(type, listener)` and `prependOnceListener`, with `_onceWrap`. -/
def once (type : PropertyKey) (listener : Argument) (prepend : Bool) (s : Emitter) : Reply :=
  match checkListener listener with
  | .error e => .throw s e
  | .ok f =>
      { s with fired := s.fired.alloc false }.addFunction type (.wrapper s.fired.top type f) prepend

/-- `if (list.length === 1) events[type] = list[0]`. -/
def collapse (type : PropertyKey) (array : Nat) (s : Emitter) : Emitter :=
  match s.items array with
  | [f] => { s with events := s.events.set type (.one f) }
  | _ => s

/-- `removeListener(type, listener)`, after `checkListener`. -/
def removeFunction (type : PropertyKey) (listener : Listener) (s : Emitter) : Reply :=
  match s.events.get type with
  | none => .go s []
  | some (.one f) =>
      if matchesListener listener f then
        if s.eventsCount - 1 = 0 then
          .go { s with eventsCount := s.eventsCount - 1, events := .empty } []
        else
          { s with
            eventsCount := s.eventsCount - 1
            events := s.events.delete type }.announce type (f.listener.getD listener)
      else .go s []
  | some (.many array) =>
      let list := s.items array
      match findPosition listener list list.length with
      | none => .go s []
      | some (position, originalListener) =>
          ((s.modifyArray array fun list =>
              if position = 0 then list.tail else spliceOne list position).collapse
            type array).announce type (originalListener.getD listener)

/-- `removeListener(type, listener)`, which is also `off`. -/
def removeListener (type : PropertyKey) (listener : Argument) (s : Emitter) : Reply :=
  match checkListener listener with
  | .error e => .throw s e
  | .ok f => s.removeFunction type f

/-- `removeAllListeners(type)`. -/
def removeAllOf (type : PropertyKey) (s : Emitter) : Reply :=
  match s.events.get removeListenerKey with
  | none =>
      match s.events.get type with
      | none => .go s []
      | some _ =>
          if s.eventsCount - 1 = 0 then
            .go { s with eventsCount := s.eventsCount - 1, events := .empty } []
          else
            .go { s with
              eventsCount := s.eventsCount - 1
              events := s.events.delete type } []
  | some _ =>
      match s.events.get type with
      | none => .go s []
      | some (.one f) => s.removeListener type (.function f)
      -- LIFO order
      | some (.many array) => .go s [.own (.removing type array (s.items array).length)]

/-- `removeAllListeners()`. -/
def removeEverything (s : Emitter) : Reply :=
  match s.events.get removeListenerKey with
  | none => .go s.clear []
  | some _ => .go s [.own (.removingKeys s.events.stringKeys)]

/-- `_listeners(this, type, unwrap)`. -/
def listenersOf (type : PropertyKey) (unwrap : Bool) (s : Emitter) : List Listener :=
  match s.events.get type with
  | none => []
  | some (.one f) => if unwrap then [f.unwrap] else [f]
  | some (.many array) =>
      if unwrap then (s.items array).map Listener.unwrap
      else arrayClone (s.items array) (s.items array).length

/-- `listeners(type)`. -/
def listeners (type : PropertyKey) (s : Emitter) : List Listener := s.listenersOf type true

/-- `rawListeners(type)`. -/
def rawListeners (type : PropertyKey) (s : Emitter) : List Listener := s.listenersOf type false

/-- `listenerCount(type)`. -/
def listenerCount (type : PropertyKey) (s : Emitter) : Nat :=
  match s.events.get type with
  | none => 0
  | some (.one _) => 1
  | some (.many array) => (s.items array).length

/-- `eventNames()`. -/
def eventNames (s : Emitter) : List PropertyKey :=
  if 0 < s.eventsCount then s.events.ownKeys else []

/-! ## The machine -/

/-- One more function of an emission is called. -/
def call (id : Nat) (f : Listener) (args : List Value) (s : Emitter) : Emitter :=
  { s with
    emissions := s.emissions.modify id fun e => { e with called := e.called ++ [(f, args)] } }

/-- `return true` of an emission. -/
def finish (id : Nat) (s : Emitter) : Emitter :=
  { s with emissions := s.emissions.modify id fun e => { e with returned := some true } }

/-- `this.fired = true`, before the listener is called. -/
def fire (state : Nat) (s : Emitter) : Emitter :=
  { s with
    fired := s.fired.modify state fun _ => true
    onceCalls := s.onceCalls ++ [state] }

/-- A suspended function of the emitter goes on. -/
def resume (k : Activation) (s : Emitter) : Reply :=
  match k with
  | .emitting id [] _ => .go (s.finish id) []
  | .emitting id (f :: rest) args =>
      .go (s.call id f args) [f.apply args, .own (.emitting id rest args)]
  | .adding type listener prepend => .go (s.insert type listener prepend) []
  | .onceWrapper state type listener args =>
      if s.fired.get? state = some true then .go s []
      else
        (s.removeListener type (.function (.wrapper state type listener))).andThen
          [.own (.firing state listener args)]
  | .firing state listener args => .go (s.fire state) [listener.apply args]
  | .removing _ _ 0 => .go s []
  | .removing type array (i + 1) =>
      (s.removeListener type (match (s.items array)[i]? with
        | some f => .function f
        | none => .other .undefined)).andThen [.own (.removing type array i)]
  | .removingKeys [] => (s.removeAllOf removeListenerKey).andThen [.own .clearing]
  | .removingKeys (key :: keys) =>
      if key = removeListenerKey then .go s [.own (.removingKeys keys)]
      else (s.removeAllOf key).andThen [.own (.removingKeys keys)]
  | .clearing => .go s.clear []

end Emitter

/-- The calls that the program can make. -/
inductive Call where
  | addListener (type : PropertyKey) (listener : Argument) (prepend : Bool)
  | once (type : PropertyKey) (listener : Argument) (prepend : Bool)
  | removeListener (type : PropertyKey) (listener : Argument)
  | removeAllListeners (type : Option PropertyKey)
  | emit (type : PropertyKey) (args : List Value)
  | setMaxListeners (n : Limit)
  | setDefaultMaxListeners (n : Limit)
  /-- A function is called directly, such as one that `rawListeners` returned. -/
  | apply (f : Listener) (args : List Value)
  deriving DecidableEq, Repr

namespace Emitter

def perform (c : Call) (s : Emitter) : Reply :=
  match c with
  | .addListener type listener prepend => s.addListener type listener prepend
  | .once type listener prepend => s.once type listener prepend
  | .removeListener type listener => s.removeListener type listener
  | .removeAllListeners (some type) => s.removeAllOf type
  | .removeAllListeners none => s.removeEverything
  | .emit type args => s.emit type args
  | .setMaxListeners n => s.setMaxListeners n
  | .setDefaultMaxListeners n => s.setDefaultMaxListeners n
  | .apply f args => .go s [f.apply args]

/-- The emitter as a library that calls back into the program. -/
def library : Callbacks Emitter Call Activation Invocation Thrown where
  init := init
  call := perform
  resume := resume

abbrev machine := library.machine

abbrev State := Callbacks.State Emitter Activation Invocation

end Emitter

end NoJs.Events
