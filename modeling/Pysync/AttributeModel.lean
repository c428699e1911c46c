import Pysync.PyErr
import Pysync.TransitionRun
import Mathlib.Data.Finset.Insert
import Mathlib.Data.Int.Basic
import Mathlib.Logic.Function.Basic

/-!
The attributes of one `Actor` under `__getattribute__`, `__setattr__` and `__delattr__`, called by any
threads, the worker included, at any time from `__new__` on, interleaved step by step. The attributes
that the class keeps for itself are fields of the state, and code of the user leaves them alone. What
becomes of a message once it is sent is not followed here: its sender has a future.
-/

namespace Pysync.Attribute

/-- What the interceptors ask of the class of the actor and of the values. -/
structure Cls (V : Type) where
  /-- `__name__`. -/
  name : String
  /-- The class has a `property` of this name. -/
  isProperty : String → Bool
  /-- Any other attribute that is found on the class, bound to the actor. -/
  attr : String → Option V
  callable : V → Bool

inductive Op (V : Type) where
  | get
  | set (v : V)
  | del
  deriving DecidableEq

/-- What an access gives to its caller. -/
inductive Result (V : Type) where
  | value (v : V)
  /-- The end of an assignment or a deletion. -/
  | returned
  | future
  /-- The function `async_call`, which sends a message and returns a future when it is called. -/
  | asyncCall
  | raised (e : PyErr)
  deriving DecidableEq

/-- Where an access stands. -/
inductive Pc (T V : Type) where
  /-- About to compare `_thread` with the current thread. -/
  | thread
  /-- About to look at `_stopped`. -/
  | stopped
  /-- About to look the attribute up for a thread that is not the worker. -/
  | lookup
  /-- About to enter the locked part of `_ensure_thread_started`. -/
  | ensure (r : Result V)
  /-- Has set `_thread` to `t` and is about to start it. -/
  | start (t : T) (r : Result V)
  /-- Has the raw value in hand and is about to look at `_initialized`. -/
  | hold (v : V)
  /-- An assignment or a deletion is about to look at `_initialized`. -/
  | gate (own : Bool)
  /-- About to call the method of `object`. -/
  | direct
  deriving DecidableEq

/-- Where a wrapped `__init__` stands. -/
inductive InitPc where
  /-- About to read `_init_depth`. -/
  | enter
  | deepen (depth : ℤ)
  /-- The original `__init__` runs. -/
  | body
  | leave (success : Bool)
  | lessen (success : Bool) (currentDepth : ℤ)
  /-- About to set `_initialized`. -/
  | finish
  | ended
  deriving DecidableEq

inductive Call (T V : Type) where
  | idle
  | access (thread : T) (op : Op V) (name : String) (pc : Pc T V)
  | done (thread : T) (op : Op V) (name : String) (r : Result V)
  | wrapped (pc : InitPc)
  deriving DecidableEq

structure State (C T V : Type) where
  /-- `_initialized`. -/
  initialized : Bool
  /-- `_init_depth`. -/
  initDepth : ℤ
  /-- `_thread`, when the attribute is there. -/
  thread : Option (Option T)
  /-- The attribute `_lock` is there. -/
  lock : Bool
  /-- `_stopped`. -/
  stopped : Bool
  /-- The other attributes of the instance. -/
  attrs : String → Option V
  calls : C → Call T V
  /-- The threads made by `_ensure_thread_started`. -/
  workers : Finset T
  started : Finset T
  /-- The other threads seen so far. -/
  others : Finset T

inductive Act (C T V : Type) where
  | invoke (c : C) (t : T) (op : Op V) (name : String)
  /-- The next step of a call. The code of a property, if it is run here, does `byUser`. -/
  | step (c : C) (byUser : PyResult V)
  /-- `_ensure_thread_started` makes the thread `w`. -/
  | make (c : C) (w : T)
  | beginInit (c : C)
  /-- The original `__init__` returns or raises. -/
  | endInit (c : C) (success : Bool)
  /-- `self._thread = None` in `Actor.__init__`. -/
  | initThread
  /-- `self._lock = threading.Lock()` in `Actor.__init__`. -/
  | initLock
  /-- `stop` sets `_stopped`. -/
  | stop

def stoppedErr : PyErr := .runtimeError "Actor is stopped"
def missingErr (cls name : String) : PyErr :=
  .attributeError ("'" ++ cls ++ "' object has no attribute '" ++ name ++ "'")
def readErr (name : String) : PyErr :=
  .attributeError ("Public state attribute '" ++ name ++ "' cannot be accessed directly on Actor. " ++
    "Use getter methods to read state safely.")
def setErr (name : String) : PyErr :=
  .attributeError ("Public state attribute '" ++ name ++
    "' cannot be mutated directly from outside the Actor thread. Use setter methods.")
def delErr (name : String) : PyErr :=
  .attributeError ("Public state attribute '" ++ name ++
    "' cannot be deleted directly from outside the Actor thread.")

/-- The attributes that the class keeps for itself. -/
def reserved : List String :=
  ["_initialized", "_init_depth", "_mailbox", "_thread", "_lock", "_stopped"]

namespace Op

variable {V : Type}

/-- The interceptor stands between the caller and this attribute. -/
def guarded (name : String) : Op V → Bool
  | get => !(name.startsWith "_" || name ∈ ["stop", "tell"])
  | _ => !name.startsWith "_"

/-- What a thread that is not the worker is told when it may not assign or delete. -/
def refusal (name : String) : Op V → PyErr
  | get => readErr name
  | set _ => setErr name
  | del => delErr name

/-- The first statement of an access. -/
def first {T : Type} (name : String) : Op V → Pc T V
  | get => if get.guarded (V := V) name then .thread else .direct
  | _ => .thread

end Op

namespace State

variable {C T V : Type}

/-- `__new__`. -/
def init : State C T V where
  initialized := false
  initDepth := 0
  thread := none
  lock := false
  stopped := false
  attrs _ := none
  calls _ := .idle
  workers := ∅
  started := ∅
  others := ∅

variable [DecidableEq C]

def setCall (s : State C T V) (c : C) (k : Call T V) : State C T V :=
  { s with calls := Function.update s.calls c k }

def setAttr (s : State C T V) (name : String) (v : Option V) : State C T V :=
  { s with attrs := Function.update s.attrs name v }

end State

section Step

variable {C T V : Type} [DecidableEq C] [DecidableEq T]

/-- The method of `object` on the instance: the attributes after it, and its result. -/
def direct (cls : Cls V) (s : State C T V) (op : Op V) (name : String) (byUser : PyResult V) :
    State C T V × Result V :=
  if cls.isProperty name then
    (s, match op, byUser with
      | .get, .ok v => .value v
      | _, .ok _ => .returned
      | _, .error e => .raised e)
  else match op with
    | .get => (s, match (s.attrs name).or (cls.attr name) with
        | some v => .value v
        | none => .raised (missingErr cls.name name))
    | .set v => (s.setAttr name (some v), .returned)
    | .del => match s.attrs name with
        | some _ => (s.setAttr name none, .returned)
        | none => (s, .raised (missingErr cls.name name))

/-- A step of an access. -/
def stepAccess (cls : Cls V) (s : State C T V) (c : C) (t : T) (op : Op V) (name : String)
    (byUser : PyResult V) : Pc T V → Option (State C T V)
  | .thread =>
      let own := decide (s.thread = some (some t))
      some (s.setCall c (.access t op name (match op with
        | .get => if own then .direct else .stopped
        | _ => .gate own)))
  | .stopped =>
      some (s.setCall c (
        if s.stopped then .done t op name (.raised stoppedErr)
        else .access t op name (if cls.isProperty name then .ensure .future else .lookup)))
  | .lookup =>
      some (s.setCall c (match (s.attrs name).or (cls.attr name) with
        | none => .done t op name (.raised (missingErr cls.name name))
        | some v => .access t op name (if cls.callable v then .ensure .asyncCall else .hold v)))
  | .ensure r =>
      if !s.lock then some (s.setCall c (.done t op name (.raised (missingErr cls.name "_lock"))))
      else match s.thread with
        | none => some (s.setCall c (.done t op name (.raised (missingErr cls.name "_thread"))))
        | some (some _) => some (s.setCall c (.done t op name r))
        | some none => none
  | .start w r =>
      some (State.setCall { s with started := insert w s.started } c (.done t op name r))
  | .hold v =>
      some (s.setCall c (.done t op name (if s.initialized then .raised (readErr name) else .value v)))
  | .gate own =>
      some (s.setCall c (
        if !s.initialized || name.startsWith "_" || own then .access t op name .direct
        else .done t op name (.raised (op.refusal name))))
  | .direct =>
      let r := direct cls s op name byUser
      some (r.1.setCall c (.done t op name r.2))

/-- A step of a wrapped `__init__` outside the original one. -/
def stepWrapped (s : State C T V) (c : C) : InitPc → Option (State C T V)
  | .enter => some (s.setCall c (.wrapped (.deepen s.initDepth)))
  | .deepen depth => some (State.setCall { s with initDepth := depth + 1 } c (.wrapped .body))
  | .leave success => some (s.setCall c (.wrapped (.lessen success (s.initDepth - 1))))
  | .lessen success currentDepth =>
      some (State.setCall { s with initDepth := currentDepth } c
        (.wrapped (if success && decide (currentDepth ≤ 0) then .finish else .ended)))
  | .finish => some (State.setCall { s with initialized := true } c (.wrapped .ended))
  | _ => none

def next (cls : Cls V) (s : State C T V) : Act C T V → Option (State C T V)
  | .invoke c t op name => match s.calls c with
      | .idle =>
          if name ∉ reserved ∧ (t ∈ s.workers → t ∈ s.started) then
            some (State.setCall
              { s with others := if t ∈ s.workers then s.others else insert t s.others } c
              (.access t op name (op.first name)))
          else none
      | _ => none
  | .step c byUser => match s.calls c with
      | .access t op name pc => stepAccess cls s c t op name byUser pc
      | .wrapped pc => stepWrapped s c pc
      | _ => none
  | .make c w => match s.calls c, s.lock, s.thread with
      | .access t op name (.ensure r), true, some none =>
          if w ∉ s.workers ∧ w ∉ s.others then
            some (State.setCall { s with thread := some (some w), workers := insert w s.workers } c
              (.access t op name (.start w r)))
          else none
      | _, _, _ => none
  | .beginInit c => match s.calls c with
      | .idle => some (s.setCall c (.wrapped .enter))
      | _ => none
  | .endInit c success => match s.calls c with
      | .wrapped .body => some (s.setCall c (.wrapped (.leave success)))
      | _ => none
  | .initThread => some { s with thread := some none }
  | .initLock => some { s with lock := true }
  | .stop => some { s with stopped := true }

end Step

end Pysync.Attribute
