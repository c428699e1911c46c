import Pysync.TransitionRun
import Mathlib.Logic.Function.Basic

/-!
One `ThreadGroup` under the body of its `with` statement and the threads spawned into it, interleaved
step by step. What code of the user does is part of the action: a target may spawn, return or raise
at any time, and the body may spawn, end or raise. `none` names the thread of the body.
-/

namespace Pysync.Group

/-- Where a thread that may call `spawn` stands. -/
inductive Code (T : Type) where
  | user
  /-- `spawn` has made the thread `t` and is about to start it. -/
  | start (t : T)
  /-- `spawn` has started `t` and is about to append it to `_threads`. -/
  | register (t : T)
  deriving DecidableEq

inductive Thread (T E : Type) where
  | absent
  /-- A `Thread` that has not been started. -/
  | fresh
  | running (code : Code T)
  /-- The target has raised; about to append the exception to `_errors`. -/
  | raised (e : E)
  | ended
  deriving DecidableEq

namespace Thread

variable {T E : Type}

/-- `is_alive()`. -/
def isAlive : Thread T E → Bool
  | running _ | raised _ => true
  | _ => false

/-- `ident` is not `None`. -/
def hasIdent : Thread T E → Bool
  | absent | fresh => false
  | _ => true

end Thread

/-- How `__exit__` ends. -/
inductive Exit (E : Type) where
  /-- It lets the exception of the body through, if there is one. -/
  | returned
  | raised (e : E)
  /-- It raises an `ExceptionGroup`. -/
  | group (es : List E)
  /-- `ExceptionGroup` takes members of class `Exception` only. -/
  | typeError
  deriving DecidableEq

/-- The end of `__exit__`, when all threads are joined. -/
def exitResult {E : Type} (isException : E → Bool) (exc : Option E) (errors : List E) : Exit E :=
  if exc.isSome then .returned
  else match errors with
    | [] => .returned
    | [e] => .raised e
    | es => if es.all isException then .group es else .typeError

/-- The thread of the body. -/
inductive Body (T E : Type) where
  | code (c : Code T)
  /-- `__exit__` is about to look for threads that it has not joined. -/
  | scan (exc : Option E) (joined : List T)
  | join (exc : Option E) (joined unjoined : List T)
  /-- All are joined. -/
  | leave (exc : Option E)
  | left (exit : Exit E)
  deriving DecidableEq

structure State (T E : Type) where
  /-- `_threads`. -/
  threads : List T
  /-- `_errors`. -/
  errors : List E
  thread : T → Thread T E
  body : Body T E

inductive Act (T E : Type) where
  /-- A call of `spawn` begins. -/
  | spawn (caller : Option T) (t : T)
  /-- The next step of `spawn`. -/
  | step (caller : Option T)
  /-- `Thread.start` raises. -/
  | startFails (caller : Option T)
  /-- The target returns or raises. -/
  | finish (t : T) (o : Except E Unit)
  | record (t : T)
  /-- The body ends, or raises. -/
  | leaveBody (exc : Option E)
  /-- The next step of `__exit__`. -/
  | exit
  deriving DecidableEq

namespace State

variable {T E : Type}

def init : State T E where
  threads := []
  errors := []
  thread _ := .absent
  body := .code .user

/-- Where a thread that may call `spawn` stands, if it runs code of the user. -/
def code (s : State T E) : Option T → Option (Code T)
  | none => match s.body with
      | .code c => some c
      | _ => none
  | some t => match s.thread t with
      | .running c => some c
      | _ => none

variable [DecidableEq T]

def setThread (s : State T E) (t : T) (x : Thread T E) : State T E :=
  { s with thread := Function.update s.thread t x }

def setCode (s : State T E) (caller : Option T) (c : Code T) : State T E :=
  match caller with
  | none => { s with body := .code c }
  | some t => s.setThread t (.running c)

end State

section Step

variable {T E : Type} [DecidableEq T]

/-- `__exit__`. -/
def exitStep (isException : E → Bool) (s : State T E) : Option (State T E) :=
  match s.body with
  | .scan exc joined => match s.threads.filter (· ∉ joined) with
      | [] => some { s with body := .leave exc }
      | unjoined => some { s with body := .join exc joined unjoined }
  | .join exc joined [] => some { s with body := .scan exc joined }
  | .join exc joined (t :: rest) =>
      let x := s.thread t
      -- `join` waits for the end of the thread
      if (x.isAlive || x.hasIdent) && x.isAlive then none
      else some { s with body := .join exc (joined ++ [t]) rest }
  | .leave exc => some { s with body := .left (exitResult isException exc s.errors) }
  | _ => none

/-- The step of a group. -/
def next (isException : E → Bool) (s : State T E) : Act T E → Option (State T E)
  | .spawn caller t => match s.code caller, s.thread t with
      | some .user, .absent => some ((s.setThread t .fresh).setCode caller (.start t))
      | _, _ => none
  | .step caller => match s.code caller with
      | some (.start t) => some ((s.setThread t (.running .user)).setCode caller (.register t))
      | some (.register t) => some (State.setCode { s with threads := s.threads ++ [t] } caller .user)
      | _ => none
  | .startFails caller => match s.code caller with
      | some (.start _) => some (s.setCode caller .user)
      | _ => none
  | .finish t o => match s.thread t, o with
      | .running .user, .ok _ => some (s.setThread t .ended)
      | .running .user, .error e => some (s.setThread t (.raised e))
      | _, _ => none
  | .record t => match s.thread t with
      | .raised e => some (State.setThread { s with errors := s.errors ++ [e] } t .ended)
      | _ => none
  | .leaveBody exc => match s.body with
      | .code .user => some { s with body := .scan exc [] }
      | _ => none
  | .exit => exitStep isException s

end Step

end Pysync.Group
