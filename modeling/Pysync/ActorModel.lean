import Pysync.ChannelCore
import Pysync.FutureModel
import Pysync.TransitionRun
import Mathlib.Logic.Function.Basic

/-!
One `Actor` under all its clients and its worker thread, interleaved step by step. A message and a
future go by the name of the call that made them. What code of the user does (the method bodies and
the hooks) is part of the action; while it runs on the worker thread it may call the actor itself.
A Python value is `some v`, or `none` for `None`.
-/

namespace Pysync.Actor
open Queue Channel

/-- An element of the mailbox. -/
inductive Msg (C : Type) where
  /-- `None`. -/
  | stop
  /-- The message of the call `c`, with or without a future. -/
  | call (c : C) (future : Bool)
  deriving DecidableEq

/-- An exception of the user, or one of the library. -/
inductive Exc (E : Type) where
  | user (e : E)
  | py (err : PyErr)
  deriving DecidableEq

abbrev ActorFuture (E V : Type) := Future (Exc E) (Option V)

/-- How the worker came to leave its loop. -/
inductive Why (C : Type) where
  | sentinel
  /-- The mailbox was closed; the messages in hand are dropped. -/
  | closed (batch : List (Msg C))
  /-- By any other exception. -/
  | escaped (rest : List (Msg C))
  deriving DecidableEq

/-- Where the worker stands in `_run_loop`. -/
inductive Worker (C E V : Type) where
  /-- Not started. -/
  | absent
  | onStart
  /-- `on_error` handles an exception of `on_start`. -/
  | onStartError
  | recv (pc : RecvPc)
  /-- Filling the batch by `try_recv`. -/
  | drain (batch : List (Msg C))
  /-- About to take the next item of the batch. -/
  | items (batch : List (Msg C))
  | body (c : C) (future : Bool) (rest : List (Msg C))
  /-- About to complete the future with what the body returned. -/
  | complete (c : C) (rest : List (Msg C)) (v : Option V)
  /-- `on_error` handles an exception of the body or of `set_result`. -/
  | onError (c : C) (future : Bool) (rest : List (Msg C)) (e : Exc E)
  /-- About to complete the future in the exception handler. -/
  | completeErr (c : C) (rest : List (Msg C)) (o : Except (Exc E) (Option V))
  | onStop (why : Why C)
  | exited (why : Why C)
  deriving DecidableEq

namespace Worker

variable {C E V : Type}

/-- The thread has been started. -/
def started : Worker C E V → Bool
  | absent => false
  | _ => true

/-- `is_alive()`. -/
def alive : Worker C E V → Bool
  | absent | exited _ => false
  | _ => true

/-- Code of the user is running. -/
def inUser : Worker C E V → Bool
  | onStart | onStartError | body _ _ _ | onError _ _ _ _ | onStop _ => true
  | _ => false

end Worker

inductive Method (C : Type) where
  /-- A method call, or the read of a property. -/
  | call
  /-- The attribute of a method is read and not called yet. -/
  | bind
  /-- The function got by the call `b` of `bind` is called. -/
  | apply (b : C)
  | tell
  | stop (timeout : Option PyFloat)
  deriving DecidableEq

namespace Method

variable {C : Type}

/-- What the method sends. -/
def msg (c : C) : Method C → Option (Msg C)
  | call | apply _ => some (.call c true)
  | tell => some (.call c false)
  | stop _ => some .stop
  | bind => none

def timeout : Method C → Option PyFloat
  | stop timeout => timeout
  | _ => none

/-- The method returns a future to its caller. -/
def hasFuture : Method C → Bool
  | call | apply _ => true
  | _ => false

end Method

/-- Where a call stands. -/
inductive Pc where
  /-- About to look at `_stopped`. -/
  | check
  /-- About to enter the locked part of `_ensure_thread_started`. -/
  | ensure
  /-- Has set `_thread` and is about to start it. -/
  | start
  | send (pc : SendPc)
  /-- The send has raised and the future is about to be told. -/
  | setException (msg : String)
  | setStopped
  | readThread
  | join
  | close
  /-- `close` has dropped the sender. -/
  | closeTx
  deriving DecidableEq

inductive Call (C : Type) where
  | idle
  | run (m : Method C) (pc : Pc)
  | done (m : Method C) (r : PyResult Unit)
  deriving DecidableEq

def Call.returned {C : Type} : Call C → Bool
  | .done _ _ => true
  | _ => false

/-- What became of a method body: it returned, or it raised and `on_error` answered, if it did not
raise itself. -/
inductive Report (E V : Type) where
  | returned (v : Option V)
  | raised (e : Exc E) (answer : Option Bool)
  deriving DecidableEq

/-- What the exception handler completes the future with. -/
def handled {E V : Type} (e : Exc E) (answer : Option Bool) : Except (Exc E) (Option V) :=
  if answer = some true then .ok none else .error e

structure State (C E V : Type) where
  /-- `_stopped`. -/
  stopped : Bool
  /-- `_thread` is not `None`. -/
  thread : Bool
  mailbox : Chan C Unit (Msg C)
  worker : Worker C E V
  /-- The call made by the code of the user that runs on the worker thread. -/
  nested : Option C
  calls : C → Call C
  future : C → ActorFuture E V
  /-- The messages whose method bodies have been run, in order, the running one included. -/
  executed : List (Msg C)
  reports : C → List (Report E V)
  /-- How many messages the mailbox had accepted when it was closed first. -/
  closedAt : Option ℕ

inductive Act (C E V : Type) where
  | invoke (c : C) (m : Method C) (onWorker : Bool)
  | step (c : C) (arm : Arm)
  /-- The next step of the worker outside the code of the user. -/
  | work (arm : Arm)
  | onStart (raises : Bool)
  /-- The method body returns or raises. -/
  | body (o : Except E (Option V))
  /-- `on_error` returns, or raises. -/
  | onError (answer : Option Bool)
  /-- `on_stop` returns or raises. -/
  | onStop
  /-- The mailbox has no buffer and the send `c` meets the worker. -/
  | handoff (c : C) (arm : Arm) (arm' : Arm)
  /-- A client cancels the future of `c`. -/
  | cancel (c : C)
  deriving DecidableEq

def stoppedErr : PyErr := .runtimeError "Actor is stopped"
/-- What the future of a message that could not be sent is told. -/
def unsentErr (msg : String) : PyErr := .runtimeError ("Actor is stopped: " ++ msg)
/-- Raised by `Thread.start`. -/
def startTwiceErr : PyErr := .runtimeError "threads can only be started once"
/-- Raised by `Thread.join`. -/
def joinErr : PyErr := .runtimeError "cannot join thread before it is started"

namespace State

variable {C E V : Type} [DecidableEq C]

/-- `Actor.__init__`. -/
def init (mailboxCapacity : Option ℕ) : State C E V where
  stopped := false
  thread := false
  mailbox := .fresh mailboxCapacity
  worker := .absent
  nested := none
  calls _ := .idle
  future _ := .pending
  executed := []
  reports _ := []
  closedAt := none

def setCall (s : State C E V) (c : C) (k : Call C) : State C E V :=
  { s with
    calls := Function.update s.calls c k
    nested := if k.returned ∧ s.nested = some c then none else s.nested }

def setMailbox (s : State C E V) (ch : Chan C Unit (Msg C)) : State C E V :=
  { s with mailbox := ch }

def setWorker (s : State C E V) (w : Worker C E V) : State C E V := { s with worker := w }

def setFuture (s : State C E V) (c : C) (f : ActorFuture E V) : State C E V :=
  { s with future := Function.update s.future c f }

def report (s : State C E V) (c : C) (r : Report E V) : State C E V :=
  { s with reports := Function.update s.reports c (s.reports c ++ [r]) }

/-- The first statement of the mailbox's `close`. -/
def dropSender (s : State C E V) : State C E V :=
  { s with
    mailbox := s.mailbox.dropSender
    closedAt := s.closedAt.or (some s.mailbox.fifo.accepted.length) }

end State

section Call

variable {C E V : Type}

/-- Where a call goes after `_ensure_thread_started`. -/
def afterEnsure : Method C → Call C
  | .bind => .done .bind (.ok ())
  | m => .run m (.send .clone)

/-- Where a call goes after `send`. -/
def afterSend (m : Method C) (r : PyResult Unit) : Call C :=
  match m, r with
  | .stop _, .ok _ | .stop _, .error (.valueError _) | .stop _, .error (.timeoutError _) =>
      .run m .join
  | .call, .error (.valueError msg) | .call, .error (.runtimeError msg)
  | .apply _, .error (.valueError msg) | .apply _, .error (.runtimeError msg) =>
      .run m (.setException msg)
  | _, _ => .done m r

variable [DecidableEq C]

/-- A call may begin: a function that is called has been got before, and the worker thread, which
gets methods without interception, calls only while it runs code of the user, one call at a time. -/
def State.mayInvoke (s : State C E V) (m : Method C) (onWorker : Bool) : Bool :=
  (match m with
    | .apply b => decide (s.calls b = .done .bind (.ok ()))
    | .call | .bind => !onWorker
    | _ => true) &&
  (!onWorker || s.worker.inUser && s.nested.isNone)

/-- The first statement of a method. -/
def Method.first : Method C → Pc
  | .apply _ => .send .clone
  | .stop _ => .setStopped
  | _ => .check

/-- A step of a call on its own. -/
def stepCall (s : State C E V) (c : C) (m : Method C) (pc : Pc) (arm : Arm) :
    Option (State C E V) :=
  match pc, arm with
  | .check, .go =>
      some (s.setCall c (if s.stopped then .done m (.error stoppedErr) else .run m .ensure))
  | .ensure, .go =>
      if s.thread then some (s.setCall c (afterEnsure m))
      else some (State.setCall { s with thread := true } c (.run m .start))
  | .start, .go =>
      if s.worker.started then some (s.setCall c (.done m (.error startTwiceErr)))
      else some ((s.setWorker .onStart).setCall c (afterEnsure m))
  | .send pc, arm => match m.msg c with
      | none => none
      | some msg => (s.mailbox.sendStep c msg m.timeout pc arm).map fun r =>
          (s.setMailbox r.1).setCall c (match r.2 with
            | .goto pc => .run m (.send pc)
            | .ret r => afterSend m r)
  | .setException msg, .go => match (s.future c).complete (.error (.py (unsentErr msg))) with
      | some f => some ((s.setFuture c f).setCall c (.done m (.ok ())))
      | none => some (s.setCall c (.done m (.error .invalidState)))
  | .setStopped, .go => some (State.setCall { s with stopped := true } c (.run m .readThread))
  | .readThread, .go =>
      some (s.setCall c (if s.thread then .run m (.send .clone) else .done m (.ok ())))
  | .join, arm =>
      if s.nested = some c then
        if arm = .go then some (s.setCall c (.run m .close)) else none
      else match s.worker, arm with
        | .absent, .go => some (s.setCall c (.done m (.error joinErr)))
        | .absent, _ => none
        | .exited _, .go => some (s.setCall c (.run m .close))
        | _, .timer => if m.timeout.isSome then some (s.setCall c (.run m .close)) else none
        | _, _ => none
  | .close, .go => some (s.dropSender.setCall c (.run m .closeTx))
  | .closeTx, .go =>
      some ((s.setMailbox s.mailbox.dropCloseTx).setCall c (.done m (.ok ())))
  | _, _ => none

end Call

section Worker

variable {C E V : Type}

/-- Where the worker goes from `recv`. -/
def afterRecv : Out RecvPc (Msg C) → Worker C E V
  | .goto pc => .recv pc
  | .ret (.ok .stop) => .onStop .sentinel
  | .ret (.ok msg) => .drain [msg]
  | .ret (.error (.valueError _)) => .onStop (.closed [])
  | .ret (.error _) => .onStop (.escaped [])

/-- Where the worker goes from `try_recv`. -/
def afterTryRecv (batch : List (Msg C)) : PyResult (Msg C) → Worker C E V
  | .ok .stop => .items (batch ++ [.stop])
  | .ok msg => .drain (batch ++ [msg])
  | .error (.runtimeError _) => .items batch
  | .error (.valueError _) => .onStop (.closed batch)
  | .error _ => .onStop (.escaped batch)

variable [DecidableEq C]

/-- The worker outside the code of the user. -/
def workStep (s : State C E V) (arm : Arm) : Option (State C E V) :=
  match s.worker, arm with
  | .recv pc, arm => (s.mailbox.recvStep () none pc arm).map fun r =>
      (s.setMailbox r.1).setWorker (afterRecv r.2)
  | .drain batch, .go =>
      let r := s.mailbox.tryRecv ()
      some ((s.setMailbox r.1).setWorker (afterTryRecv batch r.2))
  | .items [], .go => some (s.setWorker (.recv (.start none)))
  | .items (.stop :: _), .go => some (s.setWorker (.onStop .sentinel))
  | .items (.call c future :: rest), .go =>
      some (State.setWorker { s with executed := s.executed ++ [.call c future] }
        (.body c future rest))
  | .complete c rest v, .go => match (s.future c).complete (.ok v) with
      | some f => some ((s.setFuture c f).setWorker (.items rest))
      | none => some (s.setWorker (.onError c true rest (.py .invalidState)))
  | .completeErr c rest o, .go => match (s.future c).complete o with
      | some f => some ((s.setFuture c f).setWorker (.items rest))
      | none => some (s.setWorker (.onStop (.escaped rest)))
  | _, _ => none

/-- A call with a message for a waiting worker: the message, whether the call is waiting itself, and
how it goes on. -/
def Call.offer (c : C) (k : Call C) (arm : Arm) : Option (Msg C × Bool × Call C) :=
  match k with
  | .run m (.send pc) => match m.msg c, pc.offer arm with
      | some msg, some b => some (msg, b, .run m (.send (.drop (.ok ()))))
      | _, _ => none
  | _ => none

/-- The worker can take the message of a waiting call: whether it is waiting itself, and how it goes
on with the message. -/
def Worker.want (w : Worker C E V) (arm : Arm) : Option (Bool × (Msg C → Worker C E V)) :=
  match w with
  | .recv pc => (pc.want arm).map fun b => (b, fun msg => afterRecv (.ret (.ok msg)))
  | .drain batch =>
      if arm = .go then some (false, fun msg => afterTryRecv batch (.ok msg)) else none
  | _ => none

/-- The step of an actor under its clients. -/
def next (s : State C E V) : Act C E V → Option (State C E V)
  | .invoke c m onWorker => match s.calls c with
      | .idle =>
          if s.mayInvoke m onWorker then
            some (State.setCall { s with nested := if onWorker then some c else s.nested } c
              (.run m m.first))
          else none
      | _ => none
  | .step c arm => match s.calls c with
      | .run m pc => stepCall s c m pc arm
      | _ => none
  | .work arm => workStep s arm
  | .onStart raises => match s.worker, s.nested with
      | .onStart, none =>
          some (s.setWorker (if raises then .onStartError else .recv (.start none)))
      | _, _ => none
  | .body o => match s.worker, s.nested with
      | .body c future rest, none => match o with
          | .ok v => some ((s.report c (.returned v)).setWorker
              (if future then .complete c rest v else .items rest))
          | .error e => some (s.setWorker (.onError c future rest (.user e)))
      | _, _ => none
  | .onError answer => match s.worker, s.nested with
      | .onStartError, none => some (s.setWorker (.recv (.start none)))
      | .onError c future rest e, none => some ((s.report c (.raised e answer)).setWorker
          (if future then .completeErr c rest (handled e answer) else .items rest))
      | _, _ => none
  | .onStop => match s.worker, s.nested with
      | .onStop why, none => some (s.setWorker (.exited why))
      | _, _ => none
  | .handoff c arm arm' => match (s.calls c).offer c arm, s.worker.want arm' with
      | some (msg, b, k), some (b', w) =>
          if b || b' then
            (s.mailbox.handoff c () msg).map fun ch =>
              ((s.setMailbox ch).setWorker (w msg)).setCall c k
          else none
      | _, _ => none
  | .cancel c => match s.calls c with
      | .done m (.ok _) =>
          if m.hasFuture then some (s.setFuture c (s.future c).cancel.1) else none
      | _ => none

end Worker

end Pysync.Actor
