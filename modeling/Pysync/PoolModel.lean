import Pysync.PyErr
import Pysync.FutureModel
import Pysync.QueueFifo
import Pysync.TransitionRun
import Mathlib.Data.Finset.Insert
import Mathlib.Data.Finset.Erase
import Mathlib.Data.Fintype.Basic
import Mathlib.Data.PNat.Notation
import Mathlib.Logic.Function.Basic

/-!
One `ThreadPool` under all its callers and its workers, interleaved step by step. A task goes by the
name of the `submit` call that made it, and so does its future. What a callable returns or raises is
part of the action. `shutdown` and the drop of the pool run on threads that are not its workers, and
no thread holds an interpreter lock against another.

PyO3 turns a Rust panic into a `PanicException` and, where Rust code fetches such an exception, back
into a panic. Nothing in the worker loop catches it, so that it ends the thread.
-/

namespace Pysync.Pool
open Queue

/-- The number of workers `ThreadPool::new` starts; `parallelism` is what `available_parallelism`
reports, if it reports anything. -/
def workersCount (numWorkers : Option ℤ) (parallelism : Option ℕ+) : PyResult ℕ+ :=
  match numWorkers with
  | none => .ok (parallelism.getD ⟨4, Nat.succ_pos 3⟩)
  | some val =>
      if h : val ≤ 0 then .error (.valueError "num_workers must be greater than zero")
      else .ok ⟨val.toNat, Int.pos_iff_toNat_pos.mp (Int.not_le.mp h)⟩

/-- What has happened to the callable of a task. -/
inductive Event (E V : Type) where
  | started
  | returned (o : Except E V)
  /-- It has raised a `PanicException`. -/
  | panicked
  deriving DecidableEq

/-- Where a worker stands in its loop. -/
inductive WorkerPc (C E V : Type) where
  /-- Waiting for a task. -/
  | recv
  /-- About to look at the cancel flag. -/
  | got (task : C)
  /-- About to cancel the future. -/
  | cancel (task : C)
  | run (task : C)
  /-- About to complete the future. -/
  | complete (task : C) (o : Except E V)
  | exited
  /-- A panic has unwound the thread. -/
  | panicked
  deriving DecidableEq

def WorkerPc.task {C E V : Type} : WorkerPc C E V → Option C
  | recv | exited | panicked => none
  | got c | cancel c | run c | complete c _ => some c

/-- The thread has ended. -/
def WorkerPc.Ended {C E V : Type} : WorkerPc C E V → Prop
  | exited | panicked => True
  | _ => False

instance {C E V : Type} : DecidablePred (WorkerPc.Ended : WorkerPc C E V → Prop)
  | .exited | .panicked => isTrue trivial
  | .recv | .got _ | .cancel _ | .run _ | .complete _ _ => isFalse id

theorem WorkerPc.Ended.task_eq {C E V : Type} {pc : WorkerPc C E V} (h : pc.Ended) :
    pc.task = none := by
  cases pc with
  | exited | panicked => rfl
  | _ => exact h.elim

inductive Method where
  | submit
  | shutdown (wait cancelFutures : Bool)
  deriving DecidableEq

/-- Where a call stands. -/
inductive Pc where
  /-- `submit` or `shutdown` is about to lock `active`. -/
  | active
  /-- `submit` is about to look at the sender. -/
  | sender
  /-- `submit` is about to send its task. -/
  | send
  /-- `shutdown` is about to set the cancel flag, if it is to. -/
  | cancelFlag
  /-- `shutdown` is about to drop the sender. -/
  | dropSender
  /-- `shutdown` is about to take the workers and to join them, or leave that to a helper thread. -/
  | join
  /-- About to return and give its borrow back. -/
  | ret (r : PyResult Unit)
  deriving DecidableEq

inductive Call where
  | idle
  | run (m : Method) (pc : Pc)
  | done (m : Method) (r : PyResult Unit)
  deriving DecidableEq

/-- Where `Drop::drop` stands. -/
inductive DropPc where
  | alive
  | active
  | sender
  | join
  | dropped
  deriving DecidableEq

structure State (n : ℕ) (C E V : Type) where
  queue : Fifo Unit (Fin n) C
  /-- `self.sender` is `Some`; `submit` borrows it and takes no clone. -/
  sender : Bool
  active : Bool
  cancelPending : Bool
  /-- `self.workers` has not been taken yet. -/
  workers : Bool
  /-- The calls that hold a shared borrow of the pool. -/
  shared : Finset C
  /-- The call that holds the exclusive borrow. -/
  exclusive : Option C
  drop : DropPc
  worker : Fin n → WorkerPc C E V
  future : C → Future E V
  calls : C → Call
  events : C → List (Event E V)

inductive Act (n : ℕ) (C E V : Type) where
  | invoke (c : C) (m : Method)
  | step (c : C)
  /-- The next step of a worker other than the end of a callable. -/
  | work (w : Fin n)
  /-- The callable that the worker runs returns or raises. -/
  | finish (w : Fin n) (o : Except E V)
  /-- The callable that the worker runs, or a done callback of the future that it cancels or completes,
  raises a `PanicException`. -/
  | panic (w : Fin n)
  /-- The next step of dropping the pool. -/
  | drop
  /-- A client calls `cancel()` on a future. -/
  | clientCancel (c : C)
  deriving DecidableEq

def shutdownErr : PyErr := .runtimeError "ThreadPool is shutdown"
def submitErr : PyErr := .runtimeError "Failed to submit task to worker threads"
/-- PyO3 refuses a shared borrow during an exclusive one. -/
def mutablyBorrowedErr : PyErr := .runtimeError "Already mutably borrowed"
/-- PyO3 refuses an exclusive borrow during any other. -/
def borrowedErr : PyErr := .runtimeError "Already borrowed"

/-- The worker of a pool of one. -/
abbrev only : Fin 1 := Fin.last 0

namespace State

variable {n : ℕ} {C E V : Type} [DecidableEq C]

/-- `ThreadPool::new` with `n` workers. -/
def init : State n C E V where
  queue := .empty none
  sender := true
  active := true
  cancelPending := false
  workers := true
  shared := ∅
  exclusive := none
  drop := .alive
  worker _ := .recv
  future _ := .pending
  calls _ := .idle
  events _ := []

def setCall (s : State n C E V) (c : C) (k : Call) : State n C E V :=
  { s with calls := Function.update s.calls c k }

def setWorker (s : State n C E V) (w : Fin n) (pc : WorkerPc C E V) : State n C E V :=
  { s with worker := Function.update s.worker w pc }

def setFuture (s : State n C E V) (c : C) (f : Future E V) : State n C E V :=
  { s with future := Function.update s.future c f }

def log (s : State n C E V) (c : C) (e : Event E V) : State n C E V :=
  { s with events := Function.update s.events c (s.events c ++ [e]) }

/-- Every worker thread has ended, and with it every receiver is gone: what is queued then stays
unread. -/
def allExited (s : State n C E V) : Prop := ∀ w, (s.worker w).Ended

instance (s : State n C E V) : Decidable s.allExited :=
  inferInstanceAs (Decidable (∀ w, (s.worker w).Ended))

end State

/-- `ThreadPool::new`. -/
def new {C E V : Type} (numWorkers : Option ℤ) (parallelism : Option ℕ+) :
    PyResult (Σ n : ℕ+, State n C E V) :=
  (workersCount numWorkers parallelism).map fun n => ⟨n, .init⟩

section Step

variable {n : ℕ} {C E V : Type} [DecidableEq C]

/-- A call begins by borrowing the pool; a dropped pool has no callers left. -/
def invoke (s : State n C E V) (c : C) (m : Method) : Option (State n C E V) :=
  if s.calls c ≠ .idle ∨ s.drop ≠ .alive then none
  else match m with
    | .submit =>
        if s.exclusive.isSome then some (s.setCall c (.done m (.error mutablyBorrowedErr)))
        else some (State.setCall { s with shared := insert c s.shared } c (.run m .active))
    | .shutdown _ _ =>
        if s.exclusive.isSome ∨ s.shared ≠ ∅ then some (s.setCall c (.done m (.error borrowedErr)))
        else some (State.setCall { s with exclusive := some c } c (.run m .active))

def submitStep (s : State n C E V) (c : C) : Pc → Option (State n C E V)
  | .active =>
      some (s.setCall c (.run .submit (if s.active then .sender else .ret (.error shutdownErr))))
  | .sender =>
      some (s.setCall c (.run .submit (if s.sender then .send else .ret (.error shutdownErr))))
  | .send =>
      if s.allExited then some (s.setCall c (.run .submit (.ret (.error submitErr))))
      else (s.queue.push () c).map fun q =>
        State.setCall { s with queue := q } c (.run .submit (.ret (.ok ())))
  | .ret r => some (State.setCall { s with shared := s.shared.erase c } c (.done .submit r))
  | _ => none

def shutdownStep (s : State n C E V) (c : C) (wait cancelFutures : Bool) :
    Pc → Option (State n C E V)
  | .active =>
      if s.active then
        some (State.setCall { s with active := false } c
          (.run (.shutdown wait cancelFutures) .cancelFlag))
      else some (s.setCall c (.run (.shutdown wait cancelFutures) (.ret (.ok ()))))
  | .cancelFlag =>
      some (State.setCall { s with cancelPending := s.cancelPending || cancelFutures } c
        (.run (.shutdown wait cancelFutures) .dropSender))
  | .dropSender =>
      some (State.setCall { s with sender := false } c (.run (.shutdown wait cancelFutures) .join))
  | .join =>
      if wait ∧ s.workers ∧ ¬ s.allExited then none
      else some (State.setCall { s with workers := false } c
        (.run (.shutdown wait cancelFutures) (.ret (.ok ()))))
  | .ret r =>
      some (State.setCall { s with exclusive := none } c (.done (.shutdown wait cancelFutures) r))
  | _ => none

/-- The worker loop. The result of `cancel`, `set_result` and `set_exception` is ignored. -/
def workStep (s : State n C E V) (w : Fin n) : WorkerPc C E V → Option (State n C E V)
  | .recv => match s.queue.pop w with
      | some (c, q) => some (State.setWorker { s with queue := q } w (.got c))
      | none => if s.sender then none else some (s.setWorker w .exited)
  | .got c =>
      if s.cancelPending then some (s.setWorker w (.cancel c))
      else some ((s.log c .started).setWorker w (.run c))
  | .cancel c => some ((s.setFuture c (s.future c).cancel.1).setWorker w .recv)
  | .complete c o =>
      some ((s.setFuture c (((s.future c).complete o).getD (s.future c))).setWorker w .recv)
  | .run _ | .exited | .panicked => none

/-- A panic in the worker loop. `set_exception` is not called for a callable that panics; a done
callback is called after the future has been set, and only if it was pending. -/
def panicStep (s : State n C E V) (w : Fin n) : WorkerPc C E V → Option (State n C E V)
  | .run c => some ((s.log c .panicked).setWorker w .panicked)
  | .cancel c =>
      if (s.future c).done then none
      else some ((s.setFuture c (s.future c).cancel.1).setWorker w .panicked)
  | .complete c o =>
      if (s.future c).done then none
      else some ((s.setFuture c (((s.future c).complete o).getD (s.future c))).setWorker w .panicked)
  | .recv | .got _ | .exited | .panicked => none

/-- `Drop::drop` runs when nobody refers to the pool any more, so that no call is in progress. -/
def dropStep (s : State n C E V) : Option (State n C E V) :=
  match s.drop with
  | .alive =>
      if s.shared = ∅ ∧ s.exclusive = none then some { s with drop := .active } else none
  | .active => some { s with active := false, drop := .sender }
  | .sender => some { s with sender := false, drop := .join }
  | .join =>
      if s.workers ∧ ¬ s.allExited then none else some { s with workers := false, drop := .dropped }
  | .dropped => none

/-- The step of the pool. -/
def next (s : State n C E V) : Act n C E V → Option (State n C E V)
  | .invoke c m => invoke s c m
  | .step c => match s.calls c with
      | .run .submit pc => submitStep s c pc
      | .run (.shutdown wait cancelFutures) pc => shutdownStep s c wait cancelFutures pc
      | _ => none
  | .work w => workStep s w (s.worker w)
  | .finish w o => match s.worker w with
      | .run c => some ((s.log c (.returned o)).setWorker w (.complete c o))
      | _ => none
  | .panic w => panicStep s w (s.worker w)
  | .drop => dropStep s
  | .clientCancel c => some (s.setFuture c (s.future c).cancel.1)

end Step

end Pysync.Pool
