import Pysync.PoolModel
import Mathlib.Data.List.FinRange

/-!
The end of a `ThreadPool`, thread by thread: on which thread `shutdown` and the drop of the pool run,
whether that thread is attached to the interpreter, and who holds the GIL, if there is one. A task may
do what any Python code may do: call the pool, copy and release references to it, and wait. The
references are counted, those of the queued tasks among them; a call holds one of its own. Whether a
worker runs the callable of a task or cancels its future, it is Python code that runs; a task that ends
in a panic, with which its worker exits and holds up nobody, is not among the tasks.

`JoinHandle::join` of the joining thread itself is documented as a deadlock or a panic. Here the worker
that joins itself stays where it is; on Linux and macOS it panics instead as soon as it joins.
-/

namespace Pysync.Teardown
open Pool (Method DropPc)

inductive Thread (n : ℕ) (T : Type) where
  | worker (w : Fin n)
  | other (t : T)
  deriving DecidableEq

/-- How a thread stands to the interpreter. -/
inductive Attach where
  | detached
  /-- About to attach, which waits for the GIL. -/
  | attaching
  | attached
  deriving DecidableEq

/-- Where a thread stands. -/
inductive Pc (n : ℕ) where
  /-- A worker is about to receive a task. -/
  | recv
  | exited
  /-- Python code, which is that of a task on a worker. -/
  | python
  | call (m : Method) (pc : Pool.Pc)
  /-- `shutdown` joins the workers that it has taken, detached. -/
  | join (m : Method) (workers : List (Fin n))
  | drop (pc : DropPc)
  /-- `Drop::drop` joins the workers. -/
  | dropJoin (workers : List (Fin n))
  deriving DecidableEq

/-- Python code runs, so that the interpreter may switch threads. -/
def Pc.switches {n : ℕ} : Pc n → Bool
  | python | call .submit _ => true
  | _ => false

structure State (n : ℕ) (T : Type) where
  gil : Option (Thread n T)
  attach : Thread n T → Attach
  pc : Thread n T → Pc n
  /-- How many tasks are queued. -/
  queue : ℕ
  /-- `self.sender` is `Some`. -/
  sender : Bool
  active : Bool
  /-- `self.workers` has not been taken yet. -/
  workers : Bool
  /-- The references to the pool, those of the calls in progress apart. -/
  refs : ℕ
  /-- The threads that hold a borrow of the pool. -/
  callers : Finset (Thread n T)
  /-- The borrow is an exclusive one. -/
  exclusive : Bool

inductive Act (n : ℕ) (T : Type) where
  /-- Python code calls a method of the pool. -/
  | invoke (t : Thread n T) (m : Method)
  /-- The next step of a method, of the drop, or of a worker between its tasks. -/
  | step (t : Thread n T)
  /-- The code that a worker runs for its task ends. -/
  | endTask (w : Fin n)
  /-- Python code copies a reference to the pool. -/
  | copy (t : Thread n T)
  | release (t : Thread n T)
  /-- Python code waits for something else than the GIL. -/
  | pause (t : Thread n T)
  | resume (t : Thread n T)
  | attach (t : Thread n T)
  /-- The interpreter lets another thread run. -/
  | yield (t : Thread n T)
  deriving DecidableEq

namespace State

variable {n : ℕ} {T : Type}

/-- `ThreadPool::new` with `n` workers has returned. -/
def init : State n T where
  gil := none
  attach _ := .detached
  pc
    | .worker _ => .recv
    | .other _ => .python
  queue := 0
  sender := true
  active := true
  workers := true
  refs := 1
  callers := ∅
  exclusive := false

variable [DecidableEq T]

def setPc (s : State n T) (t : Thread n T) (pc : Pc n) : State n T :=
  { s with pc := Function.update s.pc t pc }

/-- The thread `t` is no longer attached. -/
def leave (s : State n T) (t : Thread n T) (x : Attach) : State n T :=
  { s with
    attach := Function.update s.attach t x
    gil := if s.gil = some t then none else s.gil }

/-- The thread `t` runs Python code. -/
def inPython (s : State n T) (t : Thread n T) : Prop :=
  s.pc t = .python ∧ s.attach t = .attached

instance (s : State n T) (t : Thread n T) : Decidable (s.inPython t) :=
  inferInstanceAs (Decidable (_ ∧ _))

/-- Where the thread `t` goes when it has given back a reference or a borrow. -/
def afterRelease (s : State n T) (t : Thread n T) : State n T :=
  s.setPc t (if s.refs = 0 ∧ s.callers = ∅ then .drop .active else .python)

/-- `std::mem::take(&mut self.workers)`. -/
def handles (s : State n T) : List (Fin n) := if s.workers then List.finRange n else []

end State

section Step

variable {n : ℕ} {T : Type} [DecidableEq T]

def submitStep (s : State n T) (t : Thread n T) : Pool.Pc → Option (State n T)
  | .active =>
      some (s.setPc t (.call .submit (if s.active then .sender else .ret (.error Pool.shutdownErr))))
  | .sender =>
      some (s.setPc t (.call .submit (if s.sender then .send else .ret (.error Pool.shutdownErr))))
  | .send =>
      if ∀ w, s.pc (.worker w) = .exited then
        some (s.setPc t (.call .submit (.ret (.error Pool.submitErr))))
      else some (State.setPc { s with queue := s.queue + 1 } t (.call .submit (.ret (.ok ()))))
  | .ret _ => some (State.afterRelease { s with callers := s.callers.erase t } t)
  | _ => none

def shutdownStep (s : State n T) (t : Thread n T) (wait cancelFutures : Bool) :
    Pool.Pc → Option (State n T)
  | .active =>
      if s.active then
        some (State.setPc { s with active := false } t
          (.call (.shutdown wait cancelFutures) .cancelFlag))
      else some (s.setPc t (.call (.shutdown wait cancelFutures) (.ret (.ok ()))))
  | .cancelFlag => some (s.setPc t (.call (.shutdown wait cancelFutures) .dropSender))
  | .dropSender =>
      some (State.setPc { s with sender := false } t (.call (.shutdown wait cancelFutures) .join))
  | .join =>
      if wait ∧ s.handles ≠ [] then
        some ((State.leave { s with workers := false } t .detached).setPc t
          (.join (.shutdown wait cancelFutures) s.handles))
      else some (State.setPc { s with workers := false } t
        (.call (.shutdown wait cancelFutures) (.ret (.ok ()))))
  | .ret _ =>
      some (State.afterRelease { s with callers := s.callers.erase t, exclusive := false } t)
  | _ => none

/-- `Drop::drop`. -/
def dropStep (s : State n T) (t : Thread n T) : DropPc → Option (State n T)
  | .active => some (State.setPc { s with active := false } t (.drop .sender))
  | .sender => some (State.setPc { s with sender := false } t (.drop .join))
  | .join => some (State.setPc { s with workers := false } t (.dropJoin s.handles))
  | _ => none

def step (s : State n T) (t : Thread n T) : Pc n → Option (State n T)
  | .recv =>
      if 0 < s.queue then
        some ((State.leave { s with queue := s.queue - 1 } t .attaching).setPc t .python)
      else if s.sender then none
      else some (s.setPc t .exited)
  | .call m pc =>
      if s.attach t = .attached then match m with
        | .submit => submitStep s t pc
        | .shutdown wait cancelFutures => shutdownStep s t wait cancelFutures pc
      else none
  | .join m (w :: rest) =>
      if s.pc (.worker w) = .exited then some (s.setPc t (.join m rest)) else none
  | .join m [] => some ((s.leave t .attaching).setPc t (.call m (.ret (.ok ()))))
  | .drop pc => dropStep s t pc
  | .dropJoin (w :: rest) =>
      if s.pc (.worker w) = .exited then some (s.setPc t (.dropJoin rest)) else none
  | .dropJoin [] => some (s.setPc t .python)
  | .exited | .python => none

/-- The step of a pool and of the threads that have to do with it. -/
def next (hasGil : Bool) (s : State n T) : Act n T → Option (State n T)
  | .invoke t m =>
      if s.inPython t ∧ 0 < s.refs then match m with
        | .submit =>
            -- a call that cannot borrow the pool raises at once
            if s.exclusive then some s
            else some (State.setPc { s with callers := insert t s.callers } t (.call m .active))
        | .shutdown _ _ =>
            if s.callers ≠ ∅ then some s
            else some (State.setPc { s with callers := insert t s.callers, exclusive := true } t
              (.call m .active))
      else none
  | .step t => step s t (s.pc t)
  | .endTask w =>
      if s.inPython (.worker w) then some ((s.leave (.worker w) .detached).setPc (.worker w) .recv)
      else none
  | .copy t => if s.inPython t ∧ 0 < s.refs then some { s with refs := s.refs + 1 } else none
  | .release t =>
      if s.inPython t ∧ 0 < s.refs then some (State.afterRelease { s with refs := s.refs - 1 } t)
      else none
  | .pause t => if s.inPython t then some (s.leave t .detached) else none
  | .resume t =>
      if s.pc t = .python ∧ s.attach t = .detached then some (s.leave t .attaching) else none
  | .attach t =>
      if s.attach t = .attaching ∧ (hasGil = true → s.gil = none) then
        some { s with
          attach := Function.update s.attach t .attached
          gil := if hasGil then some t else s.gil }
      else none
  | .yield t =>
      if (s.pc t).switches ∧ s.attach t = .attached then some (s.leave t .attaching) else none

end Step

end Pysync.Teardown
