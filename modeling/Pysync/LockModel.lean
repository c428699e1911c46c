import Pysync.ReadWrite
import Pysync.TransitionRun
import Pysync.PyErr
import Mathlib.Logic.Function.Basic

/-!
`RwLock` and its guards. Threads, locks and guards are of arbitrary types; all locks are there from
the start, and a guard is used and dropped on the thread that made it only. What `__enter__` and
`__exit__` read and write apart from the lock, the thread's own counter and the thread's own guard, no
other thread touches, so that a call is one step up to the point where it returns or waits; a wait ends
when the lock is given to the thread.

The lock under the guards is `parking_lot`'s. Of its answers `nextAny` takes the exclusion only, and
lets them differ from step to step, since they depend on more than who holds the lock. `next` takes
besides what `parking_lot` documents of `read` and `read_recursive`: a plain read waits while a writer
holds the lock or waits for it, a recursive one goes on beside any reader. It leaves out the readers
that the lock wakes, when it is given back, past a writer that is still queued.
-/

namespace Pysync.Lock
open ReadWrite (Lock Policy)

/-- `RwLockReadGuard` or `RwLockWriteGuard`. -/
structure Guard (T L : Type*) where
  /-- The thread that made the guard. -/
  owner : T
  lock : L
  /-- `guard` is `Some`. -/
  guard : Bool
  deriving DecidableEq

/-- What a thread does: it runs Python code, or waits in the slow path of an `__enter__`. -/
inductive Frame (G L : Type*) where
  | python
  | readArc (g : G) (lock : L) (isReentrant : Bool)
  | writeArc (g : G) (lock : L)
  deriving DecidableEq

/-- How an `__enter__` of a read guard takes the lock. -/
inductive Path where
  | plain
  | recursive
  deriving DecidableEq

def Path.of (isReentrant : Bool) : Path := if isReentrant then .recursive else .plain

/-- What the steps of an `__enter__` that takes the lock by `p` come to: it raises, returns with the
lock, or waits in its slow path. -/
inductive Entry (P : Type) where
  | raised (e : PyErr)
  | acquired (p : P)
  | waits (p : P)
  deriving DecidableEq

def Entry.path {P : Type} : Entry P → Option P
  | .raised _ => none
  | .acquired p | .waits p => some p

def enteredErr : PyErr := .runtimeError "Lock guard already entered"

structure State (T G L : Type*) where
  /-- `READ_DEPTH` of each thread. -/
  readDepth : T → ℕ
  frame : T → Frame G L
  readGuards : G → Option (Guard T L)
  writeGuards : G → Option (Guard T L)
  lock : L → Lock G

inductive Act (T G L : Type*) where
  /-- `RwLock::read`. -/
  | read (t : T) (l : L) (g : G)
  | readEnter (g : G)
  /-- The lock is given to a thread that waits for it in `__enter__` of a read guard. -/
  | readArc (t : T)
  | readExit (g : G)
  /-- The last reference to a read guard goes. -/
  | readDrop (g : G)
  /-- `RwLock::write`. -/
  | write (t : T) (l : L) (g : G)
  | writeEnter (g : G)
  | writeArc (t : T)
  | writeExit (g : G)
  | writeDrop (g : G)
  deriving DecidableEq

namespace State

variable {T G L : Type*}

def init : State T G L where
  readDepth _ := 0
  frame _ := .python
  readGuards _ := none
  writeGuards _ := none
  lock _ := .free

/-- The thread `t` has entered the read guard `g` of the lock `l`, and not left it yet. -/
def Entered (s : State T G L) (t : T) (l : L) (g : G) : Prop :=
  s.readGuards g = some ⟨t, l, true⟩

/-- The thread `t` holds an entered read guard of the lock `l`. -/
def HoldsRead (s : State T G L) (t : T) (l : L) : Prop := ∃ g, s.Entered t l g

def isReentrant (s : State T G L) (t : T) : Bool := decide (0 < s.readDepth t)

variable [DecidableEq T] [DecidableEq G] [DecidableEq L]

def setFrame (s : State T G L) (t : T) (f : Frame G L) : State T G L :=
  { s with frame := Function.update s.frame t f }

def setLock (s : State T G L) (l : L) (raw : Lock G) : State T G L :=
  { s with lock := Function.update s.lock l raw }

def setReadGuard (s : State T G L) (g : G) (x : Option (Guard T L)) : State T G L :=
  { s with readGuards := Function.update s.readGuards g x }

def setWriteGuard (s : State T G L) (g : G) (x : Option (Guard T L)) : State T G L :=
  { s with writeGuards := Function.update s.writeGuards g x }

/-- `*depth += 1` and `guard = Some(..)`, with the lock in the state `raw`. -/
def readAcquired (s : State T G L) (t : T) (l : L) (g : G) (raw : Lock G) : State T G L :=
  { s.setLock l raw with
    readDepth := Function.update s.readDepth t (s.readDepth t + 1)
    readGuards := Function.update s.readGuards g (some ⟨t, l, true⟩) }

/-- `guard = None`, which releases the lock that the guard held. -/
def readReleased (s : State T G L) (g : G) (r : Guard T L) (x : Option (Guard T L)) : State T G L :=
  (s.setLock r.lock ((s.lock r.lock).releaseRead g)).setReadGuard g x

end State

section Calls

variable {T G L : Type*} [DecidableEq T] [DecidableEq G] [DecidableEq L]

/-- `try_read_recursive_arc` or `try_read_arc`. -/
def tryOpt (p : Policy G) (s : State T G L) (g : G) (r : Guard T L) : Option (Lock G) :=
  p.tryRead (s.lock r.lock) (s.isReentrant r.owner) g

/-- `RwLockReadGuard::__enter__`, of a lock that answers by `p`. -/
def readEnterBy (p : Policy G) (s : State T G L) (g : G) (r : Guard T L) :
    Entry Path × State T G L :=
  if r.guard then (.raised enteredErr, s)
  else match tryOpt p s g r with
    | some raw =>
        (.acquired (.of (s.isReentrant r.owner)), s.readAcquired r.owner r.lock g raw)
    | none =>
        (.waits (.of (s.isReentrant r.owner)),
          s.setFrame r.owner (.readArc g r.lock (s.isReentrant r.owner)))

/-- `RwLockReadGuard::__exit__`, which leaves a depth of `0` as it is. -/
def readExit (s : State T G L) (g : G) (r : Guard T L) : State T G L :=
  if r.guard then
    State.readReleased
      { s with readDepth := Function.update s.readDepth r.owner (s.readDepth r.owner - 1) }
      g r (some { r with guard := false })
  else s

/-- The drop of a `RwLockReadGuard`: that of its fields. -/
def readDrop (s : State T G L) (g : G) (r : Guard T L) : State T G L :=
  if r.guard then s.readReleased g r none else s.setReadGuard g none

/-- `RwLockWriteGuard::__enter__`, of a lock that answers by `p`. -/
def writeEnterBy (p : Policy G) (s : State T G L) (g : G) (r : Guard T L) :
    Entry Unit × State T G L :=
  if r.guard then (.raised enteredErr, s)
  else match p.tryWrite (s.lock r.lock) g with
    | some raw => (.acquired (), (s.setLock r.lock raw).setWriteGuard g (some { r with guard := true }))
    | none =>
        (.waits (),
          (s.setLock r.lock ((s.lock r.lock).enqueue g)).setFrame r.owner (.writeArc g r.lock))

/-- `guard = None`. -/
def writeRelease (s : State T G L) (g : G) (r : Guard T L) (x : Option (Guard T L)) : State T G L :=
  if r.guard then (s.setLock r.lock (s.lock r.lock).releaseWrite).setWriteGuard g x
  else s.setWriteGuard g x

/-- A call on a guard, made by the thread that owns it. -/
def onGuard (s : State T G L) (x : Option (Guard T L)) (f : Guard T L → State T G L) :
    Option (State T G L) :=
  match x with
  | some r => if s.frame r.owner = .python then some (f r) else none
  | none => none

def nextBy (p : Policy G) (s : State T G L) : Act T G L → Option (State T G L)
  | .read t l g =>
      if s.frame t = .python ∧ s.readGuards g = none then
        some (s.setReadGuard g (some ⟨t, l, false⟩))
      else none
  | .readEnter g => onGuard s (s.readGuards g) fun r => (readEnterBy p s g r).2
  | .readArc t => match s.frame t with
      | .readArc g l isReentrant =>
          (p.tryRead (s.lock l) isReentrant g).map fun raw =>
            (s.readAcquired t l g raw).setFrame t .python
      | _ => none
  | .readExit g => onGuard s (s.readGuards g) (readExit s g)
  | .readDrop g => onGuard s (s.readGuards g) (readDrop s g)
  | .write t l g =>
      if s.frame t = .python ∧ s.writeGuards g = none then
        some (s.setWriteGuard g (some ⟨t, l, false⟩))
      else none
  | .writeEnter g => onGuard s (s.writeGuards g) fun r => (writeEnterBy p s g r).2
  | .writeArc t => match s.frame t with
      | .writeArc g l =>
          (p.tryWrite (s.lock l) g).map fun raw =>
            ((s.setLock l (raw.dequeue g)).setWriteGuard g (some ⟨t, l, true⟩)).setFrame t .python
      | _ => none
  | .writeExit g =>
      onGuard s (s.writeGuards g) fun r => writeRelease s g r (some { r with guard := false })
  | .writeDrop g => onGuard s (s.writeGuards g) fun r => writeRelease s g r none

/-- `RwLockReadGuard::__enter__`. -/
def readEnter (s : State T G L) (g : G) (r : Guard T L) : Entry Path × State T G L :=
  readEnterBy .writersFirst s g r

def next (s : State T G L) (a : Act T G L) : Option (State T G L) := nextBy .writersFirst s a

/-- A step with the answers that the lock gives at it. -/
def nextAny (s : State T G L) (x : Act T G L × Policy G) : Option (State T G L) := nextBy x.2 s x.1

end Calls

end Pysync.Lock
