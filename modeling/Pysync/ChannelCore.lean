import Pysync.PyErr
import Pysync.QueueFifo
import Mathlib.Data.Finset.Insert
import Mathlib.Data.Finset.Erase
import Mathlib.Data.Rat.Defs
import Mathlib.Algebra.Order.Ring.Rat

/-!
One `Channel` object and the calls on it, each step being one access to what the callers share. Of
`crossbeam_channel` this takes what it documents: the queue is a FIFO that is disconnected once every
`Sender` clone has been dropped, and still gives out what is in it then; a `select!` performs any one
of its ready arms. The `Channel` object stays referenced, so that no send ever sees its receiver gone.
-/

namespace Pysync.Channel
open Queue

/-- A Python float; the finite ones are taken as exact. -/
inductive PyFloat where
  | nan
  | inf
  | negInf
  | fin (q : ℚ)
  deriving DecidableEq

namespace PyFloat

/-- `t < 0.0`. -/
def isNegative : PyFloat → Bool
  | nan | inf => false
  | negInf => true
  | fin q => q < 0

/-- `t.max(0.0)`, which is `0.0` for a NaN. -/
def max0 : PyFloat → PyFloat
  | nan | negInf => fin 0
  | inf => inf
  | fin q => fin (max q 0)

/-- `Duration::from_secs_f64` panics outside its domain. -/
def fromSecs : PyFloat → PyResult ℚ
  | fin q => if 0 ≤ q ∧ q < 2 ^ 64 then .ok q else .error .panic
  | nan | inf | negInf => .error .panic

/-- What `send` and `recv` do with a timeout before they wait. -/
def check (t : PyFloat) : PyResult ℚ :=
  if t.isNegative then .error (.valueError "Timeout must be non-negative") else t.fromSecs

end PyFloat

/-- The timeout of `send` or `recv`, if there is one. -/
def checkTimeout (timeout : Option PyFloat) : PyResult (Option ℚ) :=
  match timeout with
  | none => .ok none
  | some t => t.check.map some

/-- `S` names the calls and objects that may hold a clone of the `Sender`, `R` the receiving calls. -/
structure Chan (S R T : Type) where
  fifo : Fifo S R T
  /-- `self.sender` is `Some`. -/
  sender : Bool
  /-- `self.close_tx` is `Some`; once it is not, `close_rx` is ready. -/
  closeTx : Bool
  /-- Who holds a clone of the `Sender`. -/
  senders : Finset S
  /-- Some receive has found the channel closed and empty. -/
  told : Bool

/-- Which of the things a call may do next it does. -/
inductive Arm where
  /-- The next statement. -/
  | go
  /-- The arms of the `select!` of `send` and `recv`. -/
  | data
  | close
  | timer
  /-- An operation of a `Select`, by its index. -/
  | op (selectIdx : ℕ)
  /-- An operation of a `Select` is tried and is not ready. -/
  | miss (selectIdx : ℕ)
  deriving DecidableEq

/-- How a step of a call ends: the call goes on, or it returns. -/
inductive Out (Pc R : Type) where
  | goto (pc : Pc)
  | ret (r : PyResult R)
  deriving DecidableEq

/-- Where a `send` stands. -/
inductive SendPc where
  /-- About to clone the sender under the read lock. -/
  | clone
  | trySend
  /-- About to look at the timeout. -/
  | arm
  | select
  /-- About to return and drop its clone. -/
  | drop (r : PyResult Unit)
  deriving DecidableEq

/-- Where a `recv` stands. -/
inductive RecvPc where
  | tryRecv
  | arm
  | select
  /-- The close arm was taken; the queue is looked at once more. -/
  | recheck
  deriving DecidableEq

def RecvPc.start (timeout : Option PyFloat) : RecvPc :=
  if timeout.isNone then .tryRecv else .arm

/-- With which arm, if any, a `send` can hand its item to a waiting receiver; `true` when it is itself
waiting in a `select!`. -/
def SendPc.offer : SendPc → Arm → Option Bool
  | .trySend, .go => some false
  | .select, .data => some true
  | _, _ => none

/-- With which arm, if any, a `recv` can take the item of a waiting sender. -/
def RecvPc.want : RecvPc → Arm → Option Bool
  | .tryRecv, .go => some false
  | .select, .data => some true
  | .recheck, .go => some false
  | _, _ => none

def closedErr : PyErr := .valueError "Channel is closed"
def closedAndEmptyErr : PyErr := .valueError "Channel is closed and empty"
def sendTimeoutErr : PyErr := .timeoutError "send() timed out waiting for channel capacity"
def recvTimeoutErr : PyErr := .timeoutError "recv() timed out waiting for available item"
def fullErr : PyErr := .runtimeError "Channel is full"
def emptyErr : PyErr := .runtimeError "Channel is empty"

namespace Chan

variable {S R T : Type}

/-- A channel of which nothing has been used yet. -/
def fresh (capacity : Option ℕ) : Chan S R T := ⟨.empty capacity, true, true, ∅, false⟩

/-- `Channel::new`. -/
def new (capacity : Option ℤ) : PyResult (Chan S R T) :=
  match capacity with
  | none => .ok (fresh none)
  | some cap =>
      if cap < 0 then .error (.valueError "Capacity must be non-negative")
      else .ok (fresh (some cap.toNat))

/-- Every `Sender` has been dropped. -/
def disconnected (ch : Chan S R T) : Prop := ch.sender = false ∧ ch.senders = ∅

instance [DecidableEq S] (ch : Chan S R T) : Decidable ch.disconnected := by
  unfold disconnected
  infer_instance

def setFifo (ch : Chan S R T) (f : Fifo S R T) : Chan S R T := { ch with fifo := f }

/-- A receive finds the channel closed and empty. -/
def conclude (ch : Chan S R T) : Chan S R T := { ch with told := true }

/-- The first statement of `close`. -/
def dropSender (ch : Chan S R T) : Chan S R T := { ch with sender := false }

/-- The second statement of `close`. -/
def dropCloseTx (ch : Chan S R T) : Chan S R T := { ch with closeTx := false }

section Send

variable [DecidableEq S]

def hold (ch : Chan S R T) (c : S) : Chan S R T := { ch with senders := insert c ch.senders }

def release (ch : Chan S R T) (c : S) : Chan S R T := { ch with senders := ch.senders.erase c }

/-- `send`, also `send_timeout`, which is `send` with a timeout. -/
def sendStep (ch : Chan S R T) (c : S) (item : T) (timeout : Option PyFloat) :
    SendPc → Arm → Option (Chan S R T × Out SendPc Unit)
  | .clone, .go =>
      if ch.sender then
        some (ch.hold c, .goto (if timeout.isNone then .trySend else .arm))
      else some (ch, .ret (.error closedErr))
  | .trySend, .go => match ch.fifo.push c item with
      | some f => some (ch.setFifo f, .goto (.drop (.ok ())))
      | none => some (ch, .goto .select)
  | .arm, .go => match checkTimeout timeout with
      | .error e => some (ch, .goto (.drop (.error e)))
      | .ok _ => some (ch, .goto .select)
  | .select, .data =>
      (ch.fifo.push c item).map fun f => (ch.setFifo f, .goto (.drop (.ok ())))
  | .select, .close => if ch.closeTx then none else some (ch, .goto (.drop (.error closedErr)))
  | .select, .timer =>
      if timeout.isSome then some (ch, .goto (.drop (.error sendTimeoutErr))) else none
  | .drop r, .go => some (ch.release c, .ret r)
  | _, _ => none

/-- `try_send`, which keeps the read lock from the check to the send. -/
def trySend (ch : Chan S R T) (c : S) (item : T) : Chan S R T × PyResult Unit :=
  if ch.sender then
    match ch.fifo.push c item with
    | some f => (ch.setFifo f, .ok ())
    | none => (ch, .error fullErr)
  else (ch, .error closedErr)

/-- `send_op`: the operation owns a clone of the sender. -/
def sendOp (ch : Chan S R T) (o : S) : Chan S R T × PyResult Unit :=
  if ch.sender then (ch.hold o, .ok ()) else (ch, .error closedErr)

end Send

section Recv

variable [DecidableEq S]

/-- `recv`, also `recv_timeout`. An empty channel makes `try_recv` fail; with capacity 0 so does a
sender that has not begun to wait. -/
def recvStep (ch : Chan S R T) (c : R) (timeout : Option PyFloat) :
    RecvPc → Arm → Option (Chan S R T × Out RecvPc T)
  | .tryRecv, .go => match ch.fifo.pop c with
      | some (item, f) => some (ch.setFifo f, .ret (.ok item))
      | none => some (ch, .goto .select)
  | .arm, .go => match checkTimeout timeout with
      | .error e => some (ch, .ret (.error e))
      | .ok _ => some (ch, .goto .select)
  | .select, .data => match ch.fifo.pop c with
      | some (item, f) => some (ch.setFifo f, .ret (.ok item))
      | none =>
          if ch.disconnected then some (ch.conclude, .ret (.error closedAndEmptyErr)) else none
  | .select, .close => if ch.closeTx then none else some (ch, .goto .recheck)
  | .select, .timer => if timeout.isSome then some (ch, .ret (.error recvTimeoutErr)) else none
  | .recheck, .go => match ch.fifo.pop c with
      | some (item, f) => some (ch.setFifo f, .ret (.ok item))
      | none => some (ch.conclude, .ret (.error closedAndEmptyErr))
  | _, _ => none

/-- `try_recv`. -/
def tryRecv (ch : Chan S R T) (c : R) : Chan S R T × PyResult T :=
  match ch.fifo.pop c with
  | some (item, f) => (ch.setFifo f, .ok item)
  | none =>
      if ch.disconnected then (ch.conclude, .error closedAndEmptyErr) else (ch, .error emptyErr)

end Recv

/-- Without a buffer an item goes from hand to hand: as `crossbeam_channel` documents the capacity zero,
the channel holds nothing, and a send and a receive that are under way at the same time are paired. -/
def handoff (ch : Chan S R T) (c : S) (d : R) (item : T) : Option (Chan S R T) :=
  if ch.fifo.capacity = some 0 then (ch.fifo.pass c d item).map ch.setFifo else none

variable {ch ch' : Chan S R T} {c : S} {d : R} {item : T} {timeout : Option PyFloat}

/-- What one step of `send` can do. -/
inductive SendStep [DecidableEq S] (ch : Chan S R T) (c : S) (item : T)
    (timeout : Option PyFloat) : SendPc → Chan S R T → Out SendPc Unit → Prop
  | cloned (hsender : ch.sender = true) :
      SendStep ch c item timeout .clone (ch.hold c)
        (.goto (if timeout.isNone then .trySend else .arm))
  | refused (hsender : ch.sender = false) :
      SendStep ch c item timeout .clone ch (.ret (.error closedErr))
  | accepted {pc : SendPc} {f : Fifo S R T} (hpc : pc = .trySend ∨ pc = .select)
      (hpush : ch.fifo.push c item = some f) :
      SendStep ch c item timeout pc (ch.setFifo f) (.goto (.drop (.ok ())))
  | full (hpush : ch.fifo.push c item = none) :
      SendStep ch c item timeout .trySend ch (.goto .select)
  | armed {d : Option ℚ} (htimeout : checkTimeout timeout = .ok d) :
      SendStep ch c item timeout .arm ch (.goto .select)
  | rejected {e : PyErr} (htimeout : checkTimeout timeout = .error e) :
      SendStep ch c item timeout .arm ch (.goto (.drop (.error e)))
  | closed (hclose : ch.closeTx = false) :
      SendStep ch c item timeout .select ch (.goto (.drop (.error closedErr)))
  | timedOut (htimeout : timeout.isSome = true) :
      SendStep ch c item timeout .select ch (.goto (.drop (.error sendTimeoutErr)))
  | dropped {r : PyResult Unit} :
      SendStep ch c item timeout (.drop r) (ch.release c) (.ret r)

theorem send_cases [DecidableEq S] {pc : SendPc} {arm : Arm} {out : Out SendPc Unit}
    (h : ch.sendStep c item timeout pc arm = some (ch', out)) :
    SendStep ch c item timeout pc ch' out := by
  unfold sendStep at h
  split at h
  · split at h
    · rename_i hsender
      cases h
      exact .cloned hsender
    · rename_i hsender
      cases h
      exact .refused (by simpa using hsender)
  · split at h
    · rename_i hpush
      cases h
      exact .accepted (.inl rfl) hpush
    · rename_i hpush
      cases h
      exact .full hpush
  · split at h
    · rename_i htimeout
      cases h
      exact .rejected htimeout
    · rename_i htimeout
      cases h
      exact .armed htimeout
  · obtain ⟨f, hpush, hf⟩ := Option.map_eq_some_iff.mp h
    cases hf
    exact .accepted (.inr rfl) hpush
  · split at h
    · cases h
    · rename_i hclose
      cases h
      exact .closed (by simpa using hclose)
  · split at h
    · rename_i htimeout
      cases h
      exact .timedOut htimeout
    · cases h
  · cases h
    exact .dropped
  · cases h

/-- What one step of `recv` can do. -/
inductive RecvStep [DecidableEq S] (ch : Chan S R T) (d : R) (timeout : Option PyFloat) :
    RecvPc → Chan S R T → Out RecvPc T → Prop
  | received {pc : RecvPc} {item : T} {f : Fifo S R T} (hpc : pc ≠ .arm)
      (hpop : ch.fifo.pop d = some (item, f)) :
      RecvStep ch d timeout pc (ch.setFifo f) (.ret (.ok item))
  | missed (hqueue : ch.fifo.queue = []) :
      RecvStep ch d timeout .tryRecv ch (.goto .select)
  | armed {q : Option ℚ} (htimeout : checkTimeout timeout = .ok q) :
      RecvStep ch d timeout .arm ch (.goto .select)
  | rejected {e : PyErr} (htimeout : checkTimeout timeout = .error e) :
      RecvStep ch d timeout .arm ch (.ret (.error e))
  | disconnected (hqueue : ch.fifo.queue = []) (hdisc : ch.disconnected) :
      RecvStep ch d timeout .select ch.conclude (.ret (.error closedAndEmptyErr))
  | closed (hclose : ch.closeTx = false) :
      RecvStep ch d timeout .select ch (.goto .recheck)
  | timedOut (htimeout : timeout.isSome = true) :
      RecvStep ch d timeout .select ch (.ret (.error recvTimeoutErr))
  | drained (hqueue : ch.fifo.queue = []) :
      RecvStep ch d timeout .recheck ch.conclude (.ret (.error closedAndEmptyErr))

theorem recv_cases [DecidableEq S] {pc : RecvPc} {arm : Arm} {out : Out RecvPc T}
    (h : ch.recvStep d timeout pc arm = some (ch', out)) :
    RecvStep ch d timeout pc ch' out := by
  unfold recvStep at h
  split at h
  · split at h
    · rename_i hpop
      cases h
      exact .received (by simp) hpop
    · rename_i hpop
      cases h
      exact .missed (Fifo.pop_eq_none.mp hpop)
  · split at h
    · rename_i htimeout
      cases h
      exact .rejected htimeout
    · rename_i htimeout
      cases h
      exact .armed htimeout
  · split at h
    · rename_i hpop
      cases h
      exact .received (by simp) hpop
    · rename_i hpop
      split at h
      · rename_i hdisc
        cases h
        exact .disconnected (Fifo.pop_eq_none.mp hpop) hdisc
      · cases h
  · split at h
    · cases h
    · rename_i hclose
      cases h
      exact .closed (by simpa using hclose)
  · split at h
    · rename_i htimeout
      cases h
      exact .timedOut htimeout
    · cases h
  · split at h
    · rename_i hpop
      cases h
      exact .received (by simp) hpop
    · rename_i hpop
      cases h
      exact .drained (Fifo.pop_eq_none.mp hpop)
  · cases h

/-- What `try_send` can do. -/
inductive TrySendStep (ch : Chan S R T) (c : S) (item : T) :
    Chan S R T × PyResult Unit → Prop
  | accepted {f : Fifo S R T} (hsender : ch.sender = true)
      (hpush : ch.fifo.push c item = some f) : TrySendStep ch c item (ch.setFifo f, .ok ())
  | full (hsender : ch.sender = true) : TrySendStep ch c item (ch, .error fullErr)
  | refused (hsender : ch.sender = false) : TrySendStep ch c item (ch, .error closedErr)

theorem trySend_cases (ch : Chan S R T) (c : S) (item : T) :
    TrySendStep ch c item (ch.trySend c item) := by
  unfold trySend
  split
  · rename_i hsender
    split
    · rename_i hpush
      exact .accepted hsender hpush
    · exact .full hsender
  · rename_i hsender
    exact .refused (by simpa using hsender)

/-- What `try_recv` can do. -/
inductive TryRecvStep [DecidableEq S] (ch : Chan S R T) (d : R) : Chan S R T × PyResult T → Prop
  | received {item : T} {f : Fifo S R T} (hpop : ch.fifo.pop d = some (item, f)) :
      TryRecvStep ch d (ch.setFifo f, .ok item)
  | disconnected (hqueue : ch.fifo.queue = []) (hdisc : ch.disconnected) :
      TryRecvStep ch d (ch.conclude, .error closedAndEmptyErr)
  | empty (hqueue : ch.fifo.queue = []) (hdisc : ¬ ch.disconnected) :
      TryRecvStep ch d (ch, .error emptyErr)

theorem tryRecv_cases [DecidableEq S] (ch : Chan S R T) (d : R) :
    TryRecvStep ch d (ch.tryRecv d) := by
  unfold tryRecv
  split
  · rename_i hpop
    exact .received hpop
  · rename_i hpop
    split
    · rename_i hdisc
      exact .disconnected (Fifo.pop_eq_none.mp hpop) hdisc
    · rename_i hdisc
      exact .empty (Fifo.pop_eq_none.mp hpop) hdisc

theorem handoff_eq_some : ch.handoff c d item = some ch' ↔ ch.fifo.capacity = some 0 ∧
    ∃ f, ch.fifo.pass c d item = some f ∧ ch' = ch.setFifo f := by
  unfold handoff
  split
  · rename_i hcap
    rw [Option.map_eq_some_iff]
    exact ⟨fun ⟨f, hf, hch⟩ => ⟨hcap, f, hf, hch.symm⟩, fun ⟨_, f, hf, hch⟩ => ⟨f, hf, hch.symm⟩⟩
  · rename_i hcap
    simp [hcap]

end Chan

end Pysync.Channel
