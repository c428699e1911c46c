import Pysync.ChannelCore
import Pysync.TransitionRun
import Mathlib.Logic.Function.Basic

/-!
Channels under all their callers: any number of calls of `send`, `recv`, `try_send`, `try_recv`,
iteration, `send_op`, `select` and `close` on any number of channels, interleaved step by step.
`recv_op` has no effect of its own. A `SendOp` object goes by the name of the `send_op` call that made
it.
-/

namespace Pysync.Channel
open Queue

/-- An element of the list passed to `select`. -/
inductive Operand (Ch C T : Type) where
  | recv (x : Ch)
  /-- The `SendOp` that the call `o` made on `x`. -/
  | send (o : C) (x : Ch) (item : T)
  /-- Any other Python object. -/
  | other
  deriving DecidableEq

/-- A parsed operation; the item of a send is taken out when it is sent. -/
inductive OpType (Ch T : Type) where
  | recv (x : Ch)
  | send (x : Ch) (item : Option T)
  deriving DecidableEq

namespace OpType

variable {Ch T : Type}

def chan : OpType Ch T → Ch
  | recv x | send x _ => x

def isSend : OpType Ch T → Bool
  | recv _ => false
  | send _ _ => true

end OpType

inductive SelectResult (T : Type) where
  | recvSuccess (opIdx : ℕ) (item : T)
  | recvClosed
  | sendSuccess (opIdx : ℕ)
  | sendClosed
  | itemConsumed
  | timeout
  deriving DecidableEq

/-- Where a `select` stands after it has parsed its operations. -/
inductive SelectPc (Ch T : Type) where
  /-- Waiting; `missed` holds the operations found not ready since. -/
  | choose (parsed : List (OpType Ch T)) (missed : Finset ℕ)
  | recheck (parsed : List (OpType Ch T)) (opIdx : ℕ)
  /-- About to return and drop the parsed handles. -/
  | drop (parsed : List (OpType Ch T)) (r : SelectResult T)
  deriving DecidableEq

inductive Method (Ch C T : Type) where
  | send (x : Ch) (item : T) (timeout : Option PyFloat)
  | recv (x : Ch) (timeout : Option PyFloat)
  | trySend (x : Ch) (item : T)
  | tryRecv (x : Ch)
  /-- `__next__`. -/
  | next (x : Ch)
  /-- Also `__exit__`. -/
  | close (x : Ch)
  | sendOp (x : Ch) (item : T)
  | select (ops : List (Operand Ch C T)) (timeout : Option PyFloat)
  deriving DecidableEq

inductive Pc (Ch T : Type) where
  | send (pc : SendPc)
  | recv (pc : RecvPc)
  | select (pc : SelectPc Ch T)
  /-- `__next__` after its `recv` has raised, with what it has read of the sender. -/
  | next (err : PyErr) (isClosed : Option Bool)
  /-- About to take the one step of the method, or the first of `close`. -/
  | once
  /-- `close` has dropped the sender. -/
  | closeTx
  deriving DecidableEq

/-- What the methods return. -/
inductive Ret (T : Type) where
  | unit
  | item (v : T)
  | op
  | selected (opIdx : ℕ) (item : Option T)
  deriving DecidableEq

def SelectResult.toPy {T : Type} : SelectResult T → PyResult (Ret T)
  | recvSuccess opIdx item => .ok (.selected opIdx (some item))
  | sendSuccess opIdx => .ok (.selected opIdx none)
  | recvClosed => .error (.valueError "Selected channel is closed and empty")
  | sendClosed => .error (.valueError "Selected channel is closed")
  | itemConsumed => .error (.runtimeError "Send item already consumed")
  | timeout => .error (.timeoutError "select() timed out waiting for ready channel")

inductive Call (Ch C T : Type) where
  | idle
  | run (m : Method Ch C T) (pc : Pc Ch T)
  | done (m : Method Ch C T) (r : PyResult (Ret T))
  deriving DecidableEq

/-- The handles registered so far with a `Select`, and what their indices stand for. -/
structure Registry where
  count : ℕ
  mainOpMap : ℕ → Option ℕ
  closeOpMap : ℕ → Option (ℕ × Bool)

/-- Register the handle of an operation and then its `close_rx`. -/
def Registry.add {Ch T : Type} (reg : Registry) (op : OpType Ch T × ℕ) : Registry where
  count := reg.count + 2
  mainOpMap := Function.update reg.mainOpMap reg.count (some op.2)
  closeOpMap := Function.update reg.closeOpMap (reg.count + 1) (some (op.2, op.1.isSend))

/-- `Select` numbers the handles in the order in which they are registered. -/
def register {Ch T : Type} (parsed : List (OpType Ch T)) : Registry :=
  parsed.zipIdx.foldl Registry.add ⟨0, fun _ => none, fun _ => none⟩

/-- Parse one operation. -/
def Operand.parse {Ch C T : Type} : Operand Ch C T → Option (OpType Ch T)
  | recv x => some (.recv x)
  | send _ x item => some (.send x (some item))
  | other => none

def parseOps {Ch C T : Type} : List (Operand Ch C T) → Option (List (OpType Ch T))
  | [] => some []
  | op :: ops => op.parse.bind fun p => (parseOps ops).map (p :: ·)

section Select

variable {Ch C T : Type} [DecidableEq Ch] [DecidableEq C]

/-- The channels a parsed list of operations holds `Sender` clones of. -/
def sendsTo (parsed : List (OpType Ch T)) (x : Ch) : Bool :=
  parsed.any fun op => op.isSend && op.chan = x

def holdAll (chan : Ch → Chan C C T) (c : C) (parsed : List (OpType Ch T)) : Ch → Chan C C T :=
  fun x => if sendsTo parsed x then (chan x).hold c else chan x

def releaseAll (chan : Ch → Chan C C T) (c : C) (parsed : List (OpType Ch T)) :
    Ch → Chan C C T :=
  fun x => if sendsTo parsed x then (chan x).release c else chan x

/-- The part of `select` before it waits. The list keeps its `SendOp`s alive during the call, so that
the clones may be taken at once. -/
def selectParse (chan : Ch → Chan C C T) (c : C) (ops : List (Operand Ch C T))
    (timeout : Option PyFloat) : (Ch → Chan C C T) × Out (SelectPc Ch T) (Ret T) :=
  if ops.isEmpty then (chan, .ret (.error (.valueError "Operations list cannot be empty")))
  else match parseOps ops with
    | none =>
        (chan, .ret (.error (.typeError "Operations must be of type RecvOp or SendOp")))
    | some parsed => match (timeout.map fun t => t.max0.fromSecs : Option (PyResult ℚ)) with
        | some (.error e) => (chan, .ret (.error e))
        | _ => (holdAll chan c parsed, .goto (.choose parsed ∅))

/-- A receive operation performed by `select`, or its second look at the queue. -/
def selectRecv (chan : Ch → Chan C C T) (c : C) (x : Ch) (opIdx : ℕ) :
    (Ch → Chan C C T) × SelectResult T :=
  match (chan x).fifo.pop c with
  | some (item, f) => (Function.update chan x ((chan x).setFifo f), .recvSuccess opIdx item)
  | none => (Function.update chan x (chan x).conclude, .recvClosed)

/-- The operation with index `selectIdx` is ready and is the one that `select` performs. -/
def selectArm (chan : Ch → Chan C C T) (c : C) (parsed : List (OpType Ch T)) (selectIdx : ℕ) :
    Option ((Ch → Chan C C T) × SelectPc Ch T) :=
  let reg := register parsed
  if reg.count ≤ selectIdx then none
  else match reg.closeOpMap selectIdx with
    | some (opIdx, isSend) => match parsed[opIdx]? with
        | none => none
        | some op =>
            if (chan op.chan).closeTx then none
            else some (chan, if isSend then .drop parsed .sendClosed else .recheck parsed opIdx)
    | none => match reg.mainOpMap selectIdx with
        | none => some (chan, .drop parsed .timeout)
        | some opIdx => match parsed[opIdx]? with
            | none => none
            | some (.recv x) =>
                if (chan x).fifo.queue = [] ∧ ¬ (chan x).disconnected then none
                else
                  let r := selectRecv chan c x opIdx
                  some (r.1, .drop parsed r.2)
            | some (.send _ none) => some (chan, .drop parsed .itemConsumed)
            | some (.send x (some item)) => ((chan x).fifo.push c item).map fun f =>
                (Function.update chan x ((chan x).setFifo f), .drop parsed (.sendSuccess opIdx))

/-- The operation with index `selectIdx` is not ready. -/
def notReady (chan : Ch → Chan C C T) (parsed : List (OpType Ch T)) (selectIdx : ℕ) : Bool :=
  let reg := register parsed
  match reg.closeOpMap selectIdx, reg.mainOpMap selectIdx with
  | some (opIdx, _), _ => match parsed[opIdx]? with
      | some op => (chan op.chan).closeTx
      | none => false
  | none, some opIdx => match parsed[opIdx]? with
      | some (.recv x) => (chan x).fifo.queue = [] ∧ ¬ (chan x).disconnected
      | some (.send x _) => !(chan x).fifo.hasRoom
      | none => false
  | none, none => false

def selectStep (chan : Ch → Chan C C T) (c : C) (timeout : Option PyFloat) :
    SelectPc Ch T → Arm → Option ((Ch → Chan C C T) × Out (SelectPc Ch T) (Ret T))
  | .choose parsed _, .op selectIdx =>
      (selectArm chan c parsed selectIdx).map fun r => (r.1, .goto r.2)
  | .choose parsed missed, .miss selectIdx =>
      if notReady chan parsed selectIdx then
        some (chan, .goto (.choose parsed (insert selectIdx missed)))
      else none
  -- `select_timeout` tries every operation before it gives up
  | .choose parsed missed, .timer =>
      if timeout.isSome ∧ ∀ i < (register parsed).count, i ∈ missed then
        some (chan, .goto (.drop parsed .timeout))
      else none
  | .recheck parsed opIdx, .go => match parsed[opIdx]? with
      | some (.recv x) =>
          let r := selectRecv chan c x opIdx
          some (r.1, .goto (.drop parsed r.2))
      | _ => none
  | .drop parsed r, .go => some (releaseAll chan c parsed, .ret r.toPy)
  | _, _ => none

end Select

/-- The channels and all calls ever made on them, by any number of threads. -/
structure State (Ch C T : Type) where
  chan : Ch → Chan C C T
  calls : C → Call Ch C T

inductive Act (Ch C T : Type) where
  | invoke (c : C) (m : Method Ch C T)
  | step (c : C) (arm : Arm)
  /-- On a channel without a buffer, the send `c` meets the receive `d`. -/
  | handoff (c : C) (arm : Arm) (d : C) (arm' : Arm)
  /-- The `SendOp` made by the call `o` is dropped. -/
  | dropOp (o : C)
  deriving DecidableEq

namespace State

variable {Ch C T : Type} [DecidableEq Ch] [DecidableEq C]

def init (capacity : Ch → Option ℕ) : State Ch C T :=
  ⟨fun x => .fresh (capacity x), fun _ => .idle⟩

def setCall (s : State Ch C T) (c : C) (k : Call Ch C T) : State Ch C T :=
  { s with calls := Function.update s.calls c k }

def setChan (s : State Ch C T) (x : Ch) (ch : Chan C C T) : State Ch C T :=
  { s with chan := Function.update s.chan x ch }

/-- Apply the outcome of a step of call `c`. -/
def resume {P R : Type} (s : State Ch C T) (c : C) (m : Method Ch C T) (pc : P → Pc Ch T)
    (ret : R → Ret T) : Out P R → State Ch C T
  | .goto p => s.setCall c (.run m (pc p))
  | .ret r => s.setCall c (.done m (r.map ret))

/-- A `SendOp` passed to `select` has been made and is still referenced. -/
def usable [DecidableEq T] (s : State Ch C T) : Method Ch C T → Bool
  | .select ops _ => ops.all fun
      | .send o x item =>
          decide (s.calls o = .done (.sendOp x item) (.ok .op) ∧ o ∈ (s.chan x).senders)
      | _ => true
  | _ => true

end State

section Step

variable {Ch C T : Type} [DecidableEq Ch] [DecidableEq C] [DecidableEq T]

/-- A call begins. -/
def State.start (s : State Ch C T) (c : C) (m : Method Ch C T) : State Ch C T :=
  match m with
  | .send _ _ _ => s.setCall c (.run m (.send .clone))
  | .recv _ timeout => s.setCall c (.run m (.recv (.start timeout)))
  | .next _ => s.setCall c (.run m (.recv (.start none)))
  | .trySend _ _ | .tryRecv _ | .close _ | .sendOp _ _ => s.setCall c (.run m .once)
  | .select ops timeout =>
      let r := selectParse s.chan c ops timeout
      State.resume { s with chan := r.1 } c m .select id r.2

/-- A step of a running call on its own. -/
def stepCall (s : State Ch C T) (c : C) (m : Method Ch C T) (pc : Pc Ch T) (arm : Arm) :
    Option (State Ch C T) :=
  match m, pc, arm with
  | .send x item timeout, .send pc, arm =>
      ((s.chan x).sendStep c item timeout pc arm).map fun r =>
        (s.setChan x r.1).resume c m .send (fun _ => .unit) r.2
  | .recv x timeout, .recv pc, arm =>
      ((s.chan x).recvStep c timeout pc arm).map fun r =>
        (s.setChan x r.1).resume c m .recv .item r.2
  | .trySend x item, .once, .go =>
      let r := (s.chan x).trySend c item
      some ((s.setChan x r.1).setCall c (.done m (r.2.map fun _ => .unit)))
  | .tryRecv x, .once, .go =>
      let r := (s.chan x).tryRecv c
      some ((s.setChan x r.1).setCall c (.done m (r.2.map .item)))
  | .next x, .recv pc, arm =>
      ((s.chan x).recvStep c none pc arm).map fun r => (s.setChan x r.1).setCall c
        (match r.2 with
          | .goto pc => .run m (.recv pc)
          | .ret (.ok v) => .done m (.ok (.item v))
          | .ret (.error e) => .run m (.next e none))
  | .next x, .next e none, .go =>
      some (s.setCall c (.run m (.next e (some !(s.chan x).sender))))
  | .next x, .next e (some isClosed), .go =>
      some (s.setCall c (.done m (.error
        (if isClosed && (s.chan x).fifo.queue.isEmpty then .stopIteration else e))))
  | .close x, .once, .go =>
      some ((s.setChan x (s.chan x).dropSender).setCall c (.run m .closeTx))
  | .close x, .closeTx, .go =>
      some ((s.setChan x (s.chan x).dropCloseTx).setCall c (.done m (.ok .unit)))
  | .sendOp x _, .once, .go =>
      let r := (s.chan x).sendOp c
      some ((s.setChan x r.1).setCall c (.done m (r.2.map fun _ => .op)))
  | .select _ timeout, .select pc, arm =>
      (selectStep s.chan c timeout pc arm).map fun r =>
        State.resume { s with chan := r.1 } c m .select id r.2
  | _, _, _ => none

/-- A call with an item for a waiting receiver: the channel, the item, whether the call is waiting
itself, and how it goes on. -/
def Call.offer (chan : Ch → Chan C C T) (k : Call Ch C T) (arm : Arm) :
    Option (Ch × T × Bool × Call Ch C T) :=
  match k with
  | .run (.send x item timeout) (.send pc) =>
      (pc.offer arm).map fun b =>
        (x, item, b, .run (.send x item timeout) (.send (.drop (.ok ()))))
  | .run (.trySend x item) .once =>
      if arm = .go ∧ (chan x).sender then
        some (x, item, false, .done (.trySend x item) (.ok .unit))
      else none
  | .run (.select ops timeout) (.select (.choose parsed _)) => match arm with
      | .op selectIdx => match (register parsed).mainOpMap selectIdx with
          | some opIdx => match parsed[opIdx]? with
              | some (.send x (some item)) => some (x, item, true,
                  .run (.select ops timeout) (.select (.drop parsed (.sendSuccess opIdx))))
              | _ => none
          | none => none
      | _ => none
  | _ => none

/-- A call that can take the item of a waiting sender: the channel, whether the call is waiting itself,
and how it goes on with the item. -/
def Call.want (k : Call Ch C T) (arm : Arm) : Option (Ch × Bool × (T → Call Ch C T)) :=
  match k with
  | .run (.recv x timeout) (.recv pc) =>
      (pc.want arm).map fun b => (x, b, fun v => .done (.recv x timeout) (.ok (.item v)))
  | .run (.next x) (.recv pc) =>
      (pc.want arm).map fun b => (x, b, fun v => .done (.next x) (.ok (.item v)))
  | .run (.tryRecv x) .once =>
      if arm = .go then some (x, false, fun v => .done (.tryRecv x) (.ok (.item v))) else none
  | .run (.select ops timeout) (.select (.choose parsed _)) => match arm with
      | .op selectIdx => match (register parsed).mainOpMap selectIdx with
          | some opIdx => match parsed[opIdx]? with
              | some (.recv x) => some (x, true, fun v =>
                  .run (.select ops timeout) (.select (.drop parsed (.recvSuccess opIdx v))))
              | _ => none
          | none => none
      | _ => none
  | .run (.select ops timeout) (.select (.recheck parsed opIdx)) => match arm, parsed[opIdx]? with
      | .go, some (.recv x) => some (x, false, fun v =>
          .run (.select ops timeout) (.select (.drop parsed (.recvSuccess opIdx v))))
      | _, _ => none
  | _ => none

/-- The step of the channels under their callers. -/
def next (s : State Ch C T) : Act Ch C T → Option (State Ch C T)
  | .invoke c m => match s.calls c with
      | .idle => if s.usable m then some (s.start c m) else none
      | _ => none
  | .step c arm => match s.calls c with
      | .run m pc => stepCall s c m pc arm
      | _ => none
  | .handoff c arm d arm' => match (s.calls c).offer s.chan arm, (s.calls d).want arm' with
      | some (x, item, b, k), some (y, b', k') =>
          if c ≠ d ∧ x = y ∧ (b || b') then
            ((s.chan x).handoff c d item).map fun ch =>
              ((s.setChan x ch).setCall c k).setCall d (k' item)
          else none
      | _, _ => none
  | .dropOp o => match s.calls o with
      | .done (.sendOp x _) (.ok _) =>
          if o ∈ (s.chan x).senders then some (s.setChan x ((s.chan x).release o)) else none
      | _ => none

end Step

end Pysync.Channel
