import Pysync.DictShared
import Pysync.DictEqual

/-!
`update`, `copy` and `==` on dictionaries that any number of callers share. Each is a sequence of calls
on one or two of the maps; in between the other callers go on, with calls of their own on any map and
with compound calls.
-/

namespace Pysync.Compound
open Map Dict
open Shared (Caller)

/-- A dictionary: one that is there from the beginning, or the one that the `copy` of `d` creates. -/
inductive Name (N D : Type) where
  | given (n : N)
  | made (d : D)
  deriving DecidableEq

inductive Method (N D : Type) where
  /-- `self.update(other)`. -/
  | update (self other : Name N D)
  | copy (self : Name N D)
  /-- `self == other`. -/
  | eq (self other : Name N D)
  deriving DecidableEq

/-- Where a compound call stands: in `update` or `copy`, or in `__eq__`. -/
inductive Pc (K V : Type) where
  | dict (pc : Dict.Pc K V)
  | eq (pc : EqPc K V)

inductive Ctl (K V : Type) where
  | goto (pc : Pc K V)
  | stop (r : Except (Exc K) (Result K V))
  /-- The method returns the new dictionary. -/
  | created

section Code

variable {N D K V : Type}

def Ctl.ofDict : Dict.Ctl K V → Ctl K V
  | .goto pc => .goto (.dict pc)
  | .stop r => .stop r
  | .created => .created

def Ctl.ofEq : EqCtl K V → Ctl K V
  | .goto pc => .goto (.eq pc)
  | .stop r => .stop (r.map .bool)

namespace Method

def start : Method N D → Pc K V
  | update _ _ => .dict (.updateKeys [])
  | copy _ => .dict .copyItems
  | eq _ _ => .eq .len

/-- The dictionary that the pairs come from. -/
def source : Method N D → Name N D
  | update _ other | eq _ other => other
  | copy self => self

def names : Method N D → List (Name N D)
  | update self other | eq self other => [self, other]
  | copy self => [self]

/-- The dictionary that the next call of the compound call of `d` is made on. -/
def on (d : D) : Method N D → Pc K V → Name N D
  | update _ other, .dict (.updateKeys _) => other
  | update _ other, .dict (.updateGet _ _ _) => other
  | copy _, .dict (.fill _ _ _) => .made d
  | eq self other, .eq pc => pc.ask.1.of self other
  | update self _, _ | copy self, _ | eq self _, _ => self

end Method

namespace Pc

def op : Pc K V → Op K V
  | dict pc => pc.ask.2
  | eq pc => pc.ask.2

def answer (vne : V → V → Bool) : Pc K V → Ret K V → Option (Ctl K V)
  | dict pc, r => (pc.answer r).map .ofDict
  | eq pc, r => (pc.answer vne r).map .ofEq

end Pc

end Code

/-- Each caller makes one compound call. -/
inductive Phase (N D K V : Type) where
  | idle
  /-- About to make its call number `i`. -/
  | asking (m : Method N D) (pc : Pc K V) (i : ℕ)
  | waiting (m : Method N D) (pc : Pc K V) (i : ℕ)
  | done (m : Method N D) (out : Except (Exc K) (Result K V))

structure State (N D K V : Type) where
  maps : Name N D → Map.State (Caller D) K V
  phases : D → Phase N D K V

inductive Act (N D K V : Type) where
  | start (d : D) (m : Method N D)
  /-- A step of a call on the map of `n`, its invocation included. -/
  | map (n : Name N D) (a : Map.Act (Caller D) K V)
  /-- The compound call of `d` gets the result of its call. -/
  | answer (d : D)

section Step

variable {N D K V : Type} [DecidableEq D]

namespace State

/-- Empty dictionaries with any numbers of shards. -/
def init (size : Name N D → ℕ) (hsize : ∀ n, 0 < size n) : State N D K V :=
  ⟨fun n => .init (.empty (size n) (hsize n)), fun _ => .idle⟩

def setPhase (s : State N D K V) (d : D) (p : Phase N D K V) : State N D K V :=
  { s with phases := Function.update s.phases d p }

@[simp] theorem phases_setPhase_self (s : State N D K V) (d : D) (p : Phase N D K V) :
    (s.setPhase d p).phases d = p := Function.update_self ..

theorem phases_setPhase_ne (s : State N D K V) {d e : D} (p : Phase N D K V) (h : d ≠ e) :
    (s.setPhase e p).phases d = s.phases d := Function.update_of_ne h ..

/-- A dictionary that a `copy` creates is nobody else's before the `copy` returns. -/
def usable (s : State N D K V) : Name N D → Bool
  | .given _ => true
  | .made d => match s.phases d with
      | .done _ _ => true
      | _ => false

/-- Where the compound call of `d` goes on that has made `i` calls. -/
def goOn (s : State N D K V) (d : D) (m : Method N D) (i : ℕ) : Ctl K V → Phase N D K V
  | .goto pc => .asking m pc i
  | .stop out => .done m out
  | .created => .done m (.ok (.dict (s.maps (.made d)).map))

end State

variable [DecidableEq K] [DecidableEq V]

variable [DecidableEq N]

/-- The compound call of `d` makes its call number `i`, which is `op`, on `n`. -/
def Phase.ask (p : Phase N D K V) (d : D) (i : ℕ) (n : Name N D) (op : Op K V) :
    Option (Phase N D K V) :=
  match p with
  | .asking m pc j => if j = i ∧ m.on d pc = n ∧ pc.op = op then some (.waiting m pc i) else none
  | _ => none

/-- The compound calls after the step `a` of the map of `n`: the one whose call begins waits for it. -/
def State.follow (s : State N D K V) (n : Name N D) :
    Map.Act (Caller D) K V → Option (D → Phase N D K V)
  | .invoke (.inner d i) op =>
      ((s.phases d).ask d i n op).map fun p => Function.update s.phases d p
  | .unhashable (.inner d i) op =>
      ((s.phases d).ask d i n (.keyed op)).map fun p => Function.update s.phases d p
  | .invoke (.direct _) _ | .unhashable (.direct _) _ => if s.usable n then some s.phases else none
  | .lock _ | .eq _ _ | .visit _ _ => some s.phases

/-- The step of the dictionaries under their callers; `vne` is `!=` of the values. -/
def next (hash : K → UInt64) (vne : V → V → Bool) (s : State N D K V) :
    Act N D K V → Option (State N D K V)
  | .start d m => match s.phases d with
      | .idle => if m.names.all s.usable then some (s.setPhase d (.asking m m.start 0)) else none
      | _ => none
  | .map n a => (Map.next hash (s.maps n) a).bind fun u =>
      (s.follow n a).map fun phases => ⟨Function.update s.maps n u, phases⟩
  | .answer d => match s.phases d with
      | .waiting m pc i => match (s.maps (m.on d pc)).calls (.inner d i) with
          | .done _ (.ok r) =>
              (pc.answer vne r).map fun ctl => s.setPhase d (s.goOn d m (i + 1) ctl)
          | .done _ (.error e) => some (s.setPhase d (.done m (.error (.py e))))
          | _ => none
      | _ => none

end Step

end Pysync.Compound
