import Pysync.DictModel
import Pysync.MapLedger

/-!
A dictionary shared by any number of callers. A `popitem` makes one call on the map after another; in
between the other callers go on, with calls of their own on the map and with `popitem`s.
-/

namespace Pysync.Shared
open Map Dict

/-- Who makes a call on the map: a caller directly, or the `popitem` of a caller as its call number
`i`. -/
inductive Caller (D : Type) where
  | direct (d : D)
  | inner (d : D) (i : ℕ)
  deriving DecidableEq

inductive Popitem (K V : Type) where
  | idle
  /-- About to make its call number `i`. -/
  | asking (pc : Dict.Pc K V) (i : ℕ)
  | waiting (pc : Dict.Pc K V) (i : ℕ)
  | done (out : Except (Exc K) (Result K V))

structure State (D K V : Type) where
  map : Map.State (Caller D) K V
  popitems : D → Popitem K V

inductive Act (D K V : Type) where
  | start (d : D)
  /-- A step of a call on the map, its invocation included. -/
  | map (a : Map.Act (Caller D) K V)
  /-- The `popitem` of `d` gets the result of its call. -/
  | answer (d : D)

section Step

variable {D K V : Type} [DecidableEq D]

namespace State

def init (m : ConcurrentMap K V) : State D K V := ⟨.init m, fun _ => .idle⟩

def setPopitem (s : State D K V) (d : D) (p : Popitem K V) : State D K V :=
  { s with popitems := Function.update s.popitems d p }

@[simp] theorem popitems_setPopitem_self (s : State D K V) (d : D) (p : Popitem K V) :
    (s.setPopitem d p).popitems d = p := Function.update_self ..

theorem popitems_setPopitem_ne (s : State D K V) {d e : D} (p : Popitem K V) (h : d ≠ e) :
    (s.setPopitem e p).popitems d = s.popitems d := Function.update_of_ne h ..

end State

variable [DecidableEq K] [DecidableEq V]

/-- Where a `popitem` goes on that has made `i` calls. -/
def Popitem.goOn (i : ℕ) : Dict.Ctl K V → Option (Popitem K V)
  | .goto pc => some (.asking pc i)
  | .stop out => some (.done out)
  | .created => none

/-- A `popitem` makes its call number `i`, which is `op`. -/
def Popitem.ask (p : Popitem K V) (i : ℕ) (op : Op K V) : Option (Popitem K V) :=
  match p with
  | .asking pc j => if j = i ∧ pc.ask.2 = op then some (.waiting pc i) else none
  | _ => none

/-- The `popitem`s after the step `a` of the map: the one whose call begins waits for it. -/
def State.follow (s : State D K V) : Map.Act (Caller D) K V → Option (D → Popitem K V)
  | .invoke (.inner d i) op =>
      ((s.popitems d).ask i op).map fun p => Function.update s.popitems d p
  | .unhashable (.inner d i) op =>
      ((s.popitems d).ask i (.keyed op)).map fun p => Function.update s.popitems d p
  | _ => some s.popitems

def next (hash : K → UInt64) (s : State D K V) : Act D K V → Option (State D K V)
  | .start d => match s.popitems d with
      | .idle => (Popitem.goOn 0 Method.popitem.start).map (s.setPopitem d)
      | _ => none
  | .map a => (Map.next hash s.map a).bind fun u =>
      (s.follow a).map fun popitems => ⟨u, popitems⟩
  | .answer d => match s.popitems d with
      | .waiting pc i => match s.map.calls (.inner d i) with
          | .done _ (.ok r) =>
              ((pc.answer r).bind (Popitem.goOn (i + 1))).map (s.setPopitem d)
          | .done _ (.error e) => some (s.setPopitem d (.done (.error (.py e))))
          | _ => none
      | _ => none

end Step

def Act.mapStep {D K V : Type} : Act D K V → Option (Map.Act (Caller D) K V)
  | .map a => some a
  | _ => none

/-- The steps of the map in a run. -/
def mapActs {D K V : Type} (as : List (Act D K V)) : List (Map.Act (Caller D) K V) :=
  as.filterMap Act.mapStep

end Pysync.Shared
