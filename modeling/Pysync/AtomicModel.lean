import Pysync.CoherentRegister
import Pysync.PyErr

/-!
`AtomicInteger` and `AtomicBoolean`. A method parses its ordering, makes one access of the atomic and
turns what it found into the value that it returns; a method that returns the new value computes it once
more from the old one. The threads' accesses meet in a register that is only coherent, so that an access
may be as weak as `Relaxed`; that the stronger orderings exclude some of its runs is not used.
-/

namespace Pysync.Atomic

/-- `std::sync::atomic::Ordering`. -/
inductive Ordering where
  | relaxed
  | release
  | acquire
  | acqRel
  | seqCst
  deriving DecidableEq, Repr

def parseOrdering : Option String → PyResult Ordering
  | none | some "seq_cst" | some "SeqCst" => .ok .seqCst
  | some "relaxed" | some "Relaxed" => .ok .relaxed
  | some "acquire" | some "Acquire" => .ok .acquire
  | some "release" | some "Release" => .ok .release
  | some "acq_rel" | some "AcqRel" => .ok .acqRel
  | some other => .error (.valueError ("Unsupported memory ordering: " ++ other))

def deriveFailureOrdering : Ordering → Ordering
  | .release => .relaxed
  | .acqRel => .acquire
  | other => other

/-- What a method returns to Python. -/
inductive Ret (V : Type) where
  | none
  | value (v : V)
  | flag (b : Bool)
  | text (s : String)
  deriving DecidableEq, Repr

/-- The operation of the standard library that a method calls, with what the method returns of its
result. `fetch` is `swap`, `fetch_add` or `fetch_sub`. -/
inductive Op (V : Type) where
  | load (order : Ordering) (ret : V → Ret V)
  | store (val : V) (order : Ordering)
  | fetch (f : V → V) (order : Ordering) (ret : V → Ret V)
  | compareExchange (current new : V) (success failure : Ordering) (ret : Except V V → Ret V)

namespace Op

variable {V : Type}

/-- "there is no such thing as a release load", and the like. -/
def panics : Op V → Bool
  | load order _ => order = .release ∨ order = .acqRel
  | store _ order => order = .acquire ∨ order = .acqRel
  | fetch _ _ _ => false
  | compareExchange _ _ _ failure _ => failure = .release ∨ failure = .acqRel

def access [DecidableEq V] : Op V → Coherent.Access V (Ret V)
  | load _ ret => .update (fun _ => none) ret
  | store val _ => .store val .none
  | fetch f _ ret => .update (fun x => some (f x)) ret
  | compareExchange current new _ _ ret =>
      .update (fun x => if x = current then some new else none)
        fun x => ret (if x = current then .ok x else .error x)

end Op

/-- A method that parses its ordering and then calls `op`. -/
def withOrdering {V : Type} (ordering : Option String) (op : Ordering → Op V) : PyResult (Op V) := do
  let ord ← parseOrdering ordering
  return op ord

/-- `get_and_set`, the same in both classes. -/
def getAndSet {V : Type} (newValue : V) (ordering : Option String) : PyResult (Op V) :=
  withOrdering ordering fun ord => .fetch (fun _ => newValue) ord .value

/-- `Result::is_ok`. -/
def isOk {E V : Type} : Except E V → Bool
  | .ok _ => true
  | .error _ => false

/-- `compare_and_set`, the same in both classes. -/
def compareAndSet {V : Type} (expected newValue : V) (ordering : Option String) : PyResult (Op V) :=
  withOrdering ordering fun ord =>
    let failOrd := deriveFailureOrdering ord
    .compareExchange expected newValue ord failOrd fun r => .flag (isOk r)

namespace AtomicInteger

/-- The value that a new `AtomicInteger` holds; `i64` is `Int64`, whose sum and difference wrap. -/
def new (value : Option Int64) : Int64 := value.getD 0

def get (ordering : Option String) : PyResult (Op Int64) :=
  withOrdering ordering fun ord => .load ord .value

def set (value : Int64) (ordering : Option String) : PyResult (Op Int64) :=
  withOrdering ordering fun ord => .store value ord

def fetchAdd (delta : Int64) (ordering : Option String) : PyResult (Op Int64) :=
  withOrdering ordering fun ord => .fetch (· + delta) ord .value

def fetchAddRelaxed (delta : Int64) : Op Int64 := .fetch (· + delta) .relaxed .value

def addAndGet (delta : Int64) (ordering : Option String) : PyResult (Op Int64) :=
  withOrdering ordering fun ord => .fetch (· + delta) ord fun old => .value (old + delta)

def addAndGetRelaxed (delta : Int64) : Op Int64 :=
  .fetch (· + delta) .relaxed fun old => .value (old + delta)

def fetchSub (delta : Int64) (ordering : Option String) : PyResult (Op Int64) :=
  withOrdering ordering fun ord => .fetch (· - delta) ord .value

def fetchSubRelaxed (delta : Int64) : Op Int64 := .fetch (· - delta) .relaxed .value

def subAndGet (delta : Int64) (ordering : Option String) : PyResult (Op Int64) :=
  withOrdering ordering fun ord => .fetch (· - delta) ord fun old => .value (old - delta)

def subAndGetRelaxed (delta : Int64) : Op Int64 :=
  .fetch (· - delta) .relaxed fun old => .value (old - delta)

def increment (ordering : Option String) : PyResult (Op Int64) :=
  withOrdering ordering fun ord => .fetch (· + 1) ord fun old => .value (old + 1)

def incrementRelaxed : Op Int64 := .fetch (· + 1) .relaxed fun old => .value (old + 1)

def decrement (ordering : Option String) : PyResult (Op Int64) :=
  withOrdering ordering fun ord => .fetch (· - 1) ord fun old => .value (old - 1)

def decrementRelaxed : Op Int64 := .fetch (· - 1) .relaxed fun old => .value (old - 1)

/-- `__repr__`. -/
def repr : Op Int64 := .load .seqCst fun x => .text s!"AtomicInteger({x})"

/-- `__str__`. -/
def str : Op Int64 := .load .seqCst fun x => .text s!"{x}"

/-- A call of a method, with its arguments. -/
inductive Call where
  | get (ordering : Option String)
  | set (value : Int64) (ordering : Option String)
  | fetchAdd (delta : Int64) (ordering : Option String)
  | fetchAddRelaxed (delta : Int64)
  | addAndGet (delta : Int64) (ordering : Option String)
  | addAndGetRelaxed (delta : Int64)
  | fetchSub (delta : Int64) (ordering : Option String)
  | fetchSubRelaxed (delta : Int64)
  | subAndGet (delta : Int64) (ordering : Option String)
  | subAndGetRelaxed (delta : Int64)
  | increment (ordering : Option String)
  | incrementRelaxed
  | decrement (ordering : Option String)
  | decrementRelaxed
  | getAndSet (newValue : Int64) (ordering : Option String)
  | compareAndSet (expected newValue : Int64) (ordering : Option String)
  | repr
  | str
  deriving DecidableEq

def Call.body : Call → PyResult (Op Int64)
  | .get ordering => AtomicInteger.get ordering
  | .set value ordering => AtomicInteger.set value ordering
  | .fetchAdd delta ordering => AtomicInteger.fetchAdd delta ordering
  | .fetchAddRelaxed delta => .ok (AtomicInteger.fetchAddRelaxed delta)
  | .addAndGet delta ordering => AtomicInteger.addAndGet delta ordering
  | .addAndGetRelaxed delta => .ok (AtomicInteger.addAndGetRelaxed delta)
  | .fetchSub delta ordering => AtomicInteger.fetchSub delta ordering
  | .fetchSubRelaxed delta => .ok (AtomicInteger.fetchSubRelaxed delta)
  | .subAndGet delta ordering => AtomicInteger.subAndGet delta ordering
  | .subAndGetRelaxed delta => .ok (AtomicInteger.subAndGetRelaxed delta)
  | .increment ordering => AtomicInteger.increment ordering
  | .incrementRelaxed => .ok AtomicInteger.incrementRelaxed
  | .decrement ordering => AtomicInteger.decrement ordering
  | .decrementRelaxed => .ok AtomicInteger.decrementRelaxed
  | .getAndSet newValue ordering => Atomic.getAndSet newValue ordering
  | .compareAndSet expected newValue ordering => Atomic.compareAndSet expected newValue ordering
  | .repr => .ok AtomicInteger.repr
  | .str => .ok AtomicInteger.str

end AtomicInteger

namespace AtomicBoolean

/-- The value that a new `AtomicBoolean` holds. -/
def new (value : Option Bool) : Bool := value.getD false

def get (ordering : Option String) : PyResult (Op Bool) :=
  withOrdering ordering fun ord => .load ord .value

def set (value : Bool) (ordering : Option String) : PyResult (Op Bool) :=
  withOrdering ordering fun ord => .store value ord

/-- `__repr__`. -/
def repr : Op Bool :=
  .load .seqCst fun x => .text ("AtomicBoolean(" ++ (if x then "True" else "False") ++ ")")

/-- `__str__`. -/
def str : Op Bool := .load .seqCst fun x => .text (if x then "True" else "False")

/-- A call of a method, with its arguments. -/
inductive Call where
  | get (ordering : Option String)
  | set (value : Bool) (ordering : Option String)
  | getAndSet (newValue : Bool) (ordering : Option String)
  | compareAndSet (expected newValue : Bool) (ordering : Option String)
  | repr
  | str
  deriving DecidableEq

def Call.body : Call → PyResult (Op Bool)
  | .get ordering => AtomicBoolean.get ordering
  | .set value ordering => AtomicBoolean.set value ordering
  | .getAndSet newValue ordering => Atomic.getAndSet newValue ordering
  | .compareAndSet expected newValue ordering => Atomic.compareAndSet expected newValue ordering
  | .repr => .ok AtomicBoolean.repr
  | .str => .ok AtomicBoolean.str

end AtomicBoolean

/-- A call that has ended. -/
structure Outcome (T C V : Type) where
  thread : T
  call : C
  result : PyResult (Ret V)
  deriving DecidableEq

/-- The atomic, the call that each thread is in, and the calls that have ended. -/
structure State (T C V : Type) where
  atomic : Coherent.Register T C V (Ret V)
  calls : T → Option C
  outcomes : List (Outcome T C V)

/-- A thread makes a call, as far as its access; a thread makes the access of its call, at some time in
the history of the register, and returns. -/
inductive Act (T C : Type) where
  | call (t : T) (c : C)
  | access (t : T) (τ : ℕ)

section Machine

variable {T C V : Type} [DecidableEq T] [DecidableEq V]

def State.init (v : V) : State T C V where
  atomic := .new (.new v)
  calls _ := none
  outcomes := []

/-- The value of the atomic. -/
def State.value (s : State T C V) : V := s.atomic.cell.value

/-- The call of thread `t` ends. -/
def State.finish (s : State T C V) (t : T) (c : C) (r : PyResult (Ret V)) : State T C V where
  atomic := s.atomic
  calls := Function.update s.calls t none
  outcomes := s.outcomes ++ [⟨t, c, r⟩]

def next (body : C → PyResult (Op V)) (s : State T C V) : Act T C → Option (State T C V)
  | .call t c =>
      match s.calls t, body c with
      | none, .error e => some (s.finish t c (.error e))
      | none, .ok _ => some { s with calls := Function.update s.calls t (some c) }
      | some _, _ => none
  | .access t τ =>
      match s.calls t with
      | none => none
      | some c =>
          match body c with
          | .error _ => none
          | .ok op =>
              if op.panics then some (s.finish t c (.error .panic))
              else (s.atomic.perform t c op.access τ).map fun p =>
                { s with atomic := p.1 }.finish t c (.ok p.2)

variable {body : C → PyResult (Op V)} {s s' : State T C V} {a : Act T C}

/-- What a step can do. -/
inductive Step (body : C → PyResult (Op V)) (s : State T C V) : Act T C → State T C V → Prop
  | reject {t : T} {c : C} {e : PyErr} (hidle : s.calls t = none) (hbody : body c = .error e) :
      Step body s (.call t c) (s.finish t c (.error e))
  | begin {t : T} {c : C} {op : Op V} (hidle : s.calls t = none) (hbody : body c = .ok op) :
      Step body s (.call t c) { s with calls := Function.update s.calls t (some c) }
  | panic {t : T} {c : C} {op : Op V} {τ : ℕ} (hcall : s.calls t = some c) (hbody : body c = .ok op)
      (hpanics : op.panics = true) : Step body s (.access t τ) (s.finish t c (.error .panic))
  | access {t : T} {c : C} {op : Op V} {τ : ℕ} {atomic : Coherent.Register T C V (Ret V)} {r : Ret V}
      (hcall : s.calls t = some c) (hbody : body c = .ok op) (hpanics : op.panics = false)
      (hperform : s.atomic.Performed t c op.access atomic r) :
      Step body s (.access t τ) ({ s with atomic }.finish t c (.ok r))

theorem next_step (hn : next body s a = some s') : Step body s a s' := by
  cases a with
  | call t c =>
      simp only [next] at hn
      split at hn
      · rename_i hidle hbody
        cases hn
        exact .reject hidle hbody
      · rename_i hidle hbody
        cases hn
        exact .begin hidle hbody
      · cases hn
  | access t τ =>
      simp only [next] at hn
      split at hn
      · cases hn
      rename_i c hcall
      split at hn
      · cases hn
      rename_i op hbody
      split at hn
      · rename_i hpanics
        cases hn
        exact .panic hcall hbody hpanics
      · rename_i hpanics
        obtain ⟨⟨atomic, r⟩, hperform, rfl⟩ := Option.map_eq_some_iff.mp hn
        exact .access hcall hbody (Bool.eq_false_of_not_eq_true hpanics)
          (Coherent.Register.perform_performed hperform)

end Machine

end Pysync.Atomic
