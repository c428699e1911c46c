import Mathlib.Algebra.Order.Ring.Int
import Pysync.AtomicModel

/-!
What the methods of an atomic are for: one value, from which each call takes what it returns and leaves
the next. The integers are those of the signed 64-bit range, and the arithmetic wraps.
-/

namespace Pysync.Atomic

/-- The names that `parse_ordering` knows. -/
def orderingNames : List String :=
  ["seq_cst", "SeqCst", "relaxed", "Relaxed", "acquire", "Acquire", "release", "Release", "acq_rel",
    "AcqRel"]

/-- No ordering is given, or one that `parse_ordering` knows. -/
def accepted (ordering : Option String) : Bool := ordering.all (· ∈ orderingNames)

/-- The ordering makes no sense for a load. -/
def releases (ordering : Option String) : Bool :=
  ordering ∈ [some "release", some "Release", some "acq_rel", some "AcqRel"]

/-- The ordering makes no sense for a store. -/
def acquires (ordering : Option String) : Bool :=
  ordering ∈ [some "acquire", some "Acquire", some "acq_rel", some "AcqRel"]

def Ret.map {V W : Type} (f : V → W) : Ret V → Ret W
  | none => none
  | value v => value (f v)
  | flag b => flag b
  | text s => text s

/-- A class of atomics, with its specification: the ordering that a call asks for, whether its method
has a use for it, and what the call does to a value of `W` and returns. -/
structure Class (C V W : Type) where
  body : C → PyResult (Op V)
  ordering : C → Option String
  Legal : C → Prop
  abs : V → W
  effect : C → W → W × Ret W

/-- A call meets the specification: with an ordering that is not known it raises, and otherwise it makes
its access, which panics if the method has no use for the ordering. -/
inductive Class.Meets {C V W : Type} [DecidableEq V] (A : Class C V W) (c : C) : Prop
  | rejected {name : String} (hordering : A.ordering c = some name) (hname : name ∉ orderingNames)
      (hbody : A.body c = .error (.valueError ("Unsupported memory ordering: " ++ name)))
      (hlegal : A.Legal c)
  | accepted {op : Op V} (hordering : accepted (A.ordering c) = true) (hbody : A.body c = .ok op)
      (hpanics : op.panics = true ↔ ¬ A.Legal c)
      (heffect : ∀ x, A.effect c (A.abs x) =
        (A.abs (op.access.apply x).1, (op.access.apply x).2.map A.abs))

/-- A class each of whose calls meets the specification. -/
structure LawfulClass (C V W : Type) [DecidableEq V] extends Class C V W where
  meets : ∀ c, toClass.Meets c

/-- What becomes of an ordering. -/
inductive Parses (ordering : Option String) : PyResult Ordering → Prop
  | rejected {name : String} (hordering : ordering = some name) (hname : name ∉ orderingNames) :
      Parses ordering (.error (.valueError ("Unsupported memory ordering: " ++ name)))
  | accepted {ord : Ordering} (hordering : accepted ordering = true)
      (hrelease : ord = .release ∨ ord = .acqRel ↔ releases ordering = true)
      (hacquire : ord = .acquire ∨ ord = .acqRel ↔ acquires ordering = true) :
      Parses ordering (.ok ord)

theorem parses (ordering : Option String) : Parses ordering (parseOrdering ordering) := by
  unfold parseOrdering
  split
  case h_12 other =>
    refine .rejected rfl ?_
    simp only [orderingNames, List.mem_cons, List.not_mem_nil, or_false, not_or]
    exact ⟨‹_›, ‹_›, ‹_›, ‹_›, ‹_›, ‹_›, ‹_›, ‹_›, ‹_›, ‹_›⟩
  all_goals exact .accepted (by decide) (by decide) (by decide)

theorem not_releases_of_notMem {name : String} (h : name ∉ orderingNames) :
    releases (some name) = false := by
  refine decide_eq_false fun hmem => h ?_
  simp only [List.mem_cons, Option.some.injEq, List.not_mem_nil, or_false] at hmem
  rcases hmem with rfl | rfl | rfl | rfl <;> decide

theorem not_acquires_of_notMem {name : String} (h : name ∉ orderingNames) :
    acquires (some name) = false := by
  refine decide_eq_false fun hmem => h ?_
  simp only [List.mem_cons, Option.some.injEq, List.not_mem_nil, or_false] at hmem
  rcases hmem with rfl | rfl | rfl | rfl <;> decide

section Meets

variable {C V W : Type} [DecidableEq V] {A : Class C V W} {c : C} {ordering : Option String}

/-- A method that parses its ordering meets the specification if its operation does with each ordering
that is parsed. -/
theorem Class.meets_withOrdering {op : Ordering → Op V}
    (hbody : A.body c = withOrdering ordering op) (hordering : A.ordering c = ordering)
    (hlegal : ∀ name, name ∉ orderingNames → ordering = some name → A.Legal c)
    (hpanics : ∀ ord, (ord = .release ∨ ord = .acqRel ↔ releases ordering = true) →
      (ord = .acquire ∨ ord = .acqRel ↔ acquires ordering = true) →
      ((op ord).panics = true ↔ ¬ A.Legal c))
    (heffect : ∀ ord x, A.effect c (A.abs x) =
      (A.abs ((op ord).access.apply x).1, ((op ord).access.apply x).2.map A.abs)) : A.Meets c := by
  unfold withOrdering at hbody
  generalize hr : parseOrdering ordering = r at hbody
  have hparses := hr ▸ parses ordering
  cases hparses with
  | rejected hname hnot => exact .rejected (hordering.trans hname) hnot hbody (hlegal _ hnot hname)
  | accepted hok hrelease hacquire =>
      exact .accepted (hordering ▸ hok) hbody (hpanics _ hrelease hacquire) (heffect _)

theorem Class.meets_get (hbody : A.body c = withOrdering ordering fun ord => .load ord .value)
    (hordering : A.ordering c = ordering) (hlegal : A.Legal c ↔ releases ordering = false)
    (heffect : ∀ w, A.effect c w = (w, .value w)) : A.Meets c := by
  refine A.meets_withOrdering hbody hordering (fun name hname h => ?_) (fun ord hrelease _ => ?_)
    fun ord x => heffect _
  · rw [hlegal, h, not_releases_of_notMem hname]
  · rw [hlegal, Bool.not_eq_false, ← hrelease]
    exact decide_eq_true_iff

theorem Class.meets_set {value : V} (hbody : A.body c = withOrdering ordering fun ord => .store value ord)
    (hordering : A.ordering c = ordering) (hlegal : A.Legal c ↔ acquires ordering = false)
    (heffect : ∀ w, A.effect c w = (A.abs value, .none)) : A.Meets c := by
  refine A.meets_withOrdering hbody hordering (fun name hname h => ?_) (fun ord _ hacquire => ?_)
    fun ord x => heffect _
  · rw [hlegal, h, not_acquires_of_notMem hname]
  · rw [hlegal, Bool.not_eq_false, ← hacquire]
    exact decide_eq_true_iff

theorem Class.meets_fetch {f : V → V} {ret : V → Ret V}
    (hbody : A.body c = withOrdering ordering fun ord => .fetch f ord ret)
    (hordering : A.ordering c = ordering) (hlegal : A.Legal c)
    (heffect : ∀ x, A.effect c (A.abs x) = (A.abs (f x), (ret x).map A.abs)) : A.Meets c :=
  A.meets_withOrdering hbody hordering (fun _ _ _ => hlegal)
    (fun _ _ _ => iff_of_false (by simp [Op.panics]) (not_not_intro hlegal)) fun _ => heffect

theorem Class.meets_compareAndSet {expected newValue : V} (hbody : A.body c =
      compareAndSet expected newValue ordering) (hordering : A.ordering c = ordering)
    (hlegal : A.Legal c) (heffect : ∀ x, A.effect c (A.abs x) =
      if x = expected then (A.abs newValue, .flag true) else (A.abs x, .flag false)) : A.Meets c := by
  refine A.meets_withOrdering hbody hordering (fun _ _ _ => hlegal) (fun ord _ _ => ?_) fun ord x => ?_
  · -- the failure ordering is never one that `compare_exchange` refuses
    refine iff_of_false ?_ (not_not_intro hlegal)
    cases ord <;> simp [Op.panics, deriveFailureOrdering]
  · rw [heffect, Op.access, Coherent.Access.apply]
    split <;> rfl

/-- A method with a fixed ordering. -/
theorem Class.meets_ok {op : Op V} (hbody : A.body c = .ok op) (hordering : A.ordering c = none)
    (hpanics : op.panics = false) (hlegal : A.Legal c)
    (heffect : ∀ x, A.effect c (A.abs x) =
      (A.abs (op.access.apply x).1, (op.access.apply x).2.map A.abs)) : A.Meets c :=
  .accepted (hordering ▸ rfl) hbody
    (iff_of_false (by simp [hpanics]) (not_not_intro hlegal)) heffect

theorem Class.meets_relaxed {f : V → V} {ret : V → Ret V} (hbody : A.body c = .ok (.fetch f .relaxed ret))
    (hordering : A.ordering c = none) (hlegal : A.Legal c)
    (heffect : ∀ x, A.effect c (A.abs x) = (A.abs (f x), (ret x).map A.abs)) : A.Meets c :=
  A.meets_ok hbody hordering rfl hlegal heffect

end Meets

namespace AtomicBoolean

/-- The ordering that a call is given. -/
def Call.ordering : Call → Option String
  | .get ordering | .set _ ordering | .getAndSet _ ordering | .compareAndSet _ _ ordering => ordering
  | .repr | .str => none

/-- Whether the method has a use for the ordering. -/
def Call.Legal : Call → Prop
  | .get ordering => releases ordering = false
  | .set _ ordering => acquires ordering = false
  | _ => True

def Call.effect : Call → Bool → Bool × Ret Bool
  | .get _, x => (x, .value x)
  | .set value _, _ => (value, .none)
  | .getAndSet newValue _, x => (newValue, .value x)
  | .compareAndSet expected newValue _, x =>
      if x = expected then (newValue, .flag true) else (x, .flag false)
  | .repr, x => (x, .text ("AtomicBoolean(" ++ (if x then "True" else "False") ++ ")"))
  | .str, x => (x, .text (if x then "True" else "False"))

def cls : Class Call Bool Bool where
  body := Call.body
  ordering := Call.ordering
  Legal := Call.Legal
  abs := id
  effect := Call.effect

theorem meets (c : Call) : cls.Meets c := by
  cases c with
  | get ordering => exact Class.meets_get rfl rfl Iff.rfl fun _ => rfl
  | set value ordering => exact Class.meets_set rfl rfl Iff.rfl fun _ => rfl
  | getAndSet newValue ordering => exact Class.meets_fetch rfl rfl trivial fun _ => rfl
  | compareAndSet expected newValue ordering =>
      exact Class.meets_compareAndSet rfl rfl trivial fun _ => rfl
  | repr => exact Class.meets_ok rfl rfl rfl trivial fun _ => rfl
  | str => exact Class.meets_ok rfl rfl rfl trivial fun _ => rfl

def lawful : LawfulClass Call Bool Bool where
  toClass := cls
  meets := meets

end AtomicBoolean

namespace AtomicInteger

/-- The signed 64-bit integer that `x` wraps to. -/
def wrap (x : ℤ) : ℤ := (x + 2 ^ 63) % 2 ^ 64 - 2 ^ 63

/-- The ordering that a call is given. -/
def Call.ordering : Call → Option String
  | .get ordering | .set _ ordering | .fetchAdd _ ordering | .addAndGet _ ordering
  | .fetchSub _ ordering | .subAndGet _ ordering | .increment ordering | .decrement ordering
  | .getAndSet _ ordering | .compareAndSet _ _ ordering => ordering
  | _ => none

/-- Whether the method has a use for the ordering. -/
def Call.Legal : Call → Prop
  | .get ordering => releases ordering = false
  | .set _ ordering => acquires ordering = false
  | _ => True

def Call.effect : Call → ℤ → ℤ × Ret ℤ
  | .get _, x => (x, .value x)
  | .set value _, _ => (value.toInt, .none)
  | .fetchAdd delta _, x | .fetchAddRelaxed delta, x => (wrap (x + delta.toInt), .value x)
  | .addAndGet delta _, x | .addAndGetRelaxed delta, x =>
      (wrap (x + delta.toInt), .value (wrap (x + delta.toInt)))
  | .fetchSub delta _, x | .fetchSubRelaxed delta, x => (wrap (x - delta.toInt), .value x)
  | .subAndGet delta _, x | .subAndGetRelaxed delta, x =>
      (wrap (x - delta.toInt), .value (wrap (x - delta.toInt)))
  | .increment _, x | .incrementRelaxed, x => (wrap (x + 1), .value (wrap (x + 1)))
  | .decrement _, x | .decrementRelaxed, x => (wrap (x - 1), .value (wrap (x - 1)))
  | .getAndSet newValue _, x => (newValue.toInt, .value x)
  | .compareAndSet expected newValue _, x =>
      if x = expected.toInt then (newValue.toInt, .flag true) else (x, .flag false)
  | .repr, x => (x, .text s!"AtomicInteger({x})")
  | .str, x => (x, .text s!"{x}")

/-- What a call adds to the value, if it does no more than that. -/
def Call.delta : Call → Option ℤ
  | .fetchAdd delta _ | .fetchAddRelaxed delta | .addAndGet delta _ | .addAndGetRelaxed delta =>
      some delta.toInt
  | .fetchSub delta _ | .fetchSubRelaxed delta | .subAndGet delta _ | .subAndGetRelaxed delta =>
      some (-delta.toInt)
  | .increment _ | .incrementRelaxed => some 1
  | .decrement _ | .decrementRelaxed => some (-1)
  | .get _ | .repr | .str => some 0
  | .set .. | .getAndSet .. | .compareAndSet .. => none

theorem wrap_eq_bmod (x : ℤ) : wrap x = x.bmod (2 ^ 64) := by
  rw [wrap, Int.bmod_def]
  split <;> omega

theorem wrap_add (x y : Int64) : wrap (x.toInt + y.toInt) = (x + y).toInt := by
  rw [wrap_eq_bmod, Int64.toInt_add]

theorem wrap_sub (x y : Int64) : wrap (x.toInt - y.toInt) = (x - y).toInt := by
  rw [wrap_eq_bmod, Int64.toInt_sub]

theorem wrap_add_one (x : Int64) : wrap (x.toInt + 1) = (x + 1).toInt := wrap_add x 1

theorem wrap_sub_one (x : Int64) : wrap (x.toInt - 1) = (x - 1).toInt := wrap_sub x 1

theorem wrap_toInt (x : Int64) : wrap x.toInt = x.toInt := by
  rw [wrap_eq_bmod]
  exact x.toInt_bmod

theorem wrap_wrap_add (x d : ℤ) : wrap (wrap x + d) = wrap (x + d) := by
  unfold wrap
  omega

theorem wrap_wrap (x : ℤ) : wrap (wrap x) = wrap x := by
  simpa using wrap_wrap_add x 0

def cls : Class Call Int64 ℤ where
  body := Call.body
  ordering := Call.ordering
  Legal := Call.Legal
  abs := Int64.toInt
  effect := Call.effect

/-- The new value that a method computes from the old one is the one that it has stored. -/
theorem meets (c : Call) : cls.Meets c := by
  cases c with
  | get ordering => exact Class.meets_get rfl rfl Iff.rfl fun _ => rfl
  | set value ordering => exact Class.meets_set rfl rfl Iff.rfl fun _ => rfl
  | fetchAdd delta ordering =>
      exact Class.meets_fetch rfl rfl trivial fun x => by simp only [cls, Call.effect, wrap_add, Ret.map]
  | fetchAddRelaxed delta =>
      exact Class.meets_relaxed rfl rfl trivial fun x => by
        simp only [cls, Call.effect, wrap_add, Ret.map]
  | addAndGet delta ordering =>
      exact Class.meets_fetch rfl rfl trivial fun x => by simp only [cls, Call.effect, wrap_add, Ret.map]
  | addAndGetRelaxed delta =>
      exact Class.meets_relaxed rfl rfl trivial fun x => by
        simp only [cls, Call.effect, wrap_add, Ret.map]
  | fetchSub delta ordering =>
      exact Class.meets_fetch rfl rfl trivial fun x => by simp only [cls, Call.effect, wrap_sub, Ret.map]
  | fetchSubRelaxed delta =>
      exact Class.meets_relaxed rfl rfl trivial fun x => by
        simp only [cls, Call.effect, wrap_sub, Ret.map]
  | subAndGet delta ordering =>
      exact Class.meets_fetch rfl rfl trivial fun x => by simp only [cls, Call.effect, wrap_sub, Ret.map]
  | subAndGetRelaxed delta =>
      exact Class.meets_relaxed rfl rfl trivial fun x => by
        simp only [cls, Call.effect, wrap_sub, Ret.map]
  | increment ordering =>
      exact Class.meets_fetch rfl rfl trivial fun x => by
        simp only [cls, Call.effect, wrap_add_one, Ret.map]
  | incrementRelaxed =>
      exact Class.meets_relaxed rfl rfl trivial fun x => by
        simp only [cls, Call.effect, wrap_add_one, Ret.map]
  | decrement ordering =>
      exact Class.meets_fetch rfl rfl trivial fun x => by
        simp only [cls, Call.effect, wrap_sub_one, Ret.map]
  | decrementRelaxed =>
      exact Class.meets_relaxed rfl rfl trivial fun x => by
        simp only [cls, Call.effect, wrap_sub_one, Ret.map]
  | getAndSet newValue ordering => exact Class.meets_fetch rfl rfl trivial fun _ => rfl
  | compareAndSet expected newValue ordering =>
      refine Class.meets_compareAndSet rfl rfl trivial fun x => ?_
      simp only [cls, Call.effect, Int64.toInt_inj]
  | repr => exact Class.meets_ok rfl rfl rfl trivial fun _ => rfl
  | str => exact Class.meets_ok rfl rfl rfl trivial fun _ => rfl

def lawful : LawfulClass Call Int64 ℤ where
  toClass := cls
  meets := meets

end AtomicInteger

end Pysync.Atomic
