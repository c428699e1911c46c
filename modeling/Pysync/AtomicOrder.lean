import Pysync.AtomicSpec
import Pysync.TransitionRun
import Mathlib.Algebra.BigOperators.Group.List.Basic

/-!
The runs of an atomic. However weak the orderings are, the accepted calls can be put in one order in
which each takes what the one before it has left. A panic is what keeps a call out of that order:
`parse_ordering` serves every method, and lets an ordering through that the method's access cannot have.
-/

namespace Pysync.Atomic
open Transition

section Run

variable {T C V W : Type} [DecidableEq T] [DecidableEq V]

/-- The calls `os`, one after the other, take the value `x` to `y` and return what they have returned. -/
def Class.Replays (A : Class C V W) : W → List (Outcome T C V) → W → Prop
  | x, [], y => x = y
  | x, o :: os, y =>
      (∃ r, o.result = .ok r ∧ r.map A.abs = (A.effect o.call x).2) ∧
        A.Replays (A.effect o.call x).1 os y

/-- The calls that have ended and whose ordering is known. -/
def Class.acceptedOutcomes (A : Class C V W) (s : State T C V) : List (Outcome T C V) :=
  s.outcomes.filter fun o => accepted (A.ordering o.call)

/-- An atomic that began with the value `x` is one register. -/
structure Class.OneRegister (A : Class C V W) (x : W) (s : State T C V) : Prop where
  noPanic : ∀ o ∈ s.outcomes, o.result ≠ .error .panic
  raised : ∀ o ∈ s.outcomes, ∀ name, A.ordering o.call = some name → name ∉ orderingNames →
    o.result = .error (.valueError ("Unsupported memory ordering: " ++ name))
  /-- A call whose ordering is not known ends at once, with the atomic as it is. -/
  raises : ∀ t c name s', A.ordering c = some name → name ∉ orderingNames →
    next A.body s (.call t c) = some s' → s'.atomic = s.atomic ∧ s'.calls t = none ∧
      s'.outcomes = s.outcomes ++ [⟨t, c, .error (.valueError ("Unsupported memory ordering: " ++ name))⟩]
  /-- The accepted calls have one order, which is each thread's own. -/
  order : ∃ order : List (Outcome T C V), order.Perm (A.acceptedOutcomes s) ∧
    (∀ t, ((A.acceptedOutcomes s).filter fun o => o.thread = t).Sublist order) ∧
    A.Replays x order (A.abs s.value)

/-- How a call has ended. -/
inductive Class.Ended (A : Class C V W) (o : Outcome T C V) : Prop
  | rejected {name : String} (hordering : A.ordering o.call = some name) (hname : name ∉ orderingNames)
      (hresult : o.result = .error (.valueError ("Unsupported memory ordering: " ++ name)))
      (hlegal : A.Legal o.call)
  | panicked (hordering : accepted (A.ordering o.call) = true) (hlegal : ¬ A.Legal o.call)
      (hresult : o.result = .error .panic)
  | returned {r : Ret V} (hordering : accepted (A.ordering o.call) = true) (hlegal : A.Legal o.call)
      (hresult : o.result = .ok r)

/-- An access as the outcome of its call. -/
def outcome (e : Coherent.Done T C V (Ret V)) : Outcome T C V := ⟨e.thread, e.call, .ok e.result⟩

/-- What holds of an atomic that began with `v`. -/
structure Class.Inv (A : Class C V W) (v : V) (s : State T C V) : Prop where
  register : s.atomic.Inv v
  body : ∀ e ∈ s.atomic.log, ∃ op, A.body e.call = .ok op ∧ e.access = op.access
  ended : ∀ o ∈ s.outcomes, A.Ended o
  log : s.outcomes.filter (fun o => isOk o.result) = s.atomic.log.map outcome

variable {A : Class C V W} {L : LawfulClass C V W} {s s' : State T C V} {a : Act T C} {v : V}
variable {as : List (Act T C)}

omit [DecidableEq T] in
theorem Class.inv_init (A : Class C V W) (v : V) : A.Inv v (State.init v : State T C V) where
  register := Coherent.Register.inv_new v
  body _ h := by cases h
  ended _ h := by cases h
  log := rfl

omit [DecidableEq V] in
theorem filter_finish (s : State T C V) (t : T) (c : C) (r : PyResult (Ret V))
    (p : Outcome T C V → Bool) : (s.finish t c r).outcomes.filter p =
      s.outcomes.filter p ++ bif p ⟨t, c, r⟩ then [⟨t, c, r⟩] else [] := by
  rw [State.finish, List.filter_append, List.filter_singleton]

/-- A call that ends with an exception leaves the register as it is. -/
theorem Class.Inv.raise (h : A.Inv v s) {t : T} {c : C} {e : PyErr} (hended : A.Ended ⟨t, c, .error e⟩) :
    A.Inv v (s.finish t c (.error e)) where
  register := h.register
  body := h.body
  ended o ho := by
    rcases List.mem_append.mp ho with ho | ho
    · exact h.ended o ho
    · exact List.mem_singleton.mp ho ▸ hended
  log := by
    rw [filter_finish, h.log]
    exact List.append_nil _

theorem LawfulClass.inv_next (h : L.Inv v s) (hn : next L.body s a = some s') : L.Inv v s' := by
  cases next_step hn with
  | @reject t c e hidle hbody =>
      refine h.raise ?_
      cases L.meets c with
      | rejected hordering hname hbody' hlegal =>
          obtain rfl := Except.error.inj (hbody.symm.trans hbody')
          exact .rejected hordering hname rfl hlegal
      | accepted _ hbody' => cases hbody.symm.trans hbody'
  | begin => exact ⟨h.register, h.body, h.ended, h.log⟩
  | @panic t c op τ hcall hbody hpanics =>
      refine h.raise ?_
      cases L.meets c with
      | rejected _ _ hbody' => cases hbody.symm.trans hbody'
      | accepted hordering hbody' hiff =>
          obtain rfl := Except.ok.inj (hbody.symm.trans hbody')
          exact .panicked hordering (hiff.mp hpanics) rfl
  | @access t c op τ atomic r hcall hbody hpanics hperform =>
      obtain ⟨e, hlog, rfl, rfl, haccess, rfl⟩ := hperform.log
      refine ⟨h.register.performed hperform, fun d hd => ?_, fun o ho => ?_, ?_⟩
      · rcases List.mem_append.mp (hlog ▸ hd) with hd | hd
        · exact h.body d hd
        · exact List.mem_singleton.mp hd ▸ ⟨op, hbody, haccess⟩
      · rcases List.mem_append.mp ho with ho | ho
        · exact h.ended o ho
        · obtain rfl := List.mem_singleton.mp ho
          cases L.meets e.call with
          | rejected _ _ hbody' => cases hbody.symm.trans hbody'
          | accepted hordering hbody' hiff =>
              obtain rfl := Except.ok.inj (hbody.symm.trans hbody')
              refine .returned hordering ?_ rfl
              by_contra hnot
              cases hpanics.symm.trans (hiff.mpr hnot)
      · rw [filter_finish, h.log]
        change _ = atomic.log.map outcome
        rw [hlog, List.map_append]
        rfl

/-- The invariant of the runs. -/
theorem LawfulClass.inv_run (hrun : Run (next L.body) (State.init v) as s) : L.Inv v s :=
  hrun.invariant (L.inv_init v) fun _ _ _ h _ hn => inv_next h hn

omit [DecidableEq T] [DecidableEq V] in
theorem Class.Ended.isOk_eq {o : Outcome T C V} (h : A.Ended o) (hlegal : A.Legal o.call) :
    isOk o.result = accepted (A.ordering o.call) := by
  cases h with
  | rejected hordering hname hresult =>
      rw [hresult, hordering]
      exact (decide_eq_false hname).symm
  | panicked _ hnot => exact (hnot hlegal).elim
  | returned hordering _ hresult =>
      rw [hresult, hordering]
      rfl

omit [DecidableEq T] in
/-- The accesses replayed are the calls replayed. -/
theorem LawfulClass.replays {es : List (Coherent.Done T C V (Ret V))} {x y : V}
    (hbody : ∀ e ∈ es, ∃ op, L.body e.call = .ok op ∧ e.access = op.access)
    (h : Coherent.Replays x es y) : L.Replays (L.abs x) (es.map outcome) (L.abs y) := by
  induction es generalizing x with
  | nil => exact congrArg L.abs h
  | cons e es ih =>
      obtain ⟨hresult, h⟩ := h
      have htail := ih (fun d hd => hbody d (List.mem_cons_of_mem _ hd)) h
      obtain ⟨op, hop, haccess⟩ := hbody e List.mem_cons_self
      cases L.meets e.call with
      | rejected _ _ hbody' => cases hop.symm.trans hbody'
      | accepted _ hbody' _ heffect =>
          obtain rfl := Except.ok.inj (hop.symm.trans hbody')
          rw [haccess] at hresult htail
          refine ⟨⟨e.result, rfl, ?_⟩, ?_⟩
          · rw [hresult]
            exact (congrArg Prod.snd (heffect x)).symm
          · change L.Replays (L.effect e.call (L.abs x)).1 _ _
            rw [heffect]
            exact htail

theorem not_accepted {ordering : Option String} {name : String} (hordering : ordering = some name)
    (hname : name ∉ orderingNames) : accepted ordering = false := by
  rw [hordering]
  exact decide_eq_false hname

/-- Where every call that has ended had a use for its ordering, the atomic is one register. -/
theorem LawfulClass.oneRegister (h : L.Inv v s) (hlegal : ∀ o ∈ s.outcomes, L.Legal o.call) :
    L.OneRegister (L.abs v) s where
  noPanic o ho hpanic := by
    cases h.ended o ho with
    | rejected _ _ hresult => cases hpanic.symm.trans hresult
    | panicked _ hnot => exact hnot (hlegal o ho)
    | returned _ _ hresult => cases hpanic.symm.trans hresult
  raised o ho name hordering hname := by
    have hnot := not_accepted hordering hname
    cases h.ended o ho with
    | rejected hordering' _ hresult =>
        obtain rfl := Option.some.inj (hordering.symm.trans hordering')
        exact hresult
    | panicked hok => cases hnot.symm.trans hok
    | returned hok => cases hnot.symm.trans hok
  raises t c name s' hordering hname hn := by
    have hnot := not_accepted hordering hname
    cases L.meets c with
    | rejected hordering' _ hbody =>
        obtain rfl := Option.some.inj (hordering.symm.trans hordering')
        cases next_step hn with
        | reject hidle hbody' =>
            obtain rfl := Except.error.inj (hbody.symm.trans hbody')
            exact ⟨rfl, Function.update_self .., rfl⟩
        | begin _ hbody' => cases hbody.symm.trans hbody'
    | accepted hok => cases hnot.symm.trans hok
  order := by
    have hfilter : L.acceptedOutcomes s = s.atomic.log.map outcome := by
      rw [← h.log]
      exact List.filter_congr fun o ho => ((h.ended o ho).isOk_eq (hlegal o ho)).symm
    obtain ⟨order, hperm, hthread, hreplays⟩ := h.register.exists_order
    refine ⟨order.map outcome, hfilter ▸ hperm.map outcome, fun t => ?_,
      L.replays (fun e he => h.body e (hperm.mem_iff.mp he)) hreplays⟩
    rw [hfilter, List.filter_map]
    exact (hthread t).map outcome

omit [DecidableEq T] in
/-- A call that has ended without a panic had a use for its ordering. -/
theorem LawfulClass.legal (h : L.Inv v s) (hno : ∀ o ∈ s.outcomes, o.result ≠ .error .panic) :
    ∀ o ∈ s.outcomes, L.Legal o.call := by
  intro o ho
  cases h.ended o ho with
  | rejected _ _ _ hlegal => exact hlegal
  | panicked _ _ hresult => exact (hno o ho hresult).elim
  | returned _ hlegal => exact hlegal

end Run

namespace AtomicInteger

variable {T : Type} {s : State T Call Int64} {x y : ℤ}

/-- What calls that do nothing but add come to. -/
def sum (os : List (Outcome T Call Int64)) : ℤ := (os.filterMap fun o => o.call.delta).sum

structure OneRegister [DecidableEq T] (x : ℤ) (s : State T Call Int64) :
    Prop extends cls.OneRegister x s where
  sums : (∀ o ∈ cls.acceptedOutcomes s, o.call.delta.isSome) →
    s.value.toInt = wrap (x + sum (cls.acceptedOutcomes s))

theorem effect_of_delta {c : Call} {d : ℤ} (h : c.delta = some d) (hx : wrap x = x) :
    (c.effect x).1 = wrap (x + d) := by
  cases c <;> cases h <;> first | rfl | simpa [Call.effect] using hx.symm

theorem sum_of_replays {os : List (Outcome T Call Int64)} (h : cls.Replays x os y) (hx : wrap x = x)
    (hdelta : ∀ o ∈ os, o.call.delta.isSome) : y = wrap (x + sum os) := by
  induction os generalizing x with
  | nil => simpa [sum, hx] using h.symm
  | cons o os ih =>
      obtain ⟨d, hd⟩ := Option.isSome_iff_exists.mp (hdelta o List.mem_cons_self)
      have heffect : (cls.effect o.call x).1 = wrap (x + d) := effect_of_delta hd hx
      have htail := h.2
      rw [heffect] at htail
      have hy := ih htail (wrap_wrap _) fun o' ho' => hdelta o' (List.mem_cons_of_mem _ ho')
      have hsum : sum (o :: os) = d + sum os := by simp [sum, hd]
      rw [hy, wrap_wrap_add, hsum, add_assoc]

theorem sums_of_order (horder : ∃ order : List (Outcome T Call Int64),
      order.Perm (cls.acceptedOutcomes s) ∧ cls.Replays x order s.value.toInt) (hx : wrap x = x)
    (hdelta : ∀ o ∈ cls.acceptedOutcomes s, o.call.delta.isSome) :
    s.value.toInt = wrap (x + sum (cls.acceptedOutcomes s)) := by
  obtain ⟨order, hperm, hreplays⟩ := horder
  have hsum : sum order = sum (cls.acceptedOutcomes s) := (hperm.filterMap _).sum_eq
  rw [← hsum]
  exact sum_of_replays hreplays hx fun o ho => hdelta o (hperm.mem_iff.mp ho)

end AtomicInteger

/-- In every run, an `AtomicInteger` or an `AtomicBoolean` is one register if and only if no `get` has
been made with an ordering that releases, and no `set` with one that acquires. -/
theorem oneRegister_iff (T : Type) [DecidableEq T] :
    (∀ (value : Option Int64) (as : List (Act T AtomicInteger.Call)) (s : State T AtomicInteger.Call Int64),
      Run (next AtomicInteger.Call.body) (State.init (AtomicInteger.new value)) as s →
        (AtomicInteger.OneRegister (AtomicInteger.new value).toInt s ↔ ∀ o ∈ s.outcomes, o.call.Legal)) ∧
    ∀ (value : Option Bool) (as : List (Act T AtomicBoolean.Call)) (s : State T AtomicBoolean.Call Bool),
      Run (next AtomicBoolean.Call.body) (State.init (AtomicBoolean.new value)) as s →
        (AtomicBoolean.cls.OneRegister (AtomicBoolean.new value) s ↔ ∀ o ∈ s.outcomes, o.call.Legal) := by
  constructor
  · intro value as s hrun
    have hinv : AtomicInteger.lawful.Inv (AtomicInteger.new value) s := LawfulClass.inv_run hrun
    refine ⟨fun h => LawfulClass.legal hinv h.noPanic, fun hlegal => ?_⟩
    have hone := LawfulClass.oneRegister hinv hlegal
    obtain ⟨order, hperm, -, hreplays⟩ := hone.order
    exact { hone with
      sums := AtomicInteger.sums_of_order ⟨order, hperm, hreplays⟩ (AtomicInteger.wrap_toInt _) }
  · intro value as s hrun
    have hinv : AtomicBoolean.lawful.Inv (AtomicBoolean.new value) s := LawfulClass.inv_run hrun
    exact ⟨fun h => LawfulClass.legal hinv h.noPanic, LawfulClass.oneRegister hinv⟩

/-- Thread 0 adds at the upper end of the range; after that, thread 1 still finds the old value. -/
def wrappedTrace : List (Act ℕ AtomicInteger.Call) :=
  [.call 0 (.addAndGet 1 (some "relaxed")), .access 0 0, .call 1 (.get (some "relaxed")), .access 1 0,
    .call 1 (.fetchSub 3 (some "sequential")), .call 1 .incrementRelaxed, .access 1 1]

theorem wrappedTrace_exec :
    (exec (next AtomicInteger.Call.body) (fun _ _ => True)
      (State.init (AtomicInteger.new (some Int64.maxValue))) wrappedTrace).map
      (fun s => decide (s.outcomes =
        [⟨0, .addAndGet 1 (some "relaxed"), .ok (.value Int64.minValue)⟩,
          ⟨1, .get (some "relaxed"), .ok (.value Int64.maxValue)⟩,
          ⟨1, .fetchSub 3 (some "sequential"),
            .error (.valueError "Unsupported memory ordering: sequential")⟩,
          ⟨1, .incrementRelaxed, .ok (.value (Int64.minValue + 1))⟩])) = some true := by
  decide +kernel

theorem oneRegister_iff_wrappedTrace :
    ∃ s : State ℕ AtomicInteger.Call Int64,
      Run (next AtomicInteger.Call.body) (State.init (AtomicInteger.new (some Int64.maxValue)))
        wrappedTrace s ∧ AtomicInteger.OneRegister Int64.maxValue.toInt s := by
  obtain ⟨s, hrun, hs⟩ := exists_runWith_of_exec wrappedTrace_exec
  have houtcomes := of_decide_eq_true hs
  refine ⟨s, hrun, ((oneRegister_iff ℕ).1 (some Int64.maxValue) wrappedTrace s hrun).mpr fun o ho => ?_⟩
  simp only [houtcomes, List.mem_cons, List.not_mem_nil, or_false] at ho
  have hlegal : (AtomicInteger.Call.get (some "relaxed")).Legal :=
    show releases (some "relaxed") = false by decide
  rcases ho with rfl | rfl | rfl | rfl
  · trivial
  · exact hlegal
  · trivial
  · trivial

/-- A load that releases. -/
def releaseTrace : List (Act ℕ AtomicInteger.Call) := [.call 0 (.get (some "release")), .access 0 0]

theorem releaseTrace_exec :
    (exec (next AtomicInteger.Call.body) (fun _ _ => True) (State.init (AtomicInteger.new none))
      releaseTrace).map (fun s => decide (s.outcomes = [⟨0, .get (some "release"), .error .panic⟩])) =
      some true := by
  decide +kernel

/-- An atomic is not one register in every run. -/
theorem not_always_oneRegister :
    ¬ ∀ (T : Type) [DecidableEq T] (value : Option Int64) (as : List (Act T AtomicInteger.Call))
      (s : State T AtomicInteger.Call Int64),
      Run (next AtomicInteger.Call.body) (State.init (AtomicInteger.new value)) as s →
        AtomicInteger.OneRegister (AtomicInteger.new value).toInt s := by
  intro h
  obtain ⟨s, hrun, hs⟩ := exists_runWith_of_exec releaseTrace_exec
  have houtcomes := of_decide_eq_true hs
  refine (h ℕ none releaseTrace s hrun).noPanic ⟨0, .get (some "release"), .error .panic⟩ ?_ rfl
  rw [houtcomes]
  exact List.mem_cons_self

end Pysync.Atomic
