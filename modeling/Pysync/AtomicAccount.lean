import Pysync.AtomicOrder
import Pysync.IntervalTiling
import Mathlib.Algebra.Order.BigOperators.Group.List

/-!
What callers build on an atomic. Numbers that are reserved by adding to an `AtomicInteger`, or by moving
it on with `compare_and_set`, are reserved once, and an `AtomicBoolean` is turned no more often than it
is turned back. Neither depends on the orderings.
-/

namespace Pysync.Atomic
open Transition Tiling

section Returned

variable {T C V W : Type} {s : State T C V} {v : V}

/-- The calls that have returned. -/
def State.returned (s : State T C V) : List (Outcome T C V) := s.outcomes.filter fun o => isOk o.result

/-- A call that panics has changed nothing, so that it does not disturb the order of the others. -/
theorem LawfulClass.exists_order [DecidableEq T] [DecidableEq V] {L : LawfulClass C V W}
    (h : L.Inv v s) :
    ∃ order : List (Outcome T C V), order.Perm s.returned ∧
      (∀ t, (s.returned.filter fun o => o.thread = t).Sublist order) ∧
      L.Replays (L.abs v) order (L.abs s.value) := by
  have hlog : s.returned = s.atomic.log.map outcome := h.log
  obtain ⟨order, hperm, hthread, hreplays⟩ := h.register.exists_order
  refine ⟨order.map outcome, hlog ▸ hperm.map outcome, fun t => ?_,
    L.replays (fun e he => h.body e (hperm.mem_iff.mp he)) hreplays⟩
  rw [hlog, List.filter_map]
  exact (hthread t).map outcome

/-- What is read off the calls that have returned is read off all of them. -/
theorem filterMap_returned {B : Type} {f : Outcome T C V → Option B}
    (hf : ∀ o, isOk o.result = false → f o = none) (os : List (Outcome T C V)) :
    (os.filter fun o => isOk o.result).filterMap f = os.filterMap f := by
  rw [List.filterMap_filter]
  refine List.filterMap_congr fun o _ => ?_
  cases hok : isOk o.result with
  | true => rfl
  | false => exact (hf o hok).symm

end Returned

namespace AtomicInteger

variable {T : Type} {s : State T Call Int64} {o : Outcome T Call Int64} {x y : ℤ}
variable {os : List (Outcome T Call Int64)} {p : ℤ × ℤ}

/-- Whether the method returns the new value, rather than the old one. -/
def Call.returnsNew : Call → Bool
  | .addAndGet .. | .addAndGetRelaxed _ | .subAndGet .. | .subAndGetRelaxed _ | .increment _
  | .incrementRelaxed | .decrement _ | .decrementRelaxed => true
  | _ => false

/-- A call that does not lower the value, as long as it does not wrap. -/
def Call.Raises : Call → Prop
  | .compareAndSet expected newValue _ => expected.toInt ≤ newValue.toInt
  | c => ∃ d, c.delta = some d ∧ 0 ≤ d

/-- The range that a call has moved the value over, as its caller knows it from what has been returned. -/
def range (o : Outcome T Call Int64) : Option (ℤ × ℤ) :=
  match o.call, o.result with
  | .compareAndSet expected newValue _, .ok (.flag true) => some (expected.toInt, newValue.toInt)
  | c, .ok (.value v) =>
      c.delta.map fun d => if c.returnsNew then (v.toInt - d, v.toInt) else (v.toInt, v.toInt + d)
  | _, _ => none

/-- The ranges belong to one caller each. -/
structure Reserves [DecidableEq T] (x : ℤ) (s : State T Call Int64) : Prop where
  apart : (s.outcomes.filterMap range).Pairwise fun p q => p.2 ≤ q.1 ∨ q.2 ≤ p.1
  /-- Nothing that the value has moved over is left out. -/
  covers : ∀ z, (∃ p ∈ s.outcomes.filterMap range, p.1 ≤ z ∧ z < p.2) ↔ x ≤ z ∧ z < s.value.toInt
  /-- A thread finds the value never below where its calls, reads among them, have left it. -/
  threads : ∀ t, ((s.outcomes.filter fun o => o.thread = t).filterMap range).Pairwise
    fun p q => p.2 ≤ q.1

theorem wrap_of_mem (hlow : -2 ^ 63 ≤ x) (hhigh : x < 2 ^ 63) : wrap x = x := by
  unfold wrap
  omega

theorem range_of_not_isOk (o : Outcome T Call Int64) (h : isOk o.result = false) : range o = none := by
  obtain ⟨t, c, r⟩ := o
  cases r with
  | ok r => cases h
  | error e => cases c <;> rfl

theorem Call.Raises.cases {c : Call} (h : c.Raises) : (∃ d, c.delta = some d ∧ 0 ≤ d) ∨
    ∃ expected newValue ordering, c = .compareAndSet expected newValue ordering ∧
      expected.toInt ≤ newValue.toInt := by
  cases c with
  | compareAndSet => exact .inr ⟨_, _, _, rfl, h⟩
  | _ => exact .inl h

/-- What a call that adds `d` returns. -/
theorem effect_returns {c : Call} {d : ℤ} (hd : c.delta = some d) :
    (c.effect x).2 = .value (if c.returnsNew then wrap (x + d) else x) ∨
      (d = 0 ∧ ∃ text, (c.effect x).2 = .text text) := by
  cases c <;> cases hd <;> first
    | exact .inl rfl
    | exact .inr ⟨rfl, _, rfl⟩

theorem range_value {c : Call} {d : ℤ} {t : T} {v : Int64} (hd : c.delta = some d) :
    range ⟨t, c, .ok (.value v)⟩ =
      some (if c.returnsNew then (v.toInt - d, v.toInt) else (v.toInt, v.toInt + d)) := by
  cases c <;> cases hd <;> rfl

theorem range_text {c : Call} {t : T} {text : String} : range ⟨t, c, .ok (.text text)⟩ = none := by
  cases c <;> rfl

/-- A call that adds, as it is replayed. -/
theorem range_of_delta {c : Call} {d : ℤ} {t : T} {r : Ret Int64} (hd : c.delta = some d) (hle : 0 ≤ d)
    (hret : r.map Int64.toInt = (c.effect x).2) (hlow : -2 ^ 63 ≤ x) (hhigh : x < 2 ^ 63)
    (hroom : ∀ p ∈ range ⟨t, c, .ok r⟩, x + (p.2 - p.1) < 2 ^ 63) :
    (range ⟨t, c, .ok r⟩ = some (x, (c.effect x).1) ∧ x ≤ (c.effect x).1) ∨
      (range ⟨t, c, .ok r⟩ = none ∧ (c.effect x).1 = x) := by
  have hx := wrap_of_mem hlow hhigh
  have heffect := effect_of_delta hd hx
  rw [heffect]
  rcases effect_returns (x := x) hd with hvalue | ⟨rfl, text, htext⟩
  · rw [hvalue] at hret
    cases r with
    | value v =>
        have hv := Ret.value.inj hret
        have hfits : wrap (x + d) = x + d := by
          refine wrap_of_mem (by omega) ?_
          have hlen := hroom _ (range_value hd)
          split at hlen <;> · dsimp only at hlen; omega
        rw [hfits] at hv ⊢
        refine .inl ⟨?_, by omega⟩
        rw [range_value hd, hv]
        cases c.returnsNew with
        | true => exact congrArg (fun z => some (z, x + d)) (Int.add_sub_cancel x d)
        | false => rfl
    | _ => cases hret
  · rw [htext] at hret
    cases r with
    | text => exact .inr ⟨range_text, (congrArg wrap (add_zero x)).trans hx⟩
    | _ => cases hret

/-- A call that does not lower the value has a range that begins where the value was and ends where it
has put it, or it has left the value. -/
theorem range_replayed {c : Call} {t : T} {r : Ret Int64} (hraises : c.Raises)
    (hret : r.map Int64.toInt = (c.effect x).2) (hlow : -2 ^ 63 ≤ x) (hhigh : x < 2 ^ 63)
    (hroom : ∀ p ∈ range ⟨t, c, .ok r⟩, x + (p.2 - p.1) < 2 ^ 63) :
    (range ⟨t, c, .ok r⟩ = some (x, (c.effect x).1) ∧ x ≤ (c.effect x).1) ∨
      (range ⟨t, c, .ok r⟩ = none ∧ (c.effect x).1 = x) := by
  rcases hraises.cases with ⟨d, hd, hle⟩ | ⟨expected, newValue, ordering, rfl, hle⟩
  · exact range_of_delta hd hle hret hlow hhigh hroom
  rw [Call.effect] at hret ⊢
  cases r with
  | flag done =>
      split at hret
      · rename_i hfound
        obtain rfl := Ret.flag.inj hret
        rw [if_pos hfound, hfound]
        exact .inl ⟨rfl, hle⟩
      · rename_i hfound
        obtain rfl := Ret.flag.inj hret
        rw [if_neg hfound]
        exact .inr ⟨rfl, rfl⟩
  | _ => split at hret <;> cases hret

theorem range_le (hraises : o.call.Raises) (hp : range o = some p) : p.1 ≤ p.2 := by
  obtain ⟨t, c, r⟩ := o
  cases r with
  | error e => cases (range_of_not_isOk ⟨t, c, .error e⟩ rfl).symm.trans hp
  | ok r =>
      rcases hraises.cases with ⟨d, hd, hle⟩ | ⟨expected, newValue, ordering, rfl, hle⟩
      · cases r with
        | value v =>
            obtain rfl := Option.some.inj ((range_value hd).symm.trans hp)
            split <;> · dsimp only; omega
        | _ => cases c <;> cases hd <;> cases hp
      · cases r with
        | flag done =>
            cases done with
            | true =>
                obtain rfl := Option.some.inj hp
                exact hle
            | false => cases hp
        | _ => cases hp

/-- The ranges of calls that do not lower the value lie end to end, if they do not come to more than
there is room for. -/
theorem tiles_of_replays (h : cls.Replays x os y) (hraises : ∀ o ∈ os, o.call.Raises)
    (hlow : -2 ^ 63 ≤ x) (hroom : x + ((os.filterMap range).map fun p => p.2 - p.1).sum < 2 ^ 63) :
    Tiles x (os.filterMap range) y := by
  induction os generalizing x with
  | nil => exact h
  | cons o os ih =>
      obtain ⟨t, c, _⟩ := o
      obtain ⟨⟨r, rfl, hret⟩, htail⟩ := h
      have hhead := hraises _ List.mem_cons_self
      have hraises' := fun o ho => hraises o (List.mem_cons_of_mem _ ho)
      have hrest : 0 ≤ ((os.filterMap range).map fun p => p.2 - p.1).sum := by
        refine List.sum_nonneg fun d hd => ?_
        obtain ⟨p, hp, rfl⟩ := List.mem_map.mp hd
        obtain ⟨o, ho, hp⟩ := List.mem_filterMap.mp hp
        exact sub_nonneg.mpr (range_le (hraises' o ho) hp)
      have hown : ∀ p ∈ range ⟨t, c, .ok r⟩, x + (p.2 - p.1) < 2 ^ 63 := by
        intro p hp
        rw [List.filterMap_cons_some hp, List.map_cons, List.sum_cons] at hroom
        omega
      have hhigh : x < 2 ^ 63 := by
        cases hp : range ⟨t, c, .ok r⟩ with
        | none =>
            rw [List.filterMap_cons_none hp] at hroom
            omega
        | some p =>
            have hlen := hown p hp
            have hle := range_le hhead hp
            omega
      rcases range_replayed hhead hret hlow hhigh hown with ⟨hp, hle⟩ | ⟨hp, heffect⟩
      · rw [List.filterMap_cons_some hp] at hroom ⊢
        rw [List.map_cons, List.sum_cons] at hroom
        refine ⟨rfl, hle, ih htail hraises' (hlow.trans hle) ?_⟩
        change (c.effect x).1 + _ < _
        change x + ((c.effect x).1 - x + _) < _ at hroom
        omega
      · rw [List.filterMap_cons_none hp] at hroom ⊢
        exact ih (heffect ▸ htail) hraises' hlow hroom

variable [DecidableEq T]

/-- In every run whose calls do not lower an `AtomicInteger` or wrap it, whatever the orderings and the
stale reads, the ranges that the calls reserve are apart, leave nothing out, and go up with each thread's
own calls: a number is handed out once, and one `compare_and_set` at most moves the value on from `x`. -/
theorem reserves {value : Option Int64} {as : List (Act T Call)}
    (hrun : Run (next Call.body) (State.init (new value)) as s)
    (hraises : ∀ o ∈ s.returned, o.call.Raises)
    (hroom : (new value).toInt + ((s.outcomes.filterMap range).map fun p => p.2 - p.1).sum < 2 ^ 63) :
    Reserves (new value).toInt s := by
  have hinv : lawful.Inv (new value) s := LawfulClass.inv_run hrun
  obtain ⟨order, hperm, hthread, hreplays⟩ := LawfulClass.exists_order hinv
  have hranges : (order.filterMap range).Perm (s.outcomes.filterMap range) := by
    rw [← filterMap_returned range_of_not_isOk s.outcomes]
    exact hperm.filterMap range
  have hsum := (hranges.map fun p => p.2 - p.1).sum_eq
  have hlow : -2 ^ 63 ≤ (new value).toInt := Int64.le_toInt _
  have htiles : Tiles (new value).toInt (order.filterMap range) s.value.toInt :=
    tiles_of_replays hreplays
      (fun o ho => hraises o (hperm.mem_iff.mp ho)) hlow (hsum ▸ hroom)
  constructor
  · exact (hranges.pairwise_iff fun h => h.symm).mp (htiles.pairwise.imp .inl)
  · intro z
    rw [← htiles.covers]
    simp only [hranges.mem_iff]
  · intro t
    have hown : ((s.returned.filter fun o => o.thread = t).filterMap range) =
        (s.outcomes.filter fun o => o.thread = t).filterMap range := by
      rw [State.returned, List.filter_comm, filterMap_returned range_of_not_isOk]
    rw [← hown]
    exact htiles.pairwise.sublist ((hthread t).filterMap range)

/-- Thread 0 reserves five numbers, which thread 1 does not see at first; of two threads that move the
value on from 15, one does. -/
def reserveTrace : List (Act ℕ Call) :=
  [.call 0 (.fetchAdd 5 (some "relaxed")), .access 0 0, .call 1 (.get (some "relaxed")), .access 1 0,
    .call 1 (.compareAndSet 15 18 none), .call 0 (.compareAndSet 15 16 (some "AcqRel")), .access 1 1,
    .access 0 2, .call 1 (.set 0 (some "sequential")), .call 0 .incrementRelaxed, .access 0 2]

theorem reserveTrace_exec :
    (exec (next Call.body) (fun _ _ => True) (State.init (new (some 10))) reserveTrace).map
      (fun s => decide (s.returned.map Outcome.call =
          [.fetchAdd 5 (some "relaxed"), .get (some "relaxed"), .compareAndSet 15 18 none,
            .compareAndSet 15 16 (some "AcqRel"), .incrementRelaxed] ∧
        s.outcomes.filterMap range = [(10, 15), (10, 10), (15, 18), (18, 19)] ∧ s.value = 19)) =
      some true := by
  decide +kernel

theorem reserves_reserveTrace :
    ∃ s : State ℕ Call Int64, Run (next Call.body) (State.init (new (some 10))) reserveTrace s ∧
      Reserves 10 s ∧ s.outcomes.filterMap range = [(10, 15), (10, 10), (15, 18), (18, 19)] := by
  obtain ⟨s, hrun, hs⟩ := exists_runWith_of_exec reserveTrace_exec
  obtain ⟨hcalls, hranges, -⟩ := of_decide_eq_true hs
  refine ⟨s, hrun, reserves hrun (fun o ho => ?_) ?_, hranges⟩
  · have hcall : o.call ∈ s.returned.map Outcome.call := List.mem_map_of_mem ho
    rw [hcalls] at hcall
    simp only [List.mem_cons, List.not_mem_nil, or_false] at hcall
    rcases hcall with hcall | hcall | hcall | hcall | hcall <;> rw [hcall]
    · exact ⟨5, rfl, by decide⟩
    · exact ⟨0, rfl, by decide⟩
    · exact (by decide : (15 : Int64).toInt ≤ (18 : Int64).toInt)
    · exact (by decide : (15 : Int64).toInt ≤ (16 : Int64).toInt)
    · exact ⟨1, rfl, by decide⟩
  · rw [hranges]
    decide

end AtomicInteger

namespace AtomicBoolean

variable {T : Type} {s : State T Call Bool} {os : List (Outcome T Call Bool)} {x y : Bool}

/-- Whether the caller knows, from what has been returned, that the call has turned the flag to `b`. -/
def turned (b : Bool) (o : Outcome T Call Bool) : Bool :=
  match o.call, o.result with
  | .getAndSet newValue _, .ok (.value old) => newValue == b && old == !b
  | .compareAndSet expected newValue _, .ok (.flag true) => newValue == b && expected == !b
  | _, _ => false

/-- Whether `set` has stored `b`, over a value that it does not return. -/
def stored (b : Bool) (o : Outcome T Call Bool) : Bool :=
  match o.call, o.result with
  | .set value _, .ok _ => value == b
  | _, _ => false

theorem toNat_turn : ∀ x y b : Bool, (x == b).toNat + (y == b && x == !b).toNat ≤
    (y == b).toNat + (y == !b && x == !!b).toNat := by decide

theorem toNat_store : ∀ x y b : Bool, (x == b).toNat ≤ (y == b).toNat + (y == !b).toNat := by decide

/-- A call that turns the flag to `b` has found it the other way, and only one that turns it back or
stores over it makes up for that. -/
theorem turned_replayed {c : Call} {t : T} {r : Ret Bool} (b : Bool) (hret : r.map id = (c.effect x).2) :
    (x == b).toNat + (turned b ⟨t, c, .ok r⟩).toNat ≤
      ((c.effect x).1 == b).toNat + (turned (!b) ⟨t, c, .ok r⟩).toNat +
        (stored (!b) ⟨t, c, .ok r⟩).toNat := by
  cases c with
  | get | repr | str => exact Nat.le_refl _
  | set value => exact toNat_store x value b
  | getAndSet newValue =>
      cases r with
      | value old =>
          obtain rfl := Ret.value.inj hret
          exact toNat_turn old newValue b
      | _ => cases hret
  | compareAndSet expected newValue =>
      rw [Call.effect] at hret ⊢
      cases r with
      | flag done =>
          split at hret
          · rename_i hfound
            obtain rfl := Ret.flag.inj hret
            rw [if_pos hfound, hfound]
            exact toNat_turn expected newValue b
          · rename_i hfound
            obtain rfl := Ret.flag.inj hret
            rw [if_neg hfound]
            exact Nat.le_refl _
      | _ => split at hret <;> cases hret

theorem countP_cons_toNat {B : Type} (p : B → Bool) (o : B) (os : List B) :
    (o :: os).countP p = os.countP p + (p o).toNat := by
  rw [List.countP_cons]
  cases p o <;> rfl

theorem turned_of_replays (b : Bool) (h : cls.Replays x os y) :
    (x == b).toNat + os.countP (turned b) ≤
      (y == b).toNat + os.countP (turned (!b)) + os.countP (stored (!b)) := by
  induction os generalizing x with
  | nil => exact (congrArg (fun z => (z == b).toNat) h).le
  | cons o os ih =>
      obtain ⟨t, c, _⟩ := o
      obtain ⟨⟨r, rfl, hret⟩, htail⟩ := h
      have hone : (x == b).toNat + (turned b ⟨t, c, .ok r⟩).toNat ≤ ((cls.effect c x).1 == b).toNat +
          (turned (!b) ⟨t, c, .ok r⟩).toNat + (stored (!b) ⟨t, c, .ok r⟩).toNat := turned_replayed b hret
      have hrest := ih htail
      dsimp only at hrest
      simp only [countP_cons_toNat]
      omega

/-- What is counted among the calls that have returned is counted among all. -/
theorem countP_returned {p : Outcome T Call Bool → Bool} (hp : ∀ o, isOk o.result = false → p o = false) :
    s.returned.countP p = s.outcomes.countP p := by
  rw [State.returned, List.countP_filter]
  refine List.countP_congr fun o _ => ?_
  cases hok : isOk o.result with
  | true => rw [Bool.and_true]
  | false => rw [hp o hok, Bool.false_and]

theorem turned_of_not_isOk (b : Bool) (o : Outcome T Call Bool) (h : isOk o.result = false) :
    turned b o = false := by
  obtain ⟨t, c, r⟩ := o
  cases r with
  | ok r => cases h
  | error e => cases c <;> rfl

theorem stored_of_not_isOk (b : Bool) (o : Outcome T Call Bool) (h : isOk o.result = false) :
    stored b o = false := by
  obtain ⟨t, c, r⟩ := o
  cases r with
  | ok r => cases h
  | error e => cases c <;> rfl

variable [DecidableEq T]

/-- In every run, with any orderings, an `AtomicBoolean` has been turned to `b` by `compare_and_set` and
`get_and_set` at most once more than it has been turned or set back, and not even that if it began as `b`
or is not `b` now. -/
theorem turned_le {value : Option Bool} {as : List (Act T Call)}
    (hrun : Run (next Call.body) (State.init (new value)) as s) (b : Bool) :
    (new value == b).toNat + s.outcomes.countP (turned b) ≤
      (s.value == b).toNat + s.outcomes.countP (turned (!b)) + s.outcomes.countP (stored (!b)) := by
  have hinv : lawful.Inv (new value) s := LawfulClass.inv_run hrun
  obtain ⟨order, hperm, -, hreplays⟩ := LawfulClass.exists_order hinv
  have hle := turned_of_replays b hreplays
  rw [hperm.countP_eq, hperm.countP_eq, hperm.countP_eq, countP_returned (turned_of_not_isOk b),
    countP_returned (turned_of_not_isOk _), countP_returned (stored_of_not_isOk _)] at hle
  exact hle

/-- Two threads take the flag; the second has it once the first has set it back. -/
def flagTrace : List (Act ℕ Call) :=
  [.call 0 (.compareAndSet false true (some "acquire")), .access 0 0,
    .call 1 (.getAndSet true (some "relaxed")), .access 1 1, .call 0 (.set false (some "release")),
    .access 0 3, .call 1 (.compareAndSet false true none), .access 1 3, .call 0 (.get none), .access 0 4]

theorem flagTrace_exec :
    (exec (next Call.body) (fun _ _ => True) (State.init (new none)) flagTrace).map
      (fun s => decide (s.outcomes.countP (turned true) = 2 ∧ s.outcomes.countP (stored false) = 1 ∧
        s.value = true)) = some true := by
  decide +kernel

theorem turned_le_flagTrace :
    ∃ s : State ℕ Call Bool, Run (next Call.body) (State.init (new none)) flagTrace s ∧
      s.outcomes.countP (turned true) = 2 ∧
      s.outcomes.countP (turned true) ≤
        1 + s.outcomes.countP (turned false) + s.outcomes.countP (stored false) := by
  obtain ⟨s, hrun, hs⟩ := exists_runWith_of_exec flagTrace_exec
  obtain ⟨htwice, -, hvalue⟩ := of_decide_eq_true hs
  have hle := turned_le hrun true
  rw [hvalue] at hle
  exact ⟨s, hrun, htwice, (Nat.le_add_left ..).trans hle⟩

end AtomicBoolean

end Pysync.Atomic
