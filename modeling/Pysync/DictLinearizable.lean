import Pysync.DictConserve
import Pysync.MapLinearizable

/-!
Linearizability of the shared dictionary, `popitem` included. A `popitem` makes many calls on the map; what
it does to the dictionary is that one of them takes an entry. The other ones look at the map or find
nothing to take, so that the history of the map, without them, is one of the dictionary.
-/

namespace Pysync.Shared
open Map Dict Transition Linearization

variable {D K V : Type} [DecidableEq D]
variable {hash : K → UInt64} {eqv : K → K → Bool} {n : ℕ} {hn₀ : 0 < n}
variable {s t u : State D K V} {a : Act D K V} {as : List (Act D K V)} {d : D}

/-- What is seen of the dictionary: calls on a key, a `popitem` that takes the value of a key, and that a
`clear` empties its shard `i`. -/
inductive Event (D K V : Type) where
  | call (d : D) (op : KeyOp K V) (ret : Ret K V)
  | popitem (d : D) (key : K) (v : V)
  | wipe (d : D) (i : ℕ)
  deriving DecidableEq

namespace Event

/-- A `popitem` is past when one of its calls has taken an entry, whether it has returned or not. -/
def Past (n : ℕ) (s : State D K V) : Event D K V → Prop
  | call d op ret => (Map.Event.call d op ret).Past n (s.map.calls (.direct d))
  | popitem d key v => s.popitems d ≠ .idle ∧
      ∃ i, s.map.calls (.inner d i) = .done (.keyed (.popVal key)) (.ok (.found (some v)))
  | wipe d i => (Map.Event.wipe d i).Past n (s.map.calls (.direct d))

def Unbegun (n : ℕ) (s : State D K V) : Event D K V → Prop
  | call d op ret => (Map.Event.call d op ret).Unbegun n (s.map.calls (.direct d))
  | popitem d _ _ => s.popitems d = .idle
  | wipe d i => (Map.Event.wipe d i).Unbegun n (s.map.calls (.direct d))

/-- `popitem` takes a key that is there away. -/
def Legal (hash : K → UInt64) (eqv : K → K → Bool) (n : ℕ) (A : K → Option V) (B : K → Option V) :
    Event D K V → Prop
  | call d op ret => (Map.Event.call d op ret).Legal hash eqv n A B
  | popitem _ key v => A key = some v ∧ ∀ k, B k = if eqv key k = true then none else A k
  | wipe d i => (Map.Event.wipe d i : Map.Event D K V).Legal hash eqv n A B

end Event

/-- The dictionary under calls on keys, `popitem` and the emptying of shards. -/
def observed (hash : K → UInt64) (eqv : K → K → Bool) (n : ℕ) :
    Observed (State D K V) (K → Option V) (Event D K V) where
  value s := contents hash eqv s.map
  legal A e B := e.Legal hash eqv n A B
  past s e := e.Past n s
  unbegun s e := e.Unbegun n s
  begun s e hpast hun := by
    cases e with
    | call d op ret =>
        have hidle : s.map.calls (.direct d) = .idle := hun
        cases hidle.symm.trans hpast
    | popitem d key v => exact hpast.1 hun
    | wipe d i => exact hun hpast

/-- What an event of the map is for the dictionary. -/
def above : Map.Event (Caller D) K V → Option (Event D K V)
  | .call (.direct d) op ret => some (.call d op ret)
  | .call (.inner d _) (.popVal key) (.found (some v)) => some (.popitem d key v)
  | .call (.inner _ _) _ _ => none
  | .wipe (.direct d) i => some (.wipe d i)
  | .wipe (.inner _ _) _ => none

/-- The steps on the map are lawful, and no `set` makes a stale push. -/
def FreshMap (hash : K → UInt64) (eqv : K → K → Bool) (s : State D K V) (a : Act D K V) : Prop :=
  ∀ b, a.mapStep = some b → Fresh hash eqv s.map b

theorem run_fresh [DecidableEq K] [DecidableEq V] {m : ConcurrentMap K V}
    (h : RunWith (next hash) (FreshMap hash eqv) (State.init m) as s) :
    RunWith (Map.next hash) (Fresh hash eqv) (Map.State.init m) (mapActs as) s.map := by
  induction h with
  | nil => exact .nil
  | @snoc as s a t _ hf hn ih =>
      have happend : mapActs (as ++ [a]) = mapActs as ++ a.mapStep.toList := by
        cases a <;> simp [mapActs, Act.mapStep]
      rw [happend]
      cases a with
      | start d =>
          obtain ⟨-, rfl⟩ := next_start hn
          exact (List.append_nil _).symm ▸ ih
      | answer d =>
          obtain ⟨_, _, _, _, -, -, ⟨_, _, _, -, -, -, rfl⟩ | ⟨_, -, rfl⟩⟩ := next_answer hn
          · exact (List.append_nil _).symm ▸ ih
          · exact (List.append_nil _).symm ▸ ih
      | map b => exact ih.snoc (hf b rfl) (next_map hn).1

theorem visits_map [DecidableEq K] [DecidableEq V] {m : ConcurrentMap K V}
    (h : Visits (next hash) (State.init m) as u) :
    Visits (Map.next hash) (Map.State.init m) (mapActs as) u.map := by
  obtain ⟨pre, ⟨post, rfl⟩, hrun⟩ := h
  refine ⟨mapActs pre, ?_, run_map hrun⟩
  rw [mapActs, mapActs, List.filterMap_append]
  exact List.prefix_append _ _

/-- A call that a `popitem` makes. -/
def IsInner (o : Op K V) : Prop := o = .whole .items ∨ ∃ key, o = .keyed (.popVal key)

theorem isInner_ask {pc : Dict.Pc K V} (h : IsPopitem pc) : IsInner pc.ask.2 := by
  cases pc with
  | popitemItems => exact .inl rfl
  | popitemPop key rest => exact .inr ⟨key, rfl⟩
  | _ => exact h.elim

/-- What is known of the calls of a `popitem`: it makes one after the other, as long as it gets nothing. -/
structure Inner (calls : ℕ → CallState K V) : Prop where
  operation : ∀ i o, (calls i).operation = some o → IsInner o
  spent : ∀ i j, i < j → calls j ≠ .idle → Spent (calls i)

theorem Inner.next [DecidableEq K] [DecidableEq V] {v v' : Map.State (Caller D) K V}
    {b : Map.Act (Caller D) K V}
    (h : Inner fun i => v.calls (.inner d i)) (hn : Map.next hash v b = some v')
    (hb : ∀ i o, b.Begins (.inner d i) o → IsInner o ∧ ∀ j, j < i → Spent (v.calls (.inner d j))) :
    Inner fun i => v'.calls (.inner d i) where
  operation i o ho := by
    by_cases hbegins : ∃ o', b.Begins (.inner d i) o'
    · obtain ⟨o', hbegins⟩ := hbegins
      obtain rfl : o' = o := Option.some.inj ((begins_next hn hbegins).symm.trans ho)
      exact (hb i o' hbegins).1
    · cases hv : (v.calls (.inner d i)).operation with
      | some o' =>
          obtain rfl : o' = o := Option.some.inj ((call_next hn hv).1.symm.trans ho)
          exact h.operation i o' hv
      | none =>
          have hidle : v.calls (.inner d i) = .idle := by
            cases hc : v.calls (.inner d i) with
            | idle => rfl
            | _ => rw [hc] at hv; cases hv
          rw [idle_next hn hidle fun o' ho' => hbegins ⟨o', ho'⟩] at ho
          cases ho
  spent i j hij hj := by
    by_cases hidle : v.calls (.inner d j) = .idle
    · by_cases hbegins : ∃ o, b.Begins (.inner d j) o
      · obtain ⟨o, hbegins⟩ := hbegins
        exact ((hb j o hbegins).2 i hij).next hn
      · exact absurd (idle_next hn hidle fun o ho => hbegins ⟨o, ho⟩) hj
    · exact (h.spent i j hij hidle).next hn

theorem inner_run [DecidableEq K] [DecidableEq V] {m : ConcurrentMap K V}
    (h : Run (next hash) (State.init m) as s) (d : D) : Inner fun i => s.map.calls (.inner d i) := by
  induction h with
  | nil => exact ⟨fun _ _ ho => (by cases ho), fun _ _ _ hj => (hj rfl).elim⟩
  | @snoc as s a t hr _ hn ih =>
      cases a with
      | start e =>
          obtain ⟨-, rfl⟩ := next_start hn
          exact ih
      | answer e =>
          obtain ⟨_, _, _, _, -, -, ⟨_, _, _, -, -, -, rfl⟩ | ⟨_, -, rfl⟩⟩ := next_answer hn <;> exact ih
      | map b =>
          obtain ⟨hmap, hfollow⟩ := next_map hn
          refine ih.next hmap fun i o ho => ?_
          rcases follow_cases hfollow with ⟨e, j, pc, hasking, hbegins, -⟩ | ⟨-, hnone⟩
          swap
          · exact absurd ho (hnone d i o)
          obtain ⟨rfl, rfl⟩ := Caller.inner.inj (ho.call_eq.symm.trans hbegins.call_eq)
          obtain rfl : o = pc.ask.2 :=
            Option.some.inj ((begins_next hmap ho).symm.trans (begins_next hmap hbegins))
          have hknows := knows hr d
          rw [hasking] at hknows
          cases hknows with
          | asking hpc hspent _ => exact ⟨isInner_ask hpc, hspent⟩

/-- A `popitem` gets one entry. -/
theorem Inner.once {calls : ℕ → CallState K V} (h : Inner calls) {i j : ℕ} (hi : TookOne (calls i))
    (hj : TookOne (calls j)) : i = j := by
  have hidle : ∀ {i}, TookOne (calls i) → calls i ≠ .idle := by
    rintro i ⟨op, r, hr, -⟩ hidle
    cases hidle.symm.trans hr
  rcases lt_trichotomy i j with hlt | heq | hlt
  · exact absurd hi (h.spent i j hlt (hidle hj)).2
  · exact heq
  · exact absurd hj (h.spent j i hlt (hidle hi)).2

/-- The dictionary has one value for all equal keys. -/
def Congruent (eqv : K → K → Bool) (A : K → Option V) : Prop := ∀ k k', eqv k k' = true → A k = A k'

theorem congruent_contents {C : Type} (hk : LawfulKeys hash eqv) (v : Map.State C K V) :
    Congruent eqv (contents hash eqv v) := fun _ _ hkk => valueOf_congr hk hkk

theorem Congruent.legal (hk : LawfulKeys hash eqv) {A B : K → Option V} {C : Type} {e : Map.Event C K V}
    (hA : Congruent eqv A) (h : e.Legal hash eqv n A B) : Congruent eqv B := by
  intro k k' hkk
  cases e with
  | call c op ret =>
      have hsame : eqv op.key k = eqv op.key k' := by
        rw [Bool.eq_iff_iff]
        exact ⟨fun h => hk.trans h hkk, fun h => hk.trans h (hk.symm hkk)⟩
      rw [h.2 k, h.2 k', hsame, hA k k' hkk]
  | wipe c i => rw [h k, h k', hk.hash_eq hkk, hA k k' hkk]

omit [DecidableEq D] in
theorem above_cases {e : Map.Event (Caller D) K V} {x : Event D K V} (h : above e = some x) :
    (∃ d op ret, e = .call (.direct d) op ret ∧ x = .call d op ret) ∨
    (∃ d i key v, e = .call (.inner d i) (.popVal key) (.found (some v)) ∧ x = .popitem d key v) ∨
    ∃ d i, e = .wipe (.direct d) i ∧ x = .wipe d i := by
  unfold above at h
  split at h
  · cases h
    exact .inl ⟨_, _, _, rfl, rfl⟩
  · cases h
    exact .inr (.inl ⟨_, _, _, _, rfl, rfl⟩)
  · cases h
  · cases h
    exact .inr (.inr ⟨_, _, rfl, rfl⟩)
  · cases h

theorem past_iff [DecidableEq K] [DecidableEq V] {m : ConcurrentMap K V}
    (h : Run (next hash) (State.init m) as s) (x : Event D K V) :
    x.Past n s ↔ ∃ e : Map.Event (Caller D) K V, e.Past n (s.map.calls e.caller) ∧ above e = some x := by
  constructor
  · intro hpast
    cases x with
    | call d op ret => exact ⟨.call (.direct d) op ret, hpast, rfl⟩
    | popitem d key v =>
        obtain ⟨-, i, hi⟩ := hpast
        exact ⟨.call (.inner d i) (.popVal key) (.found (some v)), hi, rfl⟩
    | wipe d i => exact ⟨.wipe (.direct d) i, hpast, rfl⟩
  · rintro ⟨e, hpast, hx⟩
    rcases above_cases hx with ⟨d, op, ret, rfl, rfl⟩ | ⟨d, i, key, v, rfl, rfl⟩ | ⟨d, i, rfl, rfl⟩
    · exact hpast
    · refine ⟨fun hidle => ?_, i, hpast⟩
      have hknows := knows h d
      rw [hidle] at hknows
      cases hknows with
      | idle hall => cases (hall i).symm.trans hpast
    · exact hpast

theorem wiped_operation {C : Type} {c : C} {i : ℕ} {x : CallState K V}
    (h : (Map.Event.wipe c i : Map.Event C K V).Past n x) : x.operation = some (.whole .clear) := by
  cases x with
  | whole op j acc =>
      cases op with
      | clear => rfl
      | _ => exact h.elim
  | done o r =>
      cases o with
      | whole op =>
          cases op with
          | clear => rfl
          | _ => exact h.elim
      | keyed op => exact h.elim
  | _ => exact h.elim

variable [DecidableEq K] [DecidableEq V]

/-- An event of the map is seen, or leaves the dictionary as it is. -/
theorem above_legal {m : ConcurrentMap K V} (h : Run (next hash) (State.init m) as s)
    {e : Map.Event (Caller D) K V} (hpast : e.Past n (s.map.calls e.caller)) {A B : K → Option V}
    (hA : Congruent eqv A) (hl : e.Legal hash eqv n A B) :
    (above e).elim (A = B) fun x => x.Legal hash eqv n A B := by
  cases e with
  | wipe c i =>
      cases c with
      | direct d => exact hl
      | inner d j =>
          obtain hop | ⟨key, hop⟩ := (inner_run h d).operation j _ (wiped_operation hpast)
          · cases hop
          · cases hop
  | call c op ret =>
      cases c with
      | direct d => exact hl
      | inner d i =>
          have hdone : s.map.calls (.inner d i) = .done (.keyed op) (.ok ret) := hpast
          obtain hop | ⟨key, hop⟩ := (inner_run h d).operation i (.keyed op) (by rw [hdone]; rfl)
          · cases hop
          cases hop
          obtain ⟨hret, hvalue⟩ := hl
          obtain rfl : .found (A key) = ret := hret
          cases hkey : A key with
          | some v => exact ⟨hkey, hvalue⟩
          | none =>
              funext k
              rw [hvalue k]
              split
              · rename_i hk
                rw [← hA _ _ hk]
                exact hkey
              · rfl

theorem above_run (hk : LawfulKeys hash eqv)
    (hrun : RunWith (next hash) (FreshMap hash eqv) (State.init (.empty n hn₀)) as s) :
    (Map.observed hash eqv n).Above (observed hash eqv n) (Map.next hash) (Map.State.init (.empty n hn₀))
      (mapActs as) (next hash) (State.init (.empty n hn₀)) as s State.map above (Congruent eqv) where
  value _ := rfl
  visits _ hu := visits_map hu
  past u hu x := by
    obtain ⟨pre, -, hpre⟩ := hu
    exact past_iff hpre x
  unbegun u hu e x hx hun := by
    rcases above_cases hx with ⟨d, op, ret, rfl, rfl⟩ | ⟨d, i, key, v, rfl, rfl⟩ | ⟨d, i, rfl, rfl⟩
    · exact hun
    · obtain ⟨pre, -, hpre⟩ := hu
      have hknows := knows hpre d
      rw [show u.popitems d = .idle from hun] at hknows
      cases hknows with
      | idle hall => exact hall i
    · exact hun
  once e e' x he he' hx hx' := by
    rcases above_cases hx with ⟨d, op, ret, rfl, rfl⟩ | ⟨d, i, key, v, rfl, rfl⟩ | ⟨d, i, rfl, rfl⟩
    · rcases above_cases hx' with ⟨_, _, _, rfl, h⟩ | ⟨_, _, _, _, -, h⟩ | ⟨_, _, -, h⟩ <;> cases h
      rfl
    · rcases above_cases hx' with ⟨_, _, _, -, h⟩ | ⟨_, j, _, _, rfl, h⟩ | ⟨_, _, -, h⟩ <;> cases h
      have htook : ∀ {j}, s.map.calls (.inner d j) = .done (.keyed (.popVal key)) (.ok (.found (some v))) →
          TookOne (s.map.calls (.inner d j)) := fun hj => ⟨_, _, hj, trivial⟩
      rw [(inner_run hrun.run d).once (htook he) (htook he')]
    · rcases above_cases hx' with ⟨_, _, _, -, h⟩ | ⟨_, _, _, _, -, h⟩ | ⟨_, _, rfl, h⟩ <;> cases h
      rfl
  stays u e hu he :=
    Observed.past_of_visits (fun _ _ _ _ hr hf hn => fresh_step hk hr hf hn) (run_fresh hrun) hu he
  start := congruent_contents hk (Map.State.init (.empty n hn₀) : Map.State (Caller D) K V)
  keep e A B he hA hl := ⟨hA.legal hk hl, above_legal hrun.run he hA hl⟩

/-- Every run in which no `set` makes a stale push is one of a dictionary, `popitem` included. There is one
order of the calls on keys that have returned, of the `popitem`s that have taken an entry, and of the shards
that `clear`s have emptied: in it each call is between its invocation and its return and answers what the
dictionary answers, a `popitem` takes the value that its key has there, and the end is the present contents. A
`popitem` that has returned a pair is in it with this pair, once. -/
theorem linearizable_dict (hash : K → UInt64) (eqv : K → K → Bool) (hk : LawfulKeys hash eqv) (n : ℕ)
    (hn₀ : 0 < n) (as : List (Act D K V)) (s : State D K V)
    (hrun : RunWith (next hash) (FreshMap hash eqv) (State.init (.empty n hn₀)) as s) :
    ∃ history, (observed hash eqv n).History (next hash) (State.init (.empty n hn₀)) as s history ∧
      ∀ d key v, s.popitems d = .done (.ok (.pair (key, v))) → .popitem d key v ∈ history ∧
        ∀ key' v', .popitem d key' v' ∈ history → key' = key ∧ v' = v := by
  obtain ⟨history, hh⟩ := Observed.exists_history (fun e => unseen_idle (n := n) e)
    (fun _ _ _ _ hr hf hn => fresh_step hk hr hf hn) (run_fresh hrun)
  have hlift := (above_run hk hrun).lift hrun.visits_self rfl hh
  refine ⟨_, hlift, fun d key v hdone => ?_⟩
  have hknows := knows hrun.run d
  rw [hdone] at hknows
  cases hknows with
  | done hpair =>
      obtain ⟨i, hi, hothers⟩ := hpair key v rfl
      refine ⟨(hlift.mem_iff _).mpr ⟨?_, i, hi⟩, fun key' v' hmem => ?_⟩
      · rw [hdone]
        exact fun h => by cases h
      · obtain ⟨-, j, hj⟩ := (hlift.mem_iff _).mp hmem
        obtain rfl : j = i := (inner_run hrun.run d).once ⟨_, _, hj, trivial⟩ ⟨_, _, hi, trivial⟩
        cases hj.symm.trans hi
        exact ⟨rfl, rfl⟩

/-- The step of the map is lawful and not the end of a pass of `set`. -/
def plain (eqv : K → K → Bool) (s : State D K V) : Act D K V → Bool
  | .map b => decide (Lawful eqv s.map b) && noLastPass s.map b
  | _ => true

omit [DecidableEq D] [DecidableEq K] [DecidableEq V] in
theorem freshMap_of_plain (h : plain eqv s a = true) : FreshMap hash eqv s a := by
  intro b hb
  cases a with
  | map c =>
      cases hb
      obtain ⟨hlaw, hpass⟩ := Bool.and_eq_true_iff.mp h
      exact fresh_of_noLastPass (of_decide_eq_true hlaw) hpass
  | _ => cases hb

/-- A `popitem` has read the entry that another caller then overwrites; it takes the new value, and then
its key is set again. -/
def overwrittenTrace : List (Act ℕ ℕ ℕ) :=
  [.map (.invoke (.direct 0) (.keyed (.set 1 5))), .map (.lock (.direct 0)), .start 1,
   .map (.invoke (.inner 1 0) (.whole .items)), .map (.visit (.inner 1 0) [0]), .answer 1,
   .map (.invoke (.direct 2) (.keyed (.set 1 6))), .map (.lock (.direct 2)),
   .map (.invoke (.inner 1 1) (.keyed (.popVal 1))), .map (.lock (.inner 1 1)),
   .map (.invoke (.direct 3) (.keyed (.set 1 7))), .map (.lock (.direct 3)), .answer 1]

theorem overwrittenTrace_exec :
    (exec (next fun _ : ℕ => 0) (fun s a => plain (fun k k' => decide (k = k')) s a = true)
      (State.init (.empty 1 (by decide))) overwrittenTrace).map (fun s : State ℕ ℕ ℕ =>
        match s.popitems 1 with
          | .done (.ok (.pair e)) => decide (e = (1, 6))
          | _ => false) = some true := by
  decide +kernel

theorem linearizable_dict_overwrittenTrace :
    ∃ (s : State ℕ ℕ ℕ) (history : List (Event ℕ ℕ ℕ)),
      (observed (fun _ => 0) (fun k k' => decide (k = k')) 1).History (next fun _ => 0)
        (State.init (.empty 1 (by decide))) overwrittenTrace s history ∧
      .popitem 1 1 6 ∈ history := by
  obtain ⟨s, hrun, hs⟩ := exists_runWith_of_exec overwrittenTrace_exec
  obtain ⟨history, hh, hpop⟩ := linearizable_dict (fun _ : ℕ => 0) (fun k k' => decide (k = k'))
    ⟨fun _ => decide_eq_true rfl, fun h => decide_eq_true (of_decide_eq_true h).symm,
      fun h h' => decide_eq_true ((of_decide_eq_true h).trans (of_decide_eq_true h')), fun _ => rfl⟩ 1
    (by decide) overwrittenTrace s (hrun.mono fun _ _ h => freshMap_of_plain h)
  refine ⟨s, history, hh, ?_⟩
  split at hs
  · rename_i e hdone
    obtain rfl := of_decide_eq_true hs
    exact (hpop 1 1 6 hdone).1
  · cases hs

end Pysync.Shared
