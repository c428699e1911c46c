import Pysync.DictCompound
import Pysync.MapSnapshot

/-!
Compound calls on a dictionary that changes meanwhile. `copy` takes what the scan of the items reports;
`update` and `==` look each key up again, and raise if it has gone.
-/

namespace Pysync.Map
open Transition

variable {C K V : Type} [DecidableEq C] [DecidableEq K] {hash : K → UInt64} {eqv : K → K → Bool}
variable {s t : State C K V} {a : Act C K V} {c : C} {key : K} {P Q : V → Prop}
variable {P' Q' : K × V → Prop}

/-- Every call that has ended has returned. -/
def NoError (s : State C K V) : Prop := ∀ c op r, s.calls c = .done op r → ∃ x, r = .ok x

/-- A lawful step makes no call raise. -/
theorem NoError.next (h : NoError s) (hlaw : Lawful eqv s a) (hn : next hash s a = some t) :
    NoError t := by
  intro d op r hd
  by_cases hda : d = a.call
  swap
  · rw [next_frame hn hda] at hd
    exact h d op r hd
  subst hda
  cases a with
  | invoke c op' =>
      obtain ⟨-, ⟨_, -, rfl⟩ | ⟨_, -, rfl⟩⟩ := next_invoke hn <;>
        (rw [Act.call, State.calls_setCall_self] at hd; cases hd)
  | unhashable c op' => exact hlaw.elim
  | lock c =>
      obtain ⟨op', pc, slot, ctl, l, l', -, -, -, -, rfl⟩ := next_lock hn
      rw [Act.call, State.calls_resume_self] at hd
      cases ctl with
      | goto pc => cases hd
      | ret x =>
          cases hd
          exact ⟨x, rfl⟩
  | eq c answer =>
      obtain ⟨op', checkedKeys, e, rest, hc, ⟨rfl, -⟩ | ⟨b, -, rfl⟩⟩ := next_eq hn
      · cases hlaw.answer hc
      · rw [Act.call, State.calls_resume_self] at hd
        split at hd
        · cases hd
        · cases hd
          exact ⟨_, rfl⟩
  | visit c order =>
      obtain ⟨op', i, acc, acc', hi, hc, -, -, hcalls⟩ := next_visit_eq hn
      rw [Act.call, hcalls] at hd
      split at hd
      · cases hd
        exact ⟨_, rfl⟩
      · cases hd

/-- A `get_val` of `key` that is bound to find a value with the property `P`. -/
inductive WillFind (eqv : K → K → Bool) (key : K) (P : V → Prop) : CallState K V → Prop
  | collect {checkedKeys : List K} : WillFind eqv key P (.keyed (.getVal key) (.collect checkedKeys))
  | compare {checkedKeys : List K} {candidates : List (K × V)} :
      (∃ e ∈ candidates, eqv e.1 key = true) → (∀ e ∈ candidates, eqv e.1 key = true → P e.2) →
      WillFind eqv key P (.keyed (.getVal key) (.compare checkedKeys candidates))
  | done {v : V} : P v → WillFind eqv key P (.done (.keyed (.getVal key)) (.ok (.found (some v))))

omit [DecidableEq K] in
theorem WillFind.mono {x : CallState K V} (hPQ : ∀ v, P v → Q v) (h : WillFind eqv key P x) :
    WillFind eqv key Q x := by
  cases h with
  | collect => exact .collect
  | compare hex hall => exact .compare hex fun e he heq => hPQ _ (hall e he heq)
  | done hv => exact .done (hPQ _ hv)

/-- A step of the call: at its lock it copies the bucket. -/
theorem WillFind.next (h : WillFind eqv key P (s.calls c)) (hlaw : Lawful eqv s a)
    (hn : next hash s a = some t) (hPQ : ∀ v, P v → Q v)
    (hcopy : a = .lock c → ∀ checkedKeys, s.calls c = .keyed (.getVal key) (.collect checkedKeys) →
      (∃ e ∈ s.map.bucket (hash key), eqv e.1 key = true) ∧
        ∀ e ∈ s.map.bucket (hash key), eqv e.1 key = true → Q e.2) :
    WillFind eqv key Q (t.calls c) := by
  by_cases hca : c = a.call
  swap
  · rw [next_frame hn hca]
    exact h.mono hPQ
  subst hca
  cases a with
  | invoke c op =>
      obtain ⟨hidle, -⟩ := next_invoke hn
      rw [Act.call, hidle] at h
      cases h
  | unhashable c op => exact hlaw.elim
  | visit c order =>
      obtain ⟨_, _, _, _, hc, -⟩ := next_visit hn
      rw [Act.call, hc] at h
      cases h
  | lock c =>
      obtain ⟨op, pc, slot, ctl, l, l', hc, hl, -, hstep, rfl⟩ := next_lock hn
      rw [Act.call, hc] at h
      rw [Act.call, State.calls_resume_self]
      cases h with
      | collect =>
          obtain ⟨hex, hall⟩ := hcopy rfl _ hc
          rw [show hash key = hash (KeyOp.getVal key : KeyOp K V).key from rfl, hl] at hex hall
          cases hstep with
          | snapshot => exact .compare hex hall
          | collect hlookup => exact (hlookup trivial).elim
          | remove hop => exact hop.elim
      | compare hex hall =>
          cases hstep with
          | exhausted => simp at hex
          | retry hlookup => exact (hlookup trivial).elim
          | absentLast hop => exact hop.elim
          | remove hop => exact hop.elim
  | eq c answer =>
      obtain ⟨op, checkedKeys, e, rest, hc, ⟨rfl, -⟩ | ⟨b, rfl, rfl⟩⟩ := next_eq hn
      · cases hlaw.answer hc
      have hb := Option.some.inj (hlaw.answer hc)
      rw [Act.call, hc] at h
      rw [Act.call, State.calls_resume_self]
      cases h with
      | compare hex hall =>
          cases b with
          | true => exact .done (hPQ _ (hall e List.mem_cons_self hb.symm))
          | false =>
              obtain ⟨e', he', heq⟩ := hex
              refine .compare ⟨e', ?_, heq⟩ fun x hx hxe =>
                hPQ _ (hall x (List.mem_cons_of_mem _ hx) hxe)
              rcases List.mem_cons.mp he' with rfl | he'
              · cases hb.trans heq
              · exact he'

/-- An `items` all of whose entries have the property `P`. -/
inductive Lists (P : K × V → Prop) : CallState K V → Prop
  | scan {i : ℕ} {acc : List (K × V)} : (∀ e ∈ acc, P e) → Lists P (.whole .items i acc)
  | done {es : List (K × V)} : (∀ e ∈ es, P e) → Lists P (.done (.whole .items) (.ok (.items es)))

omit [DecidableEq K] in
theorem Lists.mono {x : CallState K V} (hPQ : ∀ e, P' e → Q' e) (h : Lists P' x) : Lists Q' x := by
  cases h with
  | scan hacc => exact .scan fun e he => hPQ e (hacc e he)
  | done hes => exact .done fun e he => hPQ e (hes e he)

theorem Lists.next (h : Lists P' (s.calls c)) (hn : next hash s a = some t)
    (hPQ : ∀ e, P' e → Q' e) (hnow : ∀ order, a = .visit c order → ∀ e ∈ s.map.entries, Q' e) :
    Lists Q' (t.calls c) := by
  by_cases hca : c = a.call
  swap
  · rw [next_frame hn hca]
    exact h.mono hPQ
  subst hca
  cases a with
  | visit c order =>
      obtain ⟨op, i, acc, acc', hi, hc, hacc', -, hcalls⟩ := next_visit_eq hn
      rw [Act.call, hc] at h
      rw [Act.call, hcalls]
      cases h with
      | scan hacc =>
          have hall : ∀ e ∈ acc', Q' e := by
            intro e he
            have hmem : e ∈ (acc : Multiset (K × V)) + shardEntries (s.map.shards ⟨i, hi⟩) :=
              hacc' ▸ Multiset.mem_coe.mpr he
            rcases Multiset.mem_add.mp hmem with he | he
            · exact hPQ e (hacc e he)
            · exact hnow order rfl e (mem_entries_of_shard he)
          split
          · exact .done hall
          · exact .scan hall
  | invoke c op =>
      obtain ⟨hidle, -⟩ := next_invoke hn
      rw [Act.call, hidle] at h
      cases h
  | unhashable c op =>
      obtain ⟨hidle, -⟩ := next_unhashable hn
      rw [Act.call, hidle] at h
      cases h
  | lock c =>
      obtain ⟨_, _, _, _, _, _, hc, -⟩ := next_lock hn
      rw [Act.call, hc] at h
      cases h
  | eq c answer =>
      obtain ⟨_, _, _, _, hc, -⟩ := next_eq hn
      rw [Act.call, hc] at h
      cases h

end Pysync.Map

namespace Pysync.Compound
open Map Dict Transition
open Shared (Caller)

variable {N D K V : Type}
variable {hash : K → UInt64} {eqv : K → K → Bool} {vne : V → V → Bool}
variable {s s₀ t : State N D K V} {a : Act N D K V} {as : List (Act N D K V)} {d e : D}
variable {m : Method N D} {pc : Pc K V} {i : ℕ} {n : Name N D} {k : K} {v : V}
variable {size : Name N D → ℕ} {hsize : ∀ n, 0 < size n}

/-- The keys keep their law in every map. -/
def Lawful (eqv : K → K → Bool) (s : State N D K V) : Act N D K V → Prop
  | .map n b => Map.Lawful eqv (s.maps n) b
  | _ => True

/-- If in this step the compound call of `d` copies a bucket to look up `src[k]` again, then `src` holds
a key equal to `k`. -/
def KeyThere (eqv : K → K → Bool) (d : D) (s : State N D K V) : Act N D K V → Prop
  | .map n (.lock (.inner e i)) => match (s.maps n).calls (.inner e i) with
      | .keyed (.getVal key) (.collect _) =>
          e = d → ∃ x ∈ (s.maps n).map.entries, eqv x.1 key = true
      | _ => True
  | _ => True

instance (eqv : K → K → Bool) (s : State N D K V) (a : Act N D K V) : Decidable (Lawful eqv s a) := by
  unfold Lawful
  split <;> infer_instance

instance (m : ConcurrentMap K V) (p : K × V → Bool) : Decidable (∃ x ∈ m.entries, p x = true) :=
  Multiset.decidableExistsMultiset

instance [DecidableEq D] (eqv : K → K → Bool) (d : D) (s : State N D K V) (a : Act N D K V) :
    Decidable (KeyThere eqv d s a) := by
  unfold KeyThere
  split
  · split <;> infer_instance
  · infer_instance

theorem KeyThere.exists {checkedKeys : List K} (h : KeyThere eqv d s (.map n (.lock (.inner d i))))
    (hc : (s.maps n).calls (.inner d i) = .keyed (.getVal k) (.collect checkedKeys)) :
    ∃ x ∈ (s.maps n).map.entries, eqv x.1 k = true := by
  unfold KeyThere at h
  dsimp only at h
  rw [hc] at h
  exact h rfl

/-- The compound call `m` is in progress. -/
def Phase.runs (m : Method N D) : Phase N D K V → Prop
  | .asking m' _ _ | .waiting m' _ _ => m' = m
  | _ => False

/-- The pair that the compound call is setting. -/
def Phase.writes : Phase N D K V → Option (Method N D × K × V)
  | .asking m pc _ | .waiting m pc _ => match pc.op with
      | .keyed (.set key value) => some (m, key, value)
      | _ => none
  | _ => none

/-- At an instant of the compound call `m` of `d` its source had an entry with the key `k`, up to `==`,
and the value `v`. -/
def WasEntry [DecidableEq N] [DecidableEq D] [DecidableEq K] [DecidableEq V] (hash : K → UInt64)
    (eqv : K → K → Bool) (vne : V → V → Bool) (s₀ : State N D K V)
    (as : List (Act N D K V)) (d : D) (m : Method N D) (k : K) (v : V) : Prop :=
  Since (next hash vne) s₀ as (.start d m) fun u => (u.phases d).runs m ∧
    ∃ x ∈ (u.maps m.source).map.entries, eqv x.1 k = true ∧ x.2 = v

/-! ## What a step does -/

theorem next_start [DecidableEq N] [DecidableEq D] [DecidableEq K] [DecidableEq V]
    (h : next hash vne s (.start d m) = some t) :
    s.phases d = .idle ∧ t = s.setPhase d (.asking m m.start 0) := by
  simp only [next] at h
  split at h
  · split at h
    · exact ⟨‹_›, (Option.some.inj h).symm⟩
    · cases h
  · cases h

theorem next_answer [DecidableEq N] [DecidableEq D] [DecidableEq K] [DecidableEq V]
    (h : next hash vne s (.answer d) = some t) :
    ∃ m pc i o r, s.phases d = .waiting m pc i ∧ (s.maps (m.on d pc)).calls (.inner d i) = .done o r ∧
      ((∃ x ctl, r = .ok x ∧ pc.answer vne x = some ctl ∧
          t = s.setPhase d (s.goOn d m (i + 1) ctl)) ∨
        ∃ err, r = .error err ∧ t = s.setPhase d (.done m (.error (.py err)))) := by
  simp only [next] at h
  split at h
  · split at h
    · obtain ⟨ctl, hctl, rfl⟩ := Option.map_eq_some_iff.mp h
      exact ⟨_, _, _, _, _, ‹_›, ‹_›, .inl ⟨_, ctl, rfl, hctl, rfl⟩⟩
    · exact ⟨_, _, _, _, _, ‹_›, ‹_›, .inr ⟨_, rfl, (Option.some.inj h).symm⟩⟩
    · cases h
  · cases h

theorem next_map [DecidableEq N] [DecidableEq D] [DecidableEq K] [DecidableEq V]
    {b : Map.Act (Caller D) K V} (h : next hash vne s (.map n b) = some t) :
    ∃ u, Map.next hash (s.maps n) b = some u ∧ s.follow n b = some t.phases ∧
      t.maps = Function.update s.maps n u := by
  simp only [next] at h
  obtain ⟨u, hu, ht⟩ := Option.bind_eq_some_iff.mp h
  obtain ⟨phases, hp, rfl⟩ := Option.map_eq_some_iff.mp ht
  exact ⟨u, hu, hp, rfl⟩

theorem ask_eq [DecidableEq N] [DecidableEq D] [DecidableEq K] [DecidableEq V] {p q : Phase N D K V}
    {op : Op K V} (h : p.ask d i n op = some q) :
    ∃ m pc, p = .asking m pc i ∧ m.on d pc = n ∧ op = pc.op ∧ q = .waiting m pc i := by
  unfold Phase.ask at h
  split at h
  · split at h
    · rename_i m pc j hgo
      obtain ⟨rfl, rfl, rfl⟩ := hgo
      cases h
      exact ⟨m, pc, rfl, rfl, rfl, rfl⟩
    · cases h
  · cases h

/-- A step of a map begins the next call of a compound call, or none that is a compound call's. -/
theorem follow_cases [DecidableEq N] [DecidableEq D] [DecidableEq K] [DecidableEq V]
    {b : Map.Act (Caller D) K V} {ps : D → Phase N D K V} (h : s.follow n b = some ps) :
    (∃ d i m pc, s.phases d = .asking m pc i ∧ m.on d pc = n ∧ b.Begins (.inner d i) pc.op ∧
      ps = Function.update s.phases d (.waiting m pc i)) ∨ ps = s.phases := by
  cases b with
  | invoke c op =>
      cases c with
      | inner d i =>
          obtain ⟨p, hp, rfl⟩ := Option.map_eq_some_iff.mp h
          obtain ⟨m, pc, hd, hon, rfl, rfl⟩ := ask_eq hp
          exact .inl ⟨d, i, m, pc, hd, hon, .inl rfl, rfl⟩
      | direct d =>
          obtain ⟨-, hsame⟩ := Option.ite_none_right_eq_some.mp h
          exact .inr (Option.some.inj hsame).symm
  | unhashable c op =>
      cases c with
      | inner d i =>
          obtain ⟨p, hp, rfl⟩ := Option.map_eq_some_iff.mp h
          obtain ⟨m, pc, hd, hon, hop, rfl⟩ := ask_eq hp
          exact .inl ⟨d, i, m, pc, hd, hon, .inr ⟨op, hop.symm, rfl⟩, rfl⟩
      | direct d =>
          obtain ⟨-, hsame⟩ := Option.ite_none_right_eq_some.mp h
          exact .inr (Option.some.inj hsame).symm
  | lock c => exact .inr (Option.some.inj h).symm
  | eq c answer => exact .inr (Option.some.inj h).symm
  | visit c order => exact .inr (Option.some.inj h).symm

/-! ## What a compound call knows -/

/-- The key that is looked up again. -/
def Pc.rereads : Pc K V → Option K
  | .dict (.updateGet key _ _) => some key
  | .eq (.getitem key _ _) => some key
  | _ => none

/-- What a method holds where it stands, when `S` are the entries that it may hold. -/
inductive Known (S : K → V → Prop) : Method N D → Pc K V → Prop
  | keys {self other : Name N D} : Known S (.update self other) (.dict (.updateKeys []))
  | get {self other : Name N D} {key : K} {rest : List K} :
      Known S (.update self other) (.dict (.updateGet key rest []))
  | own {self other : Name N D} {key : K} {value : V} {rest : List K} : S key value →
      Known S (.update self other) (.dict (.updateOwn key value rest []))
  | items {self : Name N D} : Known S (.copy self) (.dict .copyItems)
  | fill {self : Name N D} {key : K} {value : V} {es : List (K × V)} : S key value →
      (∀ x ∈ es, S x.1 x.2) → Known S (.copy self) (.dict (.fill key value (es.map .ok)))
  | eq {self other : Name N D} {pc : EqPc K V} : Known S (.eq self other) (.eq pc)

/-- What it learns from the call that it waits for. -/
structure Learns (eqv : K → K → Bool) (S : K → V → Prop) (pc : Pc K V) (x : CallState K V) : Prop where
  finds : ∀ key, pc.rereads = some key → WillFind eqv key (S key) x
  lists : pc = .dict .copyItems → Lists (fun e => S e.1 e.2) x

inductive Knows [DecidableEq N] [DecidableEq D] [DecidableEq K] [DecidableEq V] (hash : K → UInt64)
    (eqv : K → K → Bool) (vne : V → V → Bool) (s₀ : State N D K V)
    (as : List (Act N D K V)) (s : State N D K V) (d : D) : Phase N D K V → Prop
  | idle : Knows hash eqv vne s₀ as s d .idle
  | asking {m : Method N D} {pc : Pc K V} {i : ℕ} : .start d m ∈ as →
      Known (WasEntry hash eqv vne s₀ as d m) m pc → Knows hash eqv vne s₀ as s d (.asking m pc i)
  | waiting {m : Method N D} {pc : Pc K V} {i : ℕ} : .start d m ∈ as →
      Known (WasEntry hash eqv vne s₀ as d m) m pc →
      Learns eqv (WasEntry hash eqv vne s₀ as d m) pc ((s.maps (m.on d pc)).calls (.inner d i)) →
      Knows hash eqv vne s₀ as s d (.waiting m pc i)
  | done {m : Method N D} {out : Except (Exc K) (Result K V)} : (∀ err, out ≠ .error err) →
      Knows hash eqv vne s₀ as s d (.done m out)

variable {S S' : K → V → Prop}

theorem Known.mono (hS : ∀ k v, S k v → S' k v) (h : Known S m pc) : Known S' m pc := by
  cases h with
  | keys => exact .keys
  | get => exact .get
  | own hv => exact .own (hS _ _ hv)
  | items => exact .items
  | fill hv hes => exact .fill (hS _ _ hv) fun x hx => hS _ _ (hes x hx)
  | eq => exact .eq

theorem Learns.mono {x : CallState K V} (hS : ∀ k v, S k v → S' k v) (h : Learns eqv S pc x) :
    Learns eqv S' pc x where
  finds key hkey := (h.finds key hkey).mono (hS key)
  lists hpc := (h.lists hpc).mono fun x => hS x.1 x.2

theorem known_start (m : Method N D) : Known S m (m.start : Pc K V) := by
  cases m with
  | update self other => exact .keys
  | copy self => exact .items
  | eq self other => exact .eq

/-- The call that has just begun. -/
theorem learns_begin [DecidableEq D] [DecidableEq K] {b : Map.Act (Caller D) K V} {c : Caller D}
    {w u : Map.State (Caller D) K V}
    (hlaw : Map.Lawful eqv w b) (hn : Map.next hash w b = some u) (hb : b.Begins c pc.op) :
    Learns eqv S pc (u.calls c) := by
  rcases hb with rfl | ⟨op, -, rfl⟩
  swap
  · exact hlaw.elim
  obtain ⟨-, hbegin⟩ := next_invoke hn
  constructor
  · intro key hkey
    have hop : pc.op = .keyed (.getVal key) := by
      cases pc with
      | dict pc =>
          cases pc with
          | updateGet =>
              cases hkey
              rfl
          | _ => cases hkey
      | eq pc =>
          cases pc with
          | getitem =>
              cases hkey
              rfl
          | _ => cases hkey
    rw [hop] at hbegin
    obtain ⟨kop, hkop, rfl⟩ | ⟨wop, hwop, -⟩ := hbegin
    · cases hkop
      rw [State.calls_setCall_self]
      exact .collect
    · cases hwop
  · rintro rfl
    obtain ⟨kop, hkop, -⟩ | ⟨wop, hwop, rfl⟩ := hbegin
    · cases hkop
    · cases hwop
      rw [State.calls_setCall_self]
      exact .scan (by simp)

theorem ownEach_cases (rest : List K) :
    (ownEach [] rest : Dict.Ctl K V) = .stop (.ok .unit) ∨
      ∃ key rest', (ownEach [] rest : Dict.Ctl K V) = .goto (.updateGet key rest' []) := by
  cases rest with
  | nil => exact .inl rfl
  | cons key rest => exact .inr ⟨key, rest, rfl⟩

/-- The compound call goes on, or ends without an exception. -/
inductive Proceeds (S : K → V → Prop) (m : Method N D) : Ctl K V → Prop
  | goto {pc : Pc K V} : Known S m pc → Proceeds S m (.goto pc)
  | stop {r : Result K V} : Proceeds S m (.stop (.ok r))
  | created : Proceeds S m .created

theorem proceeds_own {self other : Name N D} (rest : List K) :
    Proceeds S (.update self other) (.ofDict (ownEach [] rest : Dict.Ctl K V)) := by
  rcases ownEach_cases (V := V) rest with h | ⟨key, rest', h⟩
  · rw [h]
    exact .stop
  · rw [h]
    exact .goto .get

theorem proceeds_fill {self : Name N D} {es : List (K × V)} (hes : ∀ x ∈ es, S x.1 x.2) :
    Proceeds S (.copy self) (.ofDict (fillEach (es.map .ok))) := by
  cases es with
  | nil => exact .created
  | cons x es =>
      exact .goto (.fill (hes x List.mem_cons_self) fun y hy => hes y (List.mem_cons_of_mem _ hy))

theorem proceeds_eqEach {self other : Name N D} (es : List (K × V)) :
    Proceeds S (.eq self other) (.ofEq (eqEach es)) := by
  cases es with
  | nil => exact .stop
  | cons x es => exact .goto .eq

/-- What the answer makes of `__eq__`, if the key that it looks up again is found. -/
theorem proceeds_eq {self other : Name N D} {pc : EqPc K V} {x : Ret K V} {ctl : Ctl K V}
    (hanswer : Pc.answer vne (.eq pc) x = some ctl)
    (hfound : ∀ key value rest, pc = .getitem key value rest → ∃ v, x = .found (some v)) :
    Proceeds S (.eq self other) ctl := by
  cases pc with
  | len =>
      cases x with
      | len n =>
          cases hanswer
          exact .goto .eq
      | _ => cases hanswer
  | lenOther n =>
      cases x with
      | len n' =>
          cases hanswer
          split
          · exact .stop
          · exact .goto .eq
      | _ => cases hanswer
  | items =>
      cases x with
      | items es =>
          cases hanswer
          exact proceeds_eqEach es
      | _ => cases hanswer
  | contains key value rest =>
      cases x with
      | bool b =>
          cases hanswer
          cases b with
          | true => exact .goto .eq
          | false => exact .stop
      | _ => cases hanswer
  | getitem key value rest =>
      obtain ⟨v, rfl⟩ := hfound key value rest rfl
      cases hanswer
      split
      · exact .stop
      · exact proceeds_eqEach rest

/-- What the answer of its call makes of a compound call. -/
theorem Known.answer {x : Ret K V} {ctl : Ctl K V} {o : Op K V} (h : Known S m pc)
    (hlearns : Learns eqv S pc (.done o (.ok x))) (hanswer : pc.answer vne x = some ctl) :
    Proceeds S m ctl := by
  obtain ⟨hfinds, hlists⟩ := hlearns
  cases h with
  | keys =>
      cases x with
      | keys ks =>
          cases hanswer
          exact proceeds_own ks
      | _ => cases hanswer
  | get =>
      generalize hx : CallState.done o (.ok x) = y at hfinds
      cases hfinds _ rfl with
      | done hv =>
          cases hx
          cases hanswer
          exact .goto (.own hv)
      | _ => cases hx
  | own hv =>
      cases x with
      | unit =>
          cases hanswer
          exact proceeds_own _
      | _ => cases hanswer
  | items =>
      generalize hx : CallState.done o (.ok x) = y at hlists
      cases hlists rfl with
      | done hes =>
          cases hx
          cases hanswer
          exact proceeds_fill hes
      | scan => cases hx
  | fill hv hes =>
      cases x with
      | unit =>
          cases hanswer
          exact proceeds_fill hes
      | _ => cases hanswer
  | eq =>
      refine proceeds_eq hanswer fun key value rest hpc => ?_
      subst hpc
      generalize hx : CallState.done o (.ok x) = y at hfinds
      cases hfinds _ rfl with
      | done hv =>
          cases hx
          exact ⟨_, rfl⟩
      | _ => cases hx

variable [DecidableEq N] [DecidableEq D] [DecidableEq K] [DecidableEq V]

theorem WasEntry.snoc (a : Act N D K V) (h : WasEntry hash eqv vne s₀ as d m k v) :
    WasEntry hash eqv vne s₀ (as ++ [a]) d m k v :=
  Since.snoc h a

/-- The invariant reads the maps where the compound call waits. -/
theorem Knows.snoc {p : Phase N D K V} (a : Act N D K V) (h : Knows hash eqv vne s₀ as s d p)
    (hmaps : ∀ m pc i, p = .waiting m pc i →
      (t.maps (m.on d pc)).calls (.inner d i) = (s.maps (m.on d pc)).calls (.inner d i)) :
    Knows hash eqv vne s₀ (as ++ [a]) t d p := by
  cases h with
  | idle => exact .idle
  | asking hstart hknown =>
      exact .asking (List.mem_append_left _ hstart) (hknown.mono fun _ _ => .snoc a)
  | waiting hstart hknown hlearns =>
      refine .waiting (List.mem_append_left _ hstart) (hknown.mono fun _ _ => .snoc a) ?_
      rw [hmaps _ _ _ rfl]
      exact hlearns.mono fun _ _ => .snoc a
  | done hout => exact .done hout

/-- What every step of a map keeps is kept of every map. -/
theorem next_maps {Q : Map.State (Caller D) K V → Prop} (h : ∀ n, Q (s.maps n))
    (hstep : ∀ n b u, a = .map n b → Map.next hash (s.maps n) b = some u → Q u)
    (hn : next hash vne s a = some t) (n : Name N D) : Q (t.maps n) := by
  cases a with
  | start e m =>
      obtain ⟨-, rfl⟩ := next_start hn
      exact h n
  | answer e =>
      obtain ⟨_, _, _, _, _, -, -, ⟨_, _, -, -, rfl⟩ | ⟨_, -, rfl⟩⟩ := next_answer hn
      · exact h n
      · exact h n
  | map n' b =>
      obtain ⟨u, hu, -, hmaps⟩ := next_map hn
      rw [hmaps]
      by_cases hn' : n = n'
      · subst hn'
        rw [Function.update_self]
        exact hstep n b u rfl hu
      · rw [Function.update_of_ne hn']
        exact h n

theorem next_placed (hm : ∀ n, Placed hash (s.maps n).map) (hn : next hash vne s a = some t)
    (n : Name N D) : Placed hash (t.maps n).map :=
  next_maps (Q := fun u => Placed hash u.map) hm (fun n _ _ _ hu => placed_next (hm n) hu) hn n

theorem next_noError (h : ∀ n, NoError (s.maps n)) (hlaw : Lawful eqv s a)
    (hn : next hash vne s a = some t) (n : Name N D) : NoError (t.maps n) := by
  refine next_maps h (fun n b u hb hu => ?_) hn n
  subst hb
  exact (h n).next hlaw hu

/-- What is in the source now was an entry of it. -/
theorem wasEntry_now {P : State N D K V → Act N D K V → Prop} {x : K × V}
    (hr : RunWith (next hash vne) P s₀ as s) (hstart : .start d m ∈ as) (hruns : (s.phases d).runs m)
    (hx : x ∈ (s.maps m.source).map.entries) (hk : eqv x.1 k = true) :
    WasEntry hash eqv vne s₀ as d m k x.2 :=
  Since.now hstart hr ⟨hruns, x, hx, hk, rfl⟩

omit [DecidableEq N] [DecidableEq D] [DecidableEq K] [DecidableEq V] in
theorem Known.source (h : Known S m pc) (hpc : pc.rereads.isSome = true ∨ pc = .dict .copyItems) :
    m.on d pc = m.source := by
  cases h with
  | keys => simp [Pc.rereads] at hpc
  | get => rfl
  | own => simp [Pc.rereads] at hpc
  | items => rfl
  | fill => simp [Pc.rereads] at hpc
  | eq =>
      rename_i self other pc
      cases pc with
      | getitem => rfl
      | _ => simp [Pc.rereads] at hpc

/-- A step of the map on which the compound call waits for its call. -/
theorem Learns.next {P : State N D K V → Act N D K V → Prop} {b : Map.Act (Caller D) K V}
    {u : Map.State (Caller D) K V} (hk : LawfulKeys hash eqv)
    (hr : RunWith (Compound.next hash vne) P s₀ as s) (hstart : .start d m ∈ as)
    (hphase : s.phases d = .waiting m pc i) (hm : Placed hash (s.maps (m.on d pc)).map)
    (hknown : Known (WasEntry hash eqv vne s₀ as d m) m pc)
    (h : Learns eqv (WasEntry hash eqv vne s₀ as d m) pc ((s.maps (m.on d pc)).calls (.inner d i)))
    (hlaw : Map.Lawful eqv (s.maps (m.on d pc)) b) (hthere : KeyThere eqv d s (.map (m.on d pc) b))
    (hu : Map.next hash (s.maps (m.on d pc)) b = some u) :
    Learns eqv (WasEntry hash eqv vne s₀ as d m) pc (u.calls (.inner d i)) := by
  have hruns : (s.phases d).runs m := by
    rw [hphase]
    rfl
  constructor
  · intro key hkey
    refine (h.finds key hkey).next hlaw hu (fun _ => id) ?_
    rintro rfl checkedKeys hc
    have hbucket : ∀ x : K × V, x ∈ (s.maps (m.on d pc)).map.entries → eqv x.1 key = true →
        x ∈ (s.maps (m.on d pc)).map.bucket (hash key) := by
      intro x hx heq
      rw [← hk.hash_eq heq]
      exact hm.mem_entries.mp hx
    constructor
    · obtain ⟨x, hx, heq⟩ := hthere.exists hc
      exact ⟨x, hbucket x hx heq, heq⟩
    · intro x hx heq
      have hentry := hm.mem_entries.mpr ((hm.bucket hx).symm ▸ hx)
      rw [hknown.source (.inl (by rw [hkey]; rfl))] at hentry
      exact wasEntry_now hr hstart hruns hentry heq
  · intro hpc
    refine (h.lists hpc).next hu (fun _ => id) fun order _ x hx => ?_
    rw [hknown.source (.inr hpc)] at hx
    exact wasEntry_now hr hstart hruns hx (hk.refl x.1)

/-- A step of a map, for a compound call that stays where it is. -/
theorem Knows.stay {P : State N D K V → Act N D K V → Prop} {n : Name N D} {b : Map.Act (Caller D) K V}
    {u : Map.State (Caller D) K V} (hk : LawfulKeys hash eqv) (hr : RunWith (next hash vne) P s₀ as s)
    (hm : ∀ n, Placed hash (s.maps n).map) (h : Knows hash eqv vne s₀ as s d (s.phases d))
    (hlaw : Lawful eqv s (.map n b)) (hthere : KeyThere eqv d s (.map n b))
    (hu : Map.next hash (s.maps n) b = some u) (hmaps : t.maps = Function.update s.maps n u) :
    Knows hash eqv vne s₀ (as ++ [.map n b]) t d (s.phases d) := by
  generalize hp : s.phases d = p at h
  cases h with
  | idle => exact .idle
  | asking hstart hknown =>
      exact (Knows.asking hstart hknown : Knows hash eqv vne s₀ as s d _).snoc _ fun _ _ _ h => by cases h
  | done hout => exact .done hout
  | waiting hstart hknown hlearns =>
      rename_i m pc i
      have hlearns' : Learns eqv (WasEntry hash eqv vne s₀ as d m) pc
          ((t.maps (m.on d pc)).calls (.inner d i)) := by
        rw [hmaps]
        by_cases hn' : m.on d pc = n
        · subst hn'
          rw [Function.update_self]
          exact hlearns.next hk hr hstart hp (hm _) hknown hlaw hthere hu
        · rwa [Function.update_of_ne hn']
      exact (Knows.waiting hstart hknown hlearns' : Knows hash eqv vne s₀ as t d _).snoc _
        fun _ _ _ _ => rfl

/-- The compound call takes the answer of its call. -/
theorem Knows.answer (herr : ∀ n, NoError (s.maps n)) (h : Knows hash eqv vne s₀ as s d (s.phases d))
    (hn : next hash vne s (.answer d) = some t) :
    Knows hash eqv vne s₀ (as ++ [.answer d]) t d (t.phases d) := by
  obtain ⟨m, pc, i, o, r, hwaiting, hdone, hout⟩ := next_answer hn
  rw [hwaiting] at h
  cases h with
  | waiting hstart hknown hlearns =>
      rw [hdone] at hlearns
      rcases hout with ⟨x, ctl, rfl, hanswer, rfl⟩ | ⟨err, rfl, -⟩
      · rw [State.phases_setPhase_self]
        cases hknown.answer hlearns hanswer with
        | goto hnext =>
            exact (Knows.asking hstart hnext : Knows hash eqv vne s₀ as s d _).snoc _
              fun _ _ _ h => by cases h
        | stop => exact .done (by simp)
        | created => exact .done (by simp)
      · obtain ⟨x, hx⟩ := herr _ _ _ _ hdone
        cases hx

theorem knows_next {P : State N D K V → Act N D K V → Prop} (hk : LawfulKeys hash eqv)
    (hr : RunWith (next hash vne) P s₀ as s) (hm : ∀ n, Placed hash (s.maps n).map)
    (herr : ∀ n, NoError (s.maps n)) (h : Knows hash eqv vne s₀ as s d (s.phases d))
    (hlaw : Lawful eqv s a) (hthere : KeyThere eqv d s a) (hn : next hash vne s a = some t) :
    Knows hash eqv vne s₀ (as ++ [a]) t d (t.phases d) := by
  cases a with
  | start e m =>
      obtain ⟨-, rfl⟩ := next_start hn
      by_cases hd : d = e
      · subst hd
        rw [State.phases_setPhase_self]
        exact .asking (List.mem_append_right _ (List.mem_singleton_self _)) (known_start m)
      · rw [State.phases_setPhase_ne _ _ hd]
        exact h.snoc _ fun _ _ _ _ => rfl
  | map n b =>
      obtain ⟨u, hu, hfollow, hmaps⟩ := next_map hn
      have hstay := h.stay (t := t) hk hr hm hlaw hthere hu hmaps
      rcases follow_cases hfollow with ⟨e, i, m, pc, hasking, rfl, hbegins, hphases⟩ | hsame
      · by_cases hd : d = e
        · subst hd
          rw [hasking] at h
          cases h with
          | asking hstart hknown =>
              rw [hphases, Function.update_self]
              have hlearns := learns_begin (S := WasEntry hash eqv vne s₀ as d m) hlaw hu hbegins
              refine (Knows.waiting hstart hknown ?_ : Knows hash eqv vne s₀ as t d _).snoc _
                fun _ _ _ _ => rfl
              rw [hmaps, Function.update_self]
              exact hlearns
        · rwa [hphases, Function.update_of_ne hd]
      · rwa [hsame]
  | answer e =>
      by_cases hd : d = e
      · subst hd
        exact h.answer herr hn
      · have hkeep : ∀ p, Knows hash eqv vne s₀ (as ++ [.answer e]) (s.setPhase e p) d
            ((s.setPhase e p).phases d) := by
          intro p
          rw [State.phases_setPhase_ne _ _ hd]
          exact h.snoc _ fun _ _ _ _ => rfl
        obtain ⟨_, _, _, _, _, -, -, ⟨_, _, -, -, rfl⟩ | ⟨_, -, rfl⟩⟩ := next_answer hn
        · exact hkeep _
        · exact hkeep _

omit [DecidableEq N] [DecidableEq D] [DecidableEq K] [DecidableEq V] in
theorem Known.set (h : Known S m pc) (hop : pc.op = .keyed (.set k v)) : S k v := by
  cases h with
  | keys => cases hop
  | get => cases hop
  | own hv =>
      cases hop
      exact hv
  | items => cases hop
  | fill hv =>
      cases hop
      exact hv
  | eq =>
      rename_i pc
      cases pc <;> cases hop

omit [DecidableEq N] [DecidableEq D] [DecidableEq K] [DecidableEq V] in
theorem writes_eq {p : Phase N D K V} (h : p.writes = some (m, k, v)) :
    ∃ pc i, (p = .asking m pc i ∨ p = .waiting m pc i) ∧ pc.op = .keyed (.set k v) := by
  unfold Phase.writes at h
  split at h
  · split at h
    · rename_i hop
      cases h
      exact ⟨_, _, .inl rfl, hop⟩
    · cases h
  · split at h
    · rename_i hop
      cases h
      exact ⟨_, _, .inr rfl, hop⟩
    · cases h
  · cases h

theorem Knows.writes {p : Phase N D K V} (h : Knows hash eqv vne s₀ as s d p)
    (hw : p.writes = some (m, k, v)) : WasEntry hash eqv vne s₀ as d m k v := by
  obtain ⟨pc, i, hp, hop⟩ := writes_eq hw
  rcases hp with rfl | rfl
  · cases h with
    | asking _ hknown => exact hknown.set hop
  · cases h with
    | waiting _ hknown => exact hknown.set hop

/-- When each key that the compound call of `d` looks up again is there at that moment, the call never
raises, and what `update` or `copy` sets was an entry of the source at an instant of the call. -/
theorem tolerant (hk : LawfulKeys hash eqv) (vne : V → V → Bool) (size : Name N D → ℕ)
    (hsize : ∀ n, 0 < size n) (d : D) (as : List (Act N D K V)) (s : State N D K V)
    (hrun : RunWith (next hash vne) (fun s a => Lawful eqv s a ∧ KeyThere eqv d s a)
      (State.init size hsize) as s) :
    (∀ m err, s.phases d ≠ .done m (.error err)) ∧
      ∀ m k v, (s.phases d).writes = some (m, k, v) →
        WasEntry hash eqv vne (State.init size hsize) as d m k v := by
  have hinv : (∀ n, Placed hash (s.maps n).map) ∧ (∀ n, NoError (s.maps n)) ∧
      Knows hash eqv vne (State.init size hsize) as s d (s.phases d) := by
    induction hrun with
    | nil => exact ⟨fun n => placed_empty _ _, fun n c op r h => (by cases h), .idle⟩
    | snoc hr hp hn ih =>
        obtain ⟨hm, herr, hknows⟩ := ih
        exact ⟨next_placed hm hn, next_noError herr hp.1 hn, knows_next hk hr hm herr hknows hp.1 hp.2 hn⟩
  refine ⟨fun m err hdone => ?_, fun m k v => hinv.2.2.writes⟩
  have hknows := hinv.2.2
  rw [hdone] at hknows
  cases hknows with
  | done hout => exact hout err rfl

/-- `1` updates the dictionary `0` from the dictionary `1`, and has read its key `0`. -/
def keysRead : List (Act ℕ ℕ ℕ ℕ) :=
  [.map (.given 1) (.invoke (.direct 0) (.keyed (.set 0 5))), .map (.given 1) (.lock (.direct 0)),
   .start 1 (.update (.given 0) (.given 1)),
   .map (.given 1) (.invoke (.inner 1 0) (.whole .keys)), .map (.given 1) (.visit (.inner 1 0) [0]),
   .answer 1]

/-- The key gets another value meanwhile. -/
def movedTrace : List (Act ℕ ℕ ℕ ℕ) :=
  keysRead ++
  [.map (.given 1) (.invoke (.direct 2) (.keyed (.set 0 6))), .map (.given 1) (.lock (.direct 2)),
   .map (.given 1) (.invoke (.inner 1 1) (.keyed (.getVal 0))), .map (.given 1) (.lock (.inner 1 1)),
   .map (.given 1) (.eq (.inner 1 1) (some true)), .answer 1]

theorem movedTrace_exec :
    (exec (next UInt64.ofNat fun v w => v != w)
      (fun s a => Lawful (fun k k' => k == k') s a ∧ KeyThere (fun k k' => k == k') 1 s a)
      (State.init (fun _ => 1) fun _ => Nat.one_pos) movedTrace).map
        (fun s : State ℕ ℕ ℕ ℕ => decide
          ((s.phases 1).writes = some (.update (.given 0) (.given 1), 0, 6))) = some true := by
  decide +kernel

theorem lawful_beq : LawfulKeys UInt64.ofNat fun k k' : ℕ => k == k' where
  refl k := beq_self_eq_true k
  symm h := by rw [beq_iff_eq] at h ⊢; exact h.symm
  trans h h' := by rw [beq_iff_eq] at h h' ⊢; exact h.trans h'
  hash_eq h := congrArg UInt64.ofNat (beq_iff_eq.mp h)

theorem tolerant_movedTrace : ∃ s : State ℕ ℕ ℕ ℕ,
    Run (next UInt64.ofNat fun v w => v != w) (State.init (fun _ => 1) fun _ => Nat.one_pos)
        movedTrace s ∧
      WasEntry UInt64.ofNat (fun k k' => k == k') (fun v w => v != w)
        (State.init (fun _ => 1) fun _ => Nat.one_pos) movedTrace 1
        (.update (.given 0) (.given 1)) 0 6 := by
  obtain ⟨s, hrun, hs⟩ := exists_runWith_of_exec movedTrace_exec
  obtain ⟨-, hwrites⟩ := tolerant lawful_beq _ _ _ 1 movedTrace s hrun
  exact ⟨s, hrun.run, hwrites _ _ _ (of_decide_eq_true hs)⟩

/-- The key is deleted meanwhile. -/
def vanishedTrace : List (Act ℕ ℕ ℕ ℕ) :=
  keysRead ++
  [.map (.given 1) (.invoke (.direct 2) (.keyed (.delete 0))), .map (.given 1) (.lock (.direct 2)),
   .map (.given 1) (.invoke (.inner 1 1) (.keyed (.getVal 0))), .map (.given 1) (.lock (.inner 1 1)),
   .map (.given 1) (.lock (.inner 1 1)), .answer 1]

/-- The compound call has raised `KeyError(key)`. -/
def Phase.raised (key : K) : Phase N D K V → Bool
  | .done _ (.error (.keyError k)) => k = key
  | _ => false

theorem vanishedTrace_exec :
    (exec (next UInt64.ofNat fun v w => v != w) (fun s a => Lawful (fun k k' => k == k') s a)
      (State.init (fun _ => 1) fun _ => Nat.one_pos) vanishedTrace).map
        (fun s : State ℕ ℕ ℕ ℕ => (s.phases 1).raised 0) = some true := by
  decide +kernel

/-- `update` may raise although no key is unlawful. -/
theorem not_always_tolerant :
    ¬ ∀ (N D K V : Type) [DecidableEq N] [DecidableEq D] [DecidableEq K] [DecidableEq V]
      (hash : K → UInt64) (eqv : K → K → Bool) (vne : V → V → Bool) (size : Name N D → ℕ)
      (hsize : ∀ n, 0 < size n) (as : List (Act N D K V)) (s : State N D K V), LawfulKeys hash eqv →
      RunWith (next hash vne) (Lawful eqv) (State.init size hsize) as s →
      ∀ d m err, s.phases d ≠ .done m (.error err) := by
  intro h
  obtain ⟨s, hrun, hs⟩ := exists_runWith_of_exec vanishedTrace_exec
  have hnot := h ℕ ℕ ℕ ℕ _ _ _ _ _ vanishedTrace s lawful_beq hrun 1
  generalize s.phases 1 = p at hs hnot
  cases p with
  | done m out =>
      cases out with
      | error err => exact hnot m err rfl
      | ok r => cases hs
  | _ => cases hs

end Pysync.Compound
