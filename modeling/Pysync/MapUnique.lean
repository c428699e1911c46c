import Pysync.MapSection

/-!
One entry per logical key. `set` compares outside the lock and then trusts the objects it compared:
an object that matched, vanished and came back is taken for one that does not match. A run keeps the
keys of every bucket distinct exactly when no `set` falls into that trap.
-/

namespace Pysync.Map
open Transition ConcurrentMap

variable {C K V : Type}

/-- `==` is an equivalence relation and `__hash__` agrees with it. -/
structure LawfulKeys (hash : K → UInt64) (eqv : K → K → Bool) : Prop where
  refl : ∀ k, eqv k k = true
  symm : ∀ {k k'}, eqv k k' = true → eqv k' k = true
  trans : ∀ {k k' k''}, eqv k k' = true → eqv k' k'' = true → eqv k k'' = true
  hash_eq : ∀ {k k'}, eqv k k' = true → hash k = hash k'

/-- No `__hash__` or `__eq__` raises, and every `k == key` answers what `eqv` says. -/
def Lawful (eqv : K → K → Bool) (s : State C K V) : Act C K V → Prop
  | .eq c answer => match s.calls c with
      | .keyed op (.compare _ (e :: _)) => answer = some (eqv e.1 op.key)
      | _ => True
  | .unhashable _ _ => False
  | _ => True

instance (eqv : K → K → Bool) (s : State C K V) (a : Act C K V) : Decidable (Lawful eqv s a) := by
  cases a with
  | eq c answer =>
      unfold Lawful
      dsimp only
      split <;> infer_instance
  | _ => unfold Lawful; infer_instance

theorem Lawful.answer {eqv : K → K → Bool} {s : State C K V} {c : C} {answer : Option Bool}
    {op : KeyOp K V} {checkedKeys : List K} {e : K × V} {rest : List (K × V)}
    (h : Lawful eqv s (.eq c answer))
    (hc : s.calls c = .keyed op (.compare checkedKeys (e :: rest))) :
    answer = some (eqv e.1 op.key) := by
  simpa only [Lawful, hc] using h

/-- No two entries have equal keys. -/
def DistinctKeys (eqv : K → K → Bool) (list : Bucket K V) : Prop :=
  list.Pairwise fun e e' => eqv e.1 e'.1 = false

/-- No bucket of any shard holds two entries with equal keys. -/
def UniqueKeys (eqv : K → K → Bool) (m : ConcurrentMap K V) : Prop :=
  ∀ i h list, (m.shards i).lookup h = some list → DistinctKeys eqv list

/-- A `set` is about to append: every key in its bucket is an object it has compared, none is its
own key object, and yet one of them compares equal to the key. The comparison of that object had
answered true; at the lock that followed the object was gone, and now it is back. -/
def StalePush (hash : K → UInt64) (eqv : K → K → Bool) (s : State C K V) : Act C K V → Prop
  | .lock c => ∃ key value checkedKeys,
      s.calls c = .keyed (.set key value) (.compare checkedKeys []) ∧
      (∀ e ∈ s.map.bucket (hash key), e.1 ∈ checkedKeys ∧ e.1 ≠ key) ∧
      ∃ e ∈ s.map.bucket (hash key), eqv e.1 key = true
  | _ => False

/-- What a `get_or_insert` has compared is different from its key: it returns on a match. -/
def Compared (eqv : K → K → Bool) (s : State C K V) : Prop :=
  ∀ c key dflt pc, s.calls c = .keyed (.getOrInsert key dflt) pc →
    ∀ k ∈ pc.checkedKeys, eqv k key = false

variable {hash : K → UInt64} {eqv : K → K → Bool} {s t : State C K V} {a : Act C K V}

theorem compared_init (m : ConcurrentMap K V) : Compared eqv (State.init m : State C K V) := by
  intro c key dflt pc hc
  cases hc

theorem compared_next [DecidableEq C] [DecidableEq K] (h : Compared eqv s) (hlaw : Lawful eqv s a)
    (hn : next hash s a = some t) : Compared eqv t := by
  intro d key dflt pc' hd
  obtain ⟨pc, hpc⟩ | ⟨rfl, rfl⟩ := running_next hn hd
  swap
  · simp [KeyOp.start, Pc.checkedKeys]
  have hold := h d key dflt pc hpc
  obtain ⟨-, hstep⟩ := goto_step hn hpc hd
  cases hstep with
  | stay _ hpc' => exact hpc' ▸ hold
  | lock _ _ _ hlock =>
      cases hlock with
      | snapshot hop => exact hop.elim
      | collect hop => exact hold
      | retry hop hun => exact hold
      | slow hop => exact (hop.elim id id).elim
      | miss hop => exact (hop.elim id id).elim
  | @eq checkedKeys e rest b ha hcompare _ honEq =>
      subst ha hcompare
      have hans := Option.some.inj (hlaw.answer hpc)
      cases b with
      | true => simp [KeyOp.onEq] at honEq
      | false =>
          simp only [KeyOp.onEq, Bool.false_eq_true, if_false, Ctl.goto.injEq] at honEq
          subst honEq
          intro k hk
          rcases List.mem_append.mp hk with hk | hk
          · exact hold k hk
          · rw [List.mem_singleton.mp hk]
            exact hans.symm

theorem UniqueKeys.bucket {m : ConcurrentMap K V} (h : UniqueKeys eqv m) (x : UInt64) :
    DistinctKeys eqv (m.bucket x) := by
  unfold ConcurrentMap.bucket
  cases hs : m.slot x with
  | none => exact List.Pairwise.nil
  | some list => exact h _ _ list hs

theorem UniqueKeys.setSlot {m : ConcurrentMap K V} {x : UInt64} {b : Option (Bucket K V)}
    (h : UniqueKeys eqv m) (hb : DistinctKeys eqv (b.getD [])) : UniqueKeys eqv (m.setSlot x b) := by
  intro i y list hlist
  replace hlist := (lookup_setSlot m x b i y).symm.trans hlist
  split at hlist
  · subst hlist
    exact hb
  · exact h i y list hlist

theorem UniqueKeys.clearShard {m : ConcurrentMap K V} (h : UniqueKeys eqv m)
    (j : Fin m.shardCount) : UniqueKeys eqv (m.clearShard j) := by
  intro i y list hlist
  replace hlist := (lookup_clearShard m j i y).symm.trans hlist
  split at hlist
  · cases hlist
  · exact h i y list hlist

theorem DistinctKeys.push {l : Bucket K V} {key : K} {v : V} (h : DistinctKeys eqv l)
    (hkey : ∀ e ∈ l, eqv e.1 key = false) : DistinctKeys eqv (l ++ [(key, v)]) := by
  refine List.pairwise_append.mpr ⟨h, List.pairwise_singleton _ _, fun e he e' he' => ?_⟩
  rw [List.mem_singleton.mp he']
  exact hkey e he

theorem DistinctKeys.write {l₁ l₂ : Bucket K V} {k : K} {v w : V}
    (h : DistinctKeys eqv (l₁ ++ (k, v) :: l₂)) : DistinctKeys eqv (l₁ ++ (k, w) :: l₂) := by
  simpa [DistinctKeys, List.pairwise_append] using h

theorem DistinctKeys.remove {l₁ l₂ : Bucket K V} {e : K × V}
    (h : DistinctKeys eqv (l₁ ++ e :: l₂)) : DistinctKeys eqv (l₁ ++ l₂) :=
  List.Pairwise.sublist ((List.sublist_cons_self e l₂).append_left l₁) h

variable [DecidableEq K]

/-- A section keeps the keys of its bucket distinct, provided that an append puts no key next to an
equal one. -/
theorem LockStep.distinct {op : KeyOp K V} {pc : Pc K V} {l l' : Bucket K V} {ctl : Ctl K V}
    (hstep : LockStep op pc l l' ctl) (hl : DistinctKeys eqv l)
    (happend : ∀ checkedKeys, pc = .compare checkedKeys [] →
      (∀ e ∈ l, e.1 ∈ checkedKeys ∧ e.1 ≠ op.key) → ¬ op.IsLookup → ¬ op.IsRemoval →
      ∀ e ∈ l, eqv e.1 op.key = false) : DistinctKeys eqv l' := by
  cases hstep with
  | insertFast => exact List.pairwise_singleton _ _
  | insertLast hall hne => exact hl.push (happend _ rfl (fun e he => ⟨hall e he, hne e he⟩) id id)
  | orInsertLast hall hne => exact hl.push (happend _ rfl (fun e he => ⟨hall e he, hne e he⟩) id id)
  | write => exact hl.write
  | remove => exact hl.remove
  | _ => exact hl

/-- The section of a stale push appends an entry next to one with an equal key. -/
theorem LockStep.not_distinct {key : K} {value : V} {checkedKeys : List K} {l l' : Bucket K V}
    {ctl : Ctl K V} (hstep : LockStep (.set key value) (.compare checkedKeys []) l l' ctl)
    (hall : ∀ e ∈ l, e.1 ∈ checkedKeys ∧ e.1 ≠ key) (heq : ∃ e ∈ l, eqv e.1 key = true) :
    ¬ DistinctKeys eqv l' := by
  intro hl'
  cases hstep with
  | exhausted hop => exact hop
  | retry _ hun =>
      obtain ⟨e, he, hne⟩ := hun
      exact hne (hall e he).1
  | write htarget => exact (hall _ (List.mem_append_right _ List.mem_cons_self)).2 htarget
  | remove hop => exact hop
  | absentLast hop => exact hop
  | insertLast =>
      obtain ⟨e, he, heq⟩ := heq
      have hne := (List.pairwise_append.mp hl').2.2 e he (key, value) (List.mem_singleton.mpr rfl)
      rw [heq] at hne
      cases hne

omit [DecidableEq K] in
theorem StalePush.call {c : C} {op : KeyOp K V} {pc : Pc K V}
    (hc : s.calls c = .keyed op pc) :
    StalePush hash eqv s (.lock c) ↔ ∃ key value checkedKeys, op = .set key value ∧
      pc = .compare checkedKeys [] ∧
      (∀ e ∈ s.map.bucket (hash op.key), e.1 ∈ checkedKeys ∧ e.1 ≠ op.key) ∧
      ∃ e ∈ s.map.bucket (hash op.key), eqv e.1 op.key = true := by
  constructor
  · rintro ⟨key, value, checkedKeys, hc', hall, heq⟩
    obtain ⟨rfl, rfl⟩ := CallState.keyed.inj (hc.symm.trans hc')
    exact ⟨key, value, checkedKeys, rfl, rfl, hall, heq⟩
  · rintro ⟨key, value, checkedKeys, rfl, rfl, hall, heq⟩
    exact ⟨key, value, checkedKeys, hc, hall, heq⟩

variable [DecidableEq C]

/-- A lawful locked section keeps the keys distinct unless it is a stale push. -/
theorem uniqueKeys_lock {c : C} (hcomp : Compared eqv s) (hu : UniqueKeys eqv s.map)
    (hn : next hash s (.lock c) = some t) :
    ¬ StalePush hash eqv s (.lock c) ↔ UniqueKeys eqv t.map := by
  obtain ⟨op, pc, slot, ctl, l, l', hc, hl, hl', hstep, rfl⟩ := next_lock hn
  have hdist : DistinctKeys eqv l := hl ▸ hu.bucket _
  rw [State.map_resume, StalePush.call hc, hl]
  constructor
  · intro hstale
    refine hu.setSlot (hl' ▸ hstep.distinct hdist fun checkedKeys hpc hall hlookup hremoval => ?_)
    cases op with
    | set key value =>
        intro e he
        by_contra heq
        exact hstale ⟨key, value, checkedKeys, rfl, hpc, hall, e, he, by simpa using heq⟩
    | getOrInsert key dflt =>
        intro e he
        have hchecked := (hall e he).1
        exact hcomp c key dflt pc hc e.1 (by rw [hpc]; exact hchecked)
    | get key => exact (hlookup trivial).elim
    | getVal key => exact (hlookup trivial).elim
    | containsKey key => exact (hlookup trivial).elim
    | delete key => exact (hremoval trivial).elim
    | popVal key => exact (hremoval trivial).elim
  · rintro hu' ⟨key, value, checkedKeys, rfl, rfl, hall, heq⟩
    have hdist' := hu'.bucket (hash key)
    rw [ConcurrentMap.bucket, KeyOp.key, slot_setSlot, hl'] at hdist'
    exact hstep.not_distinct hall heq hdist'

/-- One lawful step keeps the keys distinct unless it is a stale push, and a stale push never does. -/
theorem uniqueKeys_next (hcomp : Compared eqv s) (hu : UniqueKeys eqv s.map)
    (hlaw : Lawful eqv s a) (hn : next hash s a = some t) :
    ¬ StalePush hash eqv s a ↔ UniqueKeys eqv t.map := by
  cases a with
  | invoke c op =>
      refine ⟨fun _ => ?_, fun _ => id⟩
      obtain ⟨-, ⟨_, -, rfl⟩ | ⟨_, -, rfl⟩⟩ := next_invoke hn <;> exact hu
  | unhashable c op => exact hlaw.elim
  | eq c answer =>
      refine ⟨fun _ => ?_, fun _ => id⟩
      obtain ⟨op, _, _, _, -, ⟨-, rfl⟩ | ⟨_, -, rfl⟩⟩ := next_eq hn
      · exact hu
      · rw [State.map_resume]
        exact hu
  | visit c order =>
      refine ⟨fun _ => ?_, fun _ => id⟩
      obtain ⟨op, i, acc, hi, -, hmap, -, -⟩ := next_visit hn
      rw [hmap]
      split
      · exact hu.clearShard _
      · exact hu
  | lock c => exact uniqueKeys_lock hcomp hu hn

omit [DecidableEq K] in
theorem uniqueKeys_empty (n : ℕ) (hn : 0 < n) :
    UniqueKeys eqv (ConcurrentMap.empty n hn : ConcurrentMap K V) := by
  intro i h list hlist
  simp [ConcurrentMap.empty] at hlist

/-- From the empty map with any number of shards, under any interleaving of calls on lawful keys, no
bucket ever holds two entries with equal keys if and only if no step is a stale push. -/
theorem uniqueKeys_iff_no_stalePush (hash : K → UInt64) (eqv : K → K → Bool) (n : ℕ) (hn : 0 < n)
    (as : List (Act C K V)) (s : State C K V)
    (hrun : RunWith (next hash) (Lawful eqv) (State.init (.empty n hn)) as s) :
    (∀ u, Visits (next hash) (State.init (.empty n hn)) as u → UniqueKeys eqv u.map) ↔
      RunWith (next hash) (fun s a => Lawful eqv s a ∧ ¬ StalePush hash eqv s a)
        (State.init (.empty n hn)) as s := by
  refine always_iff_runWith (uniqueKeys_empty n hn) (fun as s a t hr hu hlaw hnext => ?_) hrun
  have hcomp : Compared eqv s :=
    hr.invariant (compared_init _) fun _ _ _ h hp hn => compared_next h hp.1 hn
  exact uniqueKeys_next hcomp hu hlaw hnext

/-- A `set` whose match vanishes and comes back: key object `false` is stored, `set(true)` compares
equal to it, `delete(false)` and `set(false)` run in between, and `set(true)` appends. -/
def staleTrace : List (Act ℕ Bool ℕ) :=
  [.invoke 0 (.keyed (.set false 0)), .lock 0,
   .invoke 1 (.keyed (.set true 1)), .lock 1, .lock 1, .eq 1 (some true),
   .invoke 2 (.keyed (.delete false)), .lock 2, .lock 1,
   .invoke 3 (.keyed (.set false 2)), .lock 3, .lock 1]

theorem staleTrace_exec :
    (exec (next fun _ : Bool => 0) (Lawful fun _ _ => true) (State.init (.empty 1 (by decide)))
      staleTrace).map (fun s => decide (s.map.bucket 0 = [(false, 2), (true, 1)])) = some true := by
  decide +kernel

/-- The equivalence at the run that replays `staleTrace`, which visits a state with equal keys. -/
theorem uniqueKeys_iff_staleTrace :
    ∃ s, RunWith (next fun _ : Bool => 0) (Lawful fun _ _ => true)
        (State.init (.empty 1 (by decide))) staleTrace s ∧
      ((∀ u, Visits (next fun _ => 0) (State.init (.empty 1 (by decide))) staleTrace u →
          UniqueKeys (fun _ _ => true) u.map) ↔
        RunWith (next fun _ => 0)
          (fun s a => Lawful (fun _ _ => true) s a ∧
            ¬ StalePush (fun _ => 0) (fun _ _ => true) s a)
          (State.init (.empty 1 (by decide))) staleTrace s) := by
  obtain ⟨s, hrun, -⟩ := exists_runWith_of_exec staleTrace_exec
  exact ⟨s, hrun, uniqueKeys_iff_no_stalePush _ _ 1 (by decide) staleTrace s hrun⟩

/-- Distinct key objects may end up side by side although they are equal. -/
theorem not_always_uniqueKeys :
    ¬ ∀ (C K V : Type) [DecidableEq C] [DecidableEq K] (hash : K → UInt64) (eqv : K → K → Bool),
      LawfulKeys hash eqv → ∀ (n : ℕ) (hn : 0 < n) (as : List (Act C K V)) (s : State C K V),
      RunWith (next hash) (Lawful eqv) (State.init (.empty n hn)) as s → UniqueKeys eqv s.map := by
  intro h
  obtain ⟨s, hrun, hs⟩ := exists_runWith_of_exec staleTrace_exec
  have hu := (h ℕ Bool ℕ (fun _ => 0) (fun _ _ => true)
    ⟨fun _ => rfl, fun _ => rfl, fun _ _ => rfl, fun _ => rfl⟩ 1 (by decide) _ _ hrun).bucket 0
  rw [of_decide_eq_true hs] at hu
  simp [DistinctKeys] at hu

end Pysync.Map
