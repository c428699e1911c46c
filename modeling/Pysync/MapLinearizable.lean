import Pysync.Linearization
import Pysync.MapRegister
import Pysync.MapSnapshot

/-!
Linearizability of the map as a whole. A call on one key takes effect at one instant; a `clear` does not,
for it empties one shard after another, with other calls in between. So the map is a dictionary under calls
on its keys and under the emptying of single shards: what a run does to it is a sequential history of
these, the calls with the results that they have returned.
-/

namespace Pysync.Map
open Transition ConcurrentMap Linearization

variable {C K V : Type} [DecidableEq C] [DecidableEq K]
variable {hash : K → UInt64} {eqv : K → K → Bool}

/-- What is seen of the map: a call on one key, or that a `clear` empties its shard `i`. -/
inductive Event (C K V : Type) where
  | call (c : C) (op : KeyOp K V) (ret : Ret K V)
  | wipe (c : C) (i : ℕ)
  deriving DecidableEq

namespace Event

def caller : Event C K V → C
  | call c _ _ | wipe c _ => c

/-- The event is past when its call is at `x`, in a map of `n` shards. -/
def Past (n : ℕ) (x : CallState K V) : Event C K V → Prop
  | call _ op ret => x = .done (.keyed op) (.ok ret)
  | wipe _ i => match x with
      | .whole .clear j _ => i < j
      | .done (.whole .clear) _ => i < n
      | _ => False

/-- A call begins with its invocation; the emptying of a shard is one step. -/
def Unbegun (n : ℕ) (x : CallState K V) : Event C K V → Prop
  | call _ _ _ => x = .idle
  | wipe c i => ¬ Past n x (wipe c i)

/-- What the event does to a dictionary, which has one value for all equal keys. -/
def Legal (hash : K → UInt64) (eqv : K → K → Bool) (n : ℕ) (A : K → Option V) (B : K → Option V) :
    Event C K V → Prop
  | call _ op ret => (op.sequential (A op.key)).2 = ret ∧
      ∀ k, B k = if eqv op.key k = true then (op.sequential (A op.key)).1 else A k
  | wipe _ i => ∀ k, B k = if (hash k).toNat % n = i then none else A k

end Event

/-- The dictionary that a map stands for. -/
def contents (hash : K → UInt64) (eqv : K → K → Bool) (s : State C K V) (k : K) : Option V :=
  valueOf hash eqv k s.map

/-- The map as a dictionary under calls on keys and the emptying of shards. -/
def observed (hash : K → UInt64) (eqv : K → K → Bool) (n : ℕ) :
    Observed (State C K V) (K → Option V) (Event C K V) where
  value s := contents hash eqv s
  legal A e B := e.Legal hash eqv n A B
  past s e := e.Past n (s.calls e.caller)
  unbegun s e := e.Unbegun n (s.calls e.caller)
  begun s e hpast hun := by
    cases e with
    | call c op ret =>
        have hidle : s.calls c = .idle := hun
        cases hidle.symm.trans hpast
    | wipe c i => exact hun hpast

/-- The calls considered: lawful, and no stale push at all. -/
def Fresh (hash : K → UInt64) (eqv : K → K → Bool) (s : State C K V) (a : Act C K V) : Prop :=
  Lawful eqv s a ∧ ¬ StalePush hash eqv s a

section States

variable {m : ConcurrentMap K V} {s t : State C K V} {a : Act C K V} {as : List (Act C K V)} {c : C}
variable {n i : ℕ} {k k' : K}

omit [DecidableEq K] in
theorem valueOf_congr (hk : LawfulKeys hash eqv) (h : eqv k k' = true) :
    valueOf hash eqv k m = valueOf hash eqv k' m := by
  have hsame : (fun e : K × V => eqv e.1 k) = fun e => eqv e.1 k' := by
    funext e
    exact hk.congr' h
  rw [valueOf, valueOf, valueIn, valueIn, hsame, hk.hash_eq h]

omit [DecidableEq K] in
theorem valueOf_clearShard (hi : i < m.shardCount) :
    valueOf hash eqv k (m.clearShard ⟨i, hi⟩) =
      if (hash k).toNat % m.shardCount = i then none else valueOf hash eqv k m := by
  have hindex : m.index (hash k) = ⟨i, hi⟩ ↔ (hash k).toNat % m.shardCount = i := Fin.ext_iff
  rw [valueOf, bucket_clearShard, apply_ite (valueIn eqv k)]
  exact if_congr hindex rfl rfl

/-- An invoked call is not idle any more. -/
theorem not_idle_run {P : State C K V → Act C K V → Prop} {s₀ : State C K V} {op : Op K V}
    (hrun : RunWith (next hash) P s₀ as s) (hmem : .invoke c op ∈ as) : s.calls c ≠ .idle := by
  have hop : (s.calls c).operation ≠ none := by
    induction hrun with
    | nil => cases hmem
    | @snoc as s a t hr hp hn ih =>
        rcases List.mem_append.mp hmem with hmem | hmem
        · obtain ⟨o, ho⟩ := Option.ne_none_iff_exists'.mp (ih hmem)
          rw [(call_next hn ho).1]
          exact Option.some_ne_none o
        · have hb : a.Begins c op := .inl (List.mem_singleton.mp hmem).symm
          rw [begins_next hn hb]
          exact Option.some_ne_none op
  intro hidle
  exact hop (by rw [hidle]; rfl)

/-- An instant since the invocation is later than all at which the call was idle. -/
theorem since_at {s₀ : State C K V} {op : Op K V} {Q : State C K V → Prop}
    (h : Since (next hash) s₀ as (.invoke c op) Q) :
    ∃ i u, At (next hash) s₀ as i u ∧ Q u ∧
      ∀ j w, At (next hash) s₀ as j w → w.calls c = .idle → j < i := by
  obtain ⟨pre, mid, u, hpre, hrun, hu⟩ := h
  have htake := List.prefix_iff_eq_take.mp hpre
  refine ⟨_, u, ⟨hpre.length_le, htake ▸ hrun⟩, hu, fun j w hw hidle => ?_⟩
  by_contra hle
  have hsub : pre ++ .invoke c op :: mid <+: as.take j := by
    rw [htake]
    exact List.take_prefix_take_left (Nat.le_of_not_lt hle)
  exact not_idle_run hw.2 (hsub.subset (List.mem_append_right _ List.mem_cons_self)) hidle

omit [DecidableEq C] [DecidableEq K] in
theorem Fresh.on (h : Fresh hash eqv s a) (k₀ : K) : FreshOn hash eqv k₀ s a :=
  ⟨h.1, fun hstale => h.2 hstale.1⟩

omit [DecidableEq C] [DecidableEq K] in
theorem unseen_idle (e : Event C K V) : ¬ e.Past n .idle := by
  cases e with
  | call c op ret => exact fun h => by cases h
  | wipe c i => exact id

omit [DecidableEq C] [DecidableEq K] in
theorem unseen_keyed {op : KeyOp K V} {pc : Pc K V} (e : Event C K V) : ¬ e.Past n (.keyed op pc) := by
  cases e with
  | call c op ret => exact fun h => by cases h
  | wipe c i => exact id

omit [DecidableEq C] [DecidableEq K] in
/-- A scan that is not a `clear` is not seen. -/
theorem unseen_scan {op : WholeOp} {acc : List (K × V)} (hop : op ≠ .clear) (e : Event C K V) :
    ¬ e.Past n (.whole op i acc) := by
  cases e with
  | call c op ret => exact fun h => by cases h
  | wipe c j => cases op <;> first | exact absurd rfl hop | exact id

omit [DecidableEq C] [DecidableEq K] in
theorem unseen_scanned {op : WholeOp} {r : PyResult (Ret K V)} (hop : op ≠ .clear)
    (e : Event C K V) : ¬ e.Past n (.done (.whole op) r) := by
  cases e with
  | call c op ret => exact fun h => by cases h
  | wipe c j => cases op <;> first | exact absurd rfl hop | exact id

end States

section Steps

variable {s t : State C K V} {a : Act C K V} {as : List (Act C K V)} {c : C} {n : ℕ} {hn₀ : 0 < n}

/-- A step changes what is past for its own call only. -/
theorem past_next (hn : next hash s a = some t) {Q : Event C K V → Prop}
    (hQ : ∀ e, Q e → e.caller = a.call)
    (hpast : ∀ e, e.caller = a.call → (e.Past n (t.calls a.call) ↔ e.Past n (s.calls a.call) ∨ Q e))
    (e : Event C K V) :
    (observed hash eqv n).past t e ↔ (observed hash eqv n).past s e ∨ Q e := by
  by_cases hc : e.caller = a.call
  · show e.Past n (t.calls e.caller) ↔ e.Past n (s.calls e.caller) ∨ Q e
    rw [hc]
    exact hpast e hc
  · show e.Past n (t.calls e.caller) ↔ e.Past n (s.calls e.caller) ∨ Q e
    rw [next_frame hn hc, or_iff_left fun hq => hc (hQ e hq)]

/-- A step that leaves the contents and the events of its call as they are. -/
theorem step_quiet (hn : next hash s a = some t) (hvalue : contents hash eqv t = contents hash eqv s)
    (hpast : ∀ e : Event C K V, e.Past n (t.calls a.call) ↔ e.Past n (s.calls a.call)) :
    (observed hash eqv n).Step (next hash) (State.init (.empty n hn₀)) as s t := by
  have hnone : ∀ e : Event C K V, e.caller = a.call →
      (e.Past n (t.calls a.call) ↔ e.Past n (s.calls a.call) ∨ False) :=
    fun e _ => (hpast e).trans (or_iff_left id).symm
  exact .quiet hvalue fun e => (past_next hn (fun _ h => h.elim) hnone e).trans (or_iff_left id)

/-- The contents change in a `clear`, or where a call on the key returns. -/
theorem contents_same (hk : LawfulKeys hash eqv)
    (hrun : RunWith (next hash) (Fresh hash eqv) (State.init (.empty n hn₀)) as s)
    (hf : Fresh hash eqv s a) (hn : next hash s a = some t) {op : KeyOp K V} {pc : Pc K V}
    (hc : s.calls a.call = .keyed op pc) (k : K)
    (hstays : eqv op.key k = true → ∀ r, t.calls a.call ≠ .done (.keyed op) r) :
    contents hash eqv t k = contents hash eqv s k := by
  have hrun' : RunWith (next hash) (FreshOn hash eqv k) (State.init (.empty n hn₀)) as s :=
    hrun.mono fun _ _ h => h.on k
  by_contra hne
  rcases ((freshInv_run hk hrun').step hk (hf.on k) hn).changes hne with
    ⟨c, order, i, acc, rfl, hc', -⟩ | ⟨c, op', pc', ret, rfl, hkey, hc', hdone, -⟩
  · cases hc.symm.trans hc'
  · obtain ⟨rfl, -⟩ := CallState.keyed.inj (hc'.symm.trans hc)
    exact hstays hkey _ hdone

/-- A call on a key returns: it takes effect now, or has looked at the map before. -/
theorem step_return (hk : LawfulKeys hash eqv)
    (hrun : RunWith (next hash) (Fresh hash eqv) (State.init (.empty n hn₀)) as s)
    (hf : Fresh hash eqv s a) (hn : next hash s a = some t) {op : KeyOp K V} {pc : Pc K V}
    {r : PyResult (Ret K V)} (hc : s.calls a.call = .keyed op pc)
    (ht : t.calls a.call = .done (.keyed op) r) :
    (observed hash eqv n).Step (next hash) (State.init (.empty n hn₀)) as s t := by
  have hrun' : RunWith (next hash) (FreshOn hash eqv op.key) (State.init (.empty n hn₀)) as s :=
    hrun.mono fun _ _ h => h.on op.key
  obtain ⟨ret, rfl, hlin⟩ := linearized_return hk hrun' (hf.on op.key) hn (hk.refl op.key) hc ht
  have hnew : ¬ (observed hash eqv n).past s (.call a.call op ret) := by
    show ¬ Event.Past n (s.calls a.call) (.call a.call op ret)
    rw [hc]
    exact unseen_keyed _
  have hpast : ∀ d, (observed hash eqv n).past t d ↔
      (observed hash eqv n).past s d ∨ d = .call a.call op ret := by
    refine past_next hn (fun d hd => by rw [hd]; rfl) fun d hd => ?_
    rw [hc, ht, or_iff_right (unseen_keyed d)]
    cases d with
    | call c op' ret' =>
        obtain rfl : c = a.call := hd
        simp [Event.Past, eq_comm]
    | wipe c i => simp [Event.Past]
  have hother : ∀ k, eqv op.key k = false → contents hash eqv t k = contents hash eqv s k :=
    fun k hkey => contents_same hk hrun hf hn hc k fun h => by rw [hkey] at h; cases h
  rcases hlin with hnow | ⟨hsame, hsince⟩
  · refine .acts (e := .call a.call op ret) ⟨congrArg Prod.snd hnow, fun k => ?_⟩ hnew hpast
    split
    · rename_i hkey
      exact (valueOf_congr hk (hk.symm hkey)).trans (congrArg Prod.fst hnow).symm
    · rename_i hkey
      exact hother k (Bool.eq_false_iff.mpr hkey)
  · obtain ⟨i, u, hat, hu, hbegun⟩ := since_at hsince
    refine .looked (e := .call a.call op ret) ?_ hnew hpast hat ⟨congrArg Prod.snd hu, fun k => ?_⟩ hbegun
    · funext k
      cases hkey : eqv op.key k with
      | false => exact hother k hkey
      | true =>
          have hclass := hk.symm hkey
          exact (valueOf_congr hk hclass).trans (hsame.trans (valueOf_congr hk hclass).symm)
    · split
      · rename_i hkey
        exact (valueOf_congr hk (hk.symm hkey)).trans (congrArg Prod.fst hu).symm
      · rfl

theorem step_keyed (hk : LawfulKeys hash eqv)
    (hrun : RunWith (next hash) (Fresh hash eqv) (State.init (.empty n hn₀)) as s)
    (hf : Fresh hash eqv s a) (hn : next hash s a = some t) {op : KeyOp K V} {pc : Pc K V}
    (hc : s.calls a.call = .keyed op pc) :
    (observed hash eqv n).Step (next hash) (State.init (.empty n hn₀)) as s t := by
  have hop : (t.calls a.call).operation = some (.keyed op) := by
    refine (call_next hn ?_).1
    rw [hc]
    rfl
  cases ht : t.calls a.call with
  | idle =>
      rw [ht] at hop
      cases hop
  | whole wop i acc =>
      rw [ht] at hop
      cases hop
  | keyed op' pc' =>
      refine step_quiet hn (funext fun k => contents_same hk hrun hf hn hc k fun _ r hr => ?_) fun e => ?_
      · cases ht.symm.trans hr
      · rw [hc, ht]
        exact iff_of_false (unseen_keyed e) (unseen_keyed e)
  | done o r =>
      rw [ht] at hop
      cases hop
      exact step_return hk hrun hf hn hc ht

theorem step_visit {order : List UInt64}
    (hrun : RunWith (next hash) (Fresh hash eqv) (State.init (.empty n hn₀)) as s)
    (hn : next hash s (.visit c order) = some t) :
    (observed hash eqv n).Step (next hash) (State.init (.empty n hn₀)) as s t := by
  obtain ⟨op, i, acc, acc', hi, hc, -, hmap, hcalls⟩ := next_visit_eq hn
  obtain ⟨-, -, hcount⟩ := map_run hrun.run
  rw [hcount] at hcalls
  by_cases hop : op = .clear
  swap
  · rw [if_neg hop] at hmap
    refine step_quiet hn (funext fun k => by rw [contents, contents, hmap]) fun e => ?_
    rw [Act.call, hc, hcalls]
    refine iff_of_false ?_ (unseen_scan hop e)
    split
    · exact unseen_scanned hop e
    · exact unseen_scan hop e
  subst hop
  rw [if_pos rfl] at hmap
  refine .acts (e := .wipe c i) (fun k => ?_) ?_ ?_
  · show valueOf hash eqv k t.map = _
    rw [hmap, valueOf_clearShard, hcount]
    rfl
  · show ¬ Event.Past n (s.calls c) (.wipe c i)
    rw [hc]
    exact lt_irrefl i
  · refine past_next hn (fun e he => by rw [he]; rfl) fun e he => ?_
    rw [Act.call, hc, hcalls]
    cases e with
    | call d kop ret =>
        refine iff_of_false ?_ (fun h => h.elim (fun h => by cases h) fun h => by cases h)
        split <;> exact fun h => by cases h
    | wipe d j =>
        obtain rfl : d = c := he
        rw [Event.wipe.injEq, eq_self, true_and]
        split
        · show j < n ↔ j < i ∨ j = i
          omega
        · show j < i + 1 ↔ j < i ∨ j = i
          omega

theorem fresh_step (hk : LawfulKeys hash eqv)
    (hrun : RunWith (next hash) (Fresh hash eqv) (State.init (.empty n hn₀)) as s)
    (hf : Fresh hash eqv s a) (hn : next hash s a = some t) :
    (observed hash eqv n).Step (next hash) (State.init (.empty n hn₀)) as s t := by
  cases a with
  | invoke c op =>
      obtain ⟨hidle, ⟨kop, -, rfl⟩ | ⟨wop, -, rfl⟩⟩ := next_invoke hn
      · refine step_quiet hn rfl fun e => ?_
        rw [Act.call, hidle, State.calls_setCall_self]
        exact iff_of_false (unseen_keyed e) (unseen_idle e)
      · refine step_quiet hn rfl fun e => ?_
        rw [Act.call, hidle, State.calls_setCall_self]
        refine iff_of_false ?_ (unseen_idle e)
        cases e with
        | call c op ret => exact fun h => by cases h
        | wipe c j => cases wop <;> first | exact Nat.not_lt_zero j | exact id
  | unhashable c op => exact hf.1.elim
  | lock c =>
      obtain ⟨op, pc, -, -, -, -, hc, -⟩ := next_lock hn
      exact step_keyed hk hrun hf hn hc
  | eq c answer =>
      obtain ⟨op, checkedKeys, e, rest, hc, -⟩ := next_eq hn
      exact step_keyed hk hrun hf hn hc
  | visit c order => exact step_visit hrun hn

end Steps

/-- Every run in which no `set` makes a stale push is one of a dictionary. The calls on keys that have
returned, with their results, and the shards that `clear`s have emptied stand in one order, in which each
call is between its invocation and its return, which leads from the empty dictionary to the present
contents, and in which every call answers what the dictionary answers there. -/
theorem linearizable (hash : K → UInt64) (eqv : K → K → Bool) (hk : LawfulKeys hash eqv) (n : ℕ)
    (hn₀ : 0 < n) (as : List (Act C K V)) (s : State C K V)
    (hrun : RunWith (next hash) (Fresh hash eqv) (State.init (.empty n hn₀)) as s) :
    ∃ history, (observed hash eqv n).History (next hash) (State.init (.empty n hn₀)) as s history :=
  Observed.exists_history (fun e => unseen_idle (n := n) e)
    (fun _ _ _ _ hr hf hn => fresh_step hk hr hf hn) hrun

/-- `clear` has left the first of two shards when `0` is set again, next to a `get(0)` that has copied the
bucket before; and `1` is set just before its shard is emptied. -/
def clearedTrace : List (Act ℕ ℕ ℕ) :=
  [.invoke 0 (.keyed (.set 0 5)), .lock 0, .invoke 1 (.whole .clear), .visit 1 [0],
   .invoke 2 (.keyed (.get 0)), .lock 2, .invoke 3 (.keyed (.set 0 7)), .lock 3, .lock 2,
   .invoke 4 (.keyed (.set 1 6)), .lock 4, .visit 1 [1]]

/-- The step is not the end of a pass of `set`. -/
def noLastPass (s : State C K V) : Act C K V → Bool
  | .lock c => match s.calls c with
      | .keyed (.set _ _) (.compare _ []) => false
      | _ => true
  | _ => true

omit [DecidableEq C] [DecidableEq K] in
theorem fresh_of_noLastPass {s : State C K V} {a : Act C K V} (hlaw : Lawful eqv s a)
    (h : noLastPass s a = true) : Fresh hash eqv s a := by
  refine ⟨hlaw, fun hstale => ?_⟩
  cases a with
  | lock c =>
      obtain ⟨key, value, checkedKeys, hc, -⟩ := hstale
      simp only [noLastPass, hc] at h
      cases h
  | _ => exact hstale

theorem clearedTrace_exec :
    (exec (next UInt64.ofNat)
      (fun s a => Lawful (fun k k' => decide (k = k')) s a ∧ noLastPass s a = true)
      (State.init (.empty 2 (by decide))) clearedTrace).map
        (fun s => decide (s.calls 2 = .done (.keyed (.get 0)) (.ok (.opt none)) ∧
          s.calls 1 = .done (.whole .clear) (.ok .unit) ∧ s.map.bucket 0 = [(0, 7)])) = some true := by
  decide +kernel

theorem linearizable_clearedTrace :
    ∃ s history, (observed UInt64.ofNat (fun k k' => decide (k = k')) 2).History (next UInt64.ofNat)
        (State.init (.empty 2 (by decide))) clearedTrace s history ∧
      Event.call 2 (.get 0) (.opt none) ∈ history ∧ Event.wipe 1 1 ∈ history := by
  obtain ⟨s, hrun, hs⟩ := exists_runWith_of_exec clearedTrace_exec
  obtain ⟨hget, hclear, -⟩ := of_decide_eq_true hs
  obtain ⟨history, hh⟩ := linearizable UInt64.ofNat (fun k k' => decide (k = k'))
    ⟨fun _ => decide_eq_true rfl, fun h => decide_eq_true (of_decide_eq_true h).symm,
      fun h h' => decide_eq_true ((of_decide_eq_true h).trans (of_decide_eq_true h')),
      fun h => congrArg UInt64.ofNat (of_decide_eq_true h)⟩ 2 (by decide) clearedTrace s
    (hrun.mono fun _ _ h => fresh_of_noLastPass h.1 h.2)
  refine ⟨s, history, hh, (hh.mem_iff _).mpr hget, (hh.mem_iff _).mpr ?_⟩
  show Event.Past 2 (s.calls 1) (.wipe 1 1)
  rw [hclear]
  exact Nat.one_lt_two

end Pysync.Map
