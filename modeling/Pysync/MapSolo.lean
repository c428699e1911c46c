import Pysync.ClassMap
import Pysync.MapEntries
import Pysync.MapLinear

/-!
A call on the map while nobody else is about: how long it takes, what it does to its bucket, and that
this is the operation of a finite map from key classes to values.
-/

namespace Pysync.Map
open Transition ConcurrentMap ListAtMostOne

variable {K V : Type} {hash : K → UInt64} {eqv : K → K → Bool}
variable {m m' : ConcurrentMap K V} {s t : State Unit K V} {a : Act Unit K V}
variable {as : List (Act Unit K V)} {op : KeyOp K V} {pc pc' : Pc K V} {l l' : Bucket K V}
variable {ctl : Ctl K V} {r : Ret K V}

/-- The runs of one lawful call on the map `m`. -/
abbrev SoloRun [DecidableEq K] (hash : K → UInt64) (eqv : K → K → Bool) (m : ConcurrentMap K V) :
    List (Act Unit K V) → State Unit K V → Prop :=
  RunWith (next hash) (Lawful eqv) (State.init m)

/-- The call `op` on the map `m` returns `r`, or raises, and leaves the map `m'`. -/
def Call [DecidableEq K] (hash : K → UInt64) (eqv : K → K → Bool) (m : ConcurrentMap K V) (op : Op K V)
    (m' : ConcurrentMap K V) (r : PyResult (Ret K V)) : Prop :=
  ∃ as s, SoloRun hash eqv m as s ∧ s.calls () = .done op r ∧ s.map = m'

/-- What a call does to the entries of its bucket: it acts on one entry with an equal key, which keeps
its key object, or on none. -/
inductive Outcome (eqv : K → K → Bool) (op : KeyOp K V) (l : Bucket K V) :
    Bucket K V → Ret K V → Prop
  | found {l₁ l₂ : Bucket K V} {k : K} {v : V} : l = l₁ ++ (k, v) :: l₂ → eqv k op.key = true →
      Outcome eqv op l (l₁ ++ ((op.sequential (some v)).1.map fun v' => (k, v')).toList ++ l₂)
        (op.sequential (some v)).2
  | absent : (∀ e ∈ l, eqv e.1 op.key = false) →
      Outcome eqv op l (l ++ ((op.sequential none).1.map fun v' => (op.key, v')).toList)
        (op.sequential none).2

/-- The same whatever the keys are like, when a key object may differ from itself: a lookup finds by
`==` only, and the other methods look for their key object as well. -/
inductive Met (eqv : K → K → Bool) (op : KeyOp K V) (l : Bucket K V) : Bucket K V → Ret K V → Prop
  | found {l₁ l₂ : Bucket K V} {k : K} {v : V} : l = l₁ ++ (k, v) :: l₂ →
      eqv k op.key = true ∨ k = op.key ∧ ¬ op.IsLookup →
      Met eqv op l (l₁ ++ ((op.sequential (some v)).1.map fun v' => (k, v')).toList ++ l₂)
        (op.sequential (some v)).2
  | absent : (∀ e ∈ l, eqv e.1 op.key = false) → op.IsLookup ∨ (∀ e ∈ l, e.1 ≠ op.key) →
      Met eqv op l (l ++ ((op.sequential none).1.map fun v' => (op.key, v')).toList)
        (op.sequential none).2

theorem Met.outcome (hk : LawfulKeys hash eqv) (h : Met eqv op l l' r) : Outcome eqv op l l' r := by
  cases h with
  | found hl heq =>
      refine .found hl ?_
      rcases heq with heq | ⟨rfl, -⟩
      · exact heq
      · exact hk.refl _
  | absent hall => exact .absent hall

/-- Where a call on a key may stand: what it has compared so far differs from its key. -/
def At (eqv : K → K → Bool) (op : KeyOp K V) (l : Bucket K V) : Pc K V → Prop
  | .fast => op.IsSet ∨ op.IsRemoval
  | .collect checkedKeys => checkedKeys = []
  | .compare checkedKeys candidates => ∃ passed, l = passed ++ candidates ∧
      (∀ e ∈ passed, eqv e.1 op.key = false) ∧ (op.IsLookup ∨ checkedKeys = passed.map Prod.fst)
  | .hit _ k => (op.IsSet ∨ op.IsRemoval) ∧ ∃ v, (k, v) ∈ l ∧ eqv k op.key = true

theorem at_start : At eqv op l op.start := by
  cases op with
  | set => exact .inl trivial
  | delete => exact .inr trivial
  | popVal => exact .inr trivial
  | _ => rfl

theorem LockStep.at_goto [DecidableEq K] (h : LockStep op pc l l' (.goto pc')) (hat : At eqv op l pc) :
    l' = l ∧ At eqv op l pc' := by
  cases h with
  | snapshot hop => exact ⟨rfl, [], rfl, by simp, .inl hop⟩
  | @collect _ checkedKeys _ hop =>
      obtain rfl : checkedKeys = [] := hat
      refine ⟨rfl, [], ?_, by simp, .inr rfl⟩
      simp [newCandidates]
  | retry hop hun =>
      obtain ⟨passed, rfl, -, hlookup | rfl⟩ := hat
      · exact absurd hlookup hop
      · obtain ⟨e, he, hne⟩ := hun
        rw [List.append_nil] at he
        exact absurd (List.mem_map_of_mem he) hne
  | slow => exact ⟨rfl, rfl⟩
  | miss _ hne =>
      obtain ⟨-, v, hmem, -⟩ := hat
      exact absurd rfl (hne _ hmem)

theorem Met.lookup_found (hop : op.IsLookup) {e : K × V} (he : e ∈ l)
    (heq : eqv e.1 op.key = true) : Met eqv op l l (op.lookupRet (some e.2)) := by
  obtain ⟨l₁, l₂, rfl⟩ := List.append_of_mem he
  have hfound : Met eqv op (l₁ ++ e :: l₂) _ _ := .found rfl (.inl heq)
  rw [sequential_lookup hop] at hfound
  simpa using hfound

theorem not_lookup_of_removal (hop : op.IsRemoval) : ¬ op.IsLookup := by
  cases op <;> simp [KeyOp.IsRemoval, KeyOp.IsLookup] at hop ⊢

theorem LockStep.met [DecidableEq K] (h : LockStep op pc l l' (.ret r)) (hat : At eqv op l pc) :
    Met eqv op l l' r := by
  have htarget : ∀ {k : K}, Target op pc k → ¬ op.IsLookup →
      eqv k op.key = true ∨ k = op.key ∧ ¬ op.IsLookup := by
    intro k htarget hop
    cases pc with
    | fast => exact .inr ⟨htarget, hop⟩
    | collect => exact htarget.elim
    | hit checkedKeys k' =>
        obtain rfl : k = k' := htarget
        obtain ⟨-, v, -, heq⟩ := hat
        exact .inl heq
    | compare checkedKeys candidates =>
        cases candidates with
        | nil => exact .inr ⟨htarget, hop⟩
        | cons => exact htarget.elim
  have hnone : ∀ checkedKeys, pc = .compare checkedKeys [] → ∀ e ∈ l, eqv e.1 op.key = false := by
    rintro checkedKeys rfl
    obtain ⟨passed, rfl, hpassed, -⟩ := hat
    simpa using hpassed
  cases h with
  | exhausted hop =>
      have habsent : Met eqv op l _ _ := .absent (hnone _ rfl) (.inl hop)
      rw [sequential_lookup hop] at habsent
      simpa using habsent
  | insertFast => exact .absent (by simp) (.inr (by simp))
  | insertLast _ hne => exact .absent (hnone _ rfl) (.inr hne)
  | @write key k value old pc l₁ l₂ htarget' =>
      have hfound : Met eqv (.set key value) (l₁ ++ (k, old) :: l₂) _ _ :=
        .found rfl (htarget htarget' id)
      simpa [KeyOp.sequential] using hfound
  | @remove op k v pc l₁ l₂ hop htarget' =>
      have hfound : Met eqv op (l₁ ++ (k, v) :: l₂) _ _ :=
        .found rfl (htarget htarget' (not_lookup_of_removal hop))
      rw [sequential_removal hop] at hfound
      simpa using hfound
  | absentFast hop =>
      have habsent : Met eqv op [] _ _ := .absent (by simp) (.inr (by simp))
      rw [sequential_removal hop] at habsent
      exact habsent
  | absentLast hop _ hne =>
      have habsent : Met eqv op l _ _ := .absent (hnone _ rfl) (.inr hne)
      rw [sequential_removal hop] at habsent
      simpa using habsent
  | @getLast key dflt v checkedKeys l₁ l₂ =>
      have hfound : Met eqv (.getOrInsert key dflt) (l₁ ++ (key, v) :: l₂) _ _ :=
        .found rfl (.inr ⟨rfl, id⟩)
      simpa [KeyOp.sequential] using hfound
  | orInsertLast _ hne => exact .absent (hnone _ rfl) (.inr hne)

theorem onEq_goto {checkedKeys : List K} {e : K × V} {rest : List (K × V)}
    (h : op.onEq checkedKeys e rest (eqv e.1 op.key) = .goto pc')
    (hat : At eqv op l (.compare checkedKeys (e :: rest))) : At eqv op l pc' := by
  obtain ⟨passed, rfl, hpassed, hchecked⟩ := hat
  have hpush : eqv e.1 op.key = false →
      ∀ e' ∈ passed ++ [e], eqv e'.1 op.key = false := by
    intro hne e' he'
    rcases List.mem_append.mp he' with he' | he'
    · exact hpassed e' he'
    · rwa [List.mem_singleton.mp he']
  have hgo : eqv e.1 op.key = false → op.IsLookup ∨ checkedKeys = passed.map Prod.fst →
      At eqv op (passed ++ e :: rest) (.compare (checkedKeys ++ [e.1]) rest) := fun hne hck => by
    refine ⟨passed ++ [e], by simp, hpush hne, ?_⟩
    rcases hck with hop | rfl
    · exact .inl hop
    · exact .inr (by simp)
  have hhit : op.IsSet ∨ op.IsRemoval → eqv e.1 op.key = true →
      At eqv op (passed ++ e :: rest) (.hit (checkedKeys ++ [e.1]) e.1) := fun hop heq =>
    ⟨hop, e.2, List.mem_append_right _ List.mem_cons_self, heq⟩
  cases heq : eqv e.1 op.key with
  | true =>
      rw [heq] at h
      cases op <;> cases h
      all_goals first | exact hhit (.inl trivial) heq | exact hhit (.inr trivial) heq
  | false =>
      rw [heq] at h
      cases op <;> cases h
      all_goals first
        | exact ⟨passed ++ [e], by simp, hpush heq, .inl trivial⟩
        | exact hgo heq hchecked

theorem onEq_ret {checkedKeys : List K} {e : K × V} {rest : List (K × V)}
    (h : op.onEq checkedKeys e rest (eqv e.1 op.key) = .ret r)
    (hat : At eqv op l (.compare checkedKeys (e :: rest))) : Met eqv op l l r := by
  obtain ⟨passed, rfl, -, -⟩ := hat
  cases heq : eqv e.1 op.key with
  | false =>
      rw [heq] at h
      cases op <;> cases h
  | true =>
      rw [heq] at h
      have hmem : e ∈ passed ++ e :: rest := List.mem_append_right _ List.mem_cons_self
      cases op with
      | getOrInsert key dflt =>
          cases h
          have hfound : Met eqv (.getOrInsert key dflt) (passed ++ e :: rest) _ _ := .found rfl (.inl heq)
          simpa [KeyOp.sequential] using hfound
      | get key =>
          cases h
          have hop : (KeyOp.get key : KeyOp K V).IsLookup := trivial
          exact .lookup_found hop hmem heq
      | getVal key =>
          cases h
          have hop : (KeyOp.getVal key : KeyOp K V).IsLookup := trivial
          exact .lookup_found hop hmem heq
      | containsKey key =>
          cases h
          have hop : (KeyOp.containsKey key : KeyOp K V).IsLookup := trivial
          exact .lookup_found hop hmem heq
      | _ => cases h

/-- The entries of the shards below `i`. -/
def ConcurrentMap.firstShards (m : ConcurrentMap K V) (i : ℕ) : Multiset (K × V) :=
  ((List.finRange m.shardCount).take i : Multiset (Fin m.shardCount)).bind fun j =>
    shardEntries (m.shards j)

theorem firstShards_succ (m : ConcurrentMap K V) {i : ℕ} (hi : i < m.shardCount) :
    m.firstShards (i + 1) = m.firstShards i + shardEntries (m.shards ⟨i, hi⟩) := by
  unfold ConcurrentMap.firstShards
  have hlen : i < (List.finRange m.shardCount).length := by simpa using hi
  rw [List.take_succ_eq_append_getElem hlen, ← Multiset.coe_add, Multiset.add_bind]
  simp

theorem firstShards_all (m : ConcurrentMap K V) : m.firstShards m.shardCount = m.entries := by
  unfold ConcurrentMap.firstShards ConcurrentMap.entries
  rw [List.take_of_length_le (by simp)]
  rfl

/-- Where the only call on the map `m` stands, whatever the keys are like. -/
inductive Standing (hash : K → UInt64) (eqv : K → K → Bool) (m : ConcurrentMap K V)
    (s : State Unit K V) : Prop
  | idle : s.calls () = .idle → s.map = m → Standing hash eqv m s
  | keyed {op : KeyOp K V} {pc : Pc K V} : s.calls () = .keyed op pc →
      (∀ h, s.map.bucket h = m.bucket h) → At eqv op (m.bucket (hash op.key)) pc →
      Standing hash eqv m s
  | whole {op : WholeOp} {i : ℕ} {acc : List (K × V)} : s.calls () = .whole op i acc →
      i < s.map.shardCount → Standing hash eqv m s
  | keyedDone {op : KeyOp K V} {r : Ret K V} : s.calls () = .done (.keyed op) (.ok r) →
      Met eqv op (m.bucket (hash op.key)) (s.map.bucket (hash op.key)) r →
      (∀ h, h ≠ hash op.key → s.map.bucket h = m.bucket h) → Standing hash eqv m s
  | wholeDone {op : WholeOp} {r : PyResult (Ret K V)} : s.calls () = .done (.whole op) r →
      Standing hash eqv m s

theorem Standing.of_keyed (h : Standing hash eqv m s) (hc : s.calls () = .keyed op pc) :
    (∀ h, s.map.bucket h = m.bucket h) ∧ At eqv op (m.bucket (hash op.key)) pc := by
  cases h with
  | keyed hc' hsame hat =>
      obtain ⟨rfl, rfl⟩ := CallState.keyed.inj (hc.symm.trans hc')
      exact ⟨hsame, hat⟩
  | idle hc' => cases hc.symm.trans hc'
  | whole hc' => cases hc.symm.trans hc'
  | keyedDone hc' => cases hc.symm.trans hc'
  | wholeDone hc' => cases hc.symm.trans hc'

theorem Standing.of_whole (h : Standing hash eqv m s) {op : WholeOp} {i : ℕ} {acc : List (K × V)}
    (hc : s.calls () = .whole op i acc) : i < s.map.shardCount := by
  cases h with
  | whole hc' hi =>
      cases hc.symm.trans hc'
      exact hi
  | idle hc' => cases hc.symm.trans hc'
  | keyed hc' => cases hc.symm.trans hc'
  | keyedDone hc' => cases hc.symm.trans hc'
  | wholeDone hc' => cases hc.symm.trans hc'

/-- Where the only call on the map `m` stands. -/
inductive Solo (hash : K → UInt64) (eqv : K → K → Bool) (m : ConcurrentMap K V)
    (s : State Unit K V) : Prop
  | idle : s.calls () = .idle → s.map = m → Solo hash eqv m s
  | keyed {op : KeyOp K V} {pc : Pc K V} : s.calls () = .keyed op pc →
      (∀ h, s.map.bucket h = m.bucket h) → At eqv op (m.bucket (hash op.key)) pc → Solo hash eqv m s
  | scan {op : WholeOp} {i : ℕ} {acc : List (K × V)} : op ≠ .clear →
      s.calls () = .whole op i acc → s.map = m → i < m.shardCount →
      (acc : Multiset (K × V)) = m.firstShards i → Solo hash eqv m s
  | clear {i : ℕ} {acc : List (K × V)} : s.calls () = .whole .clear i acc →
      s.map.shardCount = m.shardCount → i < m.shardCount →
      (∀ h, (m.index h).val < i → s.map.bucket h = []) → Solo hash eqv m s
  | keyedDone {op : KeyOp K V} {r : Ret K V} : s.calls () = .done (.keyed op) (.ok r) →
      Outcome eqv op (m.bucket (hash op.key)) (s.map.bucket (hash op.key)) r →
      (∀ h, h ≠ hash op.key → s.map.bucket h = m.bucket h) → Solo hash eqv m s
  | scanDone {op : WholeOp} {acc : List (K × V)} : op ≠ .clear →
      s.calls () = .done (.whole op) (.ok (op.ret acc)) → s.map = m →
      (acc : Multiset (K × V)) = m.entries → Solo hash eqv m s
  | clearDone : s.calls () = .done (.whole .clear) (.ok .unit) → (∀ h, s.map.bucket h = []) →
      Solo hash eqv m s

theorem Solo.of_idle (h : Solo hash eqv m s) (hc : s.calls () = .idle) : s.map = m := by
  cases h with
  | idle _ hmap => exact hmap
  | keyed hc' => cases hc.symm.trans hc'
  | scan _ hc' => cases hc.symm.trans hc'
  | clear hc' => cases hc.symm.trans hc'
  | keyedDone hc' => cases hc.symm.trans hc'
  | scanDone _ hc' => cases hc.symm.trans hc'
  | clearDone hc' => cases hc.symm.trans hc'

theorem Solo.of_whole (h : Solo hash eqv m s) {op : WholeOp} {i : ℕ} {acc : List (K × V)}
    (hc : s.calls () = .whole op i acc) :
    (op ≠ .clear ∧ s.map = m ∧ i < m.shardCount ∧ (acc : Multiset (K × V)) = m.firstShards i) ∨
      op = .clear ∧ s.map.shardCount = m.shardCount ∧ i < m.shardCount ∧
        ∀ h, (m.index h).val < i → s.map.bucket h = [] := by
  cases h with
  | scan hop hc' hmap hi hacc =>
      cases hc.symm.trans hc'
      exact .inl ⟨hop, hmap, hi, hacc⟩
  | clear hc' hcount hi hempty =>
      cases hc.symm.trans hc'
      exact .inr ⟨rfl, hcount, hi, hempty⟩
  | idle hc' => cases hc.symm.trans hc'
  | keyed hc' => cases hc.symm.trans hc'
  | keyedDone hc' => cases hc.symm.trans hc'
  | scanDone _ hc' => cases hc.symm.trans hc'
  | clearDone hc' => cases hc.symm.trans hc'

variable [DecidableEq K]

theorem Standing.lock (h : Standing hash eqv m s) (hn : next hash s (.lock ()) = some t) :
    Standing hash eqv m t := by
  obtain ⟨op, pc, slot, ctl, l, l', hc, hl, hl', hstep, rfl⟩ := next_lock hn
  obtain ⟨hsame, hat⟩ := h.of_keyed hc
  rw [← hsame, hl] at hat
  have hbucket := bucket_lock hash s () op slot ctl
  cases ctl with
  | goto pc' =>
      obtain ⟨rfl, hat'⟩ := hstep.at_goto hat
      refine .keyed (State.calls_resume_self _ _ _ _) (fun h => ?_) ?_
      · rw [hbucket, ← hsame]
        split
        · rename_i hh
          rw [hh, hl', hl]
        · rfl
      · rwa [← hsame, hl]
  | ret r =>
      refine .keyedDone (State.calls_resume_self _ _ _ _) ?_ fun h hh => ?_
      · rw [← hsame, hl, hbucket, if_pos rfl, hl']
        exact hstep.met hat
      · rw [hbucket, if_neg hh, hsame]

theorem Standing.eq (h : Standing hash eqv m s) {answer : Option Bool}
    (hlaw : Lawful eqv s (.eq () answer)) (hn : next hash s (.eq () answer) = some t) :
    Standing hash eqv m t := by
  obtain ⟨op, checkedKeys, e, rest, hc, hans⟩ := next_eq hn
  have hanswer := hlaw.answer hc
  subst hanswer
  obtain ⟨hno, -⟩ | ⟨b, hb, rfl⟩ := hans
  · cases hno
  cases hb
  obtain ⟨hsame, hat⟩ := h.of_keyed hc
  cases hctl : op.onEq checkedKeys e rest (eqv e.1 op.key) with
  | goto pc' =>
      refine .keyed (State.calls_resume_self _ _ _ _) (fun h => ?_) (onEq_goto hctl hat)
      rw [State.map_resume]
      exact hsame h
  | ret r =>
      refine .keyedDone (State.calls_resume_self _ _ _ _) ?_ fun h _ => ?_
      · rw [State.map_resume, hsame]
        exact onEq_ret hctl hat
      · rw [State.map_resume]
        exact hsame h

theorem Standing.next (h : Standing hash eqv m s) (hlaw : Lawful eqv s a)
    (hn : next hash s a = some t) : Standing hash eqv m t := by
  cases a with
  | invoke c op =>
      obtain ⟨hidle, hop⟩ := next_invoke hn
      have hmap : s.map = m := by
        cases h with
        | idle _ hmap => exact hmap
        | keyed hc => cases hidle.symm.trans hc
        | whole hc => cases hidle.symm.trans hc
        | keyedDone hc => cases hidle.symm.trans hc
        | wholeDone hc => cases hidle.symm.trans hc
      obtain ⟨kop, rfl, rfl⟩ | ⟨wop, rfl, rfl⟩ := hop
      · exact .keyed (State.calls_setCall_self _ _ _) (fun h => by rw [State.map_setCall, hmap])
          at_start
      · exact .whole (State.calls_setCall_self _ _ _) s.map.shardCount_pos
  | unhashable c op => exact hlaw.elim
  | lock c => exact h.lock hn
  | eq c answer => exact h.eq hlaw hn
  | visit c order =>
      obtain ⟨op, i, acc, acc', hi, hc, -, hmap, hcalls⟩ := next_visit_eq hn
      have hcount : t.map.shardCount = s.map.shardCount := by
        rw [hmap]
        split <;> rfl
      by_cases hlast : i + 1 = s.map.shardCount
      · exact .wholeDone (hcalls.trans (if_pos hlast))
      · exact .whole (hcalls.trans (if_neg hlast)) (by omega)

theorem SoloRun.standing (h : SoloRun hash eqv m as s) : Standing hash eqv m s :=
  h.invariant (.idle rfl rfl) fun _ _ _ hs hlaw hn => hs.next hlaw hn

theorem SoloRun.placed (hm : Placed hash m) (h : SoloRun hash eqv m as s) : Placed hash s.map := by
  induction h with
  | nil => exact hm
  | snoc _ _ hn ih => exact placed_next ih hn

omit [DecidableEq K] in
/-- The call on a key, when the keys are lawful. -/
theorem Standing.solo (hk : LawfulKeys hash eqv) (h : Standing hash eqv m s) {op : KeyOp K V}
    (ho : (s.calls ()).operation = some (.keyed op)) : Solo hash eqv m s := by
  cases h with
  | keyed hc hsame hat => exact .keyed hc hsame hat
  | keyedDone hc hmet hframe => exact .keyedDone hc (hmet.outcome hk) hframe
  | idle hc | whole hc | wholeDone hc =>
      rw [hc] at ho
      cases ho

theorem Solo.visit (h : Solo hash eqv m s) {order : List UInt64}
    (hn : next hash s (.visit () order) = some t) : Solo hash eqv m t := by
  obtain ⟨op, i, acc, acc', hi, hc, hacc', hmap', hcalls⟩ := next_visit_eq hn
  obtain ⟨hop, hmap, hi', hacc⟩ | ⟨rfl, hcount, hi', hempty⟩ := h.of_whole hc
  · subst hmap
    rw [if_neg hop] at hmap'
    rw [hacc, ← firstShards_succ _ hi] at hacc'
    by_cases hlast : i + 1 = s.map.shardCount
    · rw [hlast, firstShards_all] at hacc'
      exact .scanDone hop (hcalls.trans (if_pos hlast)) hmap' hacc'
    · exact .scan hop (hcalls.trans (if_neg hlast)) hmap' (by omega) hacc'
  · rw [if_pos rfl] at hmap'
    have hbucket : ∀ h, (m.index h).val < i + 1 → t.map.bucket h = [] := by
      intro h hlt
      rw [hmap', bucket_clearShard]
      split
      · rfl
      · rename_i hne
        refine hempty h (lt_of_le_of_ne (Nat.lt_succ_iff.mp hlt) fun heq => hne (Fin.ext ?_))
        exact (congrArg (h.toNat % ·) hcount).trans heq
    by_cases hlast : i + 1 = s.map.shardCount
    · refine .clearDone (hcalls.trans (if_pos hlast)) fun h => hbucket h ?_
      rw [hlast, hcount]
      exact (m.index h).isLt
    · refine .clear (hcalls.trans (if_neg hlast)) ?_ (by omega) hbucket
      rw [hmap']
      exact hcount

theorem Solo.next (hk : LawfulKeys hash eqv) (hst : Standing hash eqv m s) (h : Solo hash eqv m s)
    (hlaw : Lawful eqv s a) (hn : next hash s a = some t) : Solo hash eqv m t := by
  have hkeyed : ∀ {op : KeyOp K V}, (s.calls ()).operation = some (.keyed op) → Solo hash eqv m t :=
    fun ho => (hst.next hlaw hn).solo hk (call_next hn ho).1
  cases a with
  | invoke c op =>
      obtain ⟨hidle, hop⟩ := next_invoke hn
      have hmap := h.of_idle hidle
      obtain ⟨kop, rfl, rfl⟩ | ⟨wop, rfl, rfl⟩ := hop
      · exact .keyed (State.calls_setCall_self _ _ _) (fun h => by rw [State.map_setCall, hmap])
          at_start
      · by_cases hclear : wop = .clear
        · subst hclear
          exact .clear (State.calls_setCall_self _ _ _) (by rw [State.map_setCall, hmap])
            m.shardCount_pos (by simp)
        · exact .scan hclear (State.calls_setCall_self _ _ _) hmap m.shardCount_pos rfl
  | unhashable c op => exact hlaw.elim
  | lock c =>
      obtain ⟨op, pc, _, _, _, _, hc, -⟩ := next_lock hn
      exact hkeyed (congrArg CallState.operation hc)
  | eq c answer =>
      obtain ⟨op, _, _, _, hc, -⟩ := next_eq hn
      exact hkeyed (congrArg CallState.operation hc)
  | visit c order => exact h.visit hn

theorem SoloRun.solo (hk : LawfulKeys hash eqv) (h : SoloRun hash eqv m as s) :
    Solo hash eqv m s :=
  h.invariant_run (.idle rfl rfl) fun _ _ _ _ hr hs hlaw hn =>
    hs.next hk (SoloRun.standing hr) hlaw hn

section Returns

/-- How many steps the call may still take. -/
def remaining (hash : K → UInt64) (s : State Unit K V) : ℕ :=
  match s.calls () with
  | .keyed op .fast => (s.map.bucket (hash op.key)).length + 5
  | .keyed op (.collect _) => (s.map.bucket (hash op.key)).length + 4
  | .keyed _ (.compare _ candidates) => candidates.length + 2
  | .keyed _ (.hit _ _) => 1
  | .whole _ i _ => s.map.shardCount - i
  | _ => 0

/-- The call is in progress. -/
def Running (s : State Unit K V) : Prop :=
  (∃ op pc, s.calls () = .keyed op pc) ∨ ∃ op i acc, s.calls () = .whole op i acc

theorem At.lock_enabled (hat : At eqv op l pc) (slot : Option (Bucket K V))
    (hpc : ∀ checkedKeys e rest, pc ≠ .compare checkedKeys (e :: rest)) :
    (op.lock pc slot).isSome = true := by
  cases pc with
  | fast =>
      cases op with
      | set => rfl
      | delete => rfl
      | popVal => rfl
      | _ => exact absurd hat (by simp [At, KeyOp.IsSet, KeyOp.IsRemoval])
  | collect checkedKeys => cases op <;> rfl
  | compare checkedKeys candidates =>
      cases candidates with
      | nil => cases op <;> rfl
      | cons e rest => exact absurd rfl (hpc checkedKeys e rest)
  | hit checkedKeys k =>
      cases op with
      | set => rfl
      | delete => rfl
      | popVal => rfl
      | _ => exact absurd hat.1 (by simp [KeyOp.IsSet, KeyOp.IsRemoval])

/-- A call in progress can take its next step. -/
theorem Standing.progress (h : Standing hash eqv m s) (hr : Running s) :
    ∃ a t, Lawful eqv s a ∧ Map.next hash s a = some t := by
  rcases hr with ⟨op, pc, hc⟩ | ⟨op, i, acc, hc⟩
  · obtain ⟨-, hat⟩ := h.of_keyed hc
    by_cases hpc : ∃ checkedKeys e rest, pc = .compare checkedKeys (e :: rest)
    · obtain ⟨checkedKeys, e, rest, rfl⟩ := hpc
      refine ⟨.eq () (some (eqv e.1 op.key)),
        s.resume () op (op.onEq checkedKeys e rest (eqv e.1 op.key)), ?_, ?_⟩
      · simp only [Lawful, hc]
      · simp only [Map.next, hc]
    · have hsome := hat.lock_enabled (s.map.slot (hash op.key)) fun ck e rest he =>
        hpc ⟨ck, e, rest, he⟩
      obtain ⟨⟨slot, ctl⟩, hlock⟩ := Option.isSome_iff_exists.mp hsome
      refine ⟨.lock (),
        State.resume { s with map := s.map.setSlot (hash op.key) slot } () op ctl, trivial, ?_⟩
      simp only [Map.next, hc, hlock]
      rfl
  · have hi := h.of_whole hc
    have horder : (s.map.shards ⟨i, hi⟩).keys.toList.Nodup ∧
        (s.map.shards ⟨i, hi⟩).keys.toList.toFinset = (s.map.shards ⟨i, hi⟩).keys :=
      ⟨Finset.nodup_toList _, Finset.toList_toFinset _⟩
    have hsome : (Map.next hash s (.visit () (s.map.shards ⟨i, hi⟩).keys.toList)).isSome = true := by
      simp only [Map.next, hc, hi, dif_pos, if_pos horder]
      rfl
    obtain ⟨t, ht⟩ := Option.isSome_iff_exists.mp hsome
    exact ⟨.visit () (s.map.shards ⟨i, hi⟩).keys.toList, t, trivial, ht⟩

theorem LockStep.remaining_lt (h : LockStep op pc l l' (.goto pc')) (hat : At eqv op l pc)
    {s t : State Unit K V} (hs : s.calls () = .keyed op pc) (ht : t.calls () = .keyed op pc')
    (hl : s.map.bucket (hash op.key) = l) (hl' : t.map.bucket (hash op.key) = l') :
    remaining hash t < remaining hash s := by
  unfold remaining
  rw [hs, ht]
  cases h with
  | snapshot =>
      dsimp only
      rw [hl]
      omega
  | @collect _ checkedKeys =>
      have hle : (newCandidates checkedKeys (some l)).length ≤ l.length := List.length_filter_le ..
      dsimp only
      rw [hl]
      omega
  | retry hop hun =>
      obtain ⟨passed, rfl, -, hlookup | rfl⟩ := hat
      · exact absurd hlookup hop
      · obtain ⟨e, he, hne⟩ := hun
        rw [List.append_nil] at he
        exact absurd (List.mem_map_of_mem he) hne
  | slow =>
      dsimp only
      rw [hl, hl']
      omega
  | miss _ hne =>
      obtain ⟨-, v, hmem, -⟩ := hat
      exact absurd rfl (hne _ hmem)

/-- Every step of a call brings its end nearer. -/
theorem Standing.remaining_lt (h : Standing hash eqv m s) (hr : Running s)
    (hn : Map.next hash s a = some t) : remaining hash t < remaining hash s := by
  have hpos : ∀ {op : KeyOp K V} {pc : Pc K V}, s.calls () = .keyed op pc →
      0 < remaining hash s := by
    intro op pc hc
    unfold remaining
    rw [hc]
    cases pc <;> simp
  have hdone : ∀ {t : State Unit K V} {op : Op K V} {r : PyResult (Ret K V)},
      t.calls () = .done op r → remaining hash t = 0 := by
    intro t op r hc
    unfold remaining
    rw [hc]
  cases a with
  | invoke c op =>
      obtain ⟨hidle, -⟩ := next_invoke hn
      rcases hr with ⟨op, pc, hc⟩ | ⟨op, i, acc, hc⟩ <;> cases hidle.symm.trans hc
  | unhashable c op =>
      obtain ⟨hidle, -⟩ := next_unhashable hn
      rcases hr with ⟨op, pc, hc⟩ | ⟨op, i, acc, hc⟩ <;> cases hidle.symm.trans hc
  | lock c =>
      obtain ⟨op, pc, slot, ctl, l, l', hc, hl, hl', hstep, rfl⟩ := next_lock hn
      obtain ⟨hsame, hat⟩ := h.of_keyed hc
      rw [← hsame, hl] at hat
      have hself := State.calls_resume_self
        { s with map := s.map.setSlot (hash op.key) slot } () op ctl
      cases ctl with
      | goto pc' =>
          refine hstep.remaining_lt hat hc hself hl ?_
          rw [bucket_lock, if_pos rfl, hl']
      | ret r =>
          rw [hdone hself]
          exact hpos hc
  | eq c answer =>
      obtain ⟨op, checkedKeys, e, rest, hc, ⟨-, rfl⟩ | ⟨b, -, rfl⟩⟩ := next_eq hn
      · rw [hdone (State.calls_setCall_self _ _ _)]
        exact hpos hc
      · cases hctl : op.onEq checkedKeys e rest b with
        | ret r =>
            rw [hdone (State.calls_resume_self s () op (.ret r))]
            exact hpos hc
        | goto pc' =>
            have hself : (s.resume c op (.goto pc')).calls () = .keyed op pc' :=
              State.calls_resume_self s () op (.goto pc')
            unfold remaining
            rw [hc, hself]
            cases op <;> cases b <;> cases hctl <;> simp
  | visit c order =>
      obtain ⟨op, i, acc, acc', hi, hc, -, hmap, hcalls⟩ := next_visit_eq hn
      have hrem : remaining hash s = s.map.shardCount - i := by
        unfold remaining
        rw [hc]
      have hcount : t.map.shardCount = s.map.shardCount := by
        rw [hmap]
        split <;> rfl
      rw [hrem]
      split at hcalls
      · rw [hdone hcalls]
        omega
      · unfold remaining
        rw [hcalls, hcount]
        dsimp only
        omega

/-- A call that has begun returns, after as many steps as remain at most. -/
theorem SoloRun.returns {o : Op K V} (h : SoloRun hash eqv m as s)
    (ho : (s.calls ()).operation = some o) :
    ∃ bs t r, RunWith (Map.next hash) (Lawful eqv) s bs t ∧ t.calls () = .done o r ∧
      bs.length ≤ remaining hash s := by
  induction hrem : remaining hash s using Nat.strong_induction_on generalizing s as with
  | _ n ih =>
      by_cases hr : Running s
      · obtain ⟨a, u, hlaw, hn⟩ := h.standing.progress hr
        have hlt := h.standing.remaining_lt hr hn
        rw [hrem] at hlt
        obtain ⟨bs, t, r, hrun, hdone, hlen⟩ := ih _ hlt (h.snoc hlaw hn) (call_next hn ho).1 rfl
        refine ⟨a :: bs, t, r, (RunWith.single hlaw hn).append hrun, hdone, ?_⟩
        simp only [List.length_cons]
        omega
      · cases hc : s.calls () with
        | idle =>
            rw [hc] at ho
            cases ho
        | keyed op pc => exact absurd (.inl ⟨op, pc, hc⟩) hr
        | whole op i acc => exact absurd (.inr ⟨op, i, acc, hc⟩) hr
        | done op r =>
            rw [hc] at ho
            cases ho
            exact ⟨[], s, r, .nil, hc, Nat.zero_le _⟩

/-- Every call on any map returns. -/
theorem call_exists (hash : K → UInt64) (eqv : K → K → Bool) (m : ConcurrentMap K V) (o : Op K V) :
    ∃ m' r, Call hash eqv m o m' r := by
  have hbegin : ∃ s, SoloRun hash eqv m [.invoke () o] s ∧ (s.calls ()).operation = some o := by
    cases o with
    | keyed op =>
        exact ⟨_, RunWith.single trivial rfl, by rw [State.calls_setCall_self]; rfl⟩
    | whole op =>
        exact ⟨_, RunWith.single trivial rfl, by rw [State.calls_setCall_self]; rfl⟩
  obtain ⟨s, hs, ho⟩ := hbegin
  obtain ⟨bs, t, r, hrun, hdone, -⟩ := hs.returns ho
  exact ⟨t.map, r, _, t, hs.append hrun, hdone, rfl⟩

end Returns

end Pysync.Map
