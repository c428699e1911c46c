import Pysync.MapRaise

/-!
Why the retry loops end. A pass compares the call's key with every candidate that it collected, so an
entry that the final section finds unchecked has come since, and a match that is gone has been removed
since; each `continue` is thus paid for by a change of the bucket that another call has made.
-/

namespace Pysync.Map
open Transition ConcurrentMap

variable {C K V : Type} [DecidableEq C] {hash : K → UInt64}
variable {s s₀ t u v w : State C K V} {a : Act C K V} {as : List (Act C K V)} {c : C}
variable {op : KeyOp K V} {pc pc' : Pc K V} {l l' : Bucket K V} {keys : List K}
variable {P : State C K V → Act C K V → Prop}

/-- The key objects under one hash, in the order of insertion. -/
def ConcurrentMap.keysAt (m : ConcurrentMap K V) (h : UInt64) : List K := (m.bucket h).map Prod.fst

/-- While the call `c` is in progress, a step of another call inserts into the bucket that `c` works on,
or removes from it. -/
def interferes [DecidableEq K] (hash : K → UInt64) (c : C) (s : State C K V) (a : Act C K V) : Bool :=
  match s.calls c with
  | .keyed op _ => decide (a.call ≠ c) && (next hash s a).any fun t =>
      decide (t.map.keysAt (hash op.key) ≠ s.map.keysAt (hash op.key))
  | _ => false

/-- About to collect the candidates of a pass. -/
def CallState.atCollect : CallState K V → Bool
  | .keyed _ (.collect _) => true
  | _ => false

/-- In a pass, with candidates to compare or about to end it. -/
def CallState.comparing : CallState K V → Bool
  | .keyed _ (.compare _ _) => true
  | _ => false

/-- The call `c` begins a pass. -/
def collects (c : C) (s : State C K V) (a : Act C K V) : Bool :=
  decide (a.call = c) && (s.calls c).atCollect

/-- A pass of the call `c` ends in `continue`. -/
def continues [DecidableEq K] (hash : K → UInt64) (c : C) (s : State C K V) (a : Act C K V) : Bool :=
  (s.calls c).comparing && (next hash s a).any fun t => (t.calls c).atCollect

theorem exists_collect {x : CallState K V} (h : x.atCollect = true) :
    ∃ op checkedKeys, x = .keyed op (.collect checkedKeys) := by
  cases x with
  | keyed op pc =>
      cases pc with
      | collect checkedKeys => exact ⟨op, checkedKeys, rfl⟩
      | _ => cases h
  | _ => cases h

theorem exists_compare {x : CallState K V} (h : x.comparing = true) :
    ∃ op checkedKeys candidates, x = .keyed op (.compare checkedKeys candidates) := by
  cases x with
  | keyed op pc =>
      cases pc with
      | compare checkedKeys candidates => exact ⟨op, checkedKeys, candidates, rfl⟩
      | _ => cases h
  | _ => cases h

/-- The bucket has the key objects that the pass has collected: each is checked or still to be compared,
and each that is to be compared or has matched is still there. -/
def Pc.UpToDate (keys : List K) : Pc K V → Prop
  | .fast | .collect _ => True
  | .compare checkedKeys candidates =>
      (∀ k ∈ keys, k ∈ checkedKeys ∨ k ∈ candidates.map Prod.fst) ∧ ∀ e ∈ candidates, e.1 ∈ keys
  | .hit _ k => k ∈ keys

/-- The loop does not go from here back to its top. -/
def Pc.NoContinue (pc pc' : Pc K V) : Prop :=
  ∀ checkedKeys candidates checkedKeys', pc = .compare checkedKeys candidates →
    pc' ≠ .collect checkedKeys'

/-- A section after which the call goes on: while the bucket is as collected, it stays in the pass. -/
theorem LockStep.upToDate [DecidableEq K] (h : LockStep op pc l l' (.goto pc')) (hop : ¬ op.IsLookup)
    (hpc : pc.UpToDate (l.map Prod.fst)) : pc'.UpToDate (l.map Prod.fst) ∧ pc.NoContinue pc' := by
  cases h with
  | snapshot hlookup => exact (hop hlookup).elim
  | @collect _ checkedKeys =>
      refine ⟨⟨fun k hk => ?_, fun e he => ?_⟩, fun _ _ _ h => by cases h⟩
      · obtain ⟨e, he, rfl⟩ := List.mem_map.mp hk
        by_cases hmem : e.1 ∈ checkedKeys
        · exact .inl hmem
        · exact .inr (List.mem_map_of_mem (mem_newCandidates.mpr ⟨he, hmem⟩))
      · exact List.mem_map_of_mem (mem_newCandidates.mp he).1
  | retry _ hun =>
      obtain ⟨e, he, hne⟩ := hun
      rcases hpc.1 e.1 (List.mem_map_of_mem he) with hmem | hmem
      · exact (hne hmem).elim
      · cases hmem
  | slow => exact ⟨trivial, fun _ _ _ h => by cases h⟩
  | miss _ hne =>
      obtain ⟨e, he, hk⟩ := List.mem_map.mp (show _ ∈ l.map Prod.fst from hpc)
      exact (hne e he hk).elim

/-- A comparison after which the call goes on. -/
theorem onEq_upToDate {checkedKeys : List K} {e : K × V} {rest : List (K × V)} {b : Bool}
    (hop : ¬ op.IsLookup) (h : op.onEq checkedKeys e rest b = .goto pc')
    (hpc : (Pc.compare checkedKeys (e :: rest)).UpToDate keys) :
    pc'.UpToDate keys ∧ ∀ checkedKeys', pc' ≠ .collect checkedKeys' := by
  have hrest : (Pc.compare (checkedKeys ++ [e.1]) rest).UpToDate keys := by
    refine ⟨fun k hk => ?_, fun f hf => hpc.2 f (List.mem_cons_of_mem _ hf)⟩
    rcases hpc.1 k hk with hmem | hmem
    · exact .inl (List.mem_append_left _ hmem)
    · rcases List.mem_cons.mp hmem with rfl | hmem
      · exact .inl (List.mem_append_right _ List.mem_cons_self)
      · exact .inr hmem
  have hhit : (Pc.hit (checkedKeys ++ [e.1]) e.1 : Pc K V).UpToDate keys := hpc.2 e List.mem_cons_self
  cases op with
  | get key => exact (hop trivial).elim
  | getVal key => exact (hop trivial).elim
  | containsKey key => exact (hop trivial).elim
  | getOrInsert key dflt =>
      cases b <;> cases h
      exact ⟨hrest, by simp⟩
  | set key value =>
      cases b <;> cases h
      · exact ⟨hrest, by simp⟩
      · exact ⟨hhit, by simp⟩
  | delete key =>
      cases b <;> cases h
      · exact ⟨hrest, by simp⟩
      · exact ⟨hhit, by simp⟩
  | popVal key =>
      cases b <;> cases h
      · exact ⟨hrest, by simp⟩
      · exact ⟨hhit, by simp⟩

variable [DecidableEq K]

theorem interferes_keyed (hs : s.calls c = .keyed op pc) :
    interferes hash c s a = (decide (a.call ≠ c) && (next hash s a).any fun t =>
      decide (t.map.keysAt (hash op.key) ≠ s.map.keysAt (hash op.key))) := by
  rw [interferes, hs]

theorem interferes_own (hs : s.calls c = .keyed op pc) (hcall : a.call = c) :
    interferes hash c s a = false := by
  rw [interferes_keyed hs, decide_eq_false (not_not.mpr hcall), Bool.false_and]

/-- A step that is no interference leaves the key objects of the bucket alone, unless it is one with
which the call returns. -/
theorem keysAt_next (hn : next hash s a = some t) (hs : s.calls c = .keyed op pc)
    (ht : t.calls c = .keyed op pc') (hquiet : interferes hash c s a = false) :
    t.map.keysAt (hash op.key) = s.map.keysAt (hash op.key) := by
  obtain ⟨-, hstep⟩ := goto_step hn hs ht
  cases hstep with
  | stay hca hpc =>
      rw [interferes_keyed hs, hn, Option.any_some, decide_eq_true (Ne.symm hca),
        Bool.true_and] at hquiet
      simpa using hquiet
  | lock ha hl hl' hlock =>
      unfold keysAt
      rw [hl, hl']
      cases hlock <;> rfl
  | eq ha hpc hmap hctl => rw [hmap]

/-- A step that is no interference keeps the pass going, or ends the call. -/
theorem upToDate_next (hn : next hash s a = some t) (hop : ¬ op.IsLookup)
    (hs : s.calls c = .keyed op pc) (ht : t.calls c = .keyed op pc')
    (hquiet : interferes hash c s a = false)
    (hpc : pc.UpToDate (s.map.keysAt (hash op.key))) :
    pc'.UpToDate (t.map.keysAt (hash op.key)) ∧ pc.NoContinue pc' := by
  rw [keysAt_next hn hs ht hquiet]
  obtain ⟨-, hstep⟩ := goto_step hn hs ht
  cases hstep with
  | stay hca hsame =>
      subst hsame
      refine ⟨hpc, fun _ _ _ h h' => ?_⟩
      cases h.symm.trans h'
  | lock ha hl hl' hlock =>
      unfold keysAt at hpc ⊢
      rw [hl] at hpc ⊢
      exact hlock.upToDate hop hpc
  | eq ha heq hmap hctl =>
      subst heq
      obtain ⟨hup, hnot⟩ := onEq_upToDate hop hctl hpc
      exact ⟨hup, fun _ _ checkedKeys' _ => hnot checkedKeys'⟩

theorem continues_eq_true (hn : next hash s a = some t) :
    continues hash c s a = true ↔ (s.calls c).comparing = true ∧ (t.calls c).atCollect = true := by
  rw [continues, hn, Option.any_some, Bool.and_eq_true]

/-- Where a call that is past its first section stands: at the top of its loop, or in a pass. -/
inductive Paced (keys : List K) (entered : Prop) (passes continued interfered : ℕ) :
    CallState K V → Prop
  | idle (hnot : ¬ entered) (hpasses : passes = 0) (hcontinued : continued = 0) :
      Paced keys entered passes continued interfered .idle
  | fast {op : KeyOp K V} (hnot : ¬ entered) (hpasses : passes = 0) (hcontinued : continued = 0) :
      Paced keys entered passes continued interfered (.keyed op .fast)
  | top {op : KeyOp K V} {checkedKeys : List K} (hpasses : passes = continued)
      (hle : continued ≤ interfered) :
      Paced keys entered passes continued interfered (.keyed op (.collect checkedKeys))
  | pass {op : KeyOp K V} {pc : Pc K V} (hfast : pc ≠ .fast)
      (hcollect : ∀ checkedKeys, pc ≠ .collect checkedKeys) (hpasses : passes = continued + 1)
      (hle : continued ≤ interfered) (howed : ¬ pc.UpToDate keys → continued + 1 ≤ interfered) :
      Paced keys entered passes continued interfered (.keyed op pc)
  | early {op : Op K V} {r : PyResult (Ret K V)} (hnot : ¬ entered) (hpasses : passes = 0) :
      Paced keys entered passes continued interfered (.done op r)
  | late {op : Op K V} {r : PyResult (Ret K V)} (hpasses : passes = continued + 1)
      (hle : continued ≤ interfered) :
      Paced keys entered passes continued interfered (.done op r)

/-- The call is past its first section. -/
def CallState.Past (x : CallState K V) : Prop := ∃ op pc, x = .keyed op pc ∧ pc ≠ .fast

omit [DecidableEq K] in
theorem not_past_fast : ¬ (CallState.keyed op .fast : CallState K V).Past := by
  rintro ⟨_, _, heq, hne⟩
  cases heq
  exact hne rfl

omit [DecidableEq K] in
theorem not_past_idle : ¬ (CallState.idle : CallState K V).Past := by
  rintro ⟨_, _, heq, -⟩
  cases heq

omit [DecidableEq K] in
theorem not_past_done {o : Op K V} {r : PyResult (Ret K V)} : ¬ (CallState.done o r).Past := by
  rintro ⟨_, _, heq, -⟩
  cases heq

omit [DecidableEq K] in
theorem keyed_or_done {x : CallState K V} (h : x.operation = some (.keyed op)) :
    (∃ pc, x = .keyed op pc) ∨ ∃ r, x = .done (.keyed op) r := by
  cases x with
  | keyed kop pc =>
      cases h
      exact .inl ⟨pc, rfl⟩
  | done o r =>
      cases h
      exact .inr ⟨r, rfl⟩
  | _ => cases h

omit [DecidableEq C] in
theorem GotoStep.of_fast (h : GotoStep hash s a t c op .fast pc') :
    pc' = .fast ∨ pc' = .collect [] := by
  cases h with
  | stay hca hsame => exact .inl hsame
  | lock ha hl hl' hlock =>
      cases hlock
      exact .inr rfl
  | eq ha hpc => cases hpc

omit [DecidableEq C] in
/-- From the top of the loop a call goes into a pass, in a step of its own. -/
theorem GotoStep.of_collect {checkedKeys : List K} (h : GotoStep hash s a t c op (.collect checkedKeys) pc') :
    (a.call ≠ c ∧ pc' = .collect checkedKeys) ∨
      (a.call = c ∧ ∃ checkedKeys' candidates, pc' = .compare checkedKeys' candidates) := by
  cases h with
  | stay hca hsame => exact .inl ⟨Ne.symm hca, hsame⟩
  | lock ha hl hl' hlock =>
      subst ha
      cases hlock <;> exact .inr ⟨rfl, _, _, rfl⟩
  | eq ha hpc => cases hpc

omit [DecidableEq C] in
/-- In a pass a call never comes to its first section, and to the top of its loop only by a
`continue`. -/
theorem GotoStep.of_pass (h : GotoStep hash s a t c op pc pc') (hfast : pc ≠ .fast)
    (hcollect : ∀ checkedKeys, pc ≠ .collect checkedKeys) :
    pc' ≠ .fast ∧ ∀ checkedKeys', pc' = .collect checkedKeys' →
      ∃ checkedKeys candidates, pc = .compare checkedKeys candidates := by
  cases h with
  | stay hca hsame =>
      subst hsame
      exact ⟨hfast, fun checkedKeys' h => (hcollect _ h).elim⟩
  | lock ha hl hl' hlock =>
      cases hlock with
      | slow => exact (hfast rfl).elim
      | retry => exact ⟨by simp, fun _ _ => ⟨_, _, rfl⟩⟩
      | snapshot => exact ⟨by simp, fun _ h => by cases h⟩
      | collect => exact ⟨by simp, fun _ h => by cases h⟩
      | miss => exact ⟨by simp, fun _ h => by cases h⟩
  | @eq _ _ _ answer ha hpc hmap hctl =>
      subst hpc
      refine ⟨?_, fun _ _ => ⟨_, _, rfl⟩⟩
      cases op <;> cases answer <;> cases hctl <;> simp

omit [DecidableEq K] in
theorem collects_eq_false (h : (s.calls c).atCollect = false) : collects c s a = false := by
  rw [collects, h, Bool.and_false]

theorem continues_eq_false (h : (s.calls c).comparing = false) : continues hash c s a = false := by
  rw [continues, h, Bool.false_and]

theorem continues_eq_false_of_next (hn : next hash s a = some t) (h : (t.calls c).atCollect = false) :
    continues hash c s a = false := by
  refine Bool.eq_false_iff.mpr fun hcont => ?_
  cases h.symm.trans ((continues_eq_true hn).mp hcont).2

omit [DecidableEq K] in
theorem atCollect_eq_false (hcollect : ∀ checkedKeys, pc ≠ .collect checkedKeys) :
    (CallState.keyed op pc).atCollect = false := by
  cases pc with
  | collect checkedKeys => exact (hcollect checkedKeys rfl).elim
  | _ => rfl

/-- The step of a call that goes on. -/
theorem Paced.goto {entered : Prop} {passes continued interfered : ℕ}
    (h : Paced (s.map.keysAt (hash op.key)) entered passes continued interfered (s.calls c))
    (hn : next hash s a = some t) (hop : ¬ op.IsLookup) (hs : s.calls c = .keyed op pc)
    (ht : t.calls c = .keyed op pc') :
    Paced (t.map.keysAt (hash op.key)) (entered ∨ (t.calls c).Past)
      (passes + (collects c s a).toNat) (continued + (continues hash c s a).toNat)
      (interfered + (interferes hash c s a).toNat) (t.calls c) := by
  obtain ⟨-, hstep⟩ := goto_step hn hs ht
  have hcall := hs
  rw [ht]
  generalize s.calls c = x at h hcall
  subst hcall
  cases h with
  | fast hnot hpasses hcontinued =>
      have hcoll : collects c s a = false := collects_eq_false (by rw [hs]; rfl)
      have hcont : continues hash c s a = false := continues_eq_false (by rw [hs]; rfl)
      rw [hcoll, hcont]
      rcases hstep.of_fast with rfl | rfl
      · exact .fast (fun hent => hent.elim hnot not_past_fast) hpasses hcontinued
      · exact .top (by simp [hpasses, hcontinued]) (by simp [hcontinued])
  | @top _ checkedKeys hpasses hle =>
      have hcont : continues hash c s a = false := continues_eq_false (by rw [hs]; rfl)
      rw [hcont]
      rcases hstep.of_collect with ⟨hca, rfl⟩ | ⟨hca, checkedKeys', candidates, rfl⟩
      · have hcoll : collects c s a = false := by
          rw [collects, decide_eq_false hca, Bool.false_and]
        rw [hcoll]
        exact .top hpasses (by simp; omega)
      · have hcoll : collects c s a = true := by
          rw [collects, decide_eq_true hca, hs]
          rfl
        have hquiet : interferes hash c s a = false := interferes_own hs hca
        obtain ⟨hup, -⟩ := upToDate_next hn hop hs ht hquiet trivial
        rw [hcoll, hquiet]
        exact .pass (by simp) (by simp) (by simp [hpasses]) (by simpa using hle)
          fun hold => absurd hup hold
  | pass hfast hcollect hpasses hle howed =>
      have hcoll : collects c s a = false :=
        collects_eq_false (by rw [hs]; exact atCollect_eq_false hcollect)
      obtain ⟨hfast', hback⟩ := hstep.of_pass hfast hcollect
      rw [hcoll]
      by_cases htop : ∃ checkedKeys', pc' = .collect checkedKeys'
      · obtain ⟨checkedKeys', rfl⟩ := htop
        obtain ⟨checkedKeys, candidates, rfl⟩ := hback _ rfl
        have hcont : continues hash c s a = true := by
          rw [continues_eq_true hn, hs, ht]
          exact ⟨rfl, rfl⟩
        rw [hcont]
        have hpaid : continued + 1 ≤ interfered + (interferes hash c s a).toNat := by
          cases hint : interferes hash c s a with
          | true => simpa using hle
          | false =>
              have hold : ¬ (Pc.compare checkedKeys candidates).UpToDate
                  (s.map.keysAt (hash op.key)) := fun hup =>
                (upToDate_next hn hop hs ht hint hup).2 _ _ _ rfl rfl
              simpa using howed hold
        exact .top (by simpa using hpasses) (by simpa using hpaid)
      · have hnot : ∀ checkedKeys', pc' ≠ .collect checkedKeys' := fun _ h => htop ⟨_, h⟩
        have hcont : continues hash c s a = false :=
          continues_eq_false_of_next hn (by rw [ht]; exact atCollect_eq_false hnot)
        rw [hcont]
        refine .pass hfast' hnot (by simpa using hpasses) (by simp; omega) fun hold => ?_
        cases hint : interferes hash c s a with
        | true => simpa using hle
        | false =>
            refine (howed fun hup => hold ?_).trans (by simp)
            exact (upToDate_next hn hop hs ht hint hup).1

/-- The step with which a call returns or raises. -/
theorem Paced.ret {o : Op K V} {r : PyResult (Ret K V)} {entered : Prop}
    {passes continued interfered : ℕ}
    (h : Paced (s.map.keysAt (hash op.key)) entered passes continued interfered (s.calls c))
    (hn : next hash s a = some t) (hs : s.calls c = .keyed op pc) (ht : t.calls c = .done o r) :
    Paced (t.map.keysAt (hash op.key)) (entered ∨ (t.calls c).Past)
      (passes + (collects c s a).toNat) (continued + (continues hash c s a).toNat)
      (interfered + (interferes hash c s a).toNat) (t.calls c) := by
  obtain ⟨-, hstep⟩ := ret_step hn hs ht
  have hcont : continues hash c s a = false := continues_eq_false_of_next hn (by rw [ht]; rfl)
  have hpc : ∀ checkedKeys, pc ≠ .collect checkedKeys := by
    rintro checkedKeys rfl
    cases hstep with
    | lock ha hl hl' hlock =>
        cases hlock with
        | write htarget => exact htarget
        | remove _ htarget => exact htarget
    | eq ha hpc => cases hpc
    | raise ha =>
        subst ha
        obtain ⟨_, _, _, _, hc, -⟩ := next_eq hn
        cases hs.symm.trans hc
  have hcoll : collects c s a = false :=
    collects_eq_false (by rw [hs]; exact atCollect_eq_false hpc)
  have hcall := hs
  rw [ht, hcoll, hcont]
  generalize s.calls c = x at h hcall
  subst hcall
  cases h with
  | fast hnot hpasses hcontinued => exact .early (fun hent => hent.elim hnot not_past_done) hpasses
  | top => exact (hpc _ rfl).elim
  | pass hfast hcollect hpasses hle howed => exact .late hpasses (by simp; omega)

omit [DecidableEq K] in
theorem paced_start {entered : Prop} {passes continued interfered : ℕ} (hop : ¬ op.IsLookup)
    (hnot : ¬ entered) (hpasses : passes = 0) (hcontinued : continued = 0) :
    Paced keys (entered ∨ (CallState.keyed op op.start).Past) passes continued interfered
      (.keyed op op.start) := by
  have hfast : op.start = .fast → Paced keys (entered ∨ (CallState.keyed op op.start).Past) passes
      continued interfered (.keyed op op.start) := by
    intro hstart
    rw [hstart]
    exact .fast (fun hent => hent.elim hnot not_past_fast) hpasses hcontinued
  cases op with
  | get key => exact (hop trivial).elim
  | getVal key => exact (hop trivial).elim
  | containsKey key => exact (hop trivial).elim
  | getOrInsert key dflt => exact .top (by rw [hpasses, hcontinued]) (by omega)
  | set key value => exact hfast rfl
  | delete key => exact hfast rfl
  | popVal key => exact hfast rfl

/-- The passes of a call of `op`, step by step. -/
theorem Paced.next {entered : Prop} {passes continued interfered : ℕ}
    (h : Paced (s.map.keysAt (hash op.key)) entered passes continued interfered (s.calls c))
    (hop : ¬ op.IsLookup) (hn : Map.next hash s a = some t)
    (ho : ∀ o, (t.calls c).operation = some o → o = .keyed op) :
    Paced (t.map.keysAt (hash op.key)) (entered ∨ (t.calls c).Past)
      (passes + (collects c s a).toNat) (continued + (continues hash c s a).toNat)
      (interfered + (interferes hash c s a).toNat) (t.calls c) := by
  cases hs : s.calls c with
  | idle =>
      have hcoll : collects c s a = false := collects_eq_false (by rw [hs]; rfl)
      have hcont : continues hash c s a = false := continues_eq_false (by rw [hs]; rfl)
      rw [hs] at h
      rw [hcoll, hcont]
      cases h with
      | idle hnot hpasses hcontinued =>
          by_cases hb : ∃ o, a.Begins c o
          swap
          · have ht := idle_next hn hs fun o ho => hb ⟨o, ho⟩
            rw [ht]
            exact .idle (fun hent => hent.elim hnot not_past_idle) hpasses hcontinued
          obtain ⟨o, hb⟩ := hb
          cases ho _ (begins_next hn hb)
          rcases hb with rfl | ⟨kop, heq, rfl⟩
          · obtain ⟨-, ⟨_, heq, rfl⟩ | ⟨_, heq, -⟩⟩ := next_invoke hn
            · cases heq
              rw [State.calls_setCall_self]
              exact paced_start hop hnot hpasses hcontinued
            · cases heq
          · obtain ⟨-, rfl⟩ := next_unhashable hn
            rw [State.calls_setCall_self]
            exact .early (fun hent => hent.elim hnot not_past_done) hpasses
  | keyed kop pc =>
      have hsome : (s.calls c).operation = some (.keyed kop) := by rw [hs]; rfl
      have hkeep := (call_next hn hsome).1
      cases ho _ hkeep
      rcases keyed_or_done hkeep with ⟨pc', ht⟩ | ⟨r, ht⟩
      · exact h.goto hn hop hs ht
      · exact h.ret hn hs ht
  | whole wop i acc =>
      rw [hs] at h
      cases h
  | done o r =>
      have hsome : (s.calls c).operation = some o := by rw [hs]; rfl
      have ht := (call_next hn hsome).2 r hs
      have hcoll : collects c s a = false := collects_eq_false (by rw [hs]; rfl)
      have hcont : continues hash c s a = false := continues_eq_false (by rw [hs]; rfl)
      rw [hs] at h
      rw [ht, hcoll, hcont]
      cases h with
      | early hnot hpasses => exact .early (fun hent => hent.elim hnot not_past_done) hpasses
      | late hpasses hle => exact .late hpasses (by simp; omega)

/-- The call `c` has got past its first section. -/
def Entered (hash : K → UInt64) (s₀ : State C K V) (as : List (Act C K V)) (c : C) : Prop :=
  ∃ u, Visits (next hash) s₀ as u ∧ (u.calls c).Past

theorem paced_run (h : RunWith (next hash) P s₀ as s) (hop : ¬ op.IsLookup)
    (hidle : s₀.calls c = .idle) (ho : ∀ o, (s.calls c).operation = some o → o = .keyed op) :
    Paced (s.map.keysAt (hash op.key)) (Entered hash s₀ as c)
      (countSteps (next hash) (collects c) s₀ as)
      (countSteps (next hash) (continues hash c) s₀ as)
      (countSteps (next hash) (interferes hash c) s₀ as) (s.calls c) := by
  induction h with
  | nil =>
      rw [hidle]
      refine .idle ?_ rfl rfl
      rintro ⟨u, ⟨pre, hpre, hrun⟩, op', pc, hu, -⟩
      obtain rfl := List.prefix_nil.mp hpre
      rw [hrun.unique (.nil : Run (next hash) s₀ [] s₀), hidle] at hu
      cases hu
  | @snoc as s a t hr hp hn ih =>
      have hent : Entered hash s₀ (as ++ [a]) c ↔ Entered hash s₀ as c ∨ (t.calls c).Past := by
        unfold Entered
        simp only [visits_snoc (hr.run.snoc trivial hn)]
        constructor
        · rintro ⟨u, hu | rfl, hpast⟩
          · exact .inl ⟨u, hu, hpast⟩
          · exact .inr hpast
        · rintro (⟨u, hu, hpast⟩ | hpast)
          · exact ⟨u, .inl hu, hpast⟩
          · exact ⟨t, .inr rfl, hpast⟩
      rw [hent, hr.countSteps_snoc hn, hr.countSteps_snoc hn, hr.countSteps_snoc hn]
      exact (ih fun o hs => ho o (call_next hn hs).1).next hop hn ho

theorem operation_run {o : Op K V} (h : RunWith (next hash) P t as v)
    (ho : (t.calls c).operation = some o) : (v.calls c).operation = some o := by
  induction h with
  | nil => exact ho
  | snoc _ _ hn ih => exact (call_next hn ih).1

theorem operation_forever {σ : ℕ → State C K V} {α : ℕ → Act C K V}
    (hrun : RunForever (next hash) σ α) {i₀ i : ℕ} (hbegin : α i₀ = .invoke c (.keyed op))
    (hi : i₀ + 1 ≤ i) : ((σ i).calls c).operation = some (.keyed op) := by
  induction i, hi using Nat.le_induction with
  | base => exact begins_next (hrun i₀) (.inl hbegin)
  | succ i hi ih => exact (call_next (hrun i) ih).1

/-- A call that has begun a pass and stands in a pass later, with no interference between. -/
theorem upToDate_run (h : RunWith (next hash) (fun s a => interferes hash c s a = false) t as v)
    (hop : ¬ op.IsLookup) (ht : t.calls c = .keyed op pc)
    (hpc : pc.UpToDate (t.map.keysAt (hash op.key))) (hv : v.calls c = .keyed op pc') :
    pc'.UpToDate (v.map.keysAt (hash op.key)) := by
  induction h generalizing pc' with
  | nil =>
      cases ht.symm.trans hv
      exact hpc
  | @snoc as s a w hr hp hn ih =>
      rcases running_next hn hv with ⟨pc₁, hs⟩ | ⟨rfl, -⟩
      · exact (upToDate_next hn hop hs hv hp (ih hs)).1
      · obtain ⟨hidle, -⟩ := next_invoke hn
        have hsome := operation_run hr (by rw [ht]; rfl : (t.calls c).operation = some (.keyed op))
        rw [hidle] at hsome
        cases hsome

/-! ## The end of a call -/

instance decidableUpToDate (keys : List K) : (pc : Pc K V) → Decidable (pc.UpToDate keys)
  | .fast | .collect _ => inferInstanceAs (Decidable True)
  | .compare checkedKeys candidates => inferInstanceAs (Decidable
      ((∀ k ∈ keys, k ∈ checkedKeys ∨ k ∈ candidates.map Prod.fst) ∧ ∀ e ∈ candidates, e.1 ∈ keys))
  | .hit _ k => inferInstanceAs (Decidable (k ∈ keys))

/-- The steps left in a pass over a bucket of `n` entries. -/
def Pc.left (n : ℕ) : Pc K V → ℕ
  | .fast => 2 * n + 3
  | .collect _ => 2 * n + 2
  | .compare _ candidates => 2 * candidates.length + 1
  | .hit _ _ => 2

/-- As many steps a call takes at most when nobody interferes any more: it may need one more pass if the
bucket has changed since it collected its candidates. -/
def Pc.effort (keys : List K) (pc : Pc K V) : ℕ :=
  pc.left keys.length + if pc.UpToDate keys then 0 else 2 * keys.length + 3

def effort (hash : K → UInt64) (c : C) (s : State C K V) : ℕ :=
  match s.calls c with
  | .keyed op pc => pc.effort (s.map.keysAt (hash op.key))
  | _ => 0

theorem Pc.effort_pos (pc : Pc K V) (keys : List K) : 0 < pc.effort keys := by
  have hleft : 0 < pc.left keys.length := by cases pc <;> simp [Pc.left]
  exact Nat.add_pos_left hleft _

theorem Pc.effort_lt (hleft : pc'.left keys.length < pc.left keys.length)
    (hup : pc.UpToDate keys → pc'.UpToDate keys) : pc'.effort keys < pc.effort keys := by
  unfold Pc.effort
  by_cases hpc : pc.UpToDate keys
  · rw [if_pos hpc, if_pos (hup hpc)]
    omega
  · rw [if_neg hpc]
    split <;> omega

theorem LockStep.effort_lt (h : LockStep op pc l l' (.goto pc')) (hop : ¬ op.IsLookup) :
    pc'.effort (l.map Prod.fst) < pc.effort (l.map Prod.fst) := by
  have hup := fun hpc => (h.upToDate hop hpc).1
  cases h with
  | snapshot hlookup => exact (hop hlookup).elim
  | @collect _ checkedKeys =>
      have hle : (newCandidates checkedKeys (some l)).length ≤ l.length := List.length_filter_le ..
      refine Pc.effort_lt ?_ hup
      simp only [Pc.left, List.length_map]
      omega
  | @retry _ checkedKeys _ _ hun =>
      -- the pass is not up to date, which pays for the next one
      have hold : ¬ (Pc.compare checkedKeys [] : Pc K V).UpToDate (l.map Prod.fst) := by
        obtain ⟨e, he, hne⟩ := hun
        intro hpc
        rcases hpc.1 e.1 (List.mem_map_of_mem he) with hmem | hmem
        · exact hne hmem
        · cases hmem
      unfold Pc.effort
      rw [if_neg hold, if_pos (show (Pc.collect checkedKeys : Pc K V).UpToDate _ from trivial)]
      simp only [Pc.left, List.length_nil]
      omega
  | slow => exact Pc.effort_lt (by simp [Pc.left]) hup
  | miss => exact Pc.effort_lt (by simp [Pc.left]) hup

theorem onEq_effort_lt {checkedKeys : List K} {e : K × V} {rest : List (K × V)} {b : Bool}
    (hop : ¬ op.IsLookup) (h : op.onEq checkedKeys e rest b = .goto pc') :
    pc'.effort keys < (Pc.compare checkedKeys (e :: rest)).effort keys := by
  refine Pc.effort_lt ?_ fun hpc => (onEq_upToDate hop h hpc).1
  cases op <;> cases b <;> cases h <;> simp only [Pc.left, List.length_cons] <;> omega

/-- Without interference the steps of others cost a call nothing, and each of its own brings it nearer to
its end. -/
theorem effort_next (hn : next hash s a = some t) (hop : ¬ op.IsLookup)
    (hs : s.calls c = .keyed op pc) (hquiet : interferes hash c s a = false) :
    effort hash c t ≤ effort hash c s ∧ (a.call = c → effort hash c t < effort hash c s) := by
  have hbefore : effort hash c s = pc.effort (s.map.keysAt (hash op.key)) := by
    rw [effort, hs]
  have hkeep := (call_next hn (by rw [hs]; rfl : (s.calls c).operation = some (.keyed op))).1
  rcases keyed_or_done hkeep with ⟨pc', ht⟩ | ⟨r, ht⟩
  · have hafter : effort hash c t = pc'.effort (s.map.keysAt (hash op.key)) := by
      rw [effort, ht, ← keysAt_next hn hs ht hquiet]
    rw [hafter, hbefore]
    obtain ⟨-, hstep⟩ := goto_step hn hs ht
    cases hstep with
    | stay hca hsame => exact ⟨by rw [hsame], fun h => (hca h.symm).elim⟩
    | lock ha hl hl' hlock =>
        unfold keysAt
        rw [hl]
        have hlt := hlock.effort_lt hop
        exact ⟨hlt.le, fun _ => hlt⟩
    | eq ha hpc hmap hctl =>
        subst hpc
        have hlt : pc'.effort (s.map.keysAt (hash op.key)) < _ := onEq_effort_lt hop hctl
        exact ⟨hlt.le, fun _ => hlt⟩
  · have hafter : effort hash c t = 0 := by rw [effort, ht]
    rw [hafter, hbefore]
    exact ⟨Nat.zero_le _, fun _ => Pc.effort_pos _ _⟩

/-- The call `c` gets its turn again and again until it has ended. -/
def Fair (c : C) (s : ℕ → State C K V) (a : ℕ → Act C K V) : Prop :=
  ∀ i op pc, (s i).calls c = .keyed op pc → ∃ j, i ≤ j ∧ (a j).call = c

/-- In an infinite run with finitely many interferences a call ends. -/
theorem ends_forever {σ : ℕ → State C K V} {α : ℕ → Act C K V}
    (hrun : RunForever (next hash) σ α) (hfair : Fair c σ α) (hop : ¬ op.IsLookup) {i₀ N : ℕ}
    (hbegin : α i₀ = .invoke c (.keyed op))
    (hquiet : ∀ i, N ≤ i → interferes hash c (σ i) (α i) = false) :
    ∃ i r, i₀ + 1 ≤ i ∧ (σ i).calls c = .done (.keyed op) r := by
  by_contra hnever
  have hrunning : ∀ i, i₀ + 1 ≤ i → ∃ pc, (σ i).calls c = .keyed op pc := by
    intro i hi
    exact (keyed_or_done (operation_forever hrun hbegin hi)).resolve_right fun ⟨r, hc⟩ =>
      hnever ⟨i, r, hi, hc⟩
  have heffort : ∀ i, max (i₀ + 1) N ≤ i → effort hash c (σ (i + 1)) ≤ effort hash c (σ i) ∧
      ((α i).call = c → effort hash c (σ (i + 1)) < effort hash c (σ i)) := by
    intro i hi
    obtain ⟨pc, hpc⟩ := hrunning i (by omega)
    exact effort_next (hrun i) hop hpc (hquiet i (by omega))
  obtain ⟨M, hM, hidle⟩ : ∃ M, max (i₀ + 1) N ≤ M ∧ ∀ i, M ≤ i → ¬ (α i).call = c :=
    eventually_not _ (fun i hi => (heffort i hi).1) fun i hi => (heffort i hi).2
  obtain ⟨pc, hpc⟩ := hrunning M (by omega)
  obtain ⟨j, hj, hturn⟩ := hfair M op pc hpc
  exact hidle j hj hturn

/-- A call of which no comparison raises does not raise. -/
theorem ok_forever {σ : ℕ → State C K V} {α : ℕ → Act C K V} (hrun : RunForever (next hash) σ α)
    {i₀ i : ℕ} (hbegin : α i₀ = .invoke c (.keyed op)) (hraise : ∀ i, α i ≠ .eq c none)
    (hi : i₀ + 1 ≤ i) {r : PyResult (Ret K V)} (hr : (σ i).calls c = .done (.keyed op) r) :
    ∃ v, r = .ok v := by
  induction i, hi using Nat.le_induction with
  | base =>
      have hn := hrun i₀
      rw [hbegin] at hn
      obtain ⟨-, ⟨_, heq, ht⟩ | ⟨_, heq, -⟩⟩ := next_invoke hn
      · cases heq
        rw [ht, State.calls_setCall_self] at hr
        cases hr
      · cases heq
  | succ i hi ih =>
      rcases done_next (hrun i) hr with hdone | ⟨pc, hpc⟩ | hunhashable
      · exact ih hdone
      · obtain ⟨-, hstep⟩ := ret_step (hrun i) hpc hr
        cases hstep with
        | raise ha => exact (hraise i ha).elim
        | _ => exact ⟨_, rfl⟩
      · have hn := hrun i
        rw [hunhashable] at hn
        have hsome := operation_forever hrun hbegin hi
        rw [(next_unhashable hn).1] at hsome
        cases hsome

/-- A `continue` comes after an interference with the pass that it ends. -/
theorem continue_charged {b : Act C K V} (hcollect : collects c u a = true)
    (hbegin : next hash u a = some t) (hop : ¬ op.IsLookup)
    (ho : (u.calls c).operation = some (.keyed op)) (hrun : Run (next hash) t as v)
    (hcontinue : continues hash c v b = true) :
    ∃ pre x post y, as = pre ++ x :: post ∧ Run (next hash) t pre y ∧
      interferes hash c y x = true := by
  refine (hrun.exists_or (interferes hash c)).resolve_right fun hquiet => ?_
  obtain ⟨hcall, hu⟩ := (Bool.and_eq_true ..).mp hcollect
  obtain ⟨_, checkedKeys, hc⟩ := exists_collect hu
  rw [hc] at ho
  cases ho
  cases hw : next hash v b with
  | none =>
      rw [continues, hw, Option.any_none, Bool.and_false] at hcontinue
      cases hcontinue
  | some w =>
      obtain ⟨hv, hcoll⟩ := (continues_eq_true hw).mp hcontinue
      obtain ⟨_, checkedKeys₁, candidates₁, hv⟩ := exists_compare hv
      obtain ⟨_, checkedKeys₂, hcoll⟩ := exists_collect hcoll
      have hown : b.call = c := by
        by_contra hne
        cases (hv.symm.trans (next_frame hw (Ne.symm hne)).symm).trans hcoll
      have hfirst : interferes hash c u a = false := interferes_own hc (of_decide_eq_true hcall)
      have hsingle : RunWith (next hash) (fun s a => interferes hash c s a = false) u [a] t :=
        .single hfirst hbegin
      have hwhole := hsingle.append hquiet
      have hsame := operation_run hwhole (by rw [hc]; rfl : (u.calls c).operation = some (.keyed op))
      rw [hv] at hsame
      cases hsame
      have hup := upToDate_run hwhole hop hc trivial hv
      obtain ⟨rfl, -⟩ := goto_step hw hv hcoll
      exact (upToDate_next hw hop hv hcoll (interferes_own hv hown) hup).2 _ _ _ rfl rfl

/-- For `set`, `get_or_insert`, `delete` and `pop_val`, whatever the map holds and `__eq__` answers: each
pass that ends in `continue` overlaps an interference; a call makes one pass more than there are
interferences at most, and if it gets past its first section and meets none it makes one; and in every
infinite run with finitely many interferences, in which the call gets its turn, it returns. -/
theorem retry_loop (hash : K → UInt64) (c : C) (op : KeyOp K V) (hop : ¬ op.IsLookup) :
    (∀ (u t v : State C K V) (a b : Act C K V) (as : List (Act C K V)), collects c u a = true →
      next hash u a = some t → (u.calls c).operation = some (.keyed op) → Run (next hash) t as v →
      continues hash c v b = true →
      ∃ pre x post y, as = pre ++ x :: post ∧ Run (next hash) t pre y ∧
        interferes hash c y x = true) ∧
    (∀ (s₀ s : State C K V) (as : List (Act C K V)), s₀.calls c = .idle →
      Run (next hash) s₀ as s → (s.calls c).operation = some (.keyed op) →
      countSteps (next hash) (collects c) s₀ as ≤
          countSteps (next hash) (interferes hash c) s₀ as + 1 ∧
        (countSteps (next hash) (interferes hash c) s₀ as = 0 → Entered hash s₀ as c →
          (∃ r, s.calls c = .done (.keyed op) r) →
          countSteps (next hash) (collects c) s₀ as = 1)) ∧
    ∀ (σ : ℕ → State C K V) (α : ℕ → Act C K V), RunForever (next hash) σ α → Fair c σ α →
      (∃ i, α i = .invoke c (.keyed op)) → (∀ i, α i ≠ .eq c none) →
      (∃ N, ∀ i, N ≤ i → interferes hash c (σ i) (α i) = false) →
      ∃ i v, (σ i).calls c = .done (.keyed op) (.ok v) := by
  refine ⟨fun u t v a b as hcollect hbegin ho hrun hcontinue => ?_, fun s₀ s as hidle hrun ho => ?_,
    fun σ α hrun hfair hbegin hraise hquiet => ?_⟩
  · exact continue_charged hcollect hbegin hop ho hrun hcontinue
  · have hpaced := paced_run hrun hop hidle fun o hs => Option.some.inj (hs.symm.trans ho)
    generalize hx : s.calls c = x at hpaced
    cases hpaced with
    | idle hnot hpasses => exact ⟨by omega, fun _ hent => absurd hent hnot⟩
    | fast hnot hpasses => exact ⟨by omega, fun _ hent => absurd hent hnot⟩
    | top hpasses hle => exact ⟨by omega, fun _ _ ⟨r, hr⟩ => by cases hr⟩
    | pass _ _ hpasses hle => exact ⟨by omega, fun _ _ ⟨r, hr⟩ => by cases hr⟩
    | early hnot hpasses => exact ⟨by omega, fun _ hent => absurd hent hnot⟩
    | late hpasses hle => exact ⟨by omega, fun hnone _ _ => by omega⟩
  · obtain ⟨i₀, hi₀⟩ := hbegin
    obtain ⟨N, hN⟩ := hquiet
    obtain ⟨i, r, hi, hr⟩ := ends_forever hrun hfair hop hi₀ hN
    obtain ⟨v, rfl⟩ := ok_forever hrun hi₀ hraise hi hr
    exact ⟨i, v, hr⟩

/-- `set(1)` compares its key with `0`; meanwhile `set(2)` appends, which costs it a second pass. -/
def secondPassTrace : List (Act ℕ ℕ ℕ) :=
  [.invoke 0 (.keyed (.set 0 0)), .lock 0, .invoke 1 (.keyed (.set 1 1)), .lock 1, .lock 1,
   .eq 1 (some false), .invoke 2 (.keyed (.set 2 2)), .lock 2, .lock 2, .eq 2 (some false), .lock 2,
   .lock 1, .lock 1, .eq 1 (some false), .lock 1]

theorem secondPassTrace_exec :
    (exec (next fun _ => 0) (fun _ _ => True) (State.init (.empty 1 (by decide)))
      secondPassTrace).map (fun s => decide (s.calls 1 = .done (.keyed (.set 1 1)) (.ok .unit) ∧
        countSteps (next fun _ => 0) (collects 1) (State.init (.empty 1 (by decide)))
          secondPassTrace = 2)) = some true := by
  decide +kernel

theorem retry_loop_secondPassTrace :
    ∃ s : State ℕ ℕ ℕ, Run (next fun _ => 0) (State.init (.empty 1 (by decide))) secondPassTrace s ∧
      2 ≤ countSteps (next fun _ => 0) (interferes (fun _ => 0) 1)
        (State.init (.empty 1 (by decide))) secondPassTrace + 1 := by
  obtain ⟨s, hrun, hs⟩ := exists_runWith_of_exec secondPassTrace_exec
  obtain ⟨hdone, hpasses⟩ := of_decide_eq_true hs
  have hle := ((retry_loop (fun _ => 0) 1 (.set 1 1) (fun h => h)).2.1 _ s secondPassTrace rfl hrun
    (by rw [hdone]; rfl)).1
  rw [hpasses] at hle
  exact ⟨s, hrun, hle⟩

end Pysync.Map
