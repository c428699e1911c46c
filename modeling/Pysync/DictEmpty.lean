import Pysync.DictConserve
import Pysync.MapSnapshot

/-!
When `popitem` reports an empty dictionary. It looks at one shard after another, and what it has looked
at may be filled again: what it reports holds at an instant of the call provided that nobody puts an
entry behind its back while the dictionary holds another one.
-/

namespace Pysync.Shared
open Map Dict Transition

variable {D K V : Type} [DecidableEq D] {hash : K → UInt64}
variable {s s₀ t : State D K V} {a : Act D K V} {as : List (Act D K V)} {d : D} {i k : ℕ}
variable {n : ℕ} {hn : 0 < n}

/-- The `popitem` is in progress. -/
def Popitem.running : Popitem K V → Bool
  | .asking _ _ | .waiting _ _ => true
  | _ => false

/-- The `popitem` has raised that the dictionary is empty. -/
def Popitem.raised [DecidableEq K] : Popitem K V → Bool
  | .done (.error e) => decide (e = popitemErr)
  | _ => false

/-- The dictionary was empty at an instant of the `popitem` of `d`. -/
def EmptyDuring [DecidableEq K] [DecidableEq V] (hash : K → UInt64) (s₀ : State D K V)
    (as : List (Act D K V)) (d : D) : Prop :=
  Since (next hash) s₀ as (.start d) fun u => (u.popitems d).running = true ∧ u.map.map.entries = 0

/-- The scan of a `popitem` has left the shard of the hash `h` behind, and found nothing so far. -/
def Passed (s : State D K V) (h : UInt64) : Prop :=
  ∃ d i k, s.popitems d = .waiting .popitemItems i ∧ s.map.calls (.inner d i) = .whole .items k [] ∧
    (s.map.map.index h).val < k

/-- The step puts an entry behind such a scan, while the dictionary holds another one. -/
def LatePut [DecidableEq K] [DecidableEq V] (hash : K → UInt64) (s : State D K V) (a : Act D K V) : Prop :=
  s.map.map.entries ≠ 0 ∧ ∃ h t, Passed s h ∧ s.map.map.bucket h = [] ∧ next hash s a = some t ∧
    t.map.map.bucket h ≠ []

/-- What holds of a `popitem` while the dictionary has not been empty since its start. -/
structure Nonempty (s : State D K V) (d : D) : Prop where
  raises : s.popitems d ≠ .done (.error popitemErr)
  passed : ∀ i k, s.popitems d = .waiting .popitemItems i →
    s.map.calls (.inner d i) = .whole .items k [] →
    ∀ h, (s.map.map.index h).val < k → s.map.map.bucket h = []
  reads : ∀ i, s.popitems d = .waiting .popitemItems i →
    s.map.calls (.inner d i) ≠ .done (.whole .items) (.ok (.items []))

theorem entries_eq_zero {m : ConcurrentMap K V} (hm : Placed hash m) (h : ∀ h, m.bucket h = []) :
    m.entries = 0 := by
  refine Multiset.eq_zero_of_forall_notMem fun e he => ?_
  have hb := hm.mem_entries.mp he
  rw [h] at hb
  cases hb

/-- A shard whose entries are all listed in an empty list has empty buckets. -/
theorem bucket_eq_nil {m : ConcurrentMap K V} (hm : Placed hash m) {j : Fin m.shardCount}
    (hj : shardEntries (m.shards j) = 0) {h : UInt64} (hh : m.index h = j) : m.bucket h = [] := by
  refine List.eq_nil_iff_forall_not_mem.mpr fun e he => ?_
  have hhash := hm.bucket he
  have hmem : e ∈ shardEntries (m.shards j) := by
    refine hm.mem_shard.mpr ⟨hm.mem_entries.mpr ?_, ?_⟩
    · rwa [hhash]
    · rw [hhash, hh]
  rw [hj] at hmem
  exact Multiset.notMem_zero e hmem

theorem bucket_eq_nil_of_entries {m : ConcurrentMap K V} (hm : Placed hash m) (h : m.entries = 0)
    (x : UInt64) : m.bucket x = [] := by
  refine List.eq_nil_iff_forall_not_mem.mpr fun e he => ?_
  have hmem := hm.mem_entries.mpr ((hm.bucket he).symm ▸ he)
  rw [h] at hmem
  exact Multiset.notMem_zero e hmem

omit [DecidableEq D] in
/-- The invariant reads the `popitem` of `d`, its call in progress and the buckets. -/
theorem Nonempty.congr (h : Nonempty s d) (hp : t.popitems d = s.popitems d)
    (hmap : t.map = s.map) : Nonempty t d where
  raises := by
    rw [hp]
    exact h.raises
  passed i k hw hc := by
    rw [hp] at hw
    rw [hmap] at hc ⊢
    exact h.passed i k hw hc
  reads i hw := by
    rw [hp] at hw
    rw [hmap]
    exact h.reads i hw

omit [DecidableEq D] in
theorem nonempty_of_not_waiting (hraises : s.popitems d ≠ .done (.error popitemErr))
    (hw : ∀ i, s.popitems d ≠ .waiting .popitemItems i) : Nonempty s d where
  raises := hraises
  passed i _ h := absurd h (hw i)
  reads i h := absurd h (hw i)

variable [DecidableEq K]

/-- The scan of the `popitem` takes its next shard. -/
theorem Nonempty.visit {order : List UInt64} (h : Nonempty s d) (hm : Placed hash s.map.map)
    (hnow : s.map.map.entries ≠ 0) (hw : s.popitems d = .waiting .popitemItems i)
    (hp : t.popitems d = s.popitems d)
    (hn : Map.next hash s.map (.visit (.inner d i) order) = some t.map)
    (hop : (s.map.calls (.inner d i)).operation = some (.whole .items)) : Nonempty t d := by
  obtain ⟨op, k, acc, acc', hk, hc, hacc', hmap, hcalls⟩ := next_visit_eq hn
  rw [hc] at hop
  cases hop
  rw [if_neg (by decide)] at hmap
  -- nothing is listed only if nothing was listed before and the shard is empty
  have hempty : acc' = [] → ∀ x, (s.map.map.index x).val < k + 1 → s.map.map.bucket x = [] := by
    rintro rfl x hlt
    have hnone : ∀ e, e ∉ (acc : Multiset (K × V)) + shardEntries (s.map.map.shards ⟨k, hk⟩) := by
      intro e he
      rw [← hacc'] at he
      exact Multiset.notMem_zero e he
    have hacc : acc = [] := List.eq_nil_iff_forall_not_mem.mpr fun e he =>
      hnone e (Multiset.mem_add.mpr (.inl he))
    have hshard : shardEntries (s.map.map.shards ⟨k, hk⟩) = 0 :=
      Multiset.eq_zero_of_forall_notMem fun e he => hnone e (Multiset.mem_add.mpr (.inr he))
    subst hacc
    rcases Nat.lt_succ_iff_lt_or_eq.mp hlt with hlt | heq
    · exact h.passed i k hw hc x hlt
    · exact bucket_eq_nil hm hshard (Fin.ext heq)
  have hwaits : ∀ j, t.popitems d = .waiting .popitemItems j → j = i := by
    intro j hj
    rw [hp, hw] at hj
    cases hj
    rfl
  refine ⟨by rw [hp]; exact h.raises, fun j k' hj hc' x hlt => ?_, fun j hj hdone => ?_⟩
  · obtain rfl := hwaits j hj
    rw [hcalls] at hc'
    split at hc'
    · cases hc'
    · cases hc'
      rw [hmap] at hlt ⊢
      exact hempty rfl x hlt
  · obtain rfl := hwaits j hj
    rw [hcalls] at hdone
    split at hdone
    · rename_i hlast
      cases hdone
      refine hnow (entries_eq_zero hm fun x => hempty rfl x ?_)
      rw [hlast]
      exact (s.map.map.index x).isLt
    · cases hdone

/-- A step of another call on the map. -/
theorem Nonempty.other [DecidableEq V] {b : Map.Act (Caller D) K V} (h : Nonempty s d)
    (hnow : s.map.map.entries ≠ 0) (hlate : ¬ LatePut hash s (.map b))
    (hw : s.popitems d = .waiting .popitemItems i) (hp : t.popitems d = s.popitems d)
    (hnext : next hash s (.map b) = some t) (hb : .inner d i ≠ b.call) : Nonempty t d := by
  obtain ⟨hn, -⟩ := next_map hnext
  have hframe : t.map.calls (.inner d i) = s.map.calls (.inner d i) := next_frame hn hb
  have hcount := shardCount_next hn
  have hwaits : ∀ j, t.popitems d = .waiting .popitemItems j → j = i := by
    intro j hj
    rw [hp, hw] at hj
    cases hj
    rfl
  refine ⟨by rw [hp]; exact h.raises, fun j k hj hc x hlt => ?_, fun j hj => ?_⟩
  · obtain rfl := hwaits j hj
    rw [hframe] at hc
    have hlt' : (s.map.map.index x).val < k :=
      (congrArg (x.toNat % ·) hcount).symm.trans_lt hlt
    have hbefore := h.passed j k hw hc x hlt'
    by_contra hne
    exact hlate ⟨hnow, x, t, ⟨d, j, k, hw, hc, hlt'⟩, hbefore, hnext, hne⟩
  · obtain rfl := hwaits j hj
    rw [hframe]
    exact h.reads j hw

/-- The first step of the scan. -/
theorem nonempty_begin {b : Map.Act (Caller D) K V} (hp : t.popitems d = .waiting .popitemItems i)
    (hn : Map.next hash s.map b = some t.map) (hb : b.Begins (.inner d i) (.whole .items)) :
    Nonempty t d := by
  have hstart : t.map.calls (.inner d i) = .whole .items 0 [] := by
    obtain rfl | ⟨kop, hkop, -⟩ := hb
    · obtain ⟨-, ⟨kop, hkop, -⟩ | ⟨wop, hwop, ht⟩⟩ := next_invoke hn
      · cases hkop
      · cases hwop
        rw [ht, Map.State.calls_setCall_self]
    · cases hkop
  refine ⟨fun hdone => ?_, fun j k hj hc x hlt => ?_, fun j hj => ?_⟩
  · cases hp.symm.trans hdone
  · rw [hp] at hj
    cases hj
    cases hstart.symm.trans hc
    exact absurd hlt (Nat.not_lt_zero _)
  · rw [hp] at hj
    cases hj
    rw [hstart]
    exact fun h => by cases h

/-- A step of the map while the dictionary is not empty. -/
theorem Nonempty.map [DecidableEq V] {m : ConcurrentMap K V} {b : Map.Act (Caller D) K V} (h : Nonempty s d)
    (hr : Run (next hash) (State.init m) as s) (hm : Placed hash s.map.map)
    (hnow : (s.popitems d).running = true → s.map.map.entries ≠ 0) (hlate : ¬ LatePut hash s (.map b))
    (hnext : next hash s (.map b) = some t) : Nonempty t d := by
  obtain ⟨hn, hfollow⟩ := next_map hnext
  have hkeep : t.popitems d = s.popitems d → Nonempty t d := by
    intro hp
    by_cases hw : ∃ i, s.popitems d = .waiting .popitemItems i
    swap
    · refine nonempty_of_not_waiting (by rw [hp]; exact h.raises) fun i hi => hw ⟨i, ?_⟩
      rw [← hp, hi]
    obtain ⟨i, hw⟩ := hw
    have hentries := hnow (by rw [hw]; rfl)
    by_cases hb : .inner d i = b.call
    swap
    · exact h.other hentries hlate hw hp hnext hb
    have hop : (s.map.calls (.inner d i)).operation = some (.whole .items) := by
      have hknows := knows hr d
      rw [hw] at hknows
      cases hknows with
      | waiting _ _ hop _ => exact hop
    have hnotKeyed : ∀ kop pc, s.map.calls (.inner d i) ≠ .keyed kop pc := by
      intro kop pc hc
      rw [hc] at hop
      cases hop
    have hnotIdle : s.map.calls (.inner d i) ≠ .idle := by
      intro hc
      rw [hc] at hop
      cases hop
    cases b with
    | visit c order =>
        obtain rfl : .inner d i = c := hb
        exact h.visit hm hentries hw hp hn hop
    | invoke c op =>
        obtain rfl : .inner d i = c := hb
        exact absurd (next_invoke hn).1 hnotIdle
    | unhashable c op =>
        obtain rfl : .inner d i = c := hb
        exact absurd (next_unhashable hn).1 hnotIdle
    | lock c =>
        obtain rfl : .inner d i = c := hb
        obtain ⟨op, pc, _, _, _, _, hc, -⟩ := next_lock hn
        exact absurd hc (hnotKeyed op pc)
    | eq c answer =>
        obtain rfl : .inner d i = c := hb
        obtain ⟨op, _, _, _, hc, -⟩ := next_eq hn
        exact absurd hc (hnotKeyed op _)
  rcases follow_cases hfollow with ⟨e, i, pc, hasking, hbegins, hpopitems⟩ | ⟨hsame, -⟩
  · by_cases hd : d = e
    · subst hd
      have hp : t.popitems d = .waiting pc i := by rw [hpopitems, Function.update_self]
      by_cases hpc : pc = .popitemItems
      · subst hpc
        exact nonempty_begin hp hn hbegins
      · refine nonempty_of_not_waiting (fun h => by cases hp.symm.trans h) fun j hj => hpc ?_
        cases hp.symm.trans hj
        rfl
    · exact hkeep (by rw [hpopitems, Function.update_of_ne hd])
  · exact hkeep (by rw [hsame])

omit [DecidableEq K] in
/-- A `popitem` raises that the dictionary is empty when it has read no item. -/
theorem answer_popitemErr {pc : Dict.Pc K V} {x : Ret K V} (hpc : IsPopitem pc)
    (h : pc.answer x = some (.stop (.error popitemErr))) : pc = .popitemItems ∧ x = .items [] := by
  cases pc with
  | popitemItems =>
      cases x with
      | items es =>
          cases es with
          | nil => exact ⟨rfl, rfl⟩
          | cons e es => cases h
      | _ => cases h
  | popitemPop key rest =>
      cases x with
      | found v =>
          cases v with
          | none =>
              obtain ⟨pc', hpop, -⟩ := popEach_goto rest
              have hgoto : popEach rest = .stop (.error popitemErr) := Option.some.inj h
              cases hpop.symm.trans hgoto
          | some v => cases h
      | _ => cases h
  | _ => exact hpc.elim

variable [DecidableEq V]

/-- The `popitem` gets the result of its call. -/
theorem Nonempty.answer {m : ConcurrentMap K V} (h : Nonempty s d)
    (hr : Run (next hash) (State.init m) as s) (hn : next hash s (.answer d) = some t) :
    Nonempty t d := by
  obtain ⟨pc, i, o, r, hw, hdone, hout⟩ := next_answer hn
  have hknows := knows hr d
  rw [hw] at hknows
  cases hknows with
  | waiting hpc _ hop _ =>
      rw [hdone] at hop
      obtain rfl : o = pc.ask.2 := Option.some.inj hop
      rcases hout with ⟨x, ctl, p, rfl, hanswer, hgo, rfl⟩ | ⟨err, rfl, rfl⟩
      · have hnot : ∀ j, p ≠ .waiting .popitemItems j := by
          rintro j rfl
          cases ctl <;> cases hgo
        refine nonempty_of_not_waiting ?_ fun j => by
          rw [State.popitems_setPopitem_self]
          exact hnot j
        rw [State.popitems_setPopitem_self]
        rintro rfl
        have hstop : ctl = .stop (.error popitemErr) := by
          cases ctl <;> cases hgo
          rfl
        subst hstop
        obtain ⟨rfl, rfl⟩ := answer_popitemErr hpc hanswer
        exact h.reads i hw hdone
      · refine nonempty_of_not_waiting ?_ fun j => ?_
        · rw [State.popitems_setPopitem_self]
          exact fun h => by cases h
        · rw [State.popitems_setPopitem_self]
          exact fun h => by cases h

theorem Nonempty.next {m : ConcurrentMap K V} (h : Nonempty s d)
    (hr : Run (next hash) (State.init m) as s) (hm : Placed hash s.map.map)
    (hnow : (s.popitems d).running = true → s.map.map.entries ≠ 0) (hlate : ¬ LatePut hash s a)
    (hnext : next hash s a = some t) : Nonempty t d := by
  cases a with
  | map b => exact h.map hr hm hnow hlate hnext
  | start e =>
      obtain ⟨-, rfl⟩ := next_start hnext
      by_cases hd : d = e
      · subst hd
        refine nonempty_of_not_waiting ?_ fun i => ?_
        · rw [State.popitems_setPopitem_self]
          exact fun h => by cases h
        · rw [State.popitems_setPopitem_self]
          exact fun h => by cases h
      · exact h.congr (State.popitems_setPopitem_ne _ _ hd) rfl
  | answer e =>
      by_cases hd : d = e
      · subst hd
        exact h.answer hr hnext
      · obtain ⟨_, _, _, _, -, -, ⟨_, _, _, -, -, -, rfl⟩ | ⟨_, -, rfl⟩⟩ := next_answer hnext
        · exact h.congr (State.popitems_setPopitem_ne _ _ hd) rfl
        · exact h.congr (State.popitems_setPopitem_ne _ _ hd) rfl

omit [DecidableEq K] [DecidableEq V] in
theorem running_ne_idle {p : Popitem K V} (h : p.running = true) : p ≠ .idle := by
  rintro rfl
  cases h

/-- A `popitem` that is not idle has started. -/
theorem started {m : ConcurrentMap K V} (h : Run (Shared.next hash) (State.init m) as s)
    (hd : s.popitems d ≠ .idle) : .start d ∈ as := by
  induction h with
  | nil => exact absurd rfl hd
  | @snoc as s a t _ _ hn ih =>
      by_cases hs : s.popitems d = .idle
      swap
      · exact List.mem_append_left _ (ih hs)
      cases a with
      | start e =>
          obtain ⟨-, rfl⟩ := next_start hn
          by_cases hde : d = e
          · rw [hde]
            exact List.mem_append_right _ (List.mem_singleton_self _)
          · rw [State.popitems_setPopitem_ne _ _ hde] at hd
            exact absurd hs hd
      | map b =>
          obtain ⟨-, hfollow⟩ := next_map hn
          rcases follow_cases hfollow with ⟨e, i, pc, hasking, -, hpopitems⟩ | ⟨hsame, -⟩
          · have hde : d ≠ e := by
              rintro rfl
              cases hs.symm.trans hasking
            rw [hpopitems, Function.update_of_ne hde] at hd
            exact absurd hs hd
          · rw [hsame] at hd
            exact absurd hs hd
      | answer e =>
          obtain ⟨pc, i, _, _, hw, -, hout⟩ := next_answer hn
          have hde : d ≠ e := by
            rintro rfl
            cases hs.symm.trans hw
          obtain ⟨_, _, _, -, -, -, rfl⟩ | ⟨_, -, rfl⟩ := hout
          · rw [State.popitems_setPopitem_ne _ _ hde] at hd
            exact absurd hs hd
          · rw [State.popitems_setPopitem_ne _ _ hde] at hd
            exact absurd hs hd

/-- When no entry is put behind a scan that has found nothing so far while the dictionary is not empty,
a `popitem` raises that the dictionary is empty only if it was at an instant of the call. -/
theorem emptyDuring_of_popitemErr
    (h : RunWith (next hash) (fun s a => ¬ LatePut hash s a) (State.init (.empty n hn)) as s)
    (hd : s.popitems d = .done (.error popitemErr)) :
    EmptyDuring hash (State.init (.empty n hn)) as d := by
  have hinv : EmptyDuring hash (State.init (.empty n hn)) as d ∨ Nonempty s d := by
    clear hd
    induction h with
    | nil => exact .inr (nonempty_of_not_waiting (fun h => by cases h) fun i h => by cases h)
    | @snoc as s a t hr hlate hnext ih =>
        rcases ih with hempty | hnonempty
        · exact .inl (hempty.snoc a)
        by_cases hzero : (s.popitems d).running = true ∧ s.map.map.entries = 0
        · have hstarted := started hr.run (running_ne_idle hzero.1)
          exact .inl ((Since.now hstarted hr hzero).snoc a)
        · exact .inr (hnonempty.next hr.run (map_run (run_map hr.run)).1
            (fun hrun hentries => hzero ⟨hrun, hentries⟩) hlate hnext)
  rcases hinv with hempty | hnonempty
  · exact hempty
  · exact absurd hd hnonempty.raises

/-- The step is a locked section of a call on a key. -/
def Act.isLock : Act D K V → Bool
  | .map (.lock _) => true
  | _ => false

/-- Only a locked section puts an entry anywhere. -/
theorem isLock_of_latePut (h : LatePut hash s a) : a.isLock = true := by
  obtain ⟨-, x, t, -, hnil, hn, hne⟩ := h
  have hsame : t.map.map = s.map.map → a.isLock = true := by
    intro hmap
    rw [hmap] at hne
    exact absurd hnil hne
  cases a with
  | start e =>
      obtain ⟨-, rfl⟩ := next_start hn
      exact hsame rfl
  | answer e =>
      obtain ⟨_, _, _, _, -, -, ⟨_, _, _, -, -, -, rfl⟩ | ⟨_, -, rfl⟩⟩ := next_answer hn
      · exact hsame rfl
      · exact hsame rfl
  | map b =>
      obtain ⟨hmap, -⟩ := next_map hn
      cases b with
      | lock c => rfl
      | invoke c op =>
          obtain ⟨-, ⟨_, -, ht⟩ | ⟨_, -, ht⟩⟩ := next_invoke hmap
          · exact hsame (by rw [ht, Map.State.map_setCall])
          · exact hsame (by rw [ht, Map.State.map_setCall])
      | unhashable c op =>
          obtain ⟨-, ht⟩ := next_unhashable hmap
          exact hsame (by rw [ht, Map.State.map_setCall])
      | eq c answer =>
          obtain ⟨op, _, _, _, -, ⟨-, ht⟩ | ⟨_, -, ht⟩⟩ := next_eq hmap
          · exact hsame (by rw [ht, Map.State.map_setCall])
          · exact hsame (by rw [ht, Map.State.map_resume])
      | visit c order =>
          obtain ⟨op, k, acc, hk, -, ht, -, -⟩ := next_visit hmap
          rw [ht] at hne
          split at hne
          · rw [ConcurrentMap.bucket_clearShard, hnil] at hne
            exact absurd (ite_self _) hne
          · exact absurd hnil hne

/-- Key `0` is put into the first shard of an empty dictionary when the `popitem` has left it. -/
def emptyTrace : List (Act ℕ ℕ ℕ) :=
  [.start 1, .map (.invoke (.inner 1 0) (.whole .items)), .map (.visit (.inner 1 0) []),
   .map (.invoke (.direct 2) (.keyed (.set 0 6))), .map (.lock (.direct 2)),
   .map (.visit (.inner 1 0) []), .answer 1]

theorem emptyTrace_exec :
    (exec (next fun k : ℕ => UInt64.ofNat k)
      (fun s a => a.isLock = false ∨ s.map.map.entries = 0) (State.init (.empty 2 (by decide)))
      emptyTrace).map (fun s : State ℕ ℕ ℕ => (s.popitems 1).raised) = some true := by
  decide +kernel

omit [DecidableEq V] in
theorem done_of_raised {p : Popitem K V} (h : p.raised = true) : p = .done (.error popitemErr) := by
  cases p with
  | done out =>
      cases out with
      | error e => rw [of_decide_eq_true h]
      | ok r => cases h
  | _ => cases h

theorem emptyDuring_emptyTrace :
    ∃ s : State ℕ ℕ ℕ, Run (next UInt64.ofNat) (State.init (.empty 2 (by decide))) emptyTrace s ∧
      EmptyDuring UInt64.ofNat (State.init (.empty 2 (by decide))) emptyTrace 1 := by
  obtain ⟨s, hrun, hs⟩ := exists_runWith_of_exec emptyTrace_exec
  have hgood : RunWith (next UInt64.ofNat) (fun s a => ¬ LatePut UInt64.ofNat s a)
      (State.init (.empty 2 (by decide))) emptyTrace s := by
    refine hrun.mono fun s a hok hlate => ?_
    rcases hok with hnot | hzero
    · rw [isLock_of_latePut hlate] at hnot
      cases hnot
    · exact hlate.1 hzero
  exact ⟨s, hrun.run, emptyDuring_of_popitemErr hgood (done_of_raised hs)⟩

/-- Key `1` is in the second shard when the `popitem` leaves the first one; then `0` is put in there, and
`1` is deleted before the second shard is read. -/
def missedTrace : List (Act ℕ ℕ ℕ) :=
  [.map (.invoke (.direct 0) (.keyed (.set 1 5))), .map (.lock (.direct 0)), .start 1,
   .map (.invoke (.inner 1 0) (.whole .items)), .map (.visit (.inner 1 0) []),
   .map (.invoke (.direct 2) (.keyed (.set 0 6))), .map (.lock (.direct 2)),
   .map (.invoke (.direct 3) (.keyed (.delete 1))), .map (.lock (.direct 3)),
   .map (.visit (.inner 1 0) []), .answer 1]

/-- While the `popitem` of `1` runs, one of the keys `0` and `1` is there. -/
def Filled (s : State ℕ ℕ ℕ) : Prop :=
  (s.popitems 1).running = true → s.map.map.bucket 0 ≠ [] ∨ s.map.map.bucket 1 ≠ []

instance (s : State ℕ ℕ ℕ) : Decidable (Filled s) := inferInstanceAs (Decidable (_ → _ ∨ _))

theorem missedTrace_exec :
    (exec (next fun k : ℕ => UInt64.ofNat k) (fun s _ => Filled s)
      (State.init (.empty 2 (by decide))) missedTrace).map
        (fun s : State ℕ ℕ ℕ => (s.popitems 1).raised) = some true := by
  decide +kernel

/-- A `popitem` may raise that the dictionary is empty although it never was. -/
theorem not_always_emptyDuring :
    ¬ ∀ (D K V : Type) [DecidableEq D] [DecidableEq K] [DecidableEq V] (hash : K → UInt64) (n : ℕ)
      (hn : 0 < n) (as : List (Act D K V)) (s : State D K V),
      Run (next hash) (State.init (.empty n hn)) as s →
      ∀ d, s.popitems d = .done (.error popitemErr) →
        EmptyDuring hash (State.init (.empty n hn)) as d := by
  intro h
  obtain ⟨s, hrun, hs⟩ := exists_runWith_of_exec missedTrace_exec
  have hdone := done_of_raised hs
  obtain ⟨u, hu, hrunning, hzero⟩ :=
    (h ℕ ℕ ℕ _ 2 (by decide) missedTrace s hrun.run 1 hdone).visits
  have hlast : Filled s := by
    rw [Filled, hdone]
    intro h
    cases h
  have hfilled := hrun.visits_of hlast hu
  obtain ⟨pre, -, hpre⟩ := hu
  have hm := (map_run (run_map hpre)).1
  have hnil := bucket_eq_nil_of_entries hm hzero
  rcases hfilled hrunning with h0 | h1
  · exact h0 (hnil 0)
  · exact h1 (hnil 1)

end Pysync.Shared
