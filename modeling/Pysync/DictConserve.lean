import Pysync.DictShared

/-!
Nothing that was put into the dictionary is handed out twice or lost: whatever `__eq__` answers and in
whatever order the calls are scheduled, every removal that is reported took one entry of its own, and
what is in the map is what was put in and not taken out.
-/

namespace Pysync.Shared
open Map Dict Transition

variable {D K V : Type} [DecidableEq D] [DecidableEq K] {hash : K → UInt64}
variable {s t : State D K V} {a : Act D K V} {as : List (Act D K V)} {m : ConcurrentMap K V}
variable {d : D} {calls calls' : ℕ → CallState K V} {i : ℕ} {pc : Dict.Pc K V}

theorem next_start [DecidableEq V] (h : next hash s (.start d) = some t) :
    s.popitems d = .idle ∧ t = s.setPopitem d (.asking .popitemItems 0) := by
  simp only [next] at h
  split at h
  · exact ⟨‹_›, (Option.some.inj h).symm⟩
  · cases h

theorem next_answer [DecidableEq V] (h : next hash s (.answer d) = some t) :
    ∃ pc i o r, s.popitems d = .waiting pc i ∧ s.map.calls (.inner d i) = .done o r ∧
      ((∃ x ctl p, r = .ok x ∧ pc.answer x = some ctl ∧ Popitem.goOn (i + 1) ctl = some p ∧
          t = s.setPopitem d p) ∨
        ∃ e, r = .error e ∧ t = s.setPopitem d (.done (.error (.py e)))) := by
  simp only [next] at h
  split at h
  · split at h
    · obtain ⟨p, hp, rfl⟩ := Option.map_eq_some_iff.mp h
      obtain ⟨ctl, hctl, hgo⟩ := Option.bind_eq_some_iff.mp hp
      exact ⟨_, _, _, _, ‹_›, ‹_›, .inl ⟨_, ctl, p, rfl, hctl, hgo, rfl⟩⟩
    · exact ⟨_, _, _, _, ‹_›, ‹_›, .inr ⟨_, rfl, (Option.some.inj h).symm⟩⟩
    · cases h
  · cases h

theorem next_map [DecidableEq V] {a : Map.Act (Caller D) K V} (h : next hash s (.map a) = some t) :
    Map.next hash s.map a = some t.map ∧ s.follow a = some t.popitems := by
  simp only [next] at h
  obtain ⟨u, hu, ht⟩ := Option.bind_eq_some_iff.mp h
  obtain ⟨popitems, hp, rfl⟩ := Option.map_eq_some_iff.mp ht
  exact ⟨hu, hp⟩

theorem ask_eq [DecidableEq V] {p q : Popitem K V} {op : Op K V} (h : p.ask i op = some q) :
    ∃ pc, p = .asking pc i ∧ op = pc.ask.2 ∧ q = .waiting pc i := by
  unfold Popitem.ask at h
  split at h
  · split at h
    · rename_i pc j hgo
      obtain ⟨rfl, rfl⟩ := hgo
      cases h
      exact ⟨pc, rfl, rfl, rfl⟩
    · cases h
  · cases h

/-- A step of the map begins the next call of a `popitem`, or none that is a `popitem`'s. -/
theorem follow_cases [DecidableEq V] {a : Map.Act (Caller D) K V} {ps : D → Popitem K V}
    (h : s.follow a = some ps) :
    (∃ d i pc, s.popitems d = .asking pc i ∧ a.Begins (.inner d i) pc.ask.2 ∧
      ps = Function.update s.popitems d (.waiting pc i)) ∨
    (ps = s.popitems ∧ ∀ d i op, ¬ a.Begins (.inner d i) op) := by
  cases a with
  | invoke c op =>
      cases c with
      | inner d i =>
          obtain ⟨p, hp, rfl⟩ := Option.map_eq_some_iff.mp h
          obtain ⟨pc, hd, rfl, rfl⟩ := ask_eq hp
          exact .inl ⟨d, i, pc, hd, .inl rfl, rfl⟩
      | direct d => exact .inr ⟨(Option.some.inj h).symm, by simp [Map.Act.Begins]⟩
  | unhashable c op =>
      cases c with
      | inner d i =>
          obtain ⟨p, hp, rfl⟩ := Option.map_eq_some_iff.mp h
          obtain ⟨pc, hd, hop, rfl⟩ := ask_eq hp
          exact .inl ⟨d, i, pc, hd, .inr ⟨op, hop.symm, rfl⟩, rfl⟩
      | direct d => exact .inr ⟨(Option.some.inj h).symm, by simp [Map.Act.Begins]⟩
  | lock c => exact .inr ⟨(Option.some.inj h).symm, by simp [Map.Act.Begins]⟩
  | eq c answer => exact .inr ⟨(Option.some.inj h).symm, by simp [Map.Act.Begins]⟩
  | visit c order => exact .inr ⟨(Option.some.inj h).symm, by simp [Map.Act.Begins]⟩

/-- The steps of the map in a run make a run of the map. -/
theorem run_map [DecidableEq V] (h : Run (next hash) (State.init m) as s) :
    Run (Map.next hash) (Map.State.init m) (mapActs as) s.map := by
  induction h with
  | nil => exact .nil
  | @snoc as s a t _ _ hn ih =>
      have happend : mapActs (as ++ [a]) = mapActs as ++ a.mapStep.toList := by
        cases a <;> simp [mapActs, Act.mapStep]
      rw [happend]
      cases a with
      | start d =>
          obtain ⟨-, rfl⟩ := next_start hn
          exact (List.append_nil _).symm ▸ ih
      | answer d =>
          obtain ⟨_, _, _, _, -, -, ⟨_, _, _, -, -, -, rfl⟩ | ⟨_, -, rfl⟩⟩ := next_answer hn
          · exact (List.append_nil _).symm ▸ ih
          · exact (List.append_nil _).symm ▸ ih
      | map a => exact ih.snoc trivial (next_map hn).1

/-- The call has returned that it removed an entry. -/
def TookOne (x : CallState K V) : Prop :=
  ∃ op r, x = .done (.keyed op) (.ok r) ∧ op.Took r

/-- A call of a `popitem` that did not get it an entry. -/
def Spent (x : CallState K V) : Prop := (∃ o r, x = .done o r) ∧ ¬ TookOne x

def IsPopitem : Dict.Pc K V → Prop
  | .popitemItems | .popitemPop _ _ => True
  | _ => False

/-- What a `popitem` knows of its calls. -/
inductive Knows (calls : ℕ → CallState K V) : Popitem K V → Prop
  | idle : (∀ j, calls j = .idle) → Knows calls .idle
  | asking {pc : Dict.Pc K V} {i : ℕ} : IsPopitem pc → (∀ j, j < i → Spent (calls j)) →
      (∀ j, i ≤ j → calls j = .idle) → Knows calls (.asking pc i)
  | waiting {pc : Dict.Pc K V} {i : ℕ} : IsPopitem pc → (∀ j, j < i → Spent (calls j)) →
      (calls i).operation = some pc.ask.2 → (∀ j, i < j → calls j = .idle) →
      Knows calls (.waiting pc i)
  | done {out : Except (Exc K) (Result K V)} :
      (∀ key v, out = .ok (.pair (key, v)) →
        ∃ j, calls j = .done (.keyed (.popVal key)) (.ok (.found (some v))) ∧
          ∀ j', j' ≠ j → Spent (calls j') ∨ calls j' = .idle) → Knows calls (.done out)

variable {u u' : Map.State (Caller D) K V} {b : Map.Act (Caller D) K V} {p : Popitem K V}

theorem Spent.next {c : Caller D} (h : Spent (u.calls c)) (hn : Map.next hash u b = some u') :
    Spent (u'.calls c) := by
  obtain ⟨⟨o, r, hdone⟩, htook⟩ := id h
  have hsame := (call_next hn (by rw [hdone]; rfl)).2 r hdone
  rwa [hsame, ← hdone]

/-- A step that begins no call of the `popitem`. -/
theorem Knows.next (h : Knows (fun j => u.calls (.inner d j)) p) (hn : Map.next hash u b = some u')
    (hb : ∀ i op, ¬ b.Begins (.inner d i) op) : Knows (fun j => u'.calls (.inner d j)) p := by
  have hidle : ∀ j, u.calls (.inner d j) = .idle → u'.calls (.inner d j) = .idle := fun j hj =>
    idle_next hn hj (hb j)
  cases h with
  | idle hall => exact .idle fun j => hidle j (hall j)
  | asking hpc hspent hrest =>
      exact .asking hpc (fun j hj => (hspent j hj).next hn) fun j hj => hidle j (hrest j hj)
  | waiting hpc hspent hop hrest =>
      exact .waiting hpc (fun j hj => (hspent j hj).next hn) (call_next hn hop).1
        fun j hj => hidle j (hrest j hj)
  | done hpair =>
      refine .done fun key v hout => ?_
      obtain ⟨j, hj, hothers⟩ := hpair key v hout
      refine ⟨j, (call_next hn (by rw [hj]; rfl)).2 _ hj, fun j' hne => ?_⟩
      exact (hothers j' hne).imp (fun hspent => hspent.next hn) (hidle j')

/-- The call of a `popitem` begins. -/
theorem Knows.begin (h : Knows (fun j => u.calls (.inner d j)) (.asking pc i))
    (hn : Map.next hash u b = some u') (hb : b.Begins (.inner d i) pc.ask.2) :
    Knows (fun j => u'.calls (.inner d j)) (.waiting pc i) := by
  have hother : ∀ j op, j ≠ i → ¬ b.Begins (.inner d j) op := by
    intro j op hne hj
    have hcall := hj.call_eq.symm.trans hb.call_eq
    exact hne (Caller.inner.inj hcall).2
  cases h with
  | asking hpc hspent hrest =>
      refine .waiting hpc (fun j hj => (hspent j hj).next hn) (begins_next hn hb) fun j hj => ?_
      exact idle_next hn (hrest j hj.le) (fun op => hother j op hj.ne')

omit [DecidableEq K] in
theorem popEach_goto (es : List (K × V)) : ∃ pc, popEach es = .goto pc ∧ IsPopitem pc := by
  cases es with
  | nil => exact ⟨_, rfl, trivial⟩
  | cons e es => exact ⟨_, rfl, trivial⟩

omit [DecidableEq K] in
/-- A `popitem` gets the result of its call. -/
theorem Knows.answer {o : Op K V} {x : Ret K V} {ctl : Dict.Ctl K V}
    (h : Knows calls (.waiting pc i)) (hdone : calls i = .done o (.ok x))
    (hanswer : pc.answer x = some ctl) (hgo : Popitem.goOn (i + 1) ctl = some p) :
    Knows calls p := by
  cases h with
  | waiting hpc hspent hop hrest =>
      have hagain : ∀ es, ¬ TookOne (calls i) → Popitem.goOn (i + 1) (popEach es) = some p →
          Knows calls p := by
        intro es htook hp
        obtain ⟨pc', hpop, hpc'⟩ := popEach_goto es
        rw [hpop] at hp
        cases hp
        refine .asking hpc' (fun j hj => ?_) fun j hj => hrest j (by omega)
        rcases Nat.lt_succ_iff_lt_or_eq.mp hj with hj | rfl
        · exact hspent j hj
        · exact ⟨⟨o, _, hdone⟩, htook⟩
      rw [hdone] at hop
      obtain rfl : o = pc.ask.2 := Option.some.inj hop
      cases pc with
      | popitemItems =>
          cases x with
          | items es =>
              cases es with
              | nil =>
                  cases hanswer
                  cases hgo
                  exact .done (by simp)
              | cons e es =>
                  cases hanswer
                  refine hagain (e :: es) ?_ hgo
                  rintro ⟨op, r, htook, -⟩
                  cases hdone.symm.trans htook
          | _ => cases hanswer
      | popitemPop key rest =>
          cases x with
          | found v =>
              cases v with
              | none =>
                  cases hanswer
                  refine hagain rest ?_ hgo
                  rintro ⟨op, r, hr, htook⟩
                  cases hdone.symm.trans hr
                  exact htook
              | some v =>
                  cases hanswer
                  cases hgo
                  refine .done fun key' v' hout => ?_
                  cases hout
                  refine ⟨i, hdone, fun j hne => ?_⟩
                  rcases lt_or_gt_of_ne hne with hj | hj
                  · exact .inl (hspent j hj)
                  · exact .inr (hrest j hj)
          | _ => cases hanswer
      | _ => exact hpc.elim

/-- Every `popitem` knows what its calls did. -/
theorem knows [DecidableEq V] (h : Run (next hash) (State.init m) as s) (d : D) :
    Knows (fun j => s.map.calls (.inner d j)) (s.popitems d) := by
  induction h with
  | nil => exact .idle fun _ => rfl
  | @snoc as s a t _ _ hn ih =>
      cases a with
      | start e =>
          obtain ⟨hidle, rfl⟩ := next_start hn
          by_cases hd : d = e
          · subst hd
            rw [hidle] at ih
            rw [State.popitems_setPopitem_self]
            cases ih with
            | idle hall => exact .asking trivial (by simp) fun j _ => hall j
          · rw [State.popitems_setPopitem_ne _ _ hd]
            exact ih
      | map a =>
          obtain ⟨hmap, hfollow⟩ := next_map hn
          rcases follow_cases hfollow with ⟨e, i, pc, hasking, hbegins, hpopitems⟩ | ⟨hsame, hnone⟩
          · rw [hpopitems]
            by_cases hd : d = e
            · subst hd
              rw [hasking] at ih
              rw [Function.update_self]
              exact ih.begin hmap hbegins
            · rw [Function.update_of_ne hd]
              refine ih.next hmap fun j op hj => hd ?_
              exact (Caller.inner.inj (hj.call_eq.symm.trans hbegins.call_eq)).1
          · rw [hsame]
            exact ih.next hmap (hnone d)
      | answer e =>
          obtain ⟨pc, i, o, r, hwaiting, hdone, hout⟩ := next_answer hn
          by_cases hd : d = e
          · subst hd
            rw [hwaiting] at ih
            rcases hout with ⟨x, ctl, p, rfl, hanswer, hgo, rfl⟩ | ⟨err, rfl, rfl⟩
            · rw [State.popitems_setPopitem_self]
              exact ih.answer hdone hanswer hgo
            · rw [State.popitems_setPopitem_self]
              exact .done (by simp)
          · rcases hout with ⟨x, ctl, p, -, -, -, rfl⟩ | ⟨err, -, rfl⟩
            · rw [State.popitems_setPopitem_ne _ _ hd]
              exact ih
            · rw [State.popitems_setPopitem_ne _ _ hd]
              exact ih

section Conservation

/-- The records that the `popitem` of `d` removed. -/
def poppedBy (L : Ledger (Caller D) K V) (d : D) : Ledger (Caller D) K V :=
  L.filter fun r => match r.fate with
    | .removed (.inner e _) => decide (d = e)
    | _ => false

/-- The ledger `L` of the steps `as` of the map, and what the calls of the state `s` have returned. -/
structure Conserved (hash : K → UInt64) (s₀ : Map.State (Caller D) K V)
    (as : List (Map.Act (Caller D) K V)) (s : State D K V) (L : Ledger (Caller D) K V) : Prop where
  booked : Booked hash s₀ as s.map L
  /-- An entry removed or cleared stays so, by the same call. -/
  grows : ∀ pre, pre <+: as → ∃ u L₁, Booked hash s₀ pre u L₁ ∧ L₁.Grows L
  /-- The entries present are those inserted and not yet removed or cleared. -/
  entries : s.map.map.entries =
    ((L.filter fun r => r.fate = .present).map Record.entry : List (K × V))
  delete : ∀ c key, s.map.calls c = .done (.keyed (.delete key)) (.ok (.bool true)) →
    ∃ k v, L.removedBy c = [⟨k, v, .removed c⟩] ∧ (k = key ∨ ComparedEqual hash s₀ as c k)
  popVal : ∀ c key v, s.map.calls c = .done (.keyed (.popVal key)) (.ok (.found (some v))) →
    ∃ k, L.removedBy c = [⟨k, v, .removed c⟩] ∧ (k = key ∨ ComparedEqual hash s₀ as c k)
  popitem : ∀ d key v, s.popitems d = .done (.ok (.pair (key, v))) →
    ∃ k i, poppedBy L d = [⟨k, v, .removed (.inner d i)⟩] ∧
      (k = key ∨ ComparedEqual hash s₀ as (.inner d i) k)
  /-- Nothing else removes an entry. -/
  only : ∀ r ∈ L, ∀ c, r.fate = .removed c → TookOne (s.map.calls c)

variable {E : Caller D → K → Prop} {L : Ledger (Caller D) K V}

theorem Balanced.only {c : Caller D} (h : Map.Balanced hash E s.map L) (hc : L.removedBy c ≠ []) :
    TookOne (s.map.calls c) := by
  generalize hx : s.map.calls c = x
  have haccount := hx ▸ h.accounts c
  cases haccount with
  | took htook => exact ⟨_, _, rfl, htook⟩
  | nothing hnone => exact absurd hnone hc

omit [DecidableEq K] in
theorem mem_removedBy {r : Record (Caller D) K V} {c : Caller D} (hr : r ∈ L)
    (hfate : r.fate = .removed c) : L.removedBy c ≠ [] := by
  have hmem : r ∈ L.removedBy c := List.mem_filter.mpr ⟨hr, by simpa using hfate⟩
  exact List.ne_nil_of_mem hmem

omit [DecidableEq K] in
/-- When only its call number `i` removed anything, a `popitem` removed what that call did. -/
theorem poppedBy_eq (h : ∀ r ∈ L, ∀ j, r.fate = .removed (.inner d j) → j = i) :
    poppedBy L d = L.removedBy (.inner d i) := by
  refine List.filter_congr fun r hr => ?_
  have hi := h r hr
  obtain ⟨k, v, fate⟩ := r
  cases fate with
  | present => rfl
  | cleared c => rfl
  | removed c =>
      cases c with
      | direct e => rfl
      | inner e j =>
          rw [decide_eq_decide]
          constructor
          · rintro rfl
            rw [hi j rfl]
          · intro hfate
            cases hfate
            rfl

/-- From the empty dictionary with any number of shards, whatever `__eq__` answers and in whatever order
the calls are scheduled, every entry that was put in is there, or was taken out once, by the call that
reports it, or cleared. -/
theorem conservation [DecidableEq V] (hash : K → UInt64) (n : ℕ) (hn : 0 < n) (as : List (Act D K V))
    (s : State D K V) (h : Run (next hash) (State.init (.empty n hn)) as s) :
    ∃ L, Conserved hash (.init (.empty n hn)) (mapActs as) s L := by
  obtain ⟨L, hbooked, hbalanced⟩ := exists_booked (run_map h)
  have hpop : ∀ c key v, s.map.calls c = .done (.keyed (.popVal key)) (.ok (.found (some v))) →
      ∃ k, L.removedBy c = [⟨k, v, .removed c⟩] ∧
        (k = key ∨ ComparedEqual hash (.init (.empty n hn)) (mapActs as) c k) := by
    intro c key v hc
    have haccount := hbalanced.accounts c
    rw [hc] at haccount
    cases haccount with
    | @took _ _ k w _ hvalue hkey hone =>
        obtain rfl : v = w := hvalue v rfl
        exact ⟨k, hone, hkey⟩
    | nothing _ htook => exact absurd trivial (htook _ _ rfl)
  have honly : ∀ r ∈ L, ∀ c, r.fate = .removed c → TookOne (s.map.calls c) := fun r hr c hfate =>
    Balanced.only hbalanced (mem_removedBy hr hfate)
  refine ⟨L, hbooked, fun pre hpre => hbooked.grows hpre, hbalanced.entries, ?_, hpop, ?_, honly⟩
  · intro c key hc
    have haccount := hbalanced.accounts c
    rw [hc] at haccount
    cases haccount with
    | @took _ _ k w _ _ hkey hone => exact ⟨k, w, hone, hkey⟩
    | nothing _ htook => exact absurd trivial (htook _ _ rfl)
  · intro d key v hd
    have hknows := knows h d
    rw [hd] at hknows
    cases hknows with
    | done hpair =>
        obtain ⟨i, hi, hothers⟩ := hpair key v rfl
        obtain ⟨k, hone, hkey⟩ := hpop _ _ _ hi
        refine ⟨k, i, ?_, hkey⟩
        rw [← hone]
        refine poppedBy_eq fun r hr j hfate => ?_
        by_contra hne
        have htook := honly r hr _ hfate
        rcases hothers j hne with hspent | hidle
        · exact hspent.2 htook
        · obtain ⟨op, x, hdone, -⟩ := htook
          cases hidle.symm.trans hdone

/-- Two `popitem`s race for one entry: both read it, one gets it, the other finds nothing. -/
def raceTrace : List (Act ℕ ℕ ℕ) :=
  [.map (.invoke (.direct 0) (.keyed (.set 1 5))), .map (.lock (.direct 0)), .start 1, .start 2,
   .map (.invoke (.inner 1 0) (.whole .items)), .map (.visit (.inner 1 0) [0]), .answer 1,
   .map (.invoke (.inner 2 0) (.whole .items)), .map (.visit (.inner 2 0) [0]), .answer 2,
   .map (.invoke (.inner 1 1) (.keyed (.popVal 1))), .map (.invoke (.inner 2 1) (.keyed (.popVal 1))),
   .map (.lock (.inner 1 1)), .map (.lock (.inner 2 1)), .answer 2, .answer 1]

theorem raceTrace_exec :
    (exec (next fun _ : ℕ => 0) (fun _ _ => True) (State.init (.empty 1 (by decide)))
      raceTrace).map (fun s : State ℕ ℕ ℕ =>
        (match s.popitems 1 with
          | .done (.ok (.pair e)) => decide (e = (1, 5))
          | _ => false) &&
        match s.popitems 2 with
          | .asking .popitemItems 2 => true
          | _ => false) = some true := by
  decide +kernel

theorem conservation_raceTrace :
    ∃ s : State ℕ ℕ ℕ, Run (next fun _ : ℕ => 0) (State.init (.empty 1 (by decide))) raceTrace s ∧
      ∃ L, Conserved (fun _ => 0) (.init (.empty 1 (by decide))) (mapActs raceTrace) s L := by
  obtain ⟨s, hs, -⟩ := exists_runWith_of_exec raceTrace_exec
  exact ⟨s, hs, conservation _ 1 (by decide) raceTrace s hs⟩

end Conservation

end Pysync.Shared
