import Pysync.DictEmpty
import Pysync.MapRetry
import Pysync.TransitionProgress

/-!
Why `popitem` ends. It takes a new snapshot only when it has lost every key of the last one, and a key
that it has read and not tried yet it loses to a removal by another call alone: so it starts again at
most once for each such removal, and without one it ends after one scan and one pop.
-/

namespace Pysync.Shared
open Map Dict Transition

variable {D K V : Type} {hash : K → UInt64}
variable {s t : State D K V} {a : Act D K V} {as bs : List (Act D K V)} {d e : D} {i k : ℕ}
variable {u u' : Map.State (Caller D) K V} {b : Map.Act (Caller D) K V} {n : ℕ} {hn : 0 < n}
variable {key : K} {rest : List (K × V)} {c : Caller D} {m : ℕ} {calls : ℕ → CallState K V}

section Held

/-- The keys that a scan has read. -/
def scanned : CallState K V → List K
  | .whole _ _ acc => acc.map Prod.fst
  | .done _ (.ok (.items es)) => es.map Prod.fst
  | _ => []

/-- The keys that are left while `key` is popped and `rest` waits. -/
def untried (key : K) (rest : List (K × V)) : CallState K V → List K
  | .keyed _ .fast => key :: rest.map Prod.fst
  | .done _ (.ok (.found (some _))) => []
  | _ => rest.map Prod.fst

/-- The keys that the `popitem` of `d` has read and not tried yet. -/
def State.held (s : State D K V) (d : D) : List K :=
  match s.popitems d with
  | .asking (.popitemPop key rest) _ => key :: rest.map Prod.fst
  | .waiting .popitemItems i => scanned (s.map.calls (.inner d i))
  | .waiting (.popitemPop key rest) i => untried key rest (s.map.calls (.inner d i))
  | _ => []

theorem held_asking (hp : s.popitems d = .asking (.popitemPop key rest) i) :
    s.held d = key :: rest.map Prod.fst := by
  rw [State.held, hp]

theorem held_items (hp : s.popitems d = .waiting .popitemItems i) :
    s.held d = scanned (s.map.calls (.inner d i)) := by
  rw [State.held, hp]

theorem held_pop (hp : s.popitems d = .waiting (.popitemPop key rest) i) :
    s.held d = untried key rest (s.map.calls (.inner d i)) := by
  rw [State.held, hp]

/-- A call of the `popitem` of `d`. -/
def Caller.isInner [DecidableEq D] (d : D) : Caller D → Bool
  | .direct _ => false
  | .inner e _ => decide (e = d)

/-- Another call takes a key away that the `popitem` of `d` holds. -/
def robs [DecidableEq D] [DecidableEq K] (hash : K → UInt64) (d : D) (s : State D K V) : Act D K V → Bool
  | .map b => !b.call.isInner d && (Map.next hash s.map b).any fun u => (s.held d).any fun k =>
      decide (k ∈ s.map.map.keysAt (hash k) ∧ k ∉ u.map.keysAt (hash k))
  | _ => false

/-- The `popitem` of `d` has lost the last key of its snapshot and takes a new one. -/
def restarts [DecidableEq D] (d : D) (s : State D K V) : Act D K V → Bool
  | .answer e => decide (e = d) && match s.popitems d with
      | .waiting (.popitemPop _ []) i => match s.map.calls (.inner d i) with
          | .done _ (.ok (.found none)) => true
          | _ => false
      | _ => false
  | _ => false

end Held

variable [DecidableEq D]

/-- How a `popitem` with the calls `calls` ends: with an item, with `KeyError`, or with what the hash or a
comparison of a key that it pops raises. -/
inductive Ending (calls : ℕ → CallState K V) : Except (Exc K) (Result K V) → Prop
  | item (e : K × V) : Ending calls (.ok (.pair e))
  | empty : Ending calls (.error popitemErr)
  | raised {i : ℕ} {key : K} {err : PyErr}
      (hc : calls i = .done (.keyed (.popVal key)) (.error err)) : Ending calls (.error (.py err))

/-- Where a `popitem` stands that has lost nothing of its snapshot, on a map of `n` shards, and how many
steps it is from its end at most. -/
inductive Stage (n : ℕ) (calls : ℕ → CallState K V) : Popitem K V → ℕ → Prop
  | idle : Stage n calls .idle (n + 6)
  | asking {i : ℕ} : Stage n calls (.asking .popitemItems i) (n + 5)
  | scanning {i k : ℕ} {acc : List (K × V)} (hk : k < n) (hc : calls i = .whole .items k acc) :
      Stage n calls (.waiting .popitemItems i) (n - k + 4)
  | read {i : ℕ} {es : List (K × V)} (hc : calls i = .done (.whole .items) (.ok (.items es))) :
      Stage n calls (.waiting .popitemItems i) 4
  | trying {key : K} {rest : List (K × V)} {i : ℕ} :
      Stage n calls (.asking (.popitemPop key rest) i) 3
  | popping {key : K} {rest : List (K × V)} {i : ℕ} (hc : calls i = .keyed (.popVal key) .fast) :
      Stage n calls (.waiting (.popitemPop key rest) i) 2
  | popped {key : K} {rest : List (K × V)} {i : ℕ} {r : PyResult (Ret K V)}
      (hc : calls i = .done (.keyed (.popVal key)) r)
      (hr : (∃ v, r = .ok (.found (some v))) ∨ ∃ e, r = .error e) :
      Stage n calls (.waiting (.popitemPop key rest) i) 1
  | done {out : Except (Exc K) (Result K V)}
      (hover : ∀ j, calls j = .idle ∨ ∃ o r, calls j = .done o r) (hend : Ending calls out) :
      Stage n calls (.done out) 0

/-- The `popitem` of `d` has lost nothing of its snapshot and is at most `m` steps from its end. -/
structure Intact (hash : K → UInt64) (s : State D K V) (d : D) (m : ℕ) : Prop where
  stage : Stage s.map.map.shardCount (fun i => s.map.calls (.inner d i)) (s.popitems d) m
  there : ∀ k ∈ s.held d, k ∈ s.map.map.keysAt (hash k)

/-- A step of the `popitem` of `d`. -/
def Act.ofPopitem (d : D) : Act D K V → Bool
  | .start e | .answer e => decide (e = d)
  | .map b => b.call.isInner d

theorem mem_keysAt {m : ConcurrentMap K V} (hm : Placed hash m) {e : K × V} (he : e ∈ m.entries) :
    e.1 ∈ m.keysAt (hash e.1) :=
  List.mem_map_of_mem (hm.mem_entries.mp he)

/-- Only an invocation moves a call that is not running. -/
theorem running_of_step [DecidableEq K] (hn : Map.next hash u b = some u') (hb : ∀ op, ¬ b.Begins b.call op) :
    (∃ op pc, u.calls b.call = .keyed op pc) ∨ ∃ op k acc, u.calls b.call = .whole op k acc := by
  cases b with
  | invoke c op => exact absurd (.inl rfl) (hb op)
  | unhashable c op => exact absurd (.inr ⟨op, rfl, rfl⟩) (hb (.keyed op))
  | lock c =>
      obtain ⟨op, pc, _, _, _, _, hc, -⟩ := next_lock hn
      exact .inl ⟨op, pc, hc⟩
  | eq c answer =>
      obtain ⟨op, _, _, _, hc, -⟩ := next_eq hn
      exact .inl ⟨op, _, hc⟩
  | visit c order =>
      obtain ⟨op, k, acc, _, hc, -⟩ := next_visit hn
      exact .inr ⟨op, k, acc, hc⟩

/-- A step of a call of the `popitem` that begins none is one of the call that it waits for, while the
`popitem` goes on. -/
theorem waiting_of_step [DecidableEq K] [DecidableEq V] {m : ConcurrentMap K V}
    (hr : Run (next hash) (State.init m) as s)
    (hn : Map.next hash s.map b = some u') (hb : ∀ op, ¬ b.Begins b.call op)
    (hcall : b.call = .inner d i) (hpc : ∀ out, s.popitems d ≠ .done out) :
    ∃ pc, s.popitems d = .waiting pc i ∧ IsPopitem pc ∧
      (s.map.calls (.inner d i)).operation = some pc.ask.2 := by
  have hrunning := running_of_step hn hb
  rw [hcall] at hrunning
  have hidle : s.map.calls (.inner d i) ≠ .idle := by
    rcases hrunning with ⟨_, _, hc⟩ | ⟨_, _, _, hc⟩ <;> rw [hc] <;> exact fun h => by cases h
  have hspent : ¬ Spent (s.map.calls (.inner d i)) := by
    rintro ⟨⟨o, r, hdone⟩, -⟩
    rcases hrunning with ⟨_, _, hc⟩ | ⟨_, _, _, hc⟩ <;> cases hc.symm.trans hdone
  have hknows := knows hr d
  cases hp : s.popitems d with
  | idle =>
      rw [hp] at hknows
      cases hknows with
      | idle hall => exact absurd (hall i) hidle
  | asking pc j =>
      rw [hp] at hknows
      cases hknows with
      | asking _ hbefore hafter =>
          rcases Nat.lt_or_ge i j with hlt | hge
          · exact absurd (hbefore i hlt) hspent
          · exact absurd (hafter i hge) hidle
  | waiting pc j =>
      rw [hp] at hknows
      cases hknows with
      | waiting hpop hbefore hop hafter =>
          rcases lt_trichotomy i j with hlt | rfl | hgt
          · exact absurd (hbefore i hlt) hspent
          · exact ⟨pc, rfl, hpop, hop⟩
          · exact absurd (hafter i hgt) hidle
  | done out => exact absurd hp (hpc out)

omit [DecidableEq D] in
theorem held_congr (hp : t.popitems d = s.popitems d)
    (hcalls : ∀ i, t.map.calls (.inner d i) = s.map.calls (.inner d i)) : t.held d = s.held d := by
  unfold State.held
  rw [hp]
  split <;> simp only [hcalls]

theorem isInner_iff : c.isInner d = true ↔ ∃ i, c = .inner d i := by
  cases c with
  | direct e => simp [Caller.isInner]
  | inner e i => simp [Caller.isInner, eq_comm]

omit [DecidableEq D] in
/-- A step that is not one of the `popitem` and takes nothing away. -/
theorem Intact.congr (h : Intact hash s d m) (hp : t.popitems d = s.popitems d)
    (hcalls : ∀ i, t.map.calls (.inner d i) = s.map.calls (.inner d i))
    (hcount : t.map.map.shardCount = s.map.map.shardCount)
    (hkeys : ∀ k ∈ s.held d, k ∈ s.map.map.keysAt (hash k) → k ∈ t.map.map.keysAt (hash k)) :
    Intact hash t d m where
  stage := by
    rw [hp, hcount, funext hcalls]
    exact h.stage
  there k hk := by
    rw [held_congr hp hcalls] at hk
    exact hkeys k hk (h.there k hk)

variable [DecidableEq K]

theorem Intact.other (h : Intact hash s d m) (hn : Map.next hash s.map b = some t.map)
    (hp : t.popitems d = s.popitems d) (hb : b.call.isInner d = false)
    (hquiet : robs hash d s (.map b) = false) : Intact hash t d m := by
  refine h.congr hp (fun i => next_frame hn ?_) (shardCount_next hn) fun k hk hkeys => ?_
  · intro hcall
    rw [← hcall] at hb
    simp [Caller.isInner] at hb
  · rw [robs, hb, hn] at hquiet
    by_contra hnot
    have hany : ((State.held s d).any fun k =>
        decide (k ∈ s.map.map.keysAt (hash k) ∧ k ∉ t.map.map.keysAt (hash k))) = true :=
      List.any_eq_true.mpr ⟨k, hk, decide_eq_true ⟨hkeys, hnot⟩⟩
    rw [Option.any_some, hany] at hquiet
    cases hquiet

theorem begins_map {c : Caller D} {op : Op K V} (hn : Map.next hash u b = some u')
    (hb : b.Begins c op) : u'.map = u.map := by
  obtain rfl | ⟨kop, -, rfl⟩ := hb
  · obtain ⟨-, ⟨_, -, rfl⟩ | ⟨_, -, rfl⟩⟩ := next_invoke hn <;> rfl
  · obtain ⟨-, rfl⟩ := next_unhashable hn
    rfl

/-- The scan of the `popitem` begins. -/
theorem Intact.begin_items (hasking : Stage s.map.map.shardCount calls (.asking .popitemItems i) m)
    (hn : Map.next hash s.map b = some t.map) (hb : b.Begins (.inner d i) (.whole .items))
    (hp : t.popitems d = .waiting .popitemItems i) :
    ∃ m', Intact hash t d m' ∧ m' < m := by
  have hmap := begins_map hn hb
  obtain rfl | ⟨kop, hkop, -⟩ := hb
  swap
  · cases hkop
  obtain ⟨-, ⟨kop, hkop, -⟩ | ⟨wop, hwop, ht⟩⟩ := next_invoke hn
  · cases hkop
  cases hwop
  have hc : t.map.calls (.inner d i) = .whole .items 0 [] := by
    rw [ht, Map.State.calls_setCall_self]
  cases hasking with
  | asking =>
      refine ⟨_, ⟨?_, fun k hk => ?_⟩, Nat.lt_succ_self _⟩
      · rw [hp, hmap]
        exact .scanning s.map.map.shardCount_pos hc
      · rw [held_items hp, hc] at hk
        cases hk

/-- The pop of the `popitem` begins. -/
theorem Intact.begin_pop (h : Intact hash s d m) (hasking : s.popitems d = .asking (.popitemPop key rest) i)
    (hn : Map.next hash s.map b = some t.map) (hb : b.Begins (.inner d i) (.keyed (.popVal key)))
    (hp : t.popitems d = .waiting (.popitemPop key rest) i) :
    ∃ m', Intact hash t d m' ∧ m' < m := by
  have hmap := begins_map hn hb
  have hthere : ∀ k ∈ key :: rest.map Prod.fst, k ∈ t.map.map.keysAt (hash k) := fun k hk => by
    rw [hmap]
    exact h.there k (held_asking hasking ▸ hk)
  have hstage := h.stage
  rw [hasking] at hstage
  cases hstage with
  | trying =>
      obtain rfl | ⟨kop, hkop, rfl⟩ := hb
      · obtain ⟨-, ⟨kop, hkop, ht⟩ | ⟨wop, hwop, -⟩⟩ := next_invoke hn
        · cases hkop
          have hc : t.map.calls (.inner d i) = .keyed (.popVal key) .fast := by
            rw [ht, Map.State.calls_setCall_self]
            rfl
          refine ⟨2, ⟨hp ▸ .popping hc, fun k hk => hthere k ?_⟩, by decide⟩
          rwa [held_pop hp, hc] at hk
        · cases hwop
      · cases hkop
        obtain ⟨-, ht⟩ := next_unhashable hn
        have hc : t.map.calls (.inner d i) = .done (.keyed (.popVal key)) (.error .user) := by
          rw [ht, Map.State.calls_setCall_self]
        refine ⟨1, ⟨hp ▸ .popped hc (.inr ⟨_, rfl⟩), fun k hk => hthere k ?_⟩, by decide⟩
        rw [held_pop hp, hc] at hk
        exact List.mem_cons_of_mem _ hk

/-- The scan of the `popitem` reads the next shard. -/
theorem Intact.visit {acc : List (K × V)} {order : List UInt64} (h : Intact hash s d m)
    (hm : Placed hash s.map.map) (hw : s.popitems d = .waiting .popitemItems i)
    (hc : s.map.calls (.inner d i) = .whole .items k acc)
    (hp : t.popitems d = .waiting .popitemItems i)
    (hn : Map.next hash s.map (.visit (.inner d i) order) = some t.map) :
    ∃ m', Intact hash t d m' ∧ m' < s.map.map.shardCount - k + 4 := by
  obtain ⟨op, k', acc₀, acc', hk, hc', hacc', hmap, hcalls⟩ := next_visit_eq hn
  cases hc.symm.trans hc'
  rw [if_neg (by decide)] at hmap
  have hthere : ∀ key ∈ acc'.map Prod.fst, key ∈ t.map.map.keysAt (hash key) := by
    intro key hkey
    obtain ⟨e, he, rfl⟩ := List.mem_map.mp hkey
    rw [hmap]
    have hmem : e ∈ (acc : Multiset (K × V)) + shardEntries (s.map.map.shards ⟨k, hk⟩) :=
      hacc' ▸ he
    rcases Multiset.mem_add.mp hmem with hmem | hmem
    · refine h.there e.1 ?_
      rw [held_items hw, hc]
      exact List.mem_map_of_mem hmem
    · exact mem_keysAt hm (mem_entries_of_shard hmem)
  by_cases hlast : k + 1 = s.map.map.shardCount
  · rw [if_pos hlast] at hcalls
    refine ⟨4, ⟨hp ▸ .read hcalls, fun key hkey => hthere key ?_⟩, by omega⟩
    rwa [held_items hp, hcalls] at hkey
  · rw [if_neg hlast] at hcalls
    refine ⟨s.map.map.shardCount - (k + 1) + 4, ⟨?_, fun key hkey => hthere key ?_⟩, by omega⟩
    · rw [hp, hmap]
      exact .scanning (by omega) hcalls
    · rwa [held_items hp, hcalls] at hkey

/-- The pop of the `popitem` finds the key object that it looks for. -/
theorem Intact.lock (h : Intact hash s d m) (hw : s.popitems d = .waiting (.popitemPop key rest) i)
    (hc : s.map.calls (.inner d i) = .keyed (.popVal key) .fast)
    (hn : Map.next hash s.map (.lock (.inner d i)) = some u) :
    ∃ v, u.calls (.inner d i) = .done (.keyed (.popVal key)) (.ok (.found (some v))) := by
  obtain ⟨op, pc, slot, ctl, l, l', hc', hl, hl', hstep, ht⟩ := next_lock hn
  cases hc.symm.trans hc'
  have hmem : key ∈ l.map Prod.fst := by
    rw [← hl]
    refine h.there key ?_
    rw [held_pop hw, hc]
    exact List.mem_cons_self
  obtain ⟨e, he, hkey⟩ := List.mem_map.mp hmem
  cases hstep with
  | slow _ _ hnone => exact absurd hkey (hnone e he)
  | remove =>
      rename_i _ v _ _ _ _
      refine ⟨v, ?_⟩
      rw [ht, Map.State.calls_resume_self]
      rfl
  | absentFast => cases he

/-- A call in progress of the `popitem` takes its next step. -/
theorem Intact.own [DecidableEq V] {m₀ : ConcurrentMap K V} (h : Intact hash s d m)
    (hr : Run (next hash) (State.init m₀) as s) (hm : Placed hash s.map.map)
    (hn : Map.next hash s.map b = some t.map) (hb : ∀ op, ¬ b.Begins b.call op)
    (hcall : b.call = .inner d i) (hp : t.popitems d = s.popitems d) :
    ∃ m', Intact hash t d m' ∧ m' < m := by
  have hrunning := running_of_step hn hb
  rw [hcall] at hrunning
  have hnot : ¬ (s.map.calls (.inner d i) = .idle ∨ ∃ o r, s.map.calls (.inner d i) = .done o r) := by
    rintro (hidle | ⟨o, r, hdone⟩)
    · rcases hrunning with ⟨_, _, hc⟩ | ⟨_, _, _, hc⟩ <;> cases hidle.symm.trans hc
    · rcases hrunning with ⟨_, _, hc⟩ | ⟨_, _, _, hc⟩ <;> cases hdone.symm.trans hc
  by_cases hdone : ∃ out, s.popitems d = .done out
  · obtain ⟨out, hout⟩ := hdone
    have hstage := h.stage
    rw [hout] at hstage
    cases hstage with
    | done hover hend => exact absurd (hover i) hnot
  obtain ⟨pc, hw, hpc, hop⟩ := waiting_of_step hr hn hb hcall fun out ho => hdone ⟨out, ho⟩
  have hstage := h.stage
  rw [hw] at hstage
  cases hstage with
  | read hc => exact absurd (.inr ⟨_, _, hc⟩) hnot
  | popped hc => exact absurd (.inr ⟨_, _, hc⟩) hnot
  | scanning hk hc =>
      cases b with
      | visit c order =>
          obtain rfl : c = .inner d i := hcall
          exact h.visit hm hw hc (hp.trans hw) hn
      | invoke c op => exact absurd (.inl rfl) (hb op)
      | unhashable c op => exact absurd (.inr ⟨op, rfl, rfl⟩) (hb (.keyed op))
      | lock c =>
          obtain rfl : c = .inner d i := hcall
          obtain ⟨_, _, _, _, _, _, hc', -⟩ := next_lock hn
          cases hc.symm.trans hc'
      | eq c answer =>
          obtain rfl : c = .inner d i := hcall
          obtain ⟨_, _, _, _, hc', -⟩ := next_eq hn
          cases hc.symm.trans hc'
  | popping hc =>
      cases b with
      | lock c =>
          obtain rfl : c = .inner d i := hcall
          obtain ⟨v, hv⟩ := h.lock hw hc hn
          have hw' := hp.trans hw
          refine ⟨1, ⟨hw' ▸ .popped hv (.inl ⟨v, rfl⟩), fun k hk => ?_⟩, by decide⟩
          rw [held_pop hw', hv] at hk
          cases hk
      | invoke c op => exact absurd (.inl rfl) (hb op)
      | unhashable c op => exact absurd (.inr ⟨op, rfl, rfl⟩) (hb (.keyed op))
      | visit c order =>
          obtain rfl : c = .inner d i := hcall
          obtain ⟨_, _, _, _, hc', -⟩ := next_visit hn
          cases hc.symm.trans hc'
      | eq c answer =>
          obtain rfl : c = .inner d i := hcall
          obtain ⟨_, _, _, _, hc', -⟩ := next_eq hn
          cases hc.symm.trans hc'

theorem Intact.map [DecidableEq V] {m₀ : ConcurrentMap K V} (h : Intact hash s d m)
    (hr : Run (next hash) (State.init m₀) as s) (hm : Placed hash s.map.map)
    (hquiet : robs hash d s (.map b) = false) (hnext : next hash s (.map b) = some t) :
    ∃ m', Intact hash t d m' ∧ m' + (b.call.isInner d).toNat ≤ m := by
  obtain ⟨hn, hfollow⟩ := next_map hnext
  have hother : t.popitems d = s.popitems d → b.call.isInner d = false →
      ∃ m', Intact hash t d m' ∧ m' + (b.call.isInner d).toNat ≤ m := fun hp hb =>
    ⟨m, h.other hn hp hb hquiet, by rw [hb]; exact le_rfl⟩
  rcases follow_cases hfollow with ⟨e, i, pc, hasking, hbegins, hpopitems⟩ | ⟨hsame, hnone⟩
  · by_cases hd : d = e
    · subst hd
      have hp : t.popitems d = .waiting pc i := by rw [hpopitems, Function.update_self]
      have hown : (b.call.isInner d).toNat = 1 := by
        rw [hbegins.call_eq, isInner_iff.mpr ⟨i, rfl⟩]
        rfl
      rw [hown]
      have hknows := knows hr d
      rw [hasking] at hknows
      cases hknows with
      | asking hpc =>
          cases pc with
          | popitemItems => exact Intact.begin_items (hasking ▸ h.stage) hn hbegins hp
          | popitemPop key rest => exact h.begin_pop hasking hn hbegins hp
          | _ => exact hpc.elim
    · refine hother (by rw [hpopitems, Function.update_of_ne hd]) ?_
      rw [hbegins.call_eq]
      exact decide_eq_false (Ne.symm hd)
  · have hp : t.popitems d = s.popitems d := by rw [hsame]
    cases hb : b.call.isInner d with
    | false => exact hb ▸ hother hp hb
    | true =>
        obtain ⟨i, hcall⟩ := isInner_iff.mp hb
        exact h.own hr hm hn (fun op => hcall ▸ hnone d i op) hcall hp

omit [DecidableEq K] in
theorem restarts_iff : restarts d s a = true ↔ a = .answer d ∧ ∃ key i o,
    s.popitems d = .waiting (.popitemPop key []) i ∧
      s.map.calls (.inner d i) = .done o (.ok (.found none)) := by
  unfold restarts
  constructor
  · intro h
    split at h
    · obtain ⟨he, hpop⟩ := Bool.and_eq_true_iff.mp h
      obtain rfl := of_decide_eq_true he
      refine ⟨rfl, ?_⟩
      split at hpop
      · rename_i key i hw
        split at hpop
        · rename_i o hdone
          exact ⟨key, i, o, hw, hdone⟩
        · cases hpop
      · cases hpop
    · cases h
  · rintro ⟨rfl, key, i, o, hw, hdone⟩
    simp [hw, hdone]

omit [DecidableEq D] [DecidableEq K] in
theorem intact_idle (hp : s.popitems d = .idle) : Intact hash s d (s.map.map.shardCount + 6) := by
  refine ⟨hp ▸ .idle, fun k hk => ?_⟩
  rw [State.held, hp] at hk
  cases hk

omit [DecidableEq K] in
/-- The `popitem` goes where it holds nothing. -/
theorem intact_set {p : Popitem K V}
    (hstage : Stage s.map.map.shardCount (fun i => s.map.calls (.inner d i)) p m)
    (hheld : (s.setPopitem d p).held d = []) : Intact hash (s.setPopitem d p) d m := by
  refine ⟨?_, fun k hk => ?_⟩
  · rw [State.popitems_setPopitem_self]
    exact hstage
  · rw [hheld] at hk
    cases hk

variable [DecidableEq V]

/-- A `popitem` that waits has all its other calls behind it or before it. -/
theorem over_of_waiting {m₀ : ConcurrentMap K V} {pc : Dict.Pc K V} {o : Op K V}
    {r : PyResult (Ret K V)} (hr : Run (next hash) (State.init m₀) as s)
    (hw : s.popitems d = .waiting pc i) (hdone : s.map.calls (.inner d i) = .done o r) (j : ℕ) :
    s.map.calls (.inner d j) = .idle ∨ ∃ o r, s.map.calls (.inner d j) = .done o r := by
  have hknows := knows hr d
  rw [hw] at hknows
  cases hknows with
  | waiting _ hbefore _ hafter =>
      rcases lt_trichotomy j i with hlt | rfl | hgt
      · exact .inr (hbefore j hlt).1
      · exact .inr ⟨o, r, hdone⟩
      · exact .inl (hafter j hgt)

/-- The `popitem` gets the result of its call, which is not that its key was gone. -/
theorem Intact.answer {m₀ : ConcurrentMap K V} (h : Intact hash s d m)
    (hr : Run (next hash) (State.init m₀) as s) (hn : next hash s (.answer d) = some t) :
    (∃ m', Intact hash t d m' ∧ m' < m) ∧ restarts d s (.answer d) = false := by
  obtain ⟨pc, i, o, r, hw, hdone, hout⟩ := next_answer hn
  have hover := over_of_waiting hr hw hdone
  have hstage := h.stage
  rw [hw] at hstage
  have hend : ∀ {m' out}, 0 < m' → t = s.setPopitem d (.done out) →
      Ending (fun i => s.map.calls (.inner d i)) out → ∃ m'', Intact hash t d m'' ∧ m'' < m' := by
    rintro m' out hpos rfl hout
    exact ⟨0, intact_set (.done hover hout) (by rw [State.held, State.popitems_setPopitem_self]),
      hpos⟩
  cases hstage with
  | scanning hk hc => cases hdone.symm.trans hc
  | popping hc => cases hdone.symm.trans hc
  | read hc =>
      rename_i es
      refine ⟨?_, Bool.eq_false_iff.mpr fun hrestarts => ?_⟩
      · cases hdone.symm.trans hc
        rcases hout with ⟨x, ctl, p, hx, hanswer, hgo, ht⟩ | ⟨err, herr, -⟩
        swap
        · cases herr
        cases hx
        cases es with
        | nil =>
            cases hanswer
            cases hgo
            exact hend (by decide) ht .empty
        | cons e es =>
            cases hanswer
            cases hgo
            have hp : t.popitems d = .asking (.popitemPop e.1 es) (i + 1) := by
              rw [ht, State.popitems_setPopitem_self]
            refine ⟨3, ⟨hp ▸ .trying, fun k hk => ?_⟩, by decide⟩
            rw [held_asking hp] at hk
            rw [ht]
            refine h.there k ?_
            rw [held_items hw, hc]
            exact hk
      · obtain ⟨-, key, j, o, hw', -⟩ := restarts_iff.mp hrestarts
        cases hw.symm.trans hw'
  | popped hc hfound =>
      cases hdone.symm.trans hc
      refine ⟨?_, Bool.eq_false_iff.mpr fun hrestarts => ?_⟩
      · rcases hout with ⟨x, ctl, p, hx, hanswer, hgo, ht⟩ | ⟨err, herr, ht⟩
        · rcases hfound with ⟨v, hv⟩ | ⟨e, he⟩
          · cases hx.symm.trans hv
            cases hanswer
            cases hgo
            exact hend (by decide) ht (.item _)
          · cases hx.symm.trans he
        · exact hend (by decide) ht (.raised (herr ▸ hdone))
      · obtain ⟨-, key, j, o, hw', hc'⟩ := restarts_iff.mp hrestarts
        cases hw.symm.trans hw'
        cases hc.symm.trans hc'
        rcases hfound with ⟨v, hv⟩ | ⟨e, he⟩
        · cases hv
        · cases he

/-- While nothing is taken from it, the `popitem` never starts again, and each of its steps brings it
nearer to its end. -/
theorem Intact.next {m₀ : ConcurrentMap K V} (h : Intact hash s d m)
    (hr : Run (next hash) (State.init m₀) as s) (hm : Placed hash s.map.map)
    (hquiet : robs hash d s a = false) (hn : next hash s a = some t) :
    (∃ m', Intact hash t d m' ∧ m' + (a.ofPopitem d).toNat ≤ m) ∧ restarts d s a = false := by
  cases a with
  | map b => exact ⟨h.map hr hm hquiet hn, rfl⟩
  | start e =>
      refine ⟨?_, rfl⟩
      obtain ⟨hidle, rfl⟩ := next_start hn
      by_cases hd : d = e
      · subst hd
        have hstage := h.stage
        rw [hidle] at hstage
        cases hstage with
        | idle =>
            refine ⟨_, intact_set .asking ?_, by simp [Act.ofPopitem]⟩
            rw [State.held, State.popitems_setPopitem_self]
      · refine ⟨m, h.congr (State.popitems_setPopitem_ne _ _ hd) (fun _ => rfl) rfl fun _ _ => id, ?_⟩
        simp [Act.ofPopitem, Ne.symm hd]
  | answer e =>
      by_cases hd : d = e
      · subst hd
        obtain ⟨⟨m', hintact, hlt⟩, hnot⟩ := h.answer hr hn
        exact ⟨⟨m', hintact, by simpa [Act.ofPopitem] using hlt⟩, hnot⟩
      · refine ⟨⟨m, ?_, by simp [Act.ofPopitem, Ne.symm hd]⟩, by simp [restarts, Ne.symm hd]⟩
        obtain ⟨_, _, _, _, -, -, ⟨_, _, _, -, -, -, rfl⟩ | ⟨_, -, rfl⟩⟩ := next_answer hn
        · exact h.congr (State.popitems_setPopitem_ne _ _ hd) (fun _ => rfl) rfl fun _ _ => id
        · exact h.congr (State.popitems_setPopitem_ne _ _ hd) (fun _ => rfl) rfl fun _ _ => id

/-- With its new snapshot the `popitem` has nothing to lose. -/
theorem intact_of_restarts (hrestarts : restarts d s a = true) (hn : next hash s a = some t) :
    ∃ m, Intact hash t d m := by
  obtain ⟨rfl, key, i, o, hw, hdone⟩ := restarts_iff.mp hrestarts
  obtain ⟨pc, j, _, r, hw', hdone', hout⟩ := next_answer hn
  cases hw.symm.trans hw'
  cases hdone.symm.trans hdone'
  rcases hout with ⟨x, ctl, p, hx, hanswer, hgo, rfl⟩ | ⟨err, herr, -⟩
  · cases hx
    cases hanswer
    cases hgo
    exact ⟨_, intact_set .asking (by rw [State.held, State.popitems_setPopitem_self])⟩
  · cases herr

omit [DecidableEq V] in
theorem not_restarts_of_robs (h : robs hash d s a = true) : restarts d s a = false := by
  cases a with
  | map b => rfl
  | _ => cases h

/-- A `popitem` takes a new snapshot at most as often as other calls have removed a key that it held:
from any state in which it has not begun, whatever happens meanwhile, and whatever `__eq__` answers. -/
theorem restarts_le_robs (hash : K → UInt64) (n : ℕ) (hn : 0 < n) (as : List (Act D K V))
    (s : State D K V) (hs : Run (next hash) (State.init (.empty n hn)) as s) (d : D)
    (hidle : s.popitems d = .idle) (bs : List (Act D K V)) (t : State D K V)
    (ht : Run (next hash) s bs t) :
    countSteps (next hash) (restarts d) s bs ≤ countSteps (next hash) (robs hash d) s bs := by
  have hinv : countSteps (next hash) (restarts d) s bs ≤ countSteps (next hash) (robs hash d) s bs ∧
      (countSteps (next hash) (restarts d) s bs = countSteps (next hash) (robs hash d) s bs →
        ∃ m, Intact hash t d m) := by
    induction ht with
    | nil => exact ⟨le_rfl, fun _ => ⟨_, intact_idle hidle⟩⟩
    | @snoc bs u a v hu _ hnext ih =>
        obtain ⟨hle, hintact⟩ := ih
        have hr := hs.append hu
        have hm := (map_run (run_map hr)).1
        rw [hu.countSteps_snoc hnext, hu.countSteps_snoc hnext]
        cases hrobs : robs hash d u a with
        | true =>
            rw [not_restarts_of_robs hrobs, Bool.toNat_true, Bool.toNat_false]
            exact ⟨by omega, fun heq => by omega⟩
        | false =>
            cases hrestarts : restarts d u a with
            | true =>
                have hlt : countSteps (next hash) (restarts d) s bs ≠
                    countSteps (next hash) (robs hash d) s bs := fun heq => by
                  obtain ⟨m, hm'⟩ := hintact heq
                  have hnot := (hm'.next hr hm hrobs hnext).2
                  rw [hrestarts] at hnot
                  cases hnot
                rw [Bool.toNat_true, Bool.toNat_false]
                exact ⟨by omega, fun _ => intact_of_restarts hrestarts hnext⟩
            | false =>
                rw [Bool.toNat_false, Nat.add_zero, Nat.add_zero]
                refine ⟨hle, fun heq => ?_⟩
                obtain ⟨m, hm'⟩ := hintact heq
                obtain ⟨⟨m', hm'', -⟩, -⟩ := hm'.next hr hm hrobs hnext
                exact ⟨m', hm''⟩
  exact hinv.1

omit [DecidableEq V] in
theorem robs_own (h : a.ofPopitem d = true) : robs hash d s a = false := by
  cases a with
  | map b =>
      have hb : b.call.isInner d = true := h
      simp [robs, hb]
  | _ => rfl

theorem able_own (h : a.ofPopitem d = true) (hn : (next hash s a).isSome = true) :
    Able (next hash) (fun s a => robs hash d s a = false) (fun _ a => a.ofPopitem d) s := by
  obtain ⟨t, ht⟩ := Option.isSome_iff_exists.mp hn
  exact ⟨a, t, robs_own h, h, ht⟩

/-- The next call of the `popitem` can begin. -/
theorem able_ask {m₀ : ConcurrentMap K V} {pc : Dict.Pc K V}
    (hr : Run (next hash) (State.init m₀) as s) (hasking : s.popitems d = .asking pc i) :
    Able (next hash) (fun s a => robs hash d s a = false) (fun _ a => a.ofPopitem d) s := by
  have hknows := knows hr d
  rw [hasking] at hknows
  cases hknows with
  | asking _ _ hafter =>
      refine able_own (a := .map (.invoke (.inner d i) pc.ask.2)) (isInner_iff.mpr ⟨i, rfl⟩) ?_
      cases hop : pc.ask.2 <;>
        simp [next, Map.next, hafter i le_rfl, State.follow, Popitem.ask, hasking, hop]

/-- A `popitem` that has not ended can take a step. -/
theorem able_of_intact {m₀ : ConcurrentMap K V} (h : Intact hash s d m)
    (hr : Run (next hash) (State.init m₀) as s) :
    (∃ out, s.popitems d = .done out ∧ Ending (fun i => s.map.calls (.inner d i)) out) ∨
      Able (next hash) (fun s a => robs hash d s a = false) (fun _ a => a.ofPopitem d) s := by
  have hstage := h.stage
  cases hp : s.popitems d with
  | idle =>
      refine .inr (able_own (a := .start d) (by simp [Act.ofPopitem]) ?_)
      simp [next, hp, Method.start, Popitem.goOn]
  | asking pc i => exact .inr (able_ask hr hp)
  | done out =>
      rw [hp] at hstage
      cases hstage with
      | done hover hend => exact .inl ⟨out, rfl, hend⟩
  | waiting pc i =>
      refine .inr ?_
      rw [hp] at hstage
      cases hstage with
      | scanning hk hc =>
          rename_i k acc
          let shard := s.map.map.shards ⟨k, hk⟩
          refine able_own (a := .map (.visit (.inner d i) shard.keys.toList))
            (isInner_iff.mpr ⟨i, rfl⟩) ?_
          simp [next, Map.next, hc, hk, State.follow, Finset.nodup_toList, shard]
      | read hc =>
          rename_i es
          refine able_own (a := .answer d) (by simp [Act.ofPopitem]) ?_
          cases es <;> simp [next, hp, hc, Pc.answer, popEach, Popitem.goOn]
      | popping hc =>
          refine able_own (a := .map (.lock (.inner d i))) (isInner_iff.mpr ⟨i, rfl⟩) ?_
          simp [next, Map.next, hc, KeyOp.lock, KeyOp.retry, State.follow]
      | popped hc hfound =>
          refine able_own (a := .answer d) (by simp [Act.ofPopitem]) ?_
          rcases hfound with ⟨v, rfl⟩ | ⟨e, rfl⟩ <;>
            simp [next, hp, hc, Pc.answer, Popitem.goOn]

/-- Two `popitem`s have read the same key; the first one takes it, and the second one starts again. -/
def robbedTrace : List (Act ℕ ℕ ℕ) :=
  [.map (.invoke (.direct 0) (.keyed (.set 1 5))), .map (.lock (.direct 0)), .start 1, .start 2,
   .map (.invoke (.inner 1 0) (.whole .items)), .map (.visit (.inner 1 0) [0]), .answer 1,
   .map (.invoke (.inner 2 0) (.whole .items)), .map (.visit (.inner 2 0) [0]), .answer 2,
   .map (.invoke (.inner 1 1) (.keyed (.popVal 1))), .map (.lock (.inner 1 1)),
   .map (.invoke (.inner 2 1) (.keyed (.popVal 1))), .map (.lock (.inner 2 1)), .answer 2]

theorem robbedTrace_exec :
    (exec (next fun _ : ℕ => 0) (fun _ _ => True) (State.init (.empty 1 (by decide)))
      robbedTrace).map (fun _ : State ℕ ℕ ℕ => decide (countSteps (next fun _ : ℕ => 0) (restarts 2)
        (State.init (.empty 1 (by decide)) : State ℕ ℕ ℕ) robbedTrace = 1)) = some true := by
  decide +kernel

theorem restarts_le_robs_robbedTrace :
    1 ≤ countSteps (next fun _ : ℕ => 0) (robs (fun _ => 0) 2)
      (State.init (.empty 1 (by decide)) : State ℕ ℕ ℕ) robbedTrace := by
  obtain ⟨t, ht, hone⟩ := exists_runWith_of_exec robbedTrace_exec
  exact (of_decide_eq_true hone).symm.trans_le
    (restarts_le_robs (fun _ => 0) 1 (by decide) [] (State.init _) .nil 2 rfl robbedTrace t ht)

/-- As long as no other call removes a key that it holds, a `popitem` ends after one scan and one pop,
with an item, with `KeyError`, or with what the pop raised: it takes at most `n + 6` steps on a map of
`n` shards, and until it has ended it can take one. -/
theorem settles_unrobbed (hash : K → UInt64) (n : ℕ) (hn : 0 < n) (as : List (Act D K V))
    (s : State D K V) (hs : Run (next hash) (State.init (.empty n hn)) as s) (d : D)
    (hidle : s.popitems d = .idle) :
    Settles (next hash) (fun s a => robs hash d s a = false) (fun _ a => a.ofPopitem d) (n + 6)
      (fun t => ∃ out, t.popitems d = .done out ∧ Ending (fun i => t.map.calls (.inner d i)) out) s := by
  let B : State D K V → ℕ → Prop := fun u m =>
    (∃ bs, Run (next hash) (State.init (.empty n hn)) bs u) ∧ Intact hash u d m
  have h0 : B s (n + 6) := by
    refine ⟨⟨as, hs⟩, ?_⟩
    rw [← (map_run (run_map hs)).2.2]
    exact intact_idle hidle
  refine settles_of_bound h0 ?_ ?_
  · rintro u a v m ⟨⟨bs, hbs⟩, hintact⟩ hquiet hnext
    obtain ⟨⟨m', hintact', hle⟩, -⟩ := hintact.next hbs (map_run (run_map hbs)).1 hquiet hnext
    exact ⟨m', ⟨⟨_, hbs.snoc trivial hnext⟩, hintact'⟩, hle⟩
  · rintro u m ⟨⟨bs, hbs⟩, hintact⟩
    exact able_of_intact hintact hbs

theorem settles_unrobbed_emptyTrace :
    ∃ bs t, RunWith (next UInt64.ofNat)
      (fun s a => robs UInt64.ofNat 1 s a = false ∧ a.ofPopitem 1 = true)
      (State.init (.empty 2 (by decide)) : State ℕ ℕ ℕ) bs t ∧ bs.length ≤ 8 ∧
        ∃ out, t.popitems 1 = .done out ∧ Ending (fun i => t.map.calls (.inner 1 i)) out :=
  (settles_unrobbed UInt64.ofNat 2 (by decide) [] (State.init _) .nil 1 rfl).reaches

end Pysync.Shared
