import Pysync.MapRaise
import Pysync.MapSnapshot

/-!
How the shards represent the entries. An entry lies in the bucket of its hash, in the shard of that
hash; a bucket leaves its table with its last entry; and no key object is found twice. All of it holds
whatever `__eq__` answers, for each section looks for its key object before it adds it.
-/

namespace Pysync.Map
open Transition ConcurrentMap

/-- The section leaves no empty bucket behind where there was none. -/
def Section.Tidy {K V : Type} (f : Section K V) : Prop :=
  ∀ slot, slot ≠ some [] → (f slot).1 ≠ some []

section Sections

variable {K V : Type}

theorem removeAt_ne_nil (list : Bucket K V) (pos : Fin list.length) : removeAt list pos ≠ some [] := by
  unfold removeAt
  split
  · simp
  · rename_i hempty
    intro h
    rw [Option.some.inj h] at hempty
    exact hempty rfl

theorem writeAt_ne_nil (list : Bucket K V) (pos : Fin list.length) (value : V) :
    some (writeAt list pos value) ≠ some [] := by
  intro h
  have hlen := congrArg List.length (Option.some.inj h)
  rw [writeAt, List.length_set] at hlen
  exact absurd pos.isLt (by simp [hlen])

variable [DecidableEq K]

theorem tidy_setFast (key : K) (value : V) : (setFast key value).Tidy := by
  intro slot h
  cases slot with
  | none => simp [setFast]
  | some list =>
      rw [setFast]
      split
      · simp
      · cases position list key with
        | none => exact h
        | some pos => exact writeAt_ne_nil list pos value

theorem tidy_setHit (value : V) (k : K) : (setHit value k).Tidy := by
  intro slot h
  cases slot with
  | none => simp [setHit]
  | some list =>
      rw [setHit]
      cases position list k with
      | none => exact h
      | some pos => exact writeAt_ne_nil list pos value

theorem tidy_setLast (key : K) (value : V) (checkedKeys : List K) :
    (setLast key value checkedKeys).Tidy := by
  intro slot h
  simp only [setLast]
  split
  · rename_i hun
    rwa [some_of_hasUnboundCandidate hun]
  · cases position (slot.getD []) key with
    | none => simp
    | some pos => exact writeAt_ne_nil _ pos value

theorem tidy_removeFast (absent : Ret K V) (present : V → Ret K V) (key : K) :
    (removeFast absent present key).Tidy := by
  intro slot h
  cases slot with
  | none => simp [removeFast]
  | some list =>
      rw [removeFast]
      split
      · exact h
      · cases position list key with
        | none => exact h
        | some pos => exact removeAt_ne_nil list pos

theorem tidy_removeHit (present : V → Ret K V) (k : K) : (removeHit present k).Tidy := by
  intro slot h
  cases slot with
  | none => simp [removeHit]
  | some list =>
      rw [removeHit]
      cases position list k with
      | none => exact h
      | some pos => exact removeAt_ne_nil list pos

theorem tidy_removeLast (absent : Ret K V) (present : V → Ret K V) (key : K)
    (checkedKeys : List K) : (removeLast absent present key checkedKeys).Tidy := by
  intro slot h
  cases slot with
  | none => simp [removeLast]
  | some list =>
      rw [removeLast]
      split
      · exact h
      · cases position list key with
        | none => exact h
        | some pos => exact removeAt_ne_nil list pos

theorem tidy_getOrInsertLast (key : K) (dflt : V) (checkedKeys : List K) :
    (getOrInsertLast key dflt checkedKeys).Tidy := by
  intro slot h
  simp only [getOrInsertLast]
  split
  · rename_i hun
    rwa [some_of_hasUnboundCandidate hun]
  · cases hpos : position (slot.getD []) key with
    | none => simp
    | some pos =>
        intro hnil
        have hlen := congrArg List.length (Option.some.inj hnil)
        have hlt := pos.isLt
        rw [List.length_nil] at hlen
        omega

variable {pc : Pc K V} {slot slot' : Option (Bucket K V)} {ctl : Ctl K V}

theorem retry_tidy {fast : Section K V} {hit : K → Section K V} {last : List K → Section K V}
    (hfast : fast.Tidy) (hhit : ∀ k, (hit k).Tidy) (hlast : ∀ checkedKeys, (last checkedKeys).Tidy)
    (h : KeyOp.retry fast hit last pc slot = some (slot', ctl)) (hslot : slot ≠ some []) :
    slot' ≠ some [] := by
  cases pc with
  | fast =>
      cases h
      exact hfast slot hslot
  | collect checkedKeys =>
      cases h
      exact hslot
  | hit checkedKeys k =>
      cases h
      exact hhit k slot hslot
  | compare checkedKeys candidates =>
      cases candidates with
      | nil =>
          cases h
          exact hlast checkedKeys slot hslot
      | cons e rest => cases h

omit [DecidableEq K] in
theorem lookup_tidy {op : KeyOp K V} (h : op.lookup pc slot = some (slot', ctl))
    (hslot : slot ≠ some []) : slot' ≠ some [] := by
  cases pc with
  | collect checkedKeys =>
      cases h
      exact hslot
  | compare checkedKeys candidates =>
      cases candidates <;> cases h
      exact hslot
  | _ => cases h

theorem lock_tidy {op : KeyOp K V} (h : op.lock pc slot = some (slot', ctl))
    (hslot : slot ≠ some []) : slot' ≠ some [] := by
  cases op with
  | get key => exact lookup_tidy h hslot
  | getVal key => exact lookup_tidy h hslot
  | containsKey key => exact lookup_tidy h hslot
  | getOrInsert key dflt =>
      have htidy : Section.Tidy fun slot : Option (Bucket K V) => (slot, none) := fun _ => id
      cases pc with
      | fast => cases h
      | hit checkedKeys k => cases h
      | collect checkedKeys =>
          cases h
          exact hslot
      | compare checkedKeys candidates =>
          exact retry_tidy htidy (fun _ => htidy) (tidy_getOrInsertLast key dflt) h hslot
  | set key value =>
      exact retry_tidy (tidy_setFast key value) (tidy_setHit value) (tidy_setLast key value) h hslot
  | delete key =>
      exact retry_tidy (tidy_removeFast _ _ key) (tidy_removeHit _) (tidy_removeLast _ _ key) h hslot
  | popVal key =>
      exact retry_tidy (tidy_removeFast _ _ key) (tidy_removeHit _) (tidy_removeLast _ _ key) h hslot

end Sections

variable {C K V : Type} [DecidableEq C] {hash : K → UInt64}
variable {s t : State C K V} {a : Act C K V} {as : List (Act C K V)} {c : C}
variable {m : ConcurrentMap K V} {P : State C K V → Act C K V → Prop}

/-- No table holds an empty bucket. -/
def NoEmptyBucket (m : ConcurrentMap K V) : Prop := ∀ i h, (m.shards i).lookup h ≠ some []

theorem NoEmptyBucket.setSlot (hm : NoEmptyBucket m) {h : UInt64} {b : Option (Bucket K V)}
    (hb : b ≠ some []) : NoEmptyBucket (m.setSlot h b) := by
  intro i h'
  have hlookup := lookup_setSlot m h b i h'
  split at hlookup
  · exact fun heq => hb (hlookup.symm.trans heq)
  · exact fun heq => hm i h' (hlookup.symm.trans heq)

theorem NoEmptyBucket.clearShard (hm : NoEmptyBucket m) (j : Fin m.shardCount) :
    NoEmptyBucket (m.clearShard j) := by
  intro i h
  have hlookup := lookup_clearShard m j i h
  split at hlookup
  · exact fun heq => by cases hlookup.symm.trans heq
  · exact fun heq => hm i h (hlookup.symm.trans heq)

variable [DecidableEq K]

theorem noEmptyBucket_next (hm : NoEmptyBucket s.map) (hn : next hash s a = some t) :
    NoEmptyBucket t.map := by
  cases a with
  | invoke c op => obtain ⟨-, ⟨_, -, rfl⟩ | ⟨_, -, rfl⟩⟩ := next_invoke hn <;> exact hm
  | unhashable c op =>
      obtain ⟨-, rfl⟩ := next_unhashable hn
      exact hm
  | eq c answer =>
      obtain ⟨op, _, _, _, -, ⟨-, rfl⟩ | ⟨_, -, rfl⟩⟩ := next_eq hn
      · exact hm
      · rw [State.map_resume]
        exact hm
  | visit c order =>
      obtain ⟨op, i, acc, hi, -, hmap, -, -⟩ := next_visit hn
      rw [hmap]
      split
      · exact hm.clearShard _
      · exact hm
  | lock c =>
      obtain ⟨op, pc, slot, ctl, -, hlock, rfl⟩ := next_lock_slot hn
      rw [State.map_resume]
      exact hm.setSlot (lock_tidy hlock (hm _ _))

/-- The shards are as they should be: each bucket lies in the shard of its hash and holds keys of this
hash, there is no empty one, and a key object has one entry in the whole map. -/
structure Represented (hash : K → UInt64) (m : ConcurrentMap K V) : Prop where
  placed : Placed hash m
  nonempty : NoEmptyBucket m
  nodup : (m.entries.map Prod.fst).Nodup

theorem Placed.nodup_map (hm : Placed hash m) (hd : DistinctObjects m) :
    (m.entries.map Prod.fst).Nodup := by
  have hnodup := hm.nodup_entries fun h => (hd.nodup_map h).of_map Prod.fst
  exact hnodup.map_on fun e he e' he' hkey => hd.entry_unique hm he he' hkey

theorem noEmptyBucket_run {n : ℕ} {hn : 0 < n}
    (h : RunWith (next hash) P (State.init (.empty n hn)) as s) : NoEmptyBucket s.map := by
  induction h with
  | nil =>
      intro i h
      simp [State.init, ConcurrentMap.empty]
  | snoc _ _ hnext ih => exact noEmptyBucket_next ih hnext

/-- After every step of every interleaving of calls, whatever `__eq__` answers or raises, the shards are
as they should be; so a call at its first section finds no bucket that is empty. -/
theorem buckets_sound (hash : K → UInt64) (n : ℕ) (hn : 0 < n) (as : List (Act C K V))
    (s : State C K V) (hrun : Run (next hash) (State.init (.empty n hn)) as s) :
    Represented hash s.map ∧
      ∀ c op, s.calls c = .keyed op .fast → s.map.slot (hash op.key) ≠ some [] := by
  obtain ⟨hplaced, hdistinct, -⟩ := map_run hrun
  have hempty := noEmptyBucket_run hrun
  exact ⟨⟨hplaced, hempty, hplaced.nodup_map hdistinct⟩, fun c op _ => hempty _ _⟩

/-- Two keys of one hash; the second is deleted on the slow path, and then the first. -/
def emptiedTrace : List (Act ℕ ℕ ℕ) :=
  [.invoke 0 (.keyed (.set 0 5)), .lock 0, .invoke 1 (.keyed (.getOrInsert 1 6)), .lock 1,
   .eq 1 (some false), .lock 1, .invoke 2 (.keyed (.delete 2)), .lock 2, .lock 2,
   .eq 2 (some false), .eq 2 (some true), .lock 2, .invoke 3 (.keyed (.popVal 0)), .lock 3,
   .invoke 4 (.keyed (.set 0 7))]

theorem emptiedTrace_exec :
    (exec (next fun _ => 0) (fun _ _ => True) (State.init (.empty 3 (by decide)))
      emptiedTrace).map (fun s => decide (s.calls 4 = .keyed (.set 0 7) .fast ∧
        s.calls 2 = .done (.keyed (.delete 2)) (.ok (.bool true)) ∧
        s.calls 3 = .done (.keyed (.popVal 0)) (.ok (.found (some 5))))) = some true := by
  decide +kernel

theorem buckets_sound_emptiedTrace :
    ∃ s : State ℕ ℕ ℕ, Run (next fun _ => 0) (State.init (.empty 3 (by decide))) emptiedTrace s ∧
      Represented (fun _ => 0) s.map ∧ s.map.slot 0 ≠ some [] := by
  obtain ⟨s, hrun, hs⟩ := exists_runWith_of_exec emptiedTrace_exec
  obtain ⟨hrep, hfast⟩ := buckets_sound _ 3 (by decide) emptiedTrace s hrun
  exact ⟨s, hrun, hrep, hfast 4 _ (of_decide_eq_true hs).1⟩

end Pysync.Map
