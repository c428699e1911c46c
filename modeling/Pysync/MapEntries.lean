import Pysync.MapUnique
import Mathlib.Data.Multiset.Bind
import Mathlib.Data.Multiset.Replicate
import Mathlib.Data.Finset.Dedup
import Mathlib.Data.Fintype.Basic

/-!
Where the entries of a map lie. Under every interleaving an entry stays in the bucket of the hash of
its key, in the shard of that hash; so the map as a whole is the collection of its buckets, and what a
scan reads off the shards one after another are its entries.
-/

namespace Pysync.Map
open ConcurrentMap

variable {C K V : Type} [DecidableEq C] {hash : K → UInt64} {s t : State C K V}
variable {a : Act C K V} {m : ConcurrentMap K V}

/-- Each bucket lies in the shard of its hash and holds keys of this hash. -/
def Placed (hash : K → UInt64) (m : ConcurrentMap K V) : Prop :=
  ∀ i h l, (m.shards i).lookup h = some l → m.index h = i ∧ ∀ e ∈ l, hash e.1 = h

theorem placed_empty (n : ℕ) (hn : 0 < n) :
    Placed hash (ConcurrentMap.empty n hn : ConcurrentMap K V) := by
  intro i h l hl
  simp [ConcurrentMap.empty] at hl

theorem Placed.bucket (hm : Placed hash m) {h : UInt64} {e : K × V} (he : e ∈ m.bucket h) :
    hash e.1 = h := by
  unfold ConcurrentMap.bucket at he
  cases hs : m.slot h with
  | none =>
      rw [hs] at he
      cases he
  | some l =>
      rw [hs] at he
      exact (hm _ h l hs).2 e he

theorem Placed.setSlot (hm : Placed hash m) {h : UInt64} {b : Option (Bucket K V)}
    (hb : ∀ e ∈ b.getD [], hash e.1 = h) : Placed hash (m.setSlot h b) := by
  intro i h' l hl
  replace hl := (lookup_setSlot m h b i h').symm.trans hl
  split at hl
  · rename_i hi
    obtain ⟨rfl, rfl⟩ := hi
    subst hl
    exact ⟨rfl, hb⟩
  · exact hm i h' l hl

theorem Placed.clearShard (hm : Placed hash m) (j : Fin m.shardCount) :
    Placed hash (m.clearShard j) := by
  intro i h l hl
  replace hl := (lookup_clearShard m j i h).symm.trans hl
  split at hl
  · cases hl
  · exact hm i h l hl

/-- The keys of a bucket after a section were there before, or are that of the call. -/
theorem LockStep.keys [DecidableEq K] {op : KeyOp K V} {pc : Pc K V} {l l' : Bucket K V} {ctl : Ctl K V}
    (hstep : LockStep op pc l l' ctl) : ∀ e ∈ l', (∃ e' ∈ l, e'.1 = e.1) ∨ e.1 = op.key := by
  have hpush : ∀ {l : Bucket K V} {v : V}, ∀ e ∈ l ++ [(op.key, v)],
      (∃ e' ∈ l, e'.1 = e.1) ∨ e.1 = op.key := by
    intro l v e he
    rcases List.mem_append.mp he with he | he
    · exact .inl ⟨e, he, rfl⟩
    · exact .inr (congrArg Prod.fst (List.mem_singleton.mp he))
  cases hstep with
  | insertFast => exact hpush (l := [])
  | insertLast => exact hpush
  | orInsertLast => exact hpush
  | @write key k value old pc l₁ l₂ htarget =>
      intro e he
      rcases List.mem_append.mp he with he | he
      · exact .inl ⟨e, List.mem_append_left _ he, rfl⟩
      · rcases List.mem_cons.mp he with rfl | he
        · exact .inl ⟨(k, old), List.mem_append_right _ List.mem_cons_self, rfl⟩
        · exact .inl ⟨e, List.mem_append_right _ (List.mem_cons_of_mem _ he), rfl⟩
  | remove =>
      intro e he
      rcases List.mem_append.mp he with he | he
      · exact .inl ⟨e, List.mem_append_left _ he, rfl⟩
      · exact .inl ⟨e, List.mem_append_right _ (List.mem_cons_of_mem _ he), rfl⟩
  | _ => exact fun e he => .inl ⟨e, he, rfl⟩

theorem placed_next [DecidableEq K] (hm : Placed hash s.map) (hn : next hash s a = some t) :
    Placed hash t.map := by
  cases a with
  | invoke c op => obtain ⟨-, ⟨_, -, rfl⟩ | ⟨_, -, rfl⟩⟩ := next_invoke hn <;> exact hm
  | unhashable c op =>
      obtain ⟨-, rfl⟩ := next_unhashable hn
      exact hm
  | eq c answer =>
      obtain ⟨op, _, _, _, -, ⟨-, rfl⟩ | ⟨_, -, rfl⟩⟩ := next_eq hn
      · exact hm
      · rw [State.map_resume]
        exact hm
  | visit c order =>
      obtain ⟨op, i, acc, hi, -, hmap, -, -⟩ := next_visit hn
      rw [hmap]
      split
      · exact hm.clearShard _
      · exact hm
  | lock c =>
      obtain ⟨op, pc, slot, ctl, l, l', hc, hl, hl', hstep, rfl⟩ := next_lock hn
      rw [State.map_resume]
      refine hm.setSlot fun e he => ?_
      rcases hstep.keys e (hl' ▸ he) with ⟨e', he', hkey⟩ | hkey
      · rw [← hkey]
        exact hm.bucket (hl ▸ he')
      · rw [hkey]

/-- Whatever `__eq__` answers, no key object is in a bucket twice. -/
theorem distinctObjects_next [DecidableEq K]
    (h : ∀ x, DistinctKeys (fun k k' => decide (k = k')) (s.map.bucket x))
    (hn : next hash s a = some t) :
    ∀ x, DistinctKeys (fun k k' => decide (k = k')) (t.map.bucket x) := by
  intro x
  cases a with
  | invoke c op => obtain ⟨-, ⟨_, -, rfl⟩ | ⟨_, -, rfl⟩⟩ := next_invoke hn <;> exact h x
  | unhashable c op =>
      obtain ⟨-, rfl⟩ := next_unhashable hn
      exact h x
  | eq c answer =>
      obtain ⟨op, _, _, _, -, ⟨-, rfl⟩ | ⟨_, -, rfl⟩⟩ := next_eq hn
      · exact h x
      · rw [State.map_resume]
        exact h x
  | visit c order =>
      obtain ⟨op, i, acc, hi, -, hmap, -, -⟩ := next_visit hn
      rw [hmap]
      split
      · rw [bucket_clearShard]
        split
        · exact List.Pairwise.nil
        · exact h x
      · exact h x
  | lock c =>
      obtain ⟨op, pc, slot, ctl, l, l', hc, hl, hl', hstep, rfl⟩ := next_lock hn
      rw [bucket_lock]
      split
      · rw [hl']
        refine hstep.distinct (hl ▸ h _) fun checkedKeys _ hall _ _ e he => ?_
        simpa using (hall e he).2
      · exact h x

section Entries

/-- The entries behind one shard lock. -/
def shardEntries (shard : Shard K V) : Multiset (K × V) :=
  shard.entries.bind fun x => (x.2 : Multiset (K × V))

/-- The entries of the map, in no order. -/
def ConcurrentMap.entries (m : ConcurrentMap K V) : Multiset (K × V) :=
  Finset.univ.val.bind fun i => shardEntries (m.shards i)

theorem mem_shardEntries {shard : Shard K V} {e : K × V} :
    e ∈ shardEntries shard ↔ ∃ h l, shard.lookup h = some l ∧ e ∈ l := by
  unfold shardEntries
  rw [Multiset.mem_bind]
  constructor
  · rintro ⟨⟨h, l⟩, hmem, he⟩
    exact ⟨h, l, Finmap.lookup_eq_some_iff.mpr hmem, he⟩
  · rintro ⟨h, l, hl, he⟩
    exact ⟨⟨h, l⟩, Finmap.lookup_eq_some_iff.mp hl, he⟩

theorem Placed.mem_entries (hm : Placed hash m) {e : K × V} :
    e ∈ m.entries ↔ e ∈ m.bucket (hash e.1) := by
  unfold ConcurrentMap.entries
  rw [Multiset.mem_bind]
  constructor
  · rintro ⟨i, -, hi⟩
    obtain ⟨h, l, hl, he⟩ := mem_shardEntries.mp hi
    obtain ⟨rfl, hkeys⟩ := hm i h l hl
    have hslot : m.slot (hash e.1) = some l := by
      rw [hkeys e he]
      exact hl
    rw [ConcurrentMap.bucket, hslot]
    exact he
  · intro he
    refine ⟨m.index (hash e.1), Finset.mem_univ_val _, mem_shardEntries.mpr ?_⟩
    unfold ConcurrentMap.bucket at he
    cases hs : m.slot (hash e.1) with
    | none =>
        rw [hs] at he
        cases he
    | some l =>
        rw [hs] at he
        exact ⟨hash e.1, l, hs, he⟩

theorem nodup_bucket {eqv : K → K → Bool} (hrefl : ∀ k, eqv k k = true) {l : Bucket K V}
    (h : DistinctKeys eqv l) : l.Nodup := by
  refine h.imp fun {e e'} hne heq => ?_
  rw [heq, hrefl] at hne
  cases hne

theorem Placed.nodup_entries (hm : Placed hash m) (hnodup : ∀ h, (m.bucket h).Nodup) :
    m.entries.Nodup := by
  have hbucket : ∀ i h l, (m.shards i).lookup h = some l → l.Nodup := by
    intro i h l hl
    obtain ⟨rfl, -⟩ := hm i h l hl
    have hslot : m.bucket h = l := by
      unfold ConcurrentMap.bucket ConcurrentMap.slot
      rw [hl]
      rfl
    exact hslot ▸ hnodup h
  refine Multiset.nodup_bind.mpr ⟨fun i _ => Multiset.nodup_bind.mpr ⟨?_, ?_⟩, ?_⟩
  · rintro ⟨h, l⟩ hmem
    exact hbucket i h l (Finmap.lookup_eq_some_iff.mpr hmem)
  · refine Multiset.Nodup.pairwise (fun x hx y hy hne => ?_) (m.shards i).nodup_entries
    obtain ⟨h, l⟩ := x
    obtain ⟨h', l'⟩ := y
    have hl := Finmap.lookup_eq_some_iff.mpr hx
    have hl' := Finmap.lookup_eq_some_iff.mpr hy
    refine Multiset.disjoint_left.mpr fun {e} he he' => hne ?_
    obtain rfl : h = h' := ((hm i h l hl).2 e he).symm.trans ((hm i h' l' hl').2 e he')
    cases hl.symm.trans hl'
    rfl
  · refine Multiset.Nodup.pairwise (fun i _ j _ hne => ?_) Finset.univ.nodup
    refine Multiset.disjoint_left.mpr fun {e} hi hj => hne ?_
    obtain ⟨h, l, hl, he⟩ := mem_shardEntries.mp hi
    obtain ⟨h', l', hl', he'⟩ := mem_shardEntries.mp hj
    obtain ⟨hi, hkeys⟩ := hm i h l hl
    obtain ⟨hj, hkeys'⟩ := hm j h' l' hl'
    rw [← hi, ← hj, ← hkeys e he, ← hkeys' e he']

/-- What a scan reads off a shard are its entries, whatever the iteration order. -/
theorem coe_flatMap_order {shard : Shard K V} {order : List UInt64} (hnodup : order.Nodup)
    (horder : order.toFinset = shard.keys) :
    (order.flatMap fun h => (shard.lookup h).getD [] : Multiset (K × V)) = shardEntries shard := by
  have hkeys : (order : Multiset UInt64) = shard.entries.map Sigma.fst := by
    have hval := congrArg Finset.val horder
    rwa [List.toFinset_val, hnodup.dedup] at hval
  rw [← Multiset.coe_bind, hkeys, Multiset.bind_map]
  refine Multiset.bind_congr fun x hx => ?_
  rw [Finmap.lookup_eq_some_iff.mpr hx]
  rfl

end Entries

variable [DecidableEq K]

/-- The next shard of a scan, in full. -/
theorem next_visit_eq {order : List UInt64} {c : C} (h : next hash s (.visit c order) = some t) :
    ∃ op i, ∃ acc acc' : List (K × V), ∃ hi : i < s.map.shardCount,
      s.calls c = .whole op i acc ∧
      (acc' : Multiset (K × V)) = acc + shardEntries (s.map.shards ⟨i, hi⟩) ∧
      t.map = (if op = .clear then s.map.clearShard ⟨i, hi⟩ else s.map) ∧
      t.calls c = (if i + 1 = s.map.shardCount then .done (.whole op) (.ok (op.ret acc'))
        else .whole op (i + 1) acc') := by
  simp only [next] at h
  split at h
  · split at h
    · split at h
      · rename_i op i acc hc hi horder
        cases h
        refine ⟨op, i, acc, _, hi, hc, ?_, rfl, State.calls_setCall_self _ _ _⟩
        rw [← coe_flatMap_order horder.1 horder.2, Multiset.coe_add]
      · cases h
    · cases h
  · cases h

end Pysync.Map
