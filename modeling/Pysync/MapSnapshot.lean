import Pysync.MapEntries
import Mathlib.Data.Set.Card

/-!
What `items`, `keys`, `values` and `len` tell about a map that other calls change meanwhile. The scan
locks one shard after another, so what it returns was never the map as a whole; but a key lives in one
shard only, and each shard was seen at an instant of the call.
-/

namespace Pysync.Map
open Transition ConcurrentMap

variable {C K V : Type} [DecidableEq C] [DecidableEq K] {hash : K → UInt64}
variable {s s₀ t u : State C K V} {a : Act C K V} {as : List (Act C K V)} {c : C} {op : WholeOp}
variable {m : ConcurrentMap K V} {i : ℕ} {acc acc' es : List (K × V)} {k : K}

/-! ## The keys of a shard -/

/-- Each bucket holds a key object once. -/
def DistinctObjects (m : ConcurrentMap K V) : Prop :=
  ∀ h, DistinctKeys (fun k k' => decide (k = k')) (m.bucket h)

theorem DistinctObjects.nodup_map (hd : DistinctObjects m) (h : UInt64) :
    ((m.bucket h).map Prod.fst).Nodup :=
  List.pairwise_map.mpr ((hd h).imp fun hne => of_decide_eq_false hne)

/-- A key object has one entry. -/
theorem DistinctObjects.entry_unique (hd : DistinctObjects m) (hm : Placed hash m) {e e' : K × V}
    (he : e ∈ m.entries) (he' : e' ∈ m.entries) (hkey : e.1 = e'.1) : e = e' := by
  have hb := hm.mem_entries.mp he
  have hb' := hm.mem_entries.mp he'
  rw [← hkey] at hb'
  exact List.inj_on_of_nodup_map (hd.nodup_map _) hb hb' hkey

omit [DecidableEq K] in
theorem mem_entries_of_shard {j : Fin m.shardCount} {e : K × V}
    (he : e ∈ shardEntries (m.shards j)) : e ∈ m.entries :=
  Multiset.mem_bind.mpr ⟨j, Finset.mem_univ_val j, he⟩

omit [DecidableEq K] in
/-- The entries behind a lock are those whose hash belongs there. -/
theorem Placed.mem_shard (hm : Placed hash m) {j : Fin m.shardCount} {e : K × V} :
    e ∈ shardEntries (m.shards j) ↔ e ∈ m.entries ∧ m.index (hash e.1) = j := by
  constructor
  · intro he
    refine ⟨mem_entries_of_shard he, ?_⟩
    obtain ⟨h, l, hl, hel⟩ := mem_shardEntries.mp he
    obtain ⟨hindex, hkeys⟩ := hm j h l hl
    rw [hkeys e hel, hindex]
  · rintro ⟨he, rfl⟩
    obtain ⟨j, -, hj⟩ := Multiset.mem_bind.mp he
    obtain ⟨h, l, hl, hel⟩ := mem_shardEntries.mp hj
    obtain ⟨hindex, hkeys⟩ := hm j h l hl
    rw [hkeys e hel, hindex]
    exact hj

theorem Placed.nodup_keys (hm : Placed hash m) (hd : DistinctObjects m) (j : Fin m.shardCount) :
    ((shardEntries (m.shards j)).map Prod.fst).Nodup := by
  have hnodup : (shardEntries (m.shards j)).Nodup :=
    (Multiset.nodup_bind.mp (hm.nodup_entries fun h => (hd.nodup_map h).of_map Prod.fst)).1 j
      (Finset.mem_univ_val j)
  refine hnodup.map_on fun e he e' he' hkey => ?_
  exact hd.entry_unique hm (mem_entries_of_shard he) (mem_entries_of_shard he') hkey

/-! ## A scan in a run -/

/-- The run passed through the state `u` while the call `c` was scanning. -/
def During (hash : K → UInt64) (s₀ : State C K V) (as : List (Act C K V)) (c : C) (op : WholeOp)
    (u : State C K V) : Prop :=
  Visits (next hash) s₀ as u ∧ ∃ i acc, u.calls c = .whole op i acc

/-- The key objects that had an entry at every instant of the call. -/
def Throughout (hash : K → UInt64) (s₀ : State C K V) (as : List (Act C K V)) (c : C)
    (op : WholeOp) : Set K :=
  {k | ∀ u, During hash s₀ as c op u → ∃ v, (k, v) ∈ u.map.entries}

/-- The key objects that had an entry at some instant of the call. -/
def Sometimes (hash : K → UInt64) (s₀ : State C K V) (as : List (Act C K V)) (c : C)
    (op : WholeOp) : Set K :=
  {k | ∃ u, During hash s₀ as c op u ∧ ∃ v, (k, v) ∈ u.map.entries}

/-- The entries `es` are what a scan may report: no key object twice, each entry from an instant of the
call, and one entry for each key object that had one all the time. -/
structure Snapshot (hash : K → UInt64) (s₀ : State C K V) (as : List (Act C K V)) (c : C)
    (op : WholeOp) (es : List (K × V)) : Prop where
  nodup : (es.map Prod.fst).Nodup
  sound : ∀ e ∈ es, ∃ u, During hash s₀ as c op u ∧ e ∈ u.map.entries
  complete : ∀ k ∈ Throughout hash s₀ as c op, ∃ v, (k, v) ∈ es

/-- The same for a scan that has visited the shards below `i` of `n`. -/
structure Scanned (hash : K → UInt64) (s₀ : State C K V) (as : List (Act C K V)) (c : C)
    (op : WholeOp) (n i : ℕ) (acc : List (K × V)) : Prop where
  nodup : (acc.map Prod.fst).Nodup
  sound : ∀ e ∈ acc, ∃ u, During hash s₀ as c op u ∧ e ∈ u.map.entries
  below : ∀ e ∈ acc, (hash e.1).toNat % n < i
  complete : ∀ k ∈ Throughout hash s₀ as c op, (hash k).toNat % n < i → ∃ v, (k, v) ∈ acc

theorem During.snoc (h : During hash s₀ as c op u) (a : Act C K V) :
    During hash s₀ (as ++ [a]) c op u :=
  ⟨h.1.snoc a, h.2⟩

theorem throughout_snoc (h : k ∈ Throughout hash s₀ (as ++ [a]) c op) :
    k ∈ Throughout hash s₀ as c op :=
  fun u hu => h u (hu.snoc a)

theorem Snapshot.snoc (h : Snapshot hash s₀ as c op es) (a : Act C K V) :
    Snapshot hash s₀ (as ++ [a]) c op es where
  nodup := h.nodup
  sound e he := by
    obtain ⟨u, hu, heu⟩ := h.sound e he
    exact ⟨u, hu.snoc a, heu⟩
  complete k hk := h.complete k (throughout_snoc hk)

theorem Scanned.snoc {n : ℕ} (h : Scanned hash s₀ as c op n i acc) (a : Act C K V) :
    Scanned hash s₀ (as ++ [a]) c op n i acc where
  nodup := h.nodup
  sound e he := by
    obtain ⟨u, hu, heu⟩ := h.sound e he
    exact ⟨u, hu.snoc a, heu⟩
  below := h.below
  complete k hk := h.complete k (throughout_snoc hk)

theorem Scanned.all {n : ℕ} (hn : 0 < n) (h : Scanned hash s₀ as c op n n acc) :
    Snapshot hash s₀ as c op acc where
  nodup := h.nodup
  sound := h.sound
  complete k hk := h.complete k hk (Nat.mod_lt _ hn)

/-- The next shard. -/
theorem Scanned.visit {n : ℕ} (h : Scanned hash s₀ as c op n i acc) (hcount : s.map.shardCount = n)
    (hi : i < s.map.shardCount) (hnow : During hash s₀ as c op s) (hm : Placed hash s.map)
    (hd : DistinctObjects s.map)
    (hacc : (acc' : Multiset (K × V)) = acc + shardEntries (s.map.shards ⟨i, hi⟩)) :
    Scanned hash s₀ as c op n (i + 1) acc' := by
  subst hcount
  have hmem : ∀ {e : K × V}, e ∈ acc' ↔ e ∈ acc ∨
      e ∈ s.map.entries ∧ (hash e.1).toNat % s.map.shardCount = i := by
    intro e
    rw [← Multiset.mem_coe, hacc, Multiset.mem_add, Multiset.mem_coe, hm.mem_shard]
    exact or_congr Iff.rfl (and_congr Iff.rfl Fin.ext_iff)
  refine ⟨?_, ?_, ?_, ?_⟩
  · have hperm : ((acc'.map Prod.fst : List K) : Multiset K) =
        (acc.map Prod.fst : List K) + (shardEntries (s.map.shards ⟨i, hi⟩)).map Prod.fst := by
      rw [← Multiset.map_coe, hacc, Multiset.map_add, Multiset.map_coe]
    rw [← Multiset.coe_nodup, hperm, Multiset.nodup_add]
    refine ⟨Multiset.coe_nodup.mpr h.nodup, hm.nodup_keys hd _, ?_⟩
    refine Multiset.disjoint_left.mpr fun {k} hk hk' => ?_
    obtain ⟨e, he, rfl⟩ := List.mem_map.mp (Multiset.mem_coe.mp hk)
    obtain ⟨e', he', hkey⟩ := Multiset.mem_map.mp hk'
    have hbelow := h.below e he
    have hat : (hash e'.1).toNat % s.map.shardCount = i := Fin.ext_iff.mp (hm.mem_shard.mp he').2
    rw [hkey] at hat
    omega
  · intro e he
    rcases hmem.mp he with he | ⟨he, -⟩
    · exact h.sound e he
    · exact ⟨s, hnow, he⟩
  · intro e he
    rcases hmem.mp he with he | ⟨-, hat⟩
    · exact Nat.lt_succ_of_lt (h.below e he)
    · rw [hat]
      exact Nat.lt_succ_self i
  · intro k hk hlt
    rcases Nat.lt_succ_iff_lt_or_eq.mp hlt with hlt | hat
    · obtain ⟨v, hv⟩ := h.complete k hk hlt
      exact ⟨v, hmem.mpr (.inl hv)⟩
    · obtain ⟨v, hv⟩ := hk s hnow
      exact ⟨v, hmem.mpr (.inr ⟨hv, hat⟩)⟩

/-- How many entries a scan may report. -/
theorem Snapshot.length (h : Snapshot hash s₀ as c op es) :
    (Throughout hash s₀ as c op).encard ≤ es.length ∧
      (es.length : ℕ∞) ≤ (Sometimes hash s₀ as c op).encard := by
  have hkeys : ((es.map Prod.fst).toFinset : Set K).encard = es.length := by
    rw [Set.encard_coe_eq_coe_finsetCard, List.toFinset_card_of_nodup h.nodup, List.length_map]
  rw [← hkeys]
  constructor
  · refine Set.encard_le_encard fun k hk => ?_
    obtain ⟨v, hv⟩ := h.complete k hk
    exact List.mem_toFinset.mpr (List.mem_map_of_mem hv)
  · refine Set.encard_le_encard fun k hk => ?_
    obtain ⟨e, he, rfl⟩ := List.mem_map.mp (List.mem_toFinset.mp hk)
    obtain ⟨u, hu, heu⟩ := h.sound e he
    exact ⟨u, hu, e.2, heu⟩

theorem shardCount_next (hn : next hash s a = some t) : t.map.shardCount = s.map.shardCount := by
  cases a with
  | invoke c op => obtain ⟨-, ⟨_, -, rfl⟩ | ⟨_, -, rfl⟩⟩ := next_invoke hn <;> rfl
  | unhashable c op =>
      obtain ⟨-, rfl⟩ := next_unhashable hn
      rfl
  | eq c answer =>
      obtain ⟨op, _, _, _, -, ⟨-, rfl⟩ | ⟨_, -, rfl⟩⟩ := next_eq hn
      · rfl
      · rw [State.map_resume]
  | visit c order =>
      obtain ⟨op, i, acc, hi, -, hmap, -, -⟩ := next_visit hn
      rw [hmap]
      split <;> rfl
  | lock c =>
      obtain ⟨op, pc, slot, ctl, l, l', -, -, -, -, rfl⟩ := next_lock hn
      rw [State.map_resume]
      rfl

/-- What holds of the map under every interleaving. -/
theorem map_run {n : ℕ} {hn : 0 < n} (h : Run (next hash) (State.init (.empty n hn)) as s) :
    Placed hash s.map ∧ DistinctObjects s.map ∧ s.map.shardCount = n := by
  induction h with
  | nil => exact ⟨placed_empty n hn, fun h => (uniqueKeys_empty n hn).bucket h, rfl⟩
  | snoc _ _ hnext ih =>
      obtain ⟨hm, hd, hcount⟩ := ih
      exact ⟨placed_next hm hnext, distinctObjects_next hd hnext, (shardCount_next hnext).trans hcount⟩

/-- What a scanning call has read so far, or has reported. -/
inductive Reads (hash : K → UInt64) (s₀ : State C K V) (as : List (Act C K V)) (c : C) (n : ℕ) :
    CallState K V → Prop
  | scanning {op : WholeOp} {i : ℕ} {acc : List (K × V)} :
      (op ≠ .clear → Scanned hash s₀ as c op n i acc) → Reads hash s₀ as c n (.whole op i acc)
  | done {op : WholeOp} {r : PyResult (Ret K V)} :
      (op ≠ .clear → ∃ es, r = .ok (op.ret es) ∧ Snapshot hash s₀ as c op es) →
      Reads hash s₀ as c n (.done (.whole op) r)
  | other {x : CallState K V} : (∀ op i acc, x ≠ .whole op i acc) →
      (∀ op r, x ≠ .done (.whole op) r) → Reads hash s₀ as c n x

theorem Reads.snoc {n : ℕ} {x : CallState K V} (h : Reads hash s₀ as c n x) (a : Act C K V) :
    Reads hash s₀ (as ++ [a]) c n x := by
  cases h with
  | scanning hscan => exact .scanning fun hop => (hscan hop).snoc a
  | done hdone =>
      refine .done fun hop => ?_
      obtain ⟨es, hr, hes⟩ := hdone hop
      exact ⟨es, hr, hes.snoc a⟩
  | other hwhole hdone => exact .other hwhole hdone

theorem Reads.resume {n : ℕ} {kop : KeyOp K V} (ctl : Ctl K V) :
    Reads hash s₀ as c n ((s.resume c kop ctl).calls c) := by
  rw [State.calls_resume_self]
  cases ctl with
  | goto pc => exact .other (fun _ _ _ h => by cases h) fun _ _ h => by cases h
  | ret r => exact .other (fun _ _ _ h => by cases h) fun _ _ h => by cases h

end Pysync.Map
