import Pysync.MapSolo

/-!
The map refines a finite map from the classes of equal keys to values, call by call and whatever its
number of shards.
-/

namespace Pysync.Map
open Transition ConcurrentMap ListAtMostOne

variable {K V : Type} {hash : K → UInt64} {eqv : K → K → Bool}
variable {m m' : ConcurrentMap K V} {op : KeyOp K V} {l l' : Bucket K V} {r : Ret K V} {k : K}

/-- Keys are taken up to `==`. -/
def LawfulKeys.setoid (hk : LawfulKeys hash eqv) : Setoid K where
  r k k' := eqv k k' = true
  iseqv := ⟨hk.refl, hk.symm, hk.trans⟩

instance (hk : LawfulKeys hash eqv) : DecidableEq (Quotient hk.setoid) :=
  have : ∀ a b : K, Decidable (hk.setoid.r a b) := fun a b =>
    inferInstanceAs (Decidable (eqv a b = true))
  inferInstance

/-- The sequential operation on a finite map. -/
def KeyOp.apply {S : Setoid K} [DecidableEq (Quotient S)] (op : KeyOp K V) (A : ClassMap S V) :
    ClassMap S V × Ret K V :=
  let r := op.sequential (A.value op.key)
  (match r.1 with
    | some v => A.put op.key v
    | none => A.drop op.key, r.2)

section Apply

variable {S : Setoid K} [DecidableEq (Quotient S)]

theorem apply_lookup (hop : op.IsLookup) (B : ClassMap S V) :
    op.apply B = (B, op.lookupRet (B.value op.key)) := by
  unfold KeyOp.apply
  rw [sequential_lookup hop]
  dsimp only
  split
  · rename_i v hv
    rw [ClassMap.put_value hv]
  · rename_i hv
    rw [ClassMap.drop_absent hv]

@[simp] theorem apply_getVal (B : ClassMap S V) (key : K) :
    (KeyOp.getVal key).apply B = (B, .found (B.value key)) :=
  have hop : (KeyOp.getVal key : KeyOp K V).IsLookup := trivial
  apply_lookup hop B

@[simp] theorem apply_containsKey (B : ClassMap S V) (key : K) :
    (KeyOp.containsKey key).apply B = (B, .bool (B.value key).isSome) :=
  have hop : (KeyOp.containsKey key : KeyOp K V).IsLookup := trivial
  apply_lookup hop B

@[simp] theorem apply_set (B : ClassMap S V) (key : K) (value : V) :
    (KeyOp.set key value).apply B = (B.put key value, .unit) := rfl

@[simp] theorem apply_delete (B : ClassMap S V) (key : K) :
    (KeyOp.delete key).apply B = (B.drop key, .bool (B.value key).isSome) := rfl

@[simp] theorem apply_popVal (B : ClassMap S V) (key : K) :
    (KeyOp.popVal key).apply B = (B.drop key, .found (B.value key)) := rfl

@[simp] theorem apply_getOrInsert (B : ClassMap S V) (key : K) (dflt : V) :
    (KeyOp.getOrInsert key dflt).apply B = match B.value key with
      | some v => (B, .value v)
      | none => (B.put key dflt, .value dflt) := by
  unfold KeyOp.apply
  simp only [KeyOp.key]
  cases hv : B.value key with
  | none => rfl
  | some v =>
      simp only [KeyOp.sequential]
      rw [ClassMap.put_value hv]

end Apply

/-- The buckets of `m` hold the entries of `A`. -/
structure Represents (hk : LawfulKeys hash eqv) (m : ConcurrentMap K V)
    (A : ClassMap hk.setoid V) : Prop where
  placed : Placed hash m
  distinct : ∀ h, DistinctKeys eqv (m.bucket h)
  find : ∀ k, A.find k = (m.bucket (hash k)).find? fun e => eqv e.1 k

variable {hk : LawfulKeys hash eqv} {A : ClassMap hk.setoid V}

theorem represents_empty (hk : LawfulKeys hash eqv) (n : ℕ) (hn : 0 < n) :
    Represents hk (.empty n hn : ConcurrentMap K V) ∅ where
  placed := placed_empty n hn
  distinct h := by
    have hempty : (.empty n hn : ConcurrentMap K V).bucket h = [] := by
      simp [ConcurrentMap.bucket, ConcurrentMap.slot, ConcurrentMap.empty]
    rw [hempty]
    exact List.Pairwise.nil
  find k := by
    have hempty : (.empty n hn : ConcurrentMap K V).bucket (hash k) = [] := by
      simp [ConcurrentMap.bucket, ConcurrentMap.slot, ConcurrentMap.empty]
    rw [hempty]
    rfl

/-- The entries of a bucket with equal keys are one at most. -/
theorem LawfulKeys.oneEntry (hk : LawfulKeys hash eqv) (h : DistinctKeys eqv l) (k : K) :
    OneEntry eqv k l := by
  refine h.imp fun {e e'} hne heq => ?_
  by_contra hother
  rw [hk.trans heq (hk.symm (by simpa using hother))] at hne
  cases hne

theorem Represents.mem_items (h : Represents hk m A) {e : K × V} :
    e ∈ A.items ↔ e ∈ m.entries := by
  rw [ClassMap.mem_items, h.find, h.placed.mem_entries]
  constructor
  · exact List.mem_of_find?_eq_some
  · exact fun he => AtMostOne.find?_eq (hk.oneEntry (h.distinct _) e.1) he (hk.refl e.1)

/-- The finite map has the entries of the map. -/
theorem Represents.items (h : Represents hk m A) : A.items = m.entries :=
  (Multiset.Nodup.ext A.nodup_items
    (h.placed.nodup_entries fun x => nodup_bucket hk.refl (h.distinct x))).mpr fun _ => h.mem_items

section Outcome

theorem Outcome.distinct (h : Outcome eqv op l l' r)
    (hl : DistinctKeys eqv l) : DistinctKeys eqv l' := by
  cases h with
  | @found l₁ l₂ k v hsplit heq =>
      subst hsplit
      cases (op.sequential (some v)).1 with
      | none => simpa using hl.remove
      | some v' => simpa using hl.write
  | absent hnone =>
      cases (op.sequential none).1 with
      | none => simpa using hl
      | some v' => exact hl.push hnone

/-- In its bucket a call does what the operation does to the finite map. -/
theorem Outcome.find (h : Outcome eqv op l l' r) (hl : DistinctKeys eqv l)
    (hfind : ∀ k, hash k = hash op.key → A.find k = l.find? fun e => eqv e.1 k) :
    (∀ k, hash k = hash op.key → (op.apply A).1.find k = l'.find? fun e => eqv e.1 k) ∧
      r = (op.apply A).2 := by
  have hl' := h.distinct hl
  have hself := hfind op.key rfl
  unfold KeyOp.apply
  cases h with
  | @found l₁ l₂ k₀ v hsplit heq =>
      subst hsplit
      have hentry : A.find op.key = some (k₀, v) := by
        rw [hself]
        exact AtMostOne.find?_eq (hk.oneEntry hl op.key)
          (List.mem_append_right _ List.mem_cons_self) heq
      have hvalue : A.value op.key = some v := by
        rw [ClassMap.value, hentry]
        rfl
      rw [hvalue]
      refine ⟨fun k hkey => ?_, rfl⟩
      have hother : eqv k op.key = false → eqv k₀ k = false := by
        intro hne
        by_contra hk₀
        rw [hk.trans (hk.symm (by simpa using hk₀)) heq] at hne
        cases hne
      cases hop : (op.sequential (some v)).1 with
      | none =>
          rw [hop] at hl'
          simp only [hop, Option.map_none, Option.toList_none, List.append_nil] at hl' ⊢
          cases hclass : eqv k op.key with
          | true =>
              rw [ClassMap.find_drop A hclass]
              exact (find?_eq_none_of_others (hk.oneEntry hl k)
                (hk.trans heq (hk.symm hclass))).symm
          | false =>
              rw [ClassMap.find_drop_ne A (ne_true_of_eq_false hclass), hfind k hkey]
              exact find?_skip (p := fun e : K × V => eqv e.1 k) (hother hclass)
      | some v' =>
          rw [hop] at hl'
          simp only [hop, Option.map_some, Option.toList_some, List.append_assoc,
            List.singleton_append] at hl' ⊢
          cases hclass : eqv k op.key with
          | true =>
              rw [ClassMap.find_put A hclass, hentry]
              exact (AtMostOne.find?_eq (hk.oneEntry hl' k)
                (List.mem_append_right _ List.mem_cons_self)
                (hk.trans heq (hk.symm hclass))).symm
          | false =>
              have hskip := hother hclass
              rw [ClassMap.find_put_ne A (ne_true_of_eq_false hclass), hfind k hkey,
                find?_skip (p := fun e : K × V => eqv e.1 k) hskip,
                find?_skip (p := fun e : K × V => eqv e.1 k) hskip]
  | absent hnone =>
      have hentry : A.find op.key = none := by
        rw [hself]
        exact find?_eq_none_iff.mpr hnone
      have hvalue : A.value op.key = none := by
        rw [ClassMap.value, hentry]
        rfl
      rw [hvalue]
      refine ⟨fun k hkey => ?_, rfl⟩
      cases hop : (op.sequential none).1 with
      | none =>
          simp only [hop, Option.map_none, Option.toList_none, List.append_nil]
          rw [ClassMap.drop_absent hvalue]
          exact hfind k hkey
      | some v' =>
          rw [hop] at hl'
          simp only [hop, Option.map_some, Option.toList_some] at hl' ⊢
          cases hclass : eqv k op.key with
          | true =>
              rw [ClassMap.find_put A hclass, hentry]
              exact (AtMostOne.find?_eq (hk.oneEntry hl' k)
                (List.mem_append_right _ (List.mem_singleton.mpr rfl)) (hk.symm hclass)).symm
          | false =>
              have hskip : eqv op.key k = false := by
                by_contra hno
                rw [hk.symm (by simpa using hno)] at hclass
                cases hclass
              rw [ClassMap.find_put_ne A (ne_true_of_eq_false hclass), hfind k hkey,
                find?_skip (p := fun e : K × V => eqv e.1 k) hskip, List.append_nil]

end Outcome

section Call

/-- What the only call on the map `m` has done when it is over. -/
inductive Done (hash : K → UInt64) (eqv : K → K → Bool) (m m' : ConcurrentMap K V) :
    Op K V → PyResult (Ret K V) → Prop
  | keyed {op : KeyOp K V} {r : Ret K V} :
      Outcome eqv op (m.bucket (hash op.key)) (m'.bucket (hash op.key)) r →
      (∀ h, h ≠ hash op.key → m'.bucket h = m.bucket h) → Done hash eqv m m' (.keyed op) (.ok r)
  | scan {op : WholeOp} {acc : List (K × V)} : op ≠ .clear → m' = m →
      (acc : Multiset (K × V)) = m.entries → Done hash eqv m m' (.whole op) (.ok (op.ret acc))
  | clear : (∀ h, m'.bucket h = []) → Done hash eqv m m' (.whole .clear) (.ok .unit)

theorem Call.done [DecidableEq K] {o : Op K V} {x : PyResult (Ret K V)} (hk : LawfulKeys hash eqv)
    (hm : Placed hash m) (h : Call hash eqv m o m' x) : Placed hash m' ∧ Done hash eqv m m' o x := by
  obtain ⟨as, s, hrun, hdone, rfl⟩ := h
  refine ⟨hrun.placed hm, ?_⟩
  cases hrun.solo hk with
  | idle hc => cases hdone.symm.trans hc
  | keyed hc => cases hdone.symm.trans hc
  | scan _ hc => cases hdone.symm.trans hc
  | clear hc => cases hdone.symm.trans hc
  | keyedDone hc hout hothers =>
      cases hdone.symm.trans hc
      exact .keyed hout hothers
  | scanDone hop hc hmap hacc =>
      cases hdone.symm.trans hc
      exact .scan hop hmap hacc
  | clearDone hc hempty =>
      cases hdone.symm.trans hc
      exact .clear hempty

/-- A call on one key does what the operation does to the finite map. -/
theorem Call.keyed [DecidableEq K] {x : PyResult (Ret K V)} (hA : Represents hk m A)
    (h : Call hash eqv m (.keyed op) m' x) :
    Represents hk m' (op.apply A).1 ∧ x = .ok (op.apply A).2 := by
  obtain ⟨hplaced, hdone⟩ := h.done hk hA.placed
  cases hdone with
  | keyed hout hothers =>
      have hbefore : ∀ k, hash k = hash op.key →
          A.find k = (m.bucket (hash op.key)).find? fun e => eqv e.1 k := by
        intro k hkey
        rw [← hkey]
        exact hA.find k
      obtain ⟨hfind, hr⟩ := hout.find (hA.distinct _) hbefore
      refine ⟨⟨hplaced, fun h => ?_, fun k => ?_⟩, by rw [hr]⟩
      · by_cases hh : h = hash op.key
        · rw [hh]
          exact hout.distinct (hA.distinct _)
        · rw [hothers h hh]
          exact hA.distinct h
      · by_cases hh : hash k = hash op.key
        · rw [hh]
          exact hfind k hh
        · have hne : ¬ hk.setoid k op.key := fun heq => hh (hk.hash_eq heq)
          have hsame : (op.apply A).1.find k = A.find k := by
            unfold KeyOp.apply
            dsimp only
            split
            · exact ClassMap.find_put_ne A hne _
            · exact ClassMap.find_drop_ne A hne
          rw [hothers _ hh, hsame]
          exact hA.find k

/-- A scan other than `clear` returns the entries of the finite map, in some order. -/
theorem Call.scan [DecidableEq K] {op : WholeOp} {x : PyResult (Ret K V)} (hop : op ≠ .clear)
    (hA : Represents hk m A) (h : Call hash eqv m (.whole op) m' x) :
    m' = m ∧ ∃ es : List (K × V), (es : Multiset (K × V)) = A.items ∧ x = .ok (op.ret es) := by
  obtain ⟨-, hdone⟩ := h.done hk hA.placed
  cases hdone with
  | clear => exact absurd rfl hop
  | @scan _ acc _ hmap hacc => exact ⟨hmap, acc, hacc.trans hA.items.symm, rfl⟩

theorem Call.clear [DecidableEq K] {x : PyResult (Ret K V)} (hA : Represents hk m A)
    (h : Call hash eqv m (.whole .clear) m' x) : Represents hk m' ∅ ∧ x = .ok .unit := by
  obtain ⟨hplaced, hdone⟩ := h.done hk hA.placed
  generalize hr : x = r at hdone
  cases hdone with
  | scan hop => exact absurd rfl hop
  | clear hempty =>
      refine ⟨⟨hplaced, fun h => ?_, fun k => ?_⟩, rfl⟩
      · rw [hempty]
        exact List.Pairwise.nil
      · rw [hempty]
        rfl

end Call

end Pysync.Map
