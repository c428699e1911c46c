import Mathlib.Data.Finmap

/-!
Finite maps whose keys are taken up to an equivalence relation. With each class goes the key that it
was first stored under: storing again under an equal key replaces the value only.
-/

structure ClassMap {K : Type*} (S : Setoid K) (V : Type*) where
  table : Finmap fun _ : Quotient S => K × V
  keyed : ∀ q e, ⟨q, e⟩ ∈ table.entries → Quotient.mk S e.1 = q

namespace ClassMap

variable {K V : Type*} {S : Setoid K} {A B : ClassMap S V} {k k' : K} {v : V} {e : K × V}

instance : EmptyCollection (ClassMap S V) := ⟨∅, fun _ _ h => absurd h (Multiset.notMem_zero _)⟩

/-- The entries, in no order. -/
def items (A : ClassMap S V) : Multiset (K × V) := A.table.entries.map fun x => x.2

variable [DecidableEq (Quotient S)]

/-- The entry of the class of `k`. -/
def find (A : ClassMap S V) (k : K) : Option (K × V) := A.table.lookup (Quotient.mk S k)

def value (A : ClassMap S V) (k : K) : Option V := (A.find k).map Prod.snd

/-- Store `v` for the class of `k`. -/
def put (A : ClassMap S V) (k : K) (v : V) : ClassMap S V where
  table := A.table.insert (Quotient.mk S k) ((A.find k).elim k Prod.fst, v)
  keyed q e h := by
    rw [← Finmap.lookup_eq_some_iff] at h
    by_cases hq : q = Quotient.mk S k
    · subst hq
      obtain rfl := Option.some.inj ((Finmap.lookup_insert A.table).symm.trans h)
      cases hfind : A.find k with
      | none => rfl
      | some e => exact A.keyed _ e (Finmap.lookup_eq_some_iff.mp hfind)
    · rw [Finmap.lookup_insert_of_ne A.table hq] at h
      exact A.keyed q e (Finmap.lookup_eq_some_iff.mp h)

/-- Forget the class of `k`. -/
def drop (A : ClassMap S V) (k : K) : ClassMap S V where
  table := A.table.erase (Quotient.mk S k)
  keyed q e h := by
    rw [← Finmap.lookup_eq_some_iff] at h
    by_cases hq : q = Quotient.mk S k
    · subst hq
      cases (Finmap.lookup_erase _ A.table).symm.trans h
    · rw [Finmap.lookup_erase_ne hq] at h
      exact A.keyed q e (Finmap.lookup_eq_some_iff.mp h)

theorem find_congr (A : ClassMap S V) (h : S k k') : A.find k = A.find k' := by
  unfold find
  rw [Quotient.sound h]

theorem find_keyed (h : A.find k = some e) : S e.1 k :=
  Quotient.exact (A.keyed _ e (Finmap.lookup_eq_some_iff.mp h))

theorem ext_find (h : ∀ k, A.find k = B.find k) : A = B := by
  have htable : A.table = B.table := Finmap.ext_lookup fun q => Quotient.inductionOn q h
  cases A
  cases B
  cases htable
  rfl

theorem mem_items : e ∈ A.items ↔ A.find e.1 = some e := by
  unfold items find
  rw [Finmap.lookup_eq_some_iff, Multiset.mem_map]
  constructor
  · rintro ⟨⟨q, e'⟩, hmem, rfl⟩
    rw [A.keyed q e' hmem]
    exact hmem
  · intro h
    exact ⟨_, h, rfl⟩

omit [DecidableEq (Quotient S)] in
theorem nodup_items (A : ClassMap S V) : A.items.Nodup := by
  refine Multiset.Nodup.map_on ?_ A.table.nodup_entries
  rintro ⟨q, e⟩ hx ⟨q', e'⟩ hy (rfl : e = e')
  obtain rfl : q = q' := (A.keyed q e hx).symm.trans (A.keyed q' e hy)
  rfl

/-- An entry with a key of the class is the entry of the class. -/
theorem find_of_mem (h : e ∈ A.items) (hk : S e.1 k) : A.find k = some e :=
  (A.find_congr hk).symm.trans (mem_items.mp h)

theorem find_eq_none : A.find k = none ↔ ∀ e ∈ A.items, ¬ S e.1 k := by
  constructor
  · intro h e he hk
    cases h.symm.trans (find_of_mem he hk)
  · intro h
    cases hfind : A.find k with
    | none => rfl
    | some e =>
        have hk := find_keyed hfind
        exact absurd hk (h e (mem_items.mpr ((A.find_congr hk).trans hfind)))

theorem ext_items (h : A.items = B.items) : A = B := by
  refine ext_find fun k => ?_
  cases hfind : B.find k with
  | none => exact find_eq_none.mpr (h ▸ find_eq_none.mp hfind)
  | some e =>
      have hk := find_keyed hfind
      have he : e ∈ B.items := mem_items.mpr ((B.find_congr hk).trans hfind)
      exact find_of_mem (h ▸ he) hk

theorem find_put (A : ClassMap S V) (h : S k' k) (v : V) :
    (A.put k v).find k' = some ((A.find k).elim k Prod.fst, v) := by
  rw [find_congr _ h]
  exact Finmap.lookup_insert A.table

theorem find_put_ne (A : ClassMap S V) (h : ¬ S k' k) (v : V) : (A.put k v).find k' = A.find k' :=
  Finmap.lookup_insert_of_ne A.table fun hq => h (Quotient.exact hq)

theorem find_drop (A : ClassMap S V) (h : S k' k) : (A.drop k).find k' = none := by
  rw [find_congr _ h]
  exact Finmap.lookup_erase _ A.table

theorem find_drop_ne (A : ClassMap S V) (h : ¬ S k' k) : (A.drop k).find k' = A.find k' :=
  Finmap.lookup_erase_ne fun hq => h (Quotient.exact hq)

/-- Storing the value that is there changes nothing. -/
theorem put_value (h : A.value k = some v) : A.put k v = A := by
  obtain ⟨e, hfind, rfl⟩ := Option.map_eq_some_iff.mp h
  refine ext_find fun k' => ?_
  by_cases hk : S k' k
  · rw [find_put A hk, find_congr A hk, hfind]
    rfl
  · exact find_put_ne A hk _

theorem drop_absent (h : A.value k = none) : A.drop k = A := by
  refine ext_find fun k' => ?_
  by_cases hk : S k' k
  · rw [find_drop A hk, find_congr A hk]
    exact (Option.map_eq_none_iff.mp h).symm
  · exact find_drop_ne A hk

theorem items_put (h : A.find k = none) (v : V) : (A.put k v).items = (k, v) ::ₘ A.items := by
  have hnew : (k, v) ∉ A.items := fun hmem => by cases h.symm.trans (mem_items.mp hmem)
  refine (Multiset.Nodup.ext (A.put k v).nodup_items
    (Multiset.nodup_cons.mpr ⟨hnew, A.nodup_items⟩)).mpr fun e => ?_
  rw [Multiset.mem_cons, mem_items, mem_items]
  by_cases hk : S e.1 k
  · rw [find_put A hk, find_congr A hk, h]
    constructor
    · intro he
      exact .inl (Option.some.inj he).symm
    · rintro (rfl | he)
      · rfl
      · cases he
  · rw [find_put_ne A hk]
    constructor
    · exact .inr
    · rintro (rfl | he)
      · exact absurd (S.refl k) hk
      · exact he

omit [DecidableEq (Quotient S)] in
theorem items_empty : (∅ : ClassMap S V).items = 0 := rfl

/-- Storing pairs of other classes, one after another. -/
theorem items_foldl_put {es : List (K × V)} (hnew : ∀ e ∈ es, A.find e.1 = none)
    (hdistinct : es.Pairwise fun e e' => ¬ S e'.1 e.1) :
    (es.foldl (fun B e => B.put e.1 e.2) A).items = A.items + (es : Multiset (K × V)) := by
  induction es generalizing A with
  | nil => exact (add_zero _).symm
  | cons e es ih =>
      obtain ⟨hhead, htail⟩ := List.pairwise_cons.mp hdistinct
      have hnone := hnew e List.mem_cons_self
      rw [List.foldl_cons, ih ?_ htail, items_put hnone, ← Multiset.cons_coe, Multiset.cons_add,
        Multiset.add_cons]
      intro e' he'
      rw [find_put_ne A (hhead e' he')]
      exact hnew e' (List.mem_cons_of_mem _ he')

theorem eq_empty_of_items (h : A.items = 0) : A = ∅ := ext_items h

theorem value_of_mem (h : e ∈ A.items) (hk : S e.1 k) : A.value k = some e.2 := by
  rw [value, find_of_mem h hk]
  rfl

theorem exists_mem_of_value (h : A.value k = some v) : ∃ e ∈ A.items, S e.1 k ∧ e.2 = v := by
  obtain ⟨e, hfind, rfl⟩ := Option.map_eq_some_iff.mp h
  have hk := find_keyed hfind
  exact ⟨e, mem_items.mpr ((A.find_congr hk).trans hfind), hk, rfl⟩

omit [DecidableEq (Quotient S)] in
theorem card_items (A : ClassMap S V) : A.items.card = A.table.keys.card := by
  unfold items
  rw [Multiset.card_map]
  exact (Multiset.card_map _ _).symm

theorem mem_keys_iff : Quotient.mk S k ∈ A.table.keys ↔ (A.value k).isSome = true := by
  rw [Finmap.mem_keys, ← Finmap.lookup_isSome, value, Option.isSome_map]
  rfl

/-! ## Equality up to a relation of values -/

/-- The same classes, with related values. -/
def Agree (R : V → V → Prop) (A B : ClassMap S V) : Prop :=
  ∀ k, Option.Rel R (A.value k) (B.value k)

variable {R : V → V → Prop} {C : ClassMap S V}

theorem Agree.refl (hr : ∀ v, R v v) (A : ClassMap S V) : Agree R A A := by
  intro k
  cases A.value k with
  | none => exact .none
  | some v => exact .some (hr v)

theorem Agree.symm (hr : ∀ v w, R v w → R w v) (h : Agree R A B) : Agree R B A := by
  intro k
  have hk := h k
  revert hk
  generalize A.value k = x
  generalize B.value k = y
  rintro (hvw | _)
  · exact .some (hr _ _ hvw)
  · exact .none

theorem Agree.trans (hr : ∀ u v w, R u v → R v w → R u w) (h : Agree R A B) (h' : Agree R B C) :
    Agree R A C := by
  intro k
  have hk := h k
  have hk' := h' k
  revert hk hk'
  generalize A.value k = x
  generalize B.value k = y
  generalize C.value k = z
  rintro (huv | _) hk'
  · cases hk' with
    | some hvw => exact .some (hr _ _ _ huv hvw)
  · cases hk'
    exact .none

theorem Agree.keys (h : Agree R A B) : A.table.keys = B.table.keys := by
  ext q
  refine Quotient.inductionOn q fun k => ?_
  have hk := h k
  rw [mem_keys_iff, mem_keys_iff]
  revert hk
  generalize A.value k = x
  generalize B.value k = y
  rintro (_ | _) <;> exact Iff.rfl

/-- Maps that agree have equally many entries. -/
theorem Agree.card (h : Agree R A B) : A.items.card = B.items.card := by
  rw [card_items, card_items, h.keys]

/-- Of two maps with equally many entries it is enough to look up those of the one in the other. -/
theorem agree_of_card (hcard : A.items.card = B.items.card)
    (h : ∀ e ∈ A.items, ∃ w, B.value e.1 = some w ∧ R e.2 w) : Agree R A B := by
  have hsome : ∀ k v, A.value k = some v → ∃ w, B.value k = some w ∧ R v w := by
    intro k v hv
    obtain ⟨e, he, hk, rfl⟩ := exists_mem_of_value hv
    obtain ⟨w, hw, hr⟩ := h e he
    refine ⟨w, ?_, hr⟩
    rwa [value, B.find_congr hk] at hw
  have hsub : A.table.keys ⊆ B.table.keys := by
    intro q
    refine Quotient.inductionOn q fun k hk => ?_
    obtain ⟨v, hv⟩ := Option.isSome_iff_exists.mp (mem_keys_iff.mp hk)
    obtain ⟨w, hw, -⟩ := hsome k v hv
    rw [mem_keys_iff, hw]
    rfl
  rw [card_items, card_items] at hcard
  have hkeys := Finset.eq_of_subset_of_card_le hsub hcard.ge
  intro k
  cases hv : A.value k with
  | some v =>
      obtain ⟨w, hw, hr⟩ := hsome k v hv
      rw [hw]
      exact .some hr
  | none =>
      cases hw : B.value k with
      | none => exact .none
      | some w =>
          have hmem : Quotient.mk S k ∈ A.table.keys := by
            rw [hkeys, mem_keys_iff, hw]
            rfl
          rw [mem_keys_iff, hv] at hmem
          cases hmem

theorem agree_iff : Agree R A B ↔
    (∀ e ∈ A.items, ∃ e' ∈ B.items, S e.1 e'.1 ∧ R e.2 e'.2) ∧
      ∀ e' ∈ B.items, ∃ e ∈ A.items, S e.1 e'.1 ∧ R e.2 e'.2 := by
  constructor
  · intro h
    constructor
    · intro e he
      have hk := h e.1
      rw [value_of_mem he (S.refl _)] at hk
      generalize hw : B.value e.1 = y at hk
      cases hk with
      | some hr =>
          obtain ⟨e', he', hk, rfl⟩ := exists_mem_of_value hw
          exact ⟨e', he', S.symm hk, hr⟩
    · intro e' he'
      have hk := h e'.1
      rw [value_of_mem he' (S.refl _)] at hk
      generalize hv : A.value e'.1 = x at hk
      cases hk with
      | some hr =>
          obtain ⟨e, he, hk, rfl⟩ := exists_mem_of_value hv
          exact ⟨e, he, hk, hr⟩
  · rintro ⟨hleft, hright⟩ k
    cases hv : A.value k with
    | some v =>
        obtain ⟨e, he, hk, rfl⟩ := exists_mem_of_value hv
        obtain ⟨e', he', hk', hr⟩ := hleft e he
        rw [value_of_mem he' (S.trans (S.symm hk') hk)]
        exact .some hr
    | none =>
        cases hw : B.value k with
        | none => exact .none
        | some w =>
            obtain ⟨e', he', hk, rfl⟩ := exists_mem_of_value hw
            obtain ⟨e, he, hk', -⟩ := hright e' he'
            cases hv.symm.trans (value_of_mem he (S.trans hk' hk))

end ClassMap
