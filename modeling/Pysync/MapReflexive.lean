import Pysync.MapSolo

/-!
Keys that are not equal to themselves. A single thread works on the map, and a key matches an entry
when it is its object or compares equal to its key, as in a Python dictionary. The lookups compare
only: what the other methods find under a key object they find if and only if it equals itself.
-/

namespace Pysync.Map
open Transition ConcurrentMap

variable {K V : Type} [DecidableEq K] {hash : K → UInt64} {eqv : K → K → Bool}
variable {m m' : ConcurrentMap K V} {s t : State Unit K V} {a : Act Unit K V}
variable {as : List (Act Unit K V)} {op : KeyOp K V} {pc : Pc K V} {ctl : Ctl K V}
variable {l l' : Bucket K V} {k k' : K} {v w : V} {r : Ret K V} {ops : List (Op K V)}

/-- Identity or equality. -/
def dictRule (eqv : K → K → Bool) (k k' : K) : Bool := decide (k = k') || eqv k k'

/-- The maps that a single thread reaches from `m` by the calls `ops`. -/
inductive Session (hash : K → UInt64) (eqv : K → K → Bool) (m : ConcurrentMap K V) :
    List (Op K V) → ConcurrentMap K V → Prop
  | nil : Session hash eqv m [] m
  | snoc {ops : List (Op K V)} {m₁ m₂ : ConcurrentMap K V} {op : Op K V} {x : PyResult (Ret K V)} :
      Session hash eqv m ops m₁ → Call hash eqv m₁ op m₂ x → Session hash eqv m (ops ++ [op]) m₂

/-- The method returns on the map `m`, and acts on the entry of its own key object with the value `v`:
it returns what it would for this value, and writes or removes this entry if it writes or removes. -/
def Finds (hash : K → UInt64) (eqv : K → K → Bool) (m : ConcurrentMap K V) (op : KeyOp K V) (v : V) :
    Prop :=
  (∃ m' x, Call hash eqv m (.keyed op) m' x) ∧
  ∀ m' x, Call hash eqv m (.keyed op) m' x →
    x = .ok (op.sequential (some v)).2 ∧ (∀ h, h ≠ hash op.key → m'.bucket h = m.bucket h) ∧
    ∃ l₁ l₂, m.bucket (hash op.key) = l₁ ++ (op.key, v) :: l₂ ∧
      m'.bucket (hash op.key) =
        l₁ ++ ((op.sequential (some v)).1.map fun w => (op.key, w)).toList ++ l₂

theorem dictRule_eq_false {k k' : K} : dictRule eqv k k' = false ↔ k ≠ k' ∧ eqv k k' = false := by
  rw [dictRule, Bool.or_eq_false_iff, decide_eq_false_iff_not]

/-! ## What holds along a session -/

/-- No two entries of a bucket match. -/
def DistinctEntries (eqv : K → K → Bool) (m : ConcurrentMap K V) : Prop :=
  ∀ h, DistinctKeys (dictRule eqv) (m.bucket h)

theorem At.distinct (hat : At eqv op l pc) (hstep : LockStep op pc l l' ctl)
    (hl : DistinctKeys (dictRule eqv) l) : DistinctKeys (dictRule eqv) l' := by
  refine hstep.distinct hl fun checkedKeys hpc hall _ _ e he => ?_
  subst hpc
  obtain ⟨passed, rfl, hpassed, -⟩ := hat
  rw [List.append_nil] at he hall
  exact dictRule_eq_false.mpr ⟨(hall e he).2, hpassed e he⟩

theorem distinctEntries_next (hst : Standing hash eqv m s) (hd : DistinctEntries eqv s.map)
    (hlaw : Lawful eqv s a) (hn : next hash s a = some t) : DistinctEntries eqv t.map := by
  intro h
  cases a with
  | invoke c op => obtain ⟨-, ⟨_, -, rfl⟩ | ⟨_, -, rfl⟩⟩ := next_invoke hn <;> exact hd h
  | unhashable c op => exact hlaw.elim
  | eq c answer =>
      obtain ⟨op, _, _, _, -, ⟨-, rfl⟩ | ⟨_, -, rfl⟩⟩ := next_eq hn
      · exact hd h
      · rw [State.map_resume]
        exact hd h
  | visit c order =>
      obtain ⟨op, i, acc, hi, -, hmap, -, -⟩ := next_visit hn
      rw [hmap]
      split
      · rw [bucket_clearShard]
        split
        · exact List.Pairwise.nil
        · exact hd h
      · exact hd h
  | lock c =>
      obtain ⟨op, pc, slot, ctl, l, l', hc, hl, hl', hstep, rfl⟩ := next_lock hn
      obtain ⟨hsame, hat⟩ := hst.of_keyed hc
      rw [← hsame, hl] at hat
      rw [bucket_lock]
      split
      · rw [hl']
        exact hat.distinct hstep (hl ▸ hd _)
      · exact hd h

theorem SoloRun.distinctEntries (h : SoloRun hash eqv m as s) (hd : DistinctEntries eqv m) :
    DistinctEntries eqv s.map := by
  induction h with
  | nil => exact hd
  | snoc hr hlaw hn ih => exact distinctEntries_next (SoloRun.standing hr) ih hlaw hn

/-- The entries of a session lie where they belong, and no two of them match. -/
theorem Session.inv {n : ℕ} {hn : 0 < n} (h : Session hash eqv (.empty n hn) ops m) :
    Placed hash m ∧ DistinctEntries eqv m := by
  induction h with
  | nil => exact ⟨placed_empty n hn, fun h => (uniqueKeys_empty n hn).bucket h⟩
  | snoc _ hcall ih =>
      obtain ⟨as, s, hrun, -, rfl⟩ := hcall
      exact ⟨hrun.placed ih.1, hrun.distinctEntries ih.2⟩

/-! ## What a method finds -/

/-- An entry that compares equal to a key whose object has an entry is this one. -/
theorem entry_eq (hsymm : ∀ {k k'}, eqv k k' = true → eqv k' k = true)
    (hd : DistinctKeys (dictRule eqv) l) (hk : (k, v) ∈ l) (hk' : (k', w) ∈ l)
    (heq : eqv k' k = true ∨ k' = k) : (k', w) = (k, v) := by
  by_contra hne
  have hmatch : dictRule eqv k' k = true := by
    rw [dictRule, Bool.or_eq_true, decide_eq_true_iff]
    exact heq.symm
  have hsymm' : ∀ {x y : K}, dictRule eqv x y = true → dictRule eqv y x = true := by
    intro x y hxy
    rw [dictRule, Bool.or_eq_true, decide_eq_true_iff] at hxy ⊢
    exact hxy.imp Eq.symm hsymm
  have hstd : Std.Symm fun e e' : K × V => dictRule eqv e.1 e'.1 = false :=
    ⟨fun e e' hee => by
      by_contra htrue
      rw [hsymm' (Bool.not_eq_false _ ▸ htrue)] at hee
      cases hee⟩
  have hfalse := hd.forall hk' hk hne
  rw [hmatch] at hfalse
  cases hfalse

/-- A call that finds an entry finds that of its own key object, if there is one. -/
theorem Met.own (hsymm : ∀ {k k'}, eqv k k' = true → eqv k' k = true)
    (hd : DistinctKeys (dictRule eqv) l) (hv : (op.key, v) ∈ l) (hmet : Met eqv op l l' r)
    (hfind : eqv op.key op.key = true ∨ ¬ op.IsLookup) :
    r = (op.sequential (some v)).2 ∧ ∃ l₁ l₂, l = l₁ ++ (op.key, v) :: l₂ ∧
      l' = l₁ ++ ((op.sequential (some v)).1.map fun w => (op.key, w)).toList ++ l₂ := by
  cases hmet with
  | @found l₁ l₂ k w hl heq =>
      have hmem : (k, w) ∈ l := hl ▸ List.mem_append_right _ List.mem_cons_self
      have hentry := entry_eq hsymm hd hv hmem (heq.imp id And.left)
      cases hentry
      exact ⟨rfl, l₁, l₂, hl, rfl⟩
  | absent hall hnone =>
      rcases hfind with hrefl | hop
      · rw [hall _ hv] at hrefl
        cases hrefl
      · exact absurd rfl (hnone.resolve_left hop _ hv)

/-- A lookup does not find a key that differs from itself. -/
theorem Met.miss (hsymm : ∀ {k k'}, eqv k k' = true → eqv k' k = true)
    (hd : DistinctKeys (dictRule eqv) l) (hv : (op.key, v) ∈ l) (hmet : Met eqv op l l' r)
    (hirrefl : eqv op.key op.key = false) (hop : op.IsLookup) : r = op.lookupRet none := by
  cases hmet with
  | @found l₁ l₂ k w hl heq =>
      have hmem : (k, w) ∈ l := hl ▸ List.mem_append_right _ List.mem_cons_self
      have heq := heq.resolve_right fun hself => hself.2 hop
      cases entry_eq hsymm hd hv hmem (.inl heq)
      rw [hirrefl] at heq
      cases heq
  | absent hall _ => rw [sequential_lookup hop]

omit [DecidableEq K] in
theorem Met.of_nil (h : Met eqv op l l' r) (hl : l = []) :
    l' = ((op.sequential none).1.map fun v' => (op.key, v')).toList := by
  cases h with
  | found hfound =>
      rw [hl] at hfound
      simp at hfound
  | absent => rw [hl, List.nil_append]

theorem Call.met {m' : ConcurrentMap K V} {x : PyResult (Ret K V)}
    (h : Call hash eqv m (.keyed op) m' x) :
    ∃ r, x = .ok r ∧ Met eqv op (m.bucket (hash op.key)) (m'.bucket (hash op.key)) r ∧
      ∀ h, h ≠ hash op.key → m'.bucket h = m.bucket h := by
  obtain ⟨as, s, hrun, hc, rfl⟩ := h
  cases hrun.standing with
  | keyedDone hc' hmet hframe =>
      cases hc.symm.trans hc'
      exact ⟨_, rfl, hmet, hframe⟩
  | idle hc' => cases hc.symm.trans hc'
  | keyed hc' => cases hc.symm.trans hc'
  | whole hc' => cases hc.symm.trans hc'
  | wholeDone hc' => cases hc.symm.trans hc'

theorem Session.finds {n : ℕ} {hn : 0 < n} (hsymm : ∀ {k k'}, eqv k k' = true → eqv k' k = true)
    (hs : Session hash eqv (.empty n hn) ops m) (he : (op.key, v) ∈ m.entries)
    (hfind : eqv op.key op.key = true ∨ ¬ op.IsLookup) : Finds hash eqv m op v := by
  obtain ⟨hplaced, hd⟩ := hs.inv
  refine ⟨call_exists hash eqv m (.keyed op), fun m' x hcall => ?_⟩
  obtain ⟨r, rfl, hmet, hframe⟩ := hcall.met
  obtain ⟨hr, hbucket⟩ := hmet.own hsymm (hd _) (hplaced.mem_entries.mp he) hfind
  exact ⟨congrArg Except.ok hr, hframe, hbucket⟩

/-- In a session the methods on a key object that has an entry find it, all of them, if and only if
this key equals itself. -/
theorem finds_iff {n : ℕ} {hn : 0 < n} (hsymm : ∀ {k k'}, eqv k k' = true → eqv k' k = true)
    (hs : Session hash eqv (.empty n hn) ops m) (he : (k, v) ∈ m.entries) :
    (∀ op : KeyOp K V, op.key = k → Finds hash eqv m op v) ↔ eqv k k = true := by
  constructor
  · intro hfinds
    obtain ⟨hplaced, hd⟩ := hs.inv
    obtain ⟨⟨m', x, hcall⟩, hall⟩ := hfinds (.get k) rfl
    obtain ⟨r, rfl, hmet, -⟩ := hcall.met
    obtain ⟨hr, -⟩ := hall _ _ hcall
    by_contra hirrefl
    have hmiss : r = (KeyOp.get k : KeyOp K V).lookupRet none :=
      hmet.miss hsymm (hd _) (hplaced.mem_entries.mp he) (eq_false_of_ne_true hirrefl) trivial
    rw [hmiss] at hr
    cases hr
  · rintro hrefl op rfl
    exact hs.finds hsymm he (.inl hrefl)

/-- `set` on a new map, of a key that is equal to none. -/
theorem set_session :
    ∃ m, Session (fun _ : Bool => 0) (fun _ _ => false) (.empty 1 (by decide)) [.keyed (.set true 5)] m ∧
      (true, 5) ∈ m.entries := by
  obtain ⟨m, x, hcall⟩ := call_exists (fun _ : Bool => 0) (fun _ _ => false) (.empty 1 (by decide))
    (.keyed (.set true 5))
  have hs := Session.snoc .nil hcall
  refine ⟨m, hs, hs.inv.1.mem_entries.mpr ?_⟩
  obtain ⟨r, -, hmet, -⟩ := hcall.met
  have hbucket : m.bucket 0 = [(true, 5)] := hmet.of_nil rfl
  show (true, 5) ∈ m.bucket 0
  rw [hbucket]
  exact List.mem_singleton_self _

theorem finds_iff_irreflexive :
    ∃ m, Session (fun _ : Bool => 0) (fun _ _ => false) (.empty 1 (by decide)) [.keyed (.set true 5)] m ∧
      ((∀ op : KeyOp Bool ℕ, op.key = true → Finds (fun _ => 0) (fun _ _ => false) m op 5) ↔
        (fun _ _ : Bool => false) true true = true) := by
  obtain ⟨m, hs, he⟩ := set_session
  exact ⟨m, hs, finds_iff (fun h => h) hs he⟩

/-- A key that is in the map may be missed by the lookups. -/
theorem not_always_finds :
    ¬ ∀ (K V : Type) [DecidableEq K] (hash : K → UInt64) (eqv : K → K → Bool),
      (∀ {k k'}, eqv k k' = true → eqv k' k = true) →
      (∀ {k k' k''}, eqv k k' = true → eqv k' k'' = true → eqv k k'' = true) →
      ∀ (n : ℕ) (hn : 0 < n) (ops : List (Op K V)) (m : ConcurrentMap K V),
      Session hash eqv (.empty n hn) ops m → ∀ k v, (k, v) ∈ m.entries →
      ∀ op : KeyOp K V, op.key = k → Finds hash eqv m op v := by
  intro h
  obtain ⟨m, hs, he⟩ := set_session
  obtain ⟨⟨m', x, hcall⟩, hall⟩ := h Bool ℕ (fun _ => 0) (fun _ _ => false) (fun h => h)
    (fun h _ => h) 1 (by decide) _ m hs true 5 he (.get true) rfl
  obtain ⟨r, rfl, hmet, -⟩ := hcall.met
  obtain ⟨hr, -⟩ := hall _ _ hcall
  have hmiss : r = (KeyOp.get true : KeyOp Bool ℕ).lookupRet none :=
    hmet.miss id (hs.inv.2 _) (hs.inv.1.mem_entries.mp he) rfl trivial
  rw [hmiss] at hr
  cases hr

end Pysync.Map
