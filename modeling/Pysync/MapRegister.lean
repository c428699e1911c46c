import Pysync.MapLinear

/-!
Linearizability of all operations on one logical key, `set` included. One thing stands in the way: a
`set` that takes an object it had found equal, and that vanished and came back, for one that differs.
As long as no `set` on the key does that, each call on it is one atomic operation on one optional value.
-/

namespace Pysync.Map
open Transition ConcurrentMap ListAtMostOne

variable {C K V : Type} [DecidableEq C] [DecidableEq K]
variable {hash : K → UInt64} {eqv : K → K → Bool} {k₀ : K}

/-- A `set` of a key equal to `k₀` makes a stale push. -/
def StalePushOn (hash : K → UInt64) (eqv : K → K → Bool) (k₀ : K) (s : State C K V)
    (a : Act C K V) : Prop :=
  StalePush hash eqv s a ∧ ∃ op pc, s.calls a.call = .keyed op pc ∧ eqv op.key k₀ = true

/-- The calls considered: lawful, and no stale push on the class of `k₀`. -/
def FreshOn (hash : K → UInt64) (eqv : K → K → Bool) (k₀ : K) (s : State C K V)
    (a : Act C K V) : Prop :=
  Lawful eqv s a ∧ ¬ StalePushOn hash eqv k₀ s a

section Section

variable {op : KeyOp K V} {pc : Pc K V} {l l' l₁ l₂ : Bucket K V} {ctl : Ctl K V} {ret : Ret K V}

omit [DecidableEq K] in
theorem OneEntry.write {k : K} {v w : V} (h : OneEntry eqv k₀ (l₁ ++ (k, v) :: l₂)) :
    OneEntry eqv k₀ (l₁ ++ (k, w) :: l₂) := by
  simpa [AtMostOne, List.pairwise_append] using h

omit [DecidableEq K] in
theorem oneEntry_of_none (h : valueIn eqv k₀ l = none) (e : K × V) : OneEntry eqv k₀ (l ++ [e]) := by
  refine AtMostOne.append_singleton ?_ fun b hb hbk => ?_
  · exact List.pairwise_of_forall_mem_list fun a ha b hb _ => valueIn_eq_none.mp h b hb
  · rw [valueIn_eq_none.mp h b hb] at hbk
    cases hbk

/-- A section of a call on another class. -/
theorem LockStep.other (hk : LawfulKeys hash eqv) (hstep : LockStep op pc l l' ctl)
    (hone : OneEntry eqv k₀ l) (hkey : eqv op.key k₀ = false)
    (hhit : ∀ checkedKeys k, pc = .hit checkedKeys k → eqv k op.key = true) :
    OneEntry eqv k₀ l' ∧ valueIn eqv k₀ l' = valueIn eqv k₀ l ∧
      ∀ e ∈ l', eqv e.1 k₀ = true → ∃ e' ∈ l, e'.1 = e.1 := by
  cases hstep with
  | insertFast =>
      exact ⟨hone.push_other hkey, valueIn_push_other (l := []) hkey, mem_push_other (l := []) hkey⟩
  | insertLast => exact ⟨hone.push_other hkey, valueIn_push_other hkey, mem_push_other hkey⟩
  | orInsertLast => exact ⟨hone.push_other hkey, valueIn_push_other hkey, mem_push_other hkey⟩
  | write htarget =>
      rw [← hk.congr (htarget.matches hk hhit)] at hkey
      refine ⟨hone.write, ?_, fun e he heq => ?_⟩
      · rw [valueIn_skip hkey, valueIn_skip hkey]
      · rcases List.mem_append.mp he with he | he
        · exact ⟨e, List.mem_append_left _ he, rfl⟩
        · rcases List.mem_cons.mp he with rfl | he
          · rw [hkey] at heq
            cases heq
          · exact ⟨e, List.mem_append_right _ (List.mem_cons_of_mem _ he), rfl⟩
  | remove hop htarget =>
      rw [← hk.congr (htarget.matches hk hhit)] at hkey
      refine ⟨hone.remove, (valueIn_skip hkey).symm, fun e he _ => ⟨e, ?_, rfl⟩⟩
      rcases List.mem_append.mp he with he | he
      · exact List.mem_append_left _ he
      · exact List.mem_append_right _ (List.mem_cons_of_mem _ he)
  | _ => exact ⟨hone, rfl, fun e he _ => ⟨e, he, rfl⟩⟩

/-- The section says what held before: a lookup has used up its copies, or a removal has compared all
that is there. -/
inductive Late (op : KeyOp K V) (l : Bucket K V) : Pc K V → Ret K V → Prop
  | lookup {checkedKeys : List K} (hop : op.IsLookup) :
      Late op l (.compare checkedKeys []) (op.lookupRet none)
  | removal {checkedKeys : List K} (hop : op.IsRemoval) (hall : ∀ e ∈ l, e.1 ∈ checkedKeys) :
      Late op l (.compare checkedKeys []) (op.removeRet none)

/-- What a section of a call on the class does to the value: nothing if the call goes on, otherwise
what the sequential operation does. -/
def Performs (eqv : K → K → Bool) (k₀ : K) (op : KeyOp K V) (pc : Pc K V) (l l' : Bucket K V) :
    Ctl K V → Prop
  | .goto _ => l' = l
  | .ret ret => op.sequential (valueIn eqv k₀ l) = (valueIn eqv k₀ l', ret) ∨
      l' = l ∧ Late op l pc ret

/-- A section of a call on the class, when an appended key is not next to an equal one. -/
theorem LockStep.own (hk : LawfulKeys hash eqv) (hstep : LockStep op pc l l' ctl)
    (hone : OneEntry eqv k₀ l) (hkey : eqv op.key k₀ = true)
    (hhit : ∀ checkedKeys k, pc = .hit checkedKeys k → eqv k op.key = true)
    (hfresh : ∀ checkedKeys, pc = .compare checkedKeys [] → ¬ op.IsLookup → ¬ op.IsRemoval →
      (∀ e ∈ l, e.1 ∈ checkedKeys ∧ e.1 ≠ op.key) → valueIn eqv k₀ l = none) :
    OneEntry eqv k₀ l' ∧ Performs eqv k₀ op pc l l' ctl ∧
      ∀ e ∈ l', (∃ e' ∈ l, e'.1 = e.1) ∨ valueIn eqv k₀ l = none := by
  have hold : ∀ e ∈ l, (∃ e' ∈ l, e'.1 = e.1) ∨ valueIn eqv k₀ l = none :=
    fun e he => .inl ⟨e, he, rfl⟩
  cases hstep with
  | snapshot | collect | retry | slow | miss => exact ⟨hone, rfl, hold⟩
  | exhausted hop => exact ⟨hone, .inr ⟨rfl, .lookup hop⟩, hold⟩
  | absentFast hop => exact ⟨hone, .inl (sequential_removal hop _), hold⟩
  | absentLast hop hall => exact ⟨hone, .inr ⟨rfl, .removal hop hall⟩, hold⟩
  | @insertFast key value =>
      refine ⟨oneEntry_of_none (l := []) rfl _, .inl ?_, fun _ _ => .inr rfl⟩
      rw [valueIn_cons_self hkey]
      rfl
  | @insertLast key value checkedKeys _ hall hne =>
      have hnone := hfresh _ rfl id id fun e he => ⟨hall e he, hne e he⟩
      refine ⟨oneEntry_of_none hnone _, .inl ?_, fun _ _ => .inr hnone⟩
      rw [valueIn_push hnone hkey]
      rfl
  | @orInsertLast key dflt checkedKeys _ hall hne =>
      have hnone := hfresh _ rfl id id fun e he => ⟨hall e he, hne e he⟩
      refine ⟨oneEntry_of_none hnone _, .inl ?_, fun _ _ => .inr hnone⟩
      rw [valueIn_push hnone hkey, hnone]
      rfl
  | @getLast key dflt v checkedKeys l₁ l₂ hall =>
      refine ⟨hone, .inl ?_, hold⟩
      rw [hone.valueIn_eq (List.mem_append_right _ List.mem_cons_self) hkey]
      rfl
  | @write key k value old _ l₁ l₂ htarget =>
      have hkk : eqv k k₀ = true := (hk.congr (htarget.matches hk hhit)).trans hkey
      have hwritten : valueIn eqv k₀ (l₁ ++ (k, value) :: l₂) = some value :=
        hone.write.valueIn_eq (List.mem_append_right _ List.mem_cons_self) hkk
      refine ⟨hone.write, .inl ?_, fun e he => .inl ?_⟩
      · rw [hwritten]
        rfl
      · rcases List.mem_append.mp he with he | he
        · exact ⟨e, List.mem_append_left _ he, rfl⟩
        · rcases List.mem_cons.mp he with rfl | he
          · exact ⟨_, List.mem_append_right _ List.mem_cons_self, rfl⟩
          · exact ⟨e, List.mem_append_right _ (List.mem_cons_of_mem _ he), rfl⟩
  | @remove _ k v _ l₁ l₂ hop htarget =>
      have hkk : eqv k k₀ = true := (hk.congr (htarget.matches hk hhit)).trans hkey
      refine ⟨hone.remove, .inl ?_, fun e he => .inl ⟨e, ?_, rfl⟩⟩
      · rw [hone.valueIn_eq (List.mem_append_right _ List.mem_cons_self) hkk,
          hone.valueIn_removed hkk, sequential_removal hop]
      · rcases List.mem_append.mp he with he | he
        · exact List.mem_append_left _ he
        · exact List.mem_append_right _ (List.mem_cons_of_mem _ he)

end Section

section Run

variable {s t : State C K V} {a : Act C K V} {c : C} {op : KeyOp K V} {pc : Pc K V}
variable {as : List (Act C K V)} {n : ℕ} {hn₀ : 0 < n}

/-- What holds of the class of `k₀` in every state of the runs considered. -/
structure FreshInv (hash : K → UInt64) (eqv : K → K → Bool) (k₀ : K) (s : State C K V) : Prop where
  one : OneEntry eqv k₀ (s.map.bucket (hash k₀))
  hits : ∀ c op checkedKeys k, s.calls c = .keyed op (.hit checkedKeys k) → eqv k op.key = true
  compared : Compared eqv s

omit [DecidableEq C] [DecidableEq K] in
theorem freshInv_init (n : ℕ) (hn : 0 < n) :
    FreshInv hash eqv k₀ (State.init (.empty n hn) : State C K V) := by
  have h : ClassInv hash eqv k₀ (State.init (.empty n hn) : State C K V) := classInv_init n hn
  exact ⟨h.one, h.hits, h.compared⟩

omit [DecidableEq C] in
/-- A locked section of a call on the class. -/
theorem FreshInv.own (hk : LawfulKeys hash eqv) (h : FreshInv hash eqv k₀ s)
    (hfresh : ¬ StalePushOn hash eqv k₀ s (.lock c)) (hc : s.calls c = .keyed op pc)
    (hkey : eqv op.key k₀ = true) {l l' : Bucket K V} {ctl : Ctl K V}
    (hl : s.map.bucket (hash op.key) = l) (hstep : LockStep op pc l l' ctl) :
    OneEntry eqv k₀ l' ∧ Performs eqv k₀ op pc l l' ctl ∧
      ∀ e ∈ l', (∃ e' ∈ l, e'.1 = e.1) ∨ valueIn eqv k₀ l = none := by
  have hone : OneEntry eqv k₀ l := by
    rw [← hl, hk.hash_eq hkey]
    exact h.one
  refine hstep.own hk hone hkey (fun checkedKeys k hpc => h.hits c op checkedKeys k (hpc ▸ hc)) ?_
  rintro checkedKeys rfl hlookup hremoval hall
  refine valueIn_eq_none.mpr fun e he => ?_
  by_contra heq
  have hek : eqv e.1 op.key = true := by
    rw [hk.congr' hkey]
    simpa using heq
  cases op with
  | set key value =>
      refine hfresh ⟨?_, _, _, hc, hkey⟩
      exact ⟨key, value, checkedKeys, hc, hl ▸ hall, e, hl ▸ he, hek⟩
  | getOrInsert key dflt =>
      have hdiff := h.compared c key dflt _ hc e.1 (hall e he).1
      exact Bool.false_ne_true (hdiff.symm.trans hek)
  | delete key | popVal key => exact hremoval trivial
  | get key | getVal key | containsKey key => exact hlookup trivial

/-- What one step may do to the class of `k₀`. -/
structure RegisterStep (hash : K → UInt64) (eqv : K → K → Bool) (k₀ : K) (s : State C K V)
    (a : Act C K V) (t : State C K V) : Prop where
  one : OneEntry eqv k₀ (t.map.bucket (hash k₀))
  appeared : ∀ e ∈ t.map.bucket (hash k₀), eqv e.1 k₀ = true →
    (∃ e' ∈ s.map.bucket (hash k₀), e'.1 = e.1) ∨ valueOf hash eqv k₀ s.map = none
  changes : valueOf hash eqv k₀ t.map ≠ valueOf hash eqv k₀ s.map →
    (∃ c order i acc, a = .visit c order ∧ s.calls c = .whole .clear i acc ∧
      (s.map.index (hash k₀)).val = i) ∨
    ∃ c op pc ret, a = .lock c ∧ eqv op.key k₀ = true ∧ s.calls c = .keyed op pc ∧
      t.calls c = .done (.keyed op) (.ok ret) ∧
      op.sequential (valueOf hash eqv k₀ s.map) = (valueOf hash eqv k₀ t.map, ret)

omit [DecidableEq C] [DecidableEq K] in
theorem RegisterStep.same (hone : OneEntry eqv k₀ (s.map.bucket (hash k₀)))
    (h : t.map.bucket (hash k₀) = s.map.bucket (hash k₀)) : RegisterStep hash eqv k₀ s a t where
  one := h ▸ hone
  appeared e he _ := .inl ⟨e, h ▸ he, rfl⟩
  changes hne := (hne (by rw [valueOf, valueOf, h])).elim

theorem FreshInv.lock (hk : LawfulKeys hash eqv) (h : FreshInv hash eqv k₀ s)
    (hfresh : ¬ StalePushOn hash eqv k₀ s (.lock c)) (hn : next hash s (.lock c) = some t) :
    RegisterStep hash eqv k₀ s (.lock c) t := by
  obtain ⟨op, pc, slot, ctl, l, l', hc, hl, hl', hstep, rfl⟩ := next_lock hn
  have hbucket := bucket_setSlot s.map (hash op.key) (hash k₀) slot
  by_cases hhash : hash k₀ = hash op.key
  swap
  · rw [if_neg hhash] at hbucket
    exact .same h.one (by rw [State.map_resume]; exact hbucket)
  rw [if_pos hhash, hl'] at hbucket
  have hone : OneEntry eqv k₀ l := by
    rw [← hl, ← hhash]
    exact h.one
  have hs : s.map.bucket (hash k₀) = l := by rw [hhash, hl]
  have ht : (State.resume { s with map := s.map.setSlot (hash op.key) slot } c op ctl).map.bucket
      (hash k₀) = l' := by rw [State.map_resume, hbucket]
  cases hkey : eqv op.key k₀ with
  | false =>
      obtain ⟨hone', hvalue, hkeys⟩ := hstep.other hk hone hkey
        fun checkedKeys k hpc => h.hits c op checkedKeys k (hpc ▸ hc)
      refine ⟨by rwa [ht], fun e he heq => .inl ?_, fun hne => (hne ?_).elim⟩
      · rw [ht] at he
        rw [hs]
        exact hkeys e he heq
      · rw [valueOf, valueOf, ht, hs, hvalue]
  | true =>
      obtain ⟨hone', hperforms, hkeys⟩ := h.own hk hfresh hc hkey hl hstep
      refine ⟨by rwa [ht], fun e he _ => ?_, fun hne => .inr ?_⟩
      · rw [ht] at he
        rw [valueOf, hs]
        exact hkeys e he
      · rw [valueOf, valueOf, ht, hs] at hne ⊢
        cases ctl with
        | goto pc' => exact (hne (by rw [hperforms])).elim
        | ret ret =>
            rcases hperforms with hnow | ⟨hsame, -⟩
            · exact ⟨c, op, pc, ret, rfl, hkey, hc, State.calls_resume_self _ c _ _, hnow⟩
            · exact (hne (by rw [hsame])).elim

theorem FreshInv.step (hk : LawfulKeys hash eqv) (h : FreshInv hash eqv k₀ s)
    (hlaw : FreshOn hash eqv k₀ s a) (hn : next hash s a = some t) :
    RegisterStep hash eqv k₀ s a t := by
  cases a with
  | invoke c op =>
      obtain ⟨-, ⟨_, -, rfl⟩ | ⟨_, -, rfl⟩⟩ := next_invoke hn <;> exact .same h.one rfl
  | unhashable c op => exact hlaw.1.elim
  | eq c answer =>
      obtain ⟨op, _, _, _, -, ⟨-, rfl⟩ | ⟨_, -, rfl⟩⟩ := next_eq hn
      · exact .same h.one rfl
      · exact .same h.one (by rw [State.map_resume])
  | lock c => exact h.lock hk hlaw.2 hn
  | visit c order =>
      obtain ⟨op, i, acc, hi, hc, hmap, -, -⟩ := next_visit hn
      by_cases hclear : op = .clear ∧ s.map.index (hash k₀) = ⟨i, hi⟩
      swap
      · refine .same h.one ?_
        rw [hmap]
        split
        · rename_i hop
          rw [bucket_clearShard, if_neg fun hidx => hclear ⟨hop, hidx⟩]
        · rfl
      obtain ⟨rfl, hidx⟩ := hclear
      have hempty : t.map.bucket (hash k₀) = [] := by
        rw [hmap, if_pos rfl, bucket_clearShard, if_pos hidx]
      refine ⟨by rw [hempty]; exact List.Pairwise.nil, fun e he => ?_, fun _ => .inl ?_⟩
      · rw [hempty] at he
        cases he
      · exact ⟨c, order, i, acc, rfl, hc, congrArg Fin.val hidx⟩

theorem FreshInv.next (hk : LawfulKeys hash eqv) (h : FreshInv hash eqv k₀ s)
    (hlaw : FreshOn hash eqv k₀ s a) (hn : next hash s a = some t) : FreshInv hash eqv k₀ t where
  one := (h.step hk hlaw hn).one
  hits := hits_next h.hits hlaw.1 hn
  compared := compared_next h.compared hlaw.1 hn

theorem freshInv_run (hk : LawfulKeys hash eqv)
    (hrun : RunWith (next hash) (FreshOn hash eqv k₀) (State.init (.empty n hn₀)) as s) :
    FreshInv hash eqv k₀ s :=
  hrun.invariant (freshInv_init n hn₀) fun _ _ _ h hlaw hn => h.next hk hlaw hn

theorem tidy_freshOn (hk : LawfulKeys hash eqv) :
    Tidy hash eqv k₀ (FreshOn hash eqv k₀ : State C K V → Act C K V → Prop)
      (State.init (.empty n hn₀)) where
  lawful _ _ h := h.1
  one _ _ hr := (freshInv_run hk hr).one
  appeared _ _ _ _ hr hlaw hn k hkk hin := by
    obtain ⟨e, he, rfl⟩ := hin
    exact ((freshInv_run hk hr).step hk hlaw hn).appeared e he hkk

/-- A late answer is right for some moment of the call. -/
theorem Late.linearized (hk : LawfulKeys hash eqv)
    (hrun : RunWith (next hash) (FreshOn hash eqv k₀) (State.init (.empty n hn₀)) as s)
    (hkey : eqv op.key k₀ = true) (hc : s.calls c = .keyed op pc) {l : Bucket K V} {ret : Ret K V}
    (hl : s.map.bucket (hash op.key) = l) (h : Late op l pc ret) :
    Since (next hash) (State.init (.empty n hn₀)) as (.invoke c (.keyed op)) fun u =>
      op.sequential (valueOf hash eqv k₀ u.map) = (valueOf hash eqv k₀ u.map, ret) := by
  have hP : Tidy hash eqv k₀ (FreshOn hash eqv k₀ : State C K V → Act C K V → Prop)
      (State.init (.empty n hn₀)) := tidy_freshOn hk
  cases h with
  | lookup hop =>
      refine (lookup_run hk hP hrun c op _ [] hop hkey hc).mono fun u hu => ?_
      rw [sequential_lookup hop, hu]
      rfl
  | removal hop hall =>
      by_cases hnone : valueIn eqv k₀ l = none
      · refine Since.now (invoked_run hrun c op _ hc) hrun ?_
        have hs : valueOf hash eqv k₀ s.map = none := by rw [valueOf, ← hk.hash_eq hkey, hl, hnone]
        rw [sequential_removal hop, hs]
      · obtain ⟨e, he, hek⟩ : ∃ e ∈ l, eqv e.1 k₀ = true := by
          by_contra hcon
          refine hnone (valueIn_eq_none.mpr fun e he => ?_)
          by_contra hek
          exact hcon ⟨e, he, by simpa using hek⟩
        have hin : ∃ e' ∈ s.map.bucket (hash k₀), e'.1 = e.1 := by
          rw [← hk.hash_eq hkey, hl]
          exact ⟨e, he, rfl⟩
        refine (removal_run hk hP hrun c op _ hop hkey hc e.1 (hall e he) hek
          (fun _ h => by cases h) hin).mono fun u hu => ?_
        rw [sequential_removal hop, hu]

/-- A call on the class that returns does so as one atomic operation. -/
theorem linearized_return (hk : LawfulKeys hash eqv)
    (hrun : RunWith (next hash) (FreshOn hash eqv k₀) (State.init (.empty n hn₀)) as s)
    (hlaw : FreshOn hash eqv k₀ s a) (hn : next hash s a = some t) (hkey : eqv op.key k₀ = true)
    (hs : s.calls c = .keyed op pc) {r : PyResult (Ret K V)} (ht : t.calls c = .done (.keyed op) r) :
    ∃ ret, r = .ok ret ∧ Linearized hash eqv k₀ (State.init (.empty n hn₀)) as s t c op ret := by
  have hinv := freshInv_run hk hrun
  obtain ⟨-, hret⟩ := ret_step hn hs ht
  cases hret with
  | raise ha =>
      subst ha
      obtain ⟨_, _, _, _, hc, -⟩ := next_eq hn
      cases hlaw.1.answer hc
  | @eq checkedKeys e rest b ret ha hcompare hmap honEq =>
      subst ha hcompare
      have hans := Option.some.inj (hlaw.1.answer hs)
      exact ⟨ret, rfl, .inr ⟨by rw [hmap],
        linearized_eq hk (tidy_freshOn hk) hrun hkey hs hans honEq⟩⟩
  | @lock l l' ret ha hl hl' hlock =>
      subst ha
      refine ⟨ret, rfl, ?_⟩
      have hvalue : valueOf hash eqv k₀ s.map = valueIn eqv k₀ l := by
        rw [valueOf, ← hk.hash_eq hkey, hl]
      have hvalue' : valueOf hash eqv k₀ t.map = valueIn eqv k₀ l' := by
        rw [valueOf, ← hk.hash_eq hkey, hl']
      obtain ⟨-, hnow | ⟨rfl, hlate⟩, -⟩ := hinv.own hk hlaw.2 hs hkey hl hlock
      · exact .inl (by rw [hvalue, hvalue', hnow])
      · exact .inr ⟨hvalue'.trans hvalue.symm, hlate.linearized hk hrun hkey hs hl⟩

end Run

/-- All operations on a class of equal keys, in any number of shards and under any interleaving with
operations on other keys: as long as no `set` on the class makes a stale push, the class has one entry,
each call on it that returns does so as one atomic operation on the value, performed at an instant
between its invocation and its return, and the value changes at no other instant but a `clear`. -/
theorem linearizable_register (hash : K → UInt64) (eqv : K → K → Bool) (hk : LawfulKeys hash eqv)
    (k₀ : K) (n : ℕ) (hn₀ : 0 < n) (as : List (Act C K V)) (s t : State C K V) (a : Act C K V)
    (hrun : RunWith (next hash) (FreshOn hash eqv k₀) (State.init (.empty n hn₀)) as s)
    (hlaw : FreshOn hash eqv k₀ s a) (hn : next hash s a = some t) :
    OneEntry eqv k₀ (t.map.bucket (hash k₀)) ∧
    (∀ c op pc r, eqv op.key k₀ = true → s.calls c = .keyed op pc →
      t.calls c = .done (.keyed op) r → ∃ ret, r = .ok ret ∧
        Linearized hash eqv k₀ (State.init (.empty n hn₀)) as s t c op ret) ∧
    (valueOf hash eqv k₀ t.map ≠ valueOf hash eqv k₀ s.map →
      (∃ c order i acc, a = .visit c order ∧ s.calls c = .whole .clear i acc ∧
        (s.map.index (hash k₀)).val = i) ∨
      ∃ c op pc ret, a = .lock c ∧ eqv op.key k₀ = true ∧ s.calls c = .keyed op pc ∧
        t.calls c = .done (.keyed op) (.ok ret) ∧
        op.sequential (valueOf hash eqv k₀ s.map) = (valueOf hash eqv k₀ t.map, ret)) := by
  have hstep := (freshInv_run hk hrun).step hk hlaw hn
  exact ⟨hstep.one, fun c op pc r hkey hs ht => linearized_return hk hrun hlaw hn hkey hs ht, hstep.changes⟩

/-- `set(true)` finds key object `false` equal, whose entry is deleted before it comes back: it inserts
its own key. -/
def overtakenTrace : List (Act ℕ Bool ℕ) :=
  [.invoke 0 (.keyed (.set false 0)), .lock 0,
   .invoke 1 (.keyed (.set true 1)), .lock 1, .lock 1, .eq 1 (some true),
   .invoke 2 (.keyed (.delete false)), .lock 2, .lock 1, .lock 1]

/-- The bucket is empty when the last pass of a `set` is over. -/
def emptyAtLast (s : State ℕ Bool ℕ) : Act ℕ Bool ℕ → Bool
  | .lock c => match s.calls c with
      | .keyed (.set _ _) (.compare _ []) => s.map.bucket 0 = []
      | _ => true
  | _ => true

theorem freshOn_of_emptyAtLast {s : State ℕ Bool ℕ} {a : Act ℕ Bool ℕ}
    (hlaw : Lawful (fun _ _ => true) s a) (h : emptyAtLast s a = true) :
    FreshOn (fun _ => 0) (fun _ _ => true) false s a := by
  refine ⟨hlaw, fun hstale => ?_⟩
  cases a with
  | lock c =>
      obtain ⟨key, value, checkedKeys, hc, -, e, he, -⟩ := hstale.1
      simp only [emptyAtLast, hc, decide_eq_true_eq] at h
      rw [h] at he
      cases he
  | _ => exact hstale.1

theorem overtakenTrace_exec :
    (exec (next fun _ : Bool => 0)
      (fun s a => Lawful (fun _ _ => true) s a ∧ emptyAtLast s a = true)
      (State.init (.empty 1 (by decide))) overtakenTrace).map
        (fun s => decide (s.calls 1 = .done (.keyed (.set true 1)) (.ok .unit) ∧
          s.map.bucket 0 = [(true, 1)])) = some true := by
  decide +kernel

theorem linearizable_overtakenTrace :
    ∃ s t, next (fun _ : Bool => 0) s (.lock 1) = some t ∧
      t.calls 1 = .done (.keyed (.set true 1)) (.ok .unit) ∧
      Linearized (fun _ => 0) (fun _ _ => true) false (State.init (.empty 1 (by decide)))
        overtakenTrace.dropLast s t (1 : ℕ) (.set true 1) (.unit : Ret Bool ℕ) := by
  obtain ⟨t, hrun, ht⟩ := exists_runWith_of_exec overtakenTrace_exec
  have hsplit : overtakenTrace = overtakenTrace.dropLast ++ [.lock 1] := rfl
  rw [hsplit] at hrun
  obtain ⟨s, hs, hlaw, hn⟩ := (hrun.mono fun _ _ h => freshOn_of_emptyAtLast h.1 h.2).snoc_inv
  obtain ⟨hdone, -⟩ := of_decide_eq_true ht
  refine ⟨s, t, hn, hdone, ?_⟩
  obtain ⟨op, pc, -, -, -, -, hc, -⟩ := next_lock hn
  have hop : op = .set true 1 := by
    obtain ⟨hop, -⟩ := ret_step hn hc hdone
    cases hop
    rfl
  subst hop
  obtain ⟨-, hlin, -⟩ := linearizable_register (fun _ : Bool => 0) (fun _ _ => true)
    ⟨fun _ => rfl, fun _ => rfl, fun _ _ => rfl, fun _ => rfl⟩ false 1 (by decide) _ s t _ hs hlaw hn
  obtain ⟨ret, hret, hlin⟩ := hlin 1 _ pc _ rfl hc hdone
  cases hret
  exact hlin

section Kept

variable {s t : State C K V} {a : Act C K V} {as : List (Act C K V)} {n : ℕ} {hn₀ : 0 < n}

/-- The key object is in the bucket of the class. -/
def Here (hash : K → UInt64) (k₀ : K) (s : State C K V) (k : K) : Prop :=
  ∃ e ∈ s.map.bucket (hash k₀), e.1 = k

/-- What a `set` on a class that nobody removes from knows: what it has compared differs from its key,
and what it has found equal or may find equal is there. -/
def SetKnows (hash : K → UInt64) (eqv : K → K → Bool) (k₀ : K) (s : State C K V) (key : K) :
    Pc K V → Prop
  | .fast => True
  | .collect checkedKeys => ∀ k ∈ checkedKeys, eqv k key = false
  | .compare checkedKeys candidates => (∀ k ∈ checkedKeys, eqv k key = false) ∧
      ∀ e ∈ candidates, eqv e.1 k₀ = true → Here hash k₀ s e.1
  | .hit _ k => Here hash k₀ s k

structure KeptInv (hash : K → UInt64) (eqv : K → K → Bool) (k₀ : K) (s : State C K V) : Prop where
  hits : ∀ c op checkedKeys k, s.calls c = .keyed op (.hit checkedKeys k) → eqv k op.key = true
  noRemovals : NoRemovals eqv k₀ s
  sets : ∀ c key value pc, s.calls c = .keyed (.set key value) pc → eqv key k₀ = true →
    SetKnows hash eqv k₀ s key pc

/-- A section of a call that does not remove from the class leaves its keys where they are. -/
theorem LockStep.keeps (hk : LawfulKeys hash eqv) {op : KeyOp K V} {pc : Pc K V} {l l' : Bucket K V}
    {ctl : Ctl K V} (hstep : LockStep op pc l l' ctl)
    (hremoval : op.IsRemoval → eqv op.key k₀ = false)
    (hhit : ∀ checkedKeys k, pc = .hit checkedKeys k → eqv k op.key = true) {e : K × V} (he : e ∈ l)
    (hek : eqv e.1 k₀ = true) : ∃ e' ∈ l', e'.1 = e.1 := by
  cases hstep with
  | insertFast => cases he
  | insertLast | orInsertLast => exact ⟨e, List.mem_append_left _ he, rfl⟩
  | write =>
      rcases List.mem_append.mp he with he | he
      · exact ⟨e, List.mem_append_left _ he, rfl⟩
      · rcases List.mem_cons.mp he with rfl | he
        · exact ⟨_, List.mem_append_right _ List.mem_cons_self, rfl⟩
        · exact ⟨e, List.mem_append_right _ (List.mem_cons_of_mem _ he), rfl⟩
  | remove hop htarget =>
      have hother := hremoval hop
      rw [← hk.congr (htarget.matches hk hhit)] at hother
      rcases List.mem_append.mp he with he | he
      · exact ⟨e, List.mem_append_left _ he, rfl⟩
      · rcases List.mem_cons.mp he with rfl | he
        · rw [hek] at hother
          cases hother
        · exact ⟨e, List.mem_append_right _ he, rfl⟩
  | _ => exact ⟨e, he, rfl⟩

theorem Here.next (hk : LawfulKeys hash eqv) (hinv : KeptInv hash eqv k₀ s)
    (hn : next hash s a = some t) {k : K} (hkk : eqv k k₀ = true) (h : Here hash k₀ s k) :
    Here hash k₀ t k := by
  have hsame : t.map = s.map → Here hash k₀ t k := by
    intro hmap
    rwa [Here, hmap]
  cases a with
  | invoke c op =>
      obtain ⟨-, ⟨_, -, rfl⟩ | ⟨_, -, rfl⟩⟩ := next_invoke hn <;> exact hsame rfl
  | unhashable c op =>
      obtain ⟨-, rfl⟩ := next_unhashable hn
      exact hsame rfl
  | eq c answer =>
      obtain ⟨op, _, _, _, -, ⟨-, rfl⟩ | ⟨_, -, rfl⟩⟩ := next_eq hn
      · exact hsame rfl
      · exact hsame (State.map_resume _ _ _ _)
  | visit c order =>
      obtain ⟨op, i, acc, hi, hc, hmap, -, -⟩ := next_visit hn
      rw [if_neg (hinv.noRemovals.whole c op i acc hc)] at hmap
      exact hsame hmap
  | lock c =>
      obtain ⟨op, pc, slot, ctl, l, l', hc, hl, hl', hstep, rfl⟩ := next_lock hn
      obtain ⟨e, he, rfl⟩ := h
      have hbucket := bucket_lock hash s c op slot ctl (hash k₀)
      rw [Here, hbucket]
      by_cases hhash : hash k₀ = hash op.key
      · rw [if_pos hhash, hl']
        rw [hhash, hl] at he
        exact hstep.keeps hk (hinv.noRemovals.keyed c op pc hc)
          (fun checkedKeys k hpc => hinv.hits c op checkedKeys k (hpc ▸ hc)) he hkk
      · rw [if_neg hhash]
        exact ⟨e, he, rfl⟩

omit [DecidableEq C] [DecidableEq K] in
theorem SetKnows.mono {key : K} {pc : Pc K V} (h : SetKnows hash eqv k₀ s key pc)
    (hhit : ∀ checkedKeys k, pc = .hit checkedKeys k → eqv k k₀ = true)
    (hhere : ∀ k, eqv k k₀ = true → Here hash k₀ s k → Here hash k₀ t k) :
    SetKnows hash eqv k₀ t key pc := by
  cases pc with
  | fast => trivial
  | collect checkedKeys => exact h
  | compare checkedKeys candidates => exact ⟨h.1, fun e he hek => hhere _ hek (h.2 e he hek)⟩
  | hit checkedKeys k => exact hhere k (hhit checkedKeys k rfl) h

theorem KeptInv.next (hk : LawfulKeys hash eqv) (h : KeptInv hash eqv k₀ s) (hlaw : Lawful eqv s a)
    (hno : NoRemovalOn eqv k₀ s a) (hn : next hash s a = some t) : KeptInv hash eqv k₀ t where
  hits := hits_next h.hits hlaw hn
  noRemovals := h.noRemovals.next hno hn
  sets := by
    intro d key value pc' hd hkey
    obtain ⟨pc, hpc⟩ | ⟨-, rfl⟩ := running_next hn hd
    swap
    · trivial
    have hold := h.sets d key value pc hpc hkey
    have hhere : ∀ k, eqv k k₀ = true → Here hash k₀ s k → Here hash k₀ t k :=
      fun k hkk => Here.next hk h hn hkk
    obtain ⟨-, hstep⟩ := goto_step hn hpc hd
    cases hstep with
    | stay _ hpc' =>
        subst hpc'
        refine hold.mono (fun checkedKeys k hhit => ?_) hhere
        have hkk : eqv k key = true := h.hits d (.set key value) checkedKeys k (hhit ▸ hpc)
        exact (hk.congr hkk).trans hkey
    | @lock l l' _ hl hl' hlock =>
        cases hlock with
        | snapshot hop => exact hop.elim
        | collect =>
            refine ⟨hold, fun e he hek => hhere _ hek ⟨e, ?_, rfl⟩⟩
            rw [← hk.hash_eq hkey]
            exact hl ▸ (mem_newCandidates.mp he).1
        | retry => exact hold.1
        | slow => exact fun k hk => by cases hk
        | miss _ hgone =>
            obtain ⟨e, he, hek⟩ := hold
            rw [← hk.hash_eq hkey] at he
            exact (hgone e (hl ▸ he) hek).elim
    | @eq checkedKeys e rest b ha hcompare hmap honEq =>
        subst ha hcompare
        have hans := Option.some.inj (hlaw.answer hpc)
        cases b with
        | true =>
            simp only [KeyOp.onEq, if_true, Ctl.goto.injEq] at honEq
            subst honEq
            have hek : eqv e.1 k₀ = true := (hk.congr hans.symm).trans hkey
            exact hhere _ hek (hold.2 e List.mem_cons_self hek)
        | false =>
            simp only [KeyOp.onEq, Bool.false_eq_true, if_false, Ctl.goto.injEq] at honEq
            subst honEq
            refine ⟨fun k hk => ?_, fun e' he' hek => hhere _ hek (hold.2 e' ?_ hek)⟩
            · rcases List.mem_append.mp hk with hk | hk
              · exact hold.1 k hk
              · rw [List.mem_singleton.mp hk]
                exact hans.symm
            · exact List.mem_cons_of_mem _ he'

omit [DecidableEq C] [DecidableEq K] in
theorem keptInv_init (n : ℕ) (hn : 0 < n) :
    KeptInv hash eqv k₀ (State.init (.empty n hn) : State C K V) where
  hits _ _ _ _ hc := by cases hc
  noRemovals := ⟨fun _ _ _ hc => (by cases hc), fun _ _ _ _ hc => (by cases hc)⟩
  sets _ _ _ _ hc := by cases hc

omit [DecidableEq C] [DecidableEq K] in
/-- What a stale push on the class is: one of its keys is there, has been compared, and is not the
object of the call. -/
theorem StalePushOn.exists_key (h : StalePushOn hash eqv k₀ s a) :
    ∃ c key value checkedKeys k, s.calls c = .keyed (.set key value) (.compare checkedKeys []) ∧
      eqv key k₀ = true ∧ k ∈ checkedKeys ∧ eqv k key = true ∧ k ≠ key := by
  obtain ⟨hstale, op, pc, hc, hkey⟩ := h
  cases a with
  | lock c =>
      obtain ⟨key, value, checkedKeys, hc', hall, e, he, hek⟩ := hstale
      obtain ⟨rfl, rfl⟩ := CallState.keyed.inj (hc.symm.trans hc')
      exact ⟨c, key, value, checkedKeys, e.1, hc', hkey, (hall e he).1, hek, (hall e he).2⟩
  | _ => exact hstale.elim

end Kept

/-- A stale push on a class needs a `set` on it, a removal from it, and two key objects: where one of
these is missing, no step of the run is one, and the class is linearizable. -/
theorem never_stale (hash : K → UInt64) (eqv : K → K → Bool) (hk : LawfulKeys hash eqv) (k₀ : K)
    (n : ℕ) (hn₀ : 0 < n) (as : List (Act C K V)) (s : State C K V)
    (hrun : RunWith (next hash) (Lawful eqv) (State.init (.empty n hn₀)) as s)
    (hcase : RunWith (next hash) (NoSetOn eqv k₀) (State.init (.empty n hn₀)) as s ∨
      RunWith (next hash) (NoRemovalOn eqv k₀) (State.init (.empty n hn₀)) as s ∨
      ∀ k, eqv k k₀ = true → k = k₀) :
    RunWith (next hash) (FreshOn hash eqv k₀) (State.init (.empty n hn₀)) as s := by
  rcases hcase with hset | hremoval | hsingle
  · refine (hrun.and hset).sharpen (classInv_init n hn₀)
      (fun s a t hinv hlaw hn => hinv.next hk hlaw hn) fun s a hinv hlaw => ⟨hlaw.1, fun hstale => ?_⟩
    obtain ⟨c, key, value, checkedKeys, k, hc, hkey, -⟩ := hstale.exists_key
    have hother : eqv key k₀ = false := hinv.sets c _ _ hc trivial
    rw [hkey] at hother
    cases hother
  · refine (hrun.and hremoval).sharpen (keptInv_init n hn₀)
      (fun s a t hinv hp hn => hinv.next hk hp.1 hp.2 hn) fun s a hinv hp => ⟨hp.1, fun hstale => ?_⟩
    obtain ⟨c, key, value, checkedKeys, k, hc, hkey, hmem, hek, -⟩ := hstale.exists_key
    have hdiff := (hinv.sets c key value _ hc hkey).1 k hmem
    rw [hek] at hdiff
    cases hdiff
  · refine hrun.mono fun s a hlaw => ⟨hlaw, fun hstale => ?_⟩
    obtain ⟨c, key, value, checkedKeys, k, -, hkey, -, hek, hne⟩ := hstale.exists_key
    exact hne ((hsingle k (hk.trans hek hkey)).trans (hsingle key hkey).symm)

/-- Two `set`s with different objects of one class, one of which finds the entry of the other. -/
def sharedKeyTrace : List (Act ℕ Bool ℕ) :=
  [.invoke 0 (.keyed (.set false 0)), .lock 0, .invoke 1 (.keyed (.set true 1)), .lock 1, .lock 1,
   .eq 1 (some true), .lock 1]

/-- The step begins no removal. -/
def beginsNoRemoval : Act ℕ Bool ℕ → Bool
  | .invoke _ (.keyed (.delete _)) | .invoke _ (.keyed (.popVal _)) | .invoke _ (.whole .clear) => false
  | _ => true

theorem noRemovalOn_of_begins {s : State ℕ Bool ℕ} {a : Act ℕ Bool ℕ} (h : beginsNoRemoval a = true) :
    NoRemovalOn (fun _ _ => true) false s a := by
  cases a with
  | invoke c op =>
      cases op with
      | keyed op => cases op <;> first | exact fun hop => hop.elim | cases h
      | whole op =>
          rintro rfl
          cases h
  | _ => trivial

theorem sharedKeyTrace_exec :
    (exec (next fun _ : Bool => 0)
      (fun s a => Lawful (fun _ _ => true) s a ∧ beginsNoRemoval a = true)
      (State.init (.empty 1 (by decide))) sharedKeyTrace).map
        (fun s => decide (s.map.bucket 0 = [(false, 1)])) = some true := by
  decide +kernel

theorem never_stale_sharedKeyTrace :
    ∃ s, RunWith (next fun _ : Bool => 0) (FreshOn (fun _ => 0) (fun _ _ => true) false)
      (State.init (.empty 1 (by decide))) sharedKeyTrace s ∧ s.map.bucket 0 = [(false, 1)] := by
  obtain ⟨s, hrun, hs⟩ := exists_runWith_of_exec sharedKeyTrace_exec
  exact ⟨s, never_stale (fun _ : Bool => 0) (fun _ _ => true)
    ⟨fun _ => rfl, fun _ => rfl, fun _ _ => rfl, fun _ => rfl⟩ false 1 (by decide) sharedKeyTrace s
    (hrun.mono fun _ _ h => h.1) (.inr (.inl (hrun.mono fun _ _ h => noRemovalOn_of_begins h.2))),
    of_decide_eq_true hs⟩

end Pysync.Map
