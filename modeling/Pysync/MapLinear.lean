import Pysync.ListAtMostOne
import Pysync.MapUnique

/-!
Linearizability of the operations on one logical key that no `set` writes. The value of the key is
read off its bucket; a step changes it only when a call on that key returns, in one atomic action, and
every other call on the key returns what the sequential operation would have returned at some moment
since it was invoked. The moment of a removal that finds nothing may lie in the past: its match
vanished, was inserted again, and between the two the key was absent.
-/

namespace Pysync.Map
open Transition ConcurrentMap ListAtMostOne

variable {C K V : Type} [DecidableEq C]

/-- The sequential operation on the one optional value of a key. -/
def KeyOp.sequential : KeyOp K V → Option V → Option V × Ret K V
  | .get _, o => (o, .opt o)
  | .getVal _, o => (o, .found o)
  | .containsKey _, o => (o, .bool o.isSome)
  | .getOrInsert _ _, some v => (some v, .value v)
  | .getOrInsert _ dflt, none => (some dflt, .value dflt)
  | .set _ value, _ => (some value, .unit)
  | .delete _, o => (none, .bool o.isSome)
  | .popVal _, o => (none, .found o)

/-- The value stored for the keys equal to `k₀`. -/
def valueIn (eqv : K → K → Bool) (k₀ : K) (l : Bucket K V) : Option V :=
  (l.find? fun e => eqv e.1 k₀).map Prod.snd

def valueOf (hash : K → UInt64) (eqv : K → K → Bool) (k₀ : K) (m : ConcurrentMap K V) : Option V :=
  valueIn eqv k₀ (m.bucket (hash k₀))

/-- No `set` is called with a key equal to `k₀`. -/
def NoSetOn (eqv : K → K → Bool) (k₀ : K) (_ : State C K V) : Act C K V → Prop
  | .invoke _ (.keyed (.set key _)) => eqv key k₀ = false
  | _ => True

/-- The calls considered: lawful, and no `set` of a key equal to `k₀`. -/
def LawfulOn (eqv : K → K → Bool) (k₀ : K) (s : State C K V) (a : Act C K V) : Prop :=
  Lawful eqv s a ∧ NoSetOn eqv k₀ s a

theorem sequential_lookup {op : KeyOp K V} (hop : op.IsLookup) (o : Option V) :
    op.sequential o = (o, op.lookupRet o) := by
  cases op <;> first | exact hop.elim | rfl

theorem sequential_removal {op : KeyOp K V} (hop : op.IsRemoval) (o : Option V) :
    op.sequential o = (none, op.removeRet o) := by
  cases op <;> first | exact hop.elim | rfl

section Bucket

variable {eqv : K → K → Bool} {k₀ : K} {l l₁ l₂ : Bucket K V} {e : K × V}

/-- At most one entry has a key equal to `k₀`. -/
abbrev OneEntry (eqv : K → K → Bool) (k₀ : K) (l : Bucket K V) : Prop :=
  AtMostOne (fun e : K × V => eqv e.1 k₀) l

theorem valueIn_eq_none : valueIn eqv k₀ l = none ↔ ∀ e ∈ l, eqv e.1 k₀ = false := by
  rw [valueIn, Option.map_eq_none_iff, find?_eq_none_iff]

theorem OneEntry.valueIn_eq (h : OneEntry eqv k₀ l) (he : e ∈ l) (heq : eqv e.1 k₀ = true) :
    valueIn eqv k₀ l = some e.2 := by
  rw [valueIn, AtMostOne.find?_eq h he heq]
  rfl

theorem valueIn_skip (he : eqv e.1 k₀ = false) :
    valueIn eqv k₀ (l₁ ++ e :: l₂) = valueIn eqv k₀ (l₁ ++ l₂) :=
  congrArg (Option.map Prod.snd) (find?_skip (p := fun e : K × V => eqv e.1 k₀) he)

theorem valueIn_cons_other (he : eqv e.1 k₀ = false) : valueIn eqv k₀ (e :: l) = valueIn eqv k₀ l := by
  rw [valueIn, List.find?_cons_of_neg (by simp [he])]
  rfl

theorem valueIn_cons_self (he : eqv e.1 k₀ = true) : valueIn eqv k₀ (e :: l) = some e.2 := by
  rw [valueIn, List.find?_cons_of_pos (p := fun e : K × V => eqv e.1 k₀) he]
  rfl

theorem valueIn_push_other (he : eqv e.1 k₀ = false) : valueIn eqv k₀ (l ++ [e]) = valueIn eqv k₀ l := by
  rw [valueIn_skip he, List.append_nil]

theorem OneEntry.push_other (h : OneEntry eqv k₀ l) (he : eqv e.1 k₀ = false) :
    OneEntry eqv k₀ (l ++ [e]) :=
  AtMostOne.append_singleton h fun _ _ _ => he

/-- The entries of the class after an append of another class. -/
theorem mem_push_other (he : eqv e.1 k₀ = false) :
    ∀ b ∈ l ++ [e], eqv b.1 k₀ = true → ∃ b' ∈ l, b'.1 = b.1 := by
  intro b hb hbk
  rcases List.mem_append.mp hb with hb | hb
  · exact ⟨b, hb, rfl⟩
  · rw [List.mem_singleton.mp hb, he] at hbk
    cases hbk

theorem OneEntry.valueIn_removed (h : OneEntry eqv k₀ (l₁ ++ e :: l₂)) (he : eqv e.1 k₀ = true) :
    valueIn eqv k₀ (l₁ ++ l₂) = none := by
  rw [valueIn, find?_eq_none_of_others h he]
  rfl

theorem valueIn_push (h : valueIn eqv k₀ l = none) (he : eqv e.1 k₀ = true) :
    valueIn eqv k₀ (l ++ [e]) = some e.2 := by
  have hone : OneEntry eqv k₀ (l ++ [e]) := by
    refine AtMostOne.append_singleton ?_ fun b hb hpb => ?_
    · exact List.pairwise_of_forall_mem_list fun a ha b hb _ => valueIn_eq_none.mp h b hb
    · rw [valueIn_eq_none.mp h b hb] at hpb
      cases hpb
  exact hone.valueIn_eq (List.mem_append_right _ (List.mem_singleton.mpr rfl)) he

end Bucket

section Class

variable {hash : K → UInt64} {eqv : K → K → Bool} {k₀ : K}

theorem LawfulKeys.congr (hk : LawfulKeys hash eqv) {k key : K} (h : eqv k key = true) :
    eqv k k₀ = eqv key k₀ := by
  rw [Bool.eq_iff_iff]
  exact ⟨hk.trans (hk.symm h), hk.trans h⟩

theorem LawfulKeys.congr' (hk : LawfulKeys hash eqv) {k key : K} (h : eqv key k₀ = true) :
    eqv k key = eqv k k₀ := by
  rw [Bool.eq_iff_iff]
  exact ⟨fun hkk => hk.trans hkk h, fun hkk => hk.trans hkk (hk.symm h)⟩

/-- What a locked section may do to the value of `k₀` in the bucket it works on. -/
inductive ValueStep (eqv : K → K → Bool) (k₀ : K) (op : KeyOp K V) (l l' : Bucket K V) :
    Ctl K V → Prop
  | quiet {ctl : Ctl K V} : valueIn eqv k₀ l' = valueIn eqv k₀ l →
      (∀ e ∈ l', eqv e.1 k₀ = true → ∃ e' ∈ l, e'.1 = e.1) → ValueStep eqv k₀ op l l' ctl
  | inserted {key : K} {dflt : V} : op = .getOrInsert key dflt → eqv key k₀ = true →
      valueIn eqv k₀ l = none → valueIn eqv k₀ l' = some dflt →
      ValueStep eqv k₀ op l l' (.ret (.value dflt))
  | removed {v : V} : op.IsRemoval → eqv op.key k₀ = true → valueIn eqv k₀ l = some v →
      valueIn eqv k₀ l' = none → ValueStep eqv k₀ op l l' (.ret (op.removeRet (some v)))

/-- The entry a section writes or removes has a key equal to the call's. -/
theorem Target.matches (hk : LawfulKeys hash eqv) {op : KeyOp K V} {pc : Pc K V} {k : K}
    (ht : Target op pc k) (hhit : ∀ checkedKeys k, pc = .hit checkedKeys k → eqv k op.key = true) :
    eqv k op.key = true := by
  cases pc with
  | fast => exact ht ▸ hk.refl _
  | collect checkedKeys => exact ht.elim
  | hit checkedKeys k' => exact ht ▸ hhit checkedKeys k' rfl
  | compare checkedKeys candidates =>
      cases candidates with
      | nil => exact ht ▸ hk.refl _
      | cons e rest => exact ht.elim

theorem LockStep.oneEntry [DecidableEq K] (hk : LawfulKeys hash eqv) {op : KeyOp K V} {pc : Pc K V}
    {l l' : Bucket K V} {ctl : Ctl K V} (hstep : LockStep op pc l l' ctl)
    (hone : OneEntry eqv k₀ l) (hset : op.IsSet → eqv op.key k₀ = false)
    (hhit : ∀ checkedKeys k, pc = .hit checkedKeys k → eqv k op.key = true)
    (hcomp : ¬ op.IsLookup → ¬ op.IsSet → ¬ op.IsRemoval → ∀ k ∈ pc.checkedKeys, eqv k op.key = false) :
    OneEntry eqv k₀ l' ∧ ValueStep eqv k₀ op l l' ctl := by
  have hsame : ∀ {ctl}, OneEntry eqv k₀ l ∧ ValueStep eqv k₀ op l l ctl :=
    ⟨hone, .quiet rfl fun e he _ => ⟨e, he, rfl⟩⟩
  cases hstep with
  | insertFast =>
      have hkey := hset trivial
      exact ⟨hone.push_other hkey, .quiet (valueIn_push_other (l := []) hkey) (mem_push_other (l := []) hkey)⟩
  | insertLast hall hne =>
      have hkey := hset trivial
      exact ⟨hone.push_other hkey, .quiet (valueIn_push_other hkey) (mem_push_other hkey)⟩
  | write htarget =>
      have hkey := hset trivial
      rw [← hk.congr (htarget.matches hk hhit)] at hkey
      refine ⟨hone.replace hkey, .quiet ?_ fun e he heq => ?_⟩
      · rw [valueIn_skip hkey, valueIn_skip hkey]
      · rcases List.mem_append.mp he with he | he
        · exact ⟨e, List.mem_append_left _ he, rfl⟩
        · rcases List.mem_cons.mp he with rfl | he
          · rw [hkey] at heq
            cases heq
          · exact ⟨e, List.mem_append_right _ (List.mem_cons_of_mem _ he), rfl⟩
  | remove hop htarget =>
      refine ⟨hone.remove, ?_⟩
      have hcongr : eqv _ k₀ = eqv op.key k₀ := hk.congr (htarget.matches hk hhit)
      cases hkey : eqv op.key k₀ with
      | true =>
          rw [hkey] at hcongr
          exact .removed hop hkey
            (hone.valueIn_eq (List.mem_append_right _ List.mem_cons_self) hcongr)
            (hone.valueIn_removed hcongr)
      | false =>
          rw [hkey] at hcongr
          refine .quiet (valueIn_skip hcongr).symm fun e he _ => ⟨e, ?_, rfl⟩
          rcases List.mem_append.mp he with he | he
          · exact List.mem_append_left _ he
          · exact List.mem_append_right _ (List.mem_cons_of_mem _ he)
  | @orInsertLast key dflt checkedKeys _ hall hne =>
      cases hkey : eqv key k₀ with
      | true =>
          have hnone : valueIn eqv k₀ l = none := by
            refine valueIn_eq_none.mpr fun e he => ?_
            have hdiff := hcomp id id id e.1 (hall e he)
            cases hek : eqv e.1 k₀ with
            | false => rfl
            | true =>
                have hsame := hk.trans hek (hk.symm hkey)
                rw [KeyOp.key, hsame] at hdiff
                cases hdiff
          refine ⟨AtMostOne.append_singleton hone fun b hb hbk => ?_,
            .inserted rfl hkey hnone (valueIn_push hnone hkey)⟩
          rw [valueIn_eq_none.mp hnone b hb] at hbk
          cases hbk
      | false =>
          exact ⟨hone.push_other hkey, .quiet (valueIn_push_other hkey) (mem_push_other hkey)⟩
  | _ => exact hsame

/-- What holds of the class of `k₀` in every state of the runs considered. -/
structure ClassInv (hash : K → UInt64) (eqv : K → K → Bool) (k₀ : K) (s : State C K V) : Prop where
  one : OneEntry eqv k₀ (s.map.bucket (hash k₀))
  sets : ∀ c op pc, s.calls c = .keyed op pc → op.IsSet → eqv op.key k₀ = false
  hits : ∀ c op checkedKeys k, s.calls c = .keyed op (.hit checkedKeys k) → eqv k op.key = true
  compared : Compared eqv s

omit [DecidableEq C] in
theorem classInv_init (n : ℕ) (hn : 0 < n) :
    ClassInv hash eqv k₀ (State.init (.empty n hn) : State C K V) where
  one := by
    have hempty : (ConcurrentMap.empty n hn : ConcurrentMap K V).bucket (hash k₀) = [] := by
      simp [ConcurrentMap.bucket, ConcurrentMap.slot, ConcurrentMap.empty]
    rw [State.init, hempty]
    exact List.Pairwise.nil
  sets := by
    intro c op pc hc
    cases hc
  hits := by
    intro c op checkedKeys k hc
    cases hc
  compared := compared_init _

variable {s t : State C K V} {a : Act C K V}

theorem hits_next [DecidableEq K] (h : ∀ c op checkedKeys k, s.calls c = .keyed op (.hit checkedKeys k) →
      eqv k op.key = true)
    (hlaw : Lawful eqv s a) (hn : next hash s a = some t) :
    ∀ c op checkedKeys k, t.calls c = .keyed op (.hit checkedKeys k) → eqv k op.key = true := by
  intro d op checkedKeys k hd
  obtain ⟨pc, hpc⟩ | ⟨rfl, hstart⟩ := running_next hn hd
  swap
  · cases op <;> cases hstart
  obtain ⟨-, hstep⟩ := goto_step hn hpc hd
  cases hstep with
  | stay _ hpc' => exact h d op checkedKeys k (hpc' ▸ hpc)
  | lock _ _ _ hlock => cases hlock
  | @eq checked' e rest b ha hcompare _ honEq =>
      subst ha hcompare
      have hans := Option.some.inj (hlaw.answer hpc)
      cases b with
      | false => cases op <;> simp [KeyOp.onEq] at honEq
      | true =>
          have hke : e.1 = k := by cases op <;> simp [KeyOp.onEq] at honEq <;> exact honEq.2
          exact hke ▸ hans.symm

/-- What one step may do to the value of `k₀`. -/
inductive ClassStep (hash : K → UInt64) (eqv : K → K → Bool) (k₀ : K) (s : State C K V)
    (a : Act C K V) (t : State C K V) : Prop
  | quiet : valueOf hash eqv k₀ t.map = valueOf hash eqv k₀ s.map →
      (∀ e ∈ t.map.bucket (hash k₀), eqv e.1 k₀ = true →
        ∃ e' ∈ s.map.bucket (hash k₀), e'.1 = e.1) → ClassStep hash eqv k₀ s a t
  | cleared {c : C} {order : List UInt64} {i : ℕ} {acc : List (K × V)} :
      a = .visit c order → s.calls c = .whole .clear i acc → (s.map.index (hash k₀)).val = i →
      t.map.bucket (hash k₀) = [] → ClassStep hash eqv k₀ s a t
  | inserted {c : C} {key : K} {dflt : V} {pc : Pc K V} :
      a = .lock c → s.calls c = .keyed (.getOrInsert key dflt) pc → eqv key k₀ = true →
      valueOf hash eqv k₀ s.map = none → valueOf hash eqv k₀ t.map = some dflt →
      t.calls c = .done (.keyed (.getOrInsert key dflt)) (.ok (.value dflt)) →
      ClassStep hash eqv k₀ s a t
  | removed {c : C} {op : KeyOp K V} {pc : Pc K V} {v : V} :
      a = .lock c → s.calls c = .keyed op pc → op.IsRemoval → eqv op.key k₀ = true →
      valueOf hash eqv k₀ s.map = some v → valueOf hash eqv k₀ t.map = none →
      t.calls c = .done (.keyed op) (.ok (op.removeRet (some v))) → ClassStep hash eqv k₀ s a t

omit [DecidableEq C] in
theorem ClassStep.same (h : t.map = s.map) : ClassStep hash eqv k₀ s a t :=
  .quiet (by rw [h]) fun e he _ => ⟨e, h ▸ he, rfl⟩

theorem ClassInv.step [DecidableEq K] (hk : LawfulKeys hash eqv) (hinv : ClassInv hash eqv k₀ s)
    (hlaw : Lawful eqv s a) (hn : next hash s a = some t) :
    OneEntry eqv k₀ (t.map.bucket (hash k₀)) ∧ ClassStep hash eqv k₀ s a t := by
  cases a with
  | invoke c op =>
      obtain ⟨-, ⟨_, -, rfl⟩ | ⟨_, -, rfl⟩⟩ := next_invoke hn <;> exact ⟨hinv.one, .same rfl⟩
  | unhashable c op => exact hlaw.elim
  | eq c answer =>
      obtain ⟨op, _, _, _, -, ⟨-, rfl⟩ | ⟨_, -, rfl⟩⟩ := next_eq hn
      · exact ⟨hinv.one, .same rfl⟩
      · rw [State.map_resume]
        exact ⟨hinv.one, .same (State.map_resume _ _ _ _)⟩
  | visit c order =>
      obtain ⟨op, i, acc, hi, hc, hmap, -, -⟩ := next_visit hn
      by_cases hclear : op = .clear
      swap
      · rw [if_neg hclear] at hmap
        rw [hmap]
        exact ⟨hinv.one, .same hmap⟩
      rw [if_pos hclear] at hmap
      subst hclear
      by_cases hidx : s.map.index (hash k₀) = ⟨i, hi⟩
      · have hempty : t.map.bucket (hash k₀) = [] := by
          rw [hmap, bucket_clearShard, if_pos hidx]
        rw [hempty]
        exact ⟨List.Pairwise.nil, .cleared rfl hc (congrArg Fin.val hidx) hempty⟩
      · have hsame : t.map.bucket (hash k₀) = s.map.bucket (hash k₀) := by
          rw [hmap, bucket_clearShard, if_neg hidx]
        rw [hsame]
        refine ⟨hinv.one, .quiet ?_ fun e he _ => ⟨e, hsame ▸ he, rfl⟩⟩
        rw [valueOf, valueOf, hsame]
  | lock c =>
      obtain ⟨op, pc, slot, ctl, l, l', hc, hl, hl', hstep, rfl⟩ := next_lock hn
      have hbucket := bucket_setSlot s.map (hash op.key) (hash k₀) slot
      rw [State.map_resume]
      by_cases hhash : hash k₀ = hash op.key
      swap
      · rw [if_neg hhash] at hbucket
        rw [hbucket]
        refine ⟨hinv.one, .quiet ?_ fun e he _ => ⟨e, ?_, rfl⟩⟩
        · rw [State.map_resume, valueOf, valueOf, hbucket]
        · rwa [State.map_resume, hbucket] at he
      rw [if_pos hhash, hl'] at hbucket
      have hone : OneEntry eqv k₀ l := by
        rw [← hl, ← hhash]
        exact hinv.one
      obtain ⟨hone', hvalue⟩ := hstep.oneEntry hk hone (hinv.sets c op pc hc)
        (fun checkedKeys k hpc => hinv.hits c op checkedKeys k (hpc ▸ hc))
        (fun hlookup hset hremoval => by
          cases op with
          | getOrInsert key dflt => exact hinv.compared c key dflt pc hc
          | set => exact (hset trivial).elim
          | delete => exact (hremoval trivial).elim
          | popVal => exact (hremoval trivial).elim
          | get => exact (hlookup trivial).elim
          | getVal => exact (hlookup trivial).elim
          | containsKey => exact (hlookup trivial).elim)
      rw [hbucket]
      refine ⟨hone', ?_⟩
      have hs : valueOf hash eqv k₀ s.map = valueIn eqv k₀ l := by rw [valueOf, hhash, hl]
      have ht : valueOf hash eqv k₀ (State.resume { s with map := s.map.setSlot (hash op.key) slot }
          c op ctl).map = valueIn eqv k₀ l' := by
        rw [State.map_resume, valueOf, hbucket]
      cases hvalue with
      | quiet hv hkeys =>
          refine .quiet (by rw [ht, hs, hv]) fun e he heq => ?_
          rw [State.map_resume, hbucket] at he
          rw [hhash, hl]
          exact hkeys e he heq
      | inserted hop hkey hnone hsome =>
          subst hop
          exact .inserted rfl hc hkey (hs.trans hnone) (ht.trans hsome)
            (State.calls_resume_self _ c _ _)
      | removed hop hkey hsome hnone =>
          exact .removed rfl hc hop hkey (hs.trans hsome) (ht.trans hnone)
            (State.calls_resume_self _ c _ _)

theorem ClassInv.next [DecidableEq K] (hk : LawfulKeys hash eqv) (hinv : ClassInv hash eqv k₀ s)
    (hlaw : LawfulOn eqv k₀ s a) (hn : next hash s a = some t) : ClassInv hash eqv k₀ t where
  one := (hinv.step hk hlaw.1 hn).1
  sets := by
    intro d op pc hd hset
    obtain ⟨pc', hpc⟩ | ⟨rfl, -⟩ := running_next hn hd
    · exact hinv.sets d op pc' hpc hset
    · cases op <;> first | exact hset.elim | exact hlaw.2
  hits := hits_next hinv.hits hlaw.1 hn
  compared := compared_next hinv.compared hlaw.1 hn

/-- The runs from `s₀` whose steps meet `P` are lawful, keep one entry for the class of `k₀`, and put a
key of the class into its bucket only when the class has no value. -/
structure Tidy [DecidableEq K] (hash : K → UInt64) (eqv : K → K → Bool) (k₀ : K)
    (P : State C K V → Act C K V → Prop) (s₀ : State C K V) : Prop where
  lawful : ∀ s a, P s a → Lawful eqv s a
  one : ∀ as s, RunWith (next hash) P s₀ as s → OneEntry eqv k₀ (s.map.bucket (hash k₀))
  appeared : ∀ as s a t, RunWith (next hash) P s₀ as s → P s a → next hash s a = some t →
    ∀ k, eqv k k₀ = true → (∃ e ∈ t.map.bucket (hash k₀), e.1 = k) →
      (∃ e ∈ s.map.bucket (hash k₀), e.1 = k) ∨ valueOf hash eqv k₀ s.map = none

section Trace

variable {as : List (Act C K V)} {n : ℕ} {hn₀ : 0 < n} {P : State C K V → Act C K V → Prop}

theorem classInv_run [DecidableEq K] (hk : LawfulKeys hash eqv)
    (hrun : RunWith (next hash) (LawfulOn eqv k₀) (State.init (.empty n hn₀)) as s) :
    ClassInv hash eqv k₀ s :=
  hrun.invariant (classInv_init n hn₀) fun _ _ _ hinv hlaw hn => hinv.next hk hlaw hn

theorem invoked_run [DecidableEq K]
    (hrun : RunWith (next hash) P (State.init (.empty n hn₀)) as s) :
    ∀ c op pc, s.calls c = .keyed op pc → .invoke c (.keyed op) ∈ as := by
  induction hrun with
  | nil =>
      intro c op pc hc
      cases hc
  | snoc _ _ hn ih =>
      intro c op pc hc
      obtain ⟨pc', hpc⟩ | ⟨rfl, -⟩ := running_next hn hc
      · exact List.mem_append_left _ (ih c op pc' hpc)
      · exact List.mem_append_right _ (List.mem_singleton.mpr rfl)

/-- What a lookup still has to compare tells the value at the moment it copied the bucket. -/
theorem lookup_run [DecidableEq K] (hk : LawfulKeys hash eqv)
    (hP : Tidy hash eqv k₀ P (State.init (.empty n hn₀)))
    (hrun : RunWith (next hash) P (State.init (.empty n hn₀)) as s) :
    ∀ c op checkedKeys candidates, op.IsLookup → eqv op.key k₀ = true →
      s.calls c = .keyed op (.compare checkedKeys candidates) →
      Since (next hash) (State.init (.empty n hn₀)) as (.invoke c (.keyed op))
        fun u => valueOf hash eqv k₀ u.map = valueIn eqv k₀ candidates := by
  induction hrun with
  | nil =>
      intro c op checkedKeys candidates _ _ hc
      cases hc
  | @snoc as s a t hr hlaw hn ih =>
      intro d op checkedKeys candidates hop hkey hd
      obtain ⟨pc, hpc⟩ | ⟨rfl, hstart⟩ := running_next hn hd
      swap
      · cases op <;> cases hstart
      refine Since.snoc ?_ a
      obtain ⟨-, hstep⟩ := goto_step hn hpc hd
      cases hstep with
      | stay _ hpc' => exact ih d op checkedKeys candidates hop hkey (hpc' ▸ hpc)
      | lock _ hl _ hlock =>
          cases hlock with
          | snapshot =>
              refine Since.now (invoked_run hr d op _ hpc) hr ?_
              rw [valueOf, ← hl, hk.hash_eq hkey]
          | collect hlookup => exact (hlookup hop).elim
          | miss hmiss _ => cases op <;> first | exact hop.elim | exact (hmiss.elim id id).elim
      | @eq checked' e rest b ha hcompare _ honEq =>
          subst ha hcompare
          have hans := Option.some.inj ((hP.lawful _ _ hlaw).answer hpc)
          cases b with
          | true => cases op <;> simp [KeyOp.onEq] at honEq hop
          | false =>
              have hrest : rest = candidates := by
                cases op <;> simp [KeyOp.onEq, KeyOp.IsLookup] at honEq hop <;> exact honEq.2
              have hek : eqv e.1 k₀ = false := by
                rw [← hk.congr' hkey]
                exact hans.symm
              refine (ih d op checked' (e :: rest) hop hkey hpc).mono fun u hu => ?_
              rw [hu, ← hrest]
              exact valueIn_cons_other hek

/-- The candidates of a `get_or_insert` that match held the value when they were copied. -/
theorem getOrInsert_run [DecidableEq K] (hk : LawfulKeys hash eqv)
    (hP : Tidy hash eqv k₀ P (State.init (.empty n hn₀)))
    (hrun : RunWith (next hash) P (State.init (.empty n hn₀)) as s) :
    ∀ c key dflt checkedKeys candidates, eqv key k₀ = true →
      s.calls c = .keyed (.getOrInsert key dflt) (.compare checkedKeys candidates) →
      ∀ e ∈ candidates, eqv e.1 k₀ = true →
      Since (next hash) (State.init (.empty n hn₀)) as (.invoke c (.keyed (.getOrInsert key dflt)))
        fun u => valueOf hash eqv k₀ u.map = some e.2 := by
  induction hrun with
  | nil =>
      intro c key dflt checkedKeys candidates _ hc
      cases hc
  | @snoc as s a t hr hlaw hn ih =>
      intro d key dflt checkedKeys candidates hkey hd x hx hxk
      obtain ⟨pc, hpc⟩ | ⟨rfl, hstart⟩ := running_next hn hd
      swap
      · cases hstart
      refine Since.snoc ?_ a
      obtain ⟨-, hstep⟩ := goto_step hn hpc hd
      cases hstep with
      | stay _ hpc' => exact ih d key dflt checkedKeys candidates hkey (hpc' ▸ hpc) x hx hxk
      | lock _ hl _ hlock =>
          cases hlock with
          | snapshot hop => exact hop.elim
          | miss hop => exact (hop.elim id id).elim
          | collect =>
              refine Since.now (invoked_run hr d _ _ hpc) hr ?_
              have hone := hP.one _ _ hr
              rw [valueOf]
              refine hone.valueIn_eq ?_ hxk
              rw [← hk.hash_eq hkey]
              refine hl ▸ ?_
              exact (mem_newCandidates.mp hx).1
      | @eq checked' e rest b ha hcompare _ honEq =>
          subst ha hcompare
          cases b with
          | true => simp [KeyOp.onEq] at honEq
          | false =>
              simp only [KeyOp.onEq, Bool.false_eq_true, if_false, Ctl.goto.injEq,
                Pc.compare.injEq] at honEq
              obtain ⟨-, rfl⟩ := honEq
              exact ih d key dflt checked' (e :: rest) hkey hpc x (List.mem_cons_of_mem _ hx) hxk

omit [DecidableEq C] in
/-- A key of the class that is in the bucket after a step and was not before: the class was empty. -/
theorem ClassStep.appeared (hstep : ClassStep hash eqv k₀ s a t) {k : K} (hkk : eqv k k₀ = true)
    (hk : ∃ e ∈ t.map.bucket (hash k₀), e.1 = k) :
    (∃ e ∈ s.map.bucket (hash k₀), e.1 = k) ∨ valueOf hash eqv k₀ s.map = none := by
  obtain ⟨e, he, rfl⟩ := hk
  cases hstep with
  | quiet _ hkeys => exact .inl (hkeys e he hkk)
  | cleared _ _ _ hempty =>
      rw [hempty] at he
      cases he
  | inserted _ _ _ hnone => exact .inr hnone
  | removed _ _ _ _ _ hnone =>
      rw [valueIn_eq_none.mp hnone e he] at hkk
      cases hkk

theorem tidy_lawfulOn [DecidableEq K] (hk : LawfulKeys hash eqv) :
    Tidy hash eqv k₀ (LawfulOn eqv k₀ : State C K V → Act C K V → Prop)
      (State.init (.empty n hn₀)) where
  lawful _ _ h := h.1
  one _ _ hr := (classInv_run hk hr).one
  appeared _ _ _ _ hr hlaw hn _ hkk hin :=
    ((classInv_run hk hr).step hk hlaw.1 hn).2.appeared hkk hin

/-- An object that a removal compared, found equal and missed, and that is in the bucket again, was
put there when the class was empty. -/
theorem removal_run [DecidableEq K] (hk : LawfulKeys hash eqv)
    (hP : Tidy hash eqv k₀ P (State.init (.empty n hn₀)))
    (hrun : RunWith (next hash) P (State.init (.empty n hn₀)) as s) :
    ∀ c op pc, op.IsRemoval → eqv op.key k₀ = true → s.calls c = .keyed op pc →
      ∀ k ∈ pc.checkedKeys, eqv k k₀ = true → (∀ checkedKeys, pc ≠ .hit checkedKeys k) →
      (∃ e ∈ s.map.bucket (hash k₀), e.1 = k) →
      Since (next hash) (State.init (.empty n hn₀)) as (.invoke c (.keyed op))
        fun u => valueOf hash eqv k₀ u.map = none := by
  induction hrun with
  | nil =>
      intro c op pc _ _ hc
      cases hc
  | @snoc as s a t hr hlaw hn ih =>
      intro d op pc' hop hkey hd k hkc hkk hnothit hin
      obtain ⟨pc, hpc⟩ | ⟨rfl, rfl⟩ := running_next hn hd
      swap
      · cases op <;> cases hkc
      refine Since.snoc ?_ a
      have hinvoked := invoked_run hr d op pc hpc
      have happeared := hP.appeared _ _ _ _ hr hlaw hn k hkk hin
      -- enough: the call had compared `k` before this step and was not about to remove it
      have hbefore : k ∈ pc.checkedKeys → (∀ checkedKeys, pc ≠ .hit checkedKeys k) →
          Since (next hash) (State.init (.empty n hn₀)) as (.invoke d (.keyed op))
            fun u => valueOf hash eqv k₀ u.map = none := by
        intro hmem hnot
        rcases happeared with hold | hnone
        · exact ih d op pc hop hkey hpc k hmem hkk hnot hold
        · exact Since.now hinvoked hr hnone
      obtain ⟨-, hstep⟩ := goto_step hn hpc hd
      cases hstep with
      | stay _ hpc' =>
          subst hpc'
          exact hbefore hkc hnothit
      | @lock l l' ha hl hl' hlock =>
          cases hlock with
          | snapshot hlookup => cases op <;> first | exact hop.elim | exact hlookup.elim
          | collect => exact hbefore hkc (fun _ h => by cases h)
          | retry => exact hbefore hkc (fun _ h => by cases h)
          | slow => cases hkc
          | @miss _ checkedKeys k' _ _ hgone =>
              refine hbefore hkc fun _ hhit => ?_
              cases hhit
              obtain ⟨e, he, hek⟩ := hin
              rw [← hk.hash_eq hkey, hl'] at he
              exact hgone e he hek
      | @eq checked' e rest b ha hcompare _ honEq =>
          subst ha hcompare
          have hans := Option.some.inj ((hP.lawful _ _ hlaw).answer hpc)
          cases b with
          | true =>
              have hpc' : pc' = .hit (checked' ++ [e.1]) e.1 := by
                cases op <;> simp [KeyOp.onEq, KeyOp.IsRemoval] at honEq hop <;> exact honEq.symm
              subst hpc'
              rcases List.mem_append.mp hkc with hmem | hmem
              · exact hbefore hmem (fun _ h => by cases h)
              · rw [List.mem_singleton.mp hmem] at hnothit
                exact (hnothit _ rfl).elim
          | false =>
              have hpc' : pc' = .compare (checked' ++ [e.1]) rest := by
                cases op <;> simp [KeyOp.onEq, KeyOp.IsRemoval] at honEq hop <;> exact honEq.symm
              subst hpc'
              rcases List.mem_append.mp hkc with hmem | hmem
              · exact hbefore hmem (fun _ h => by cases h)
              · rw [List.mem_singleton.mp hmem, ← hk.congr' hkey, ← hans] at hkk
                cases hkk

/-- A call on the class returns what the sequential operation returns, either at the returning step
itself or at a state since the invocation, and then the step leaves the value alone. -/
def Linearized [DecidableEq K] (hash : K → UInt64) (eqv : K → K → Bool) (k₀ : K) (s₀ : State C K V)
    (as : List (Act C K V)) (s t : State C K V) (c : C) (op : KeyOp K V) (ret : Ret K V) : Prop :=
  op.sequential (valueOf hash eqv k₀ s.map) = (valueOf hash eqv k₀ t.map, ret) ∨
    valueOf hash eqv k₀ t.map = valueOf hash eqv k₀ s.map ∧
      Since (next hash) s₀ as (.invoke c (.keyed op)) fun u =>
        op.sequential (valueOf hash eqv k₀ u.map) = (valueOf hash eqv k₀ u.map, ret)

/-- The comparison that ends a call: only lookups and `get_or_insert` return there. -/
theorem linearized_eq [DecidableEq K] (hk : LawfulKeys hash eqv)
    (hP : Tidy hash eqv k₀ P (State.init (.empty n hn₀)))
    (hrun : RunWith (next hash) P (State.init (.empty n hn₀)) as s) {c : C}
    {op : KeyOp K V} {checkedKeys : List K} {e : K × V} {rest : List (K × V)} {b : Bool}
    {ret : Ret K V} (hkey : eqv op.key k₀ = true)
    (hc : s.calls c = .keyed op (.compare checkedKeys (e :: rest)))
    (hans : b = eqv e.1 op.key) (hret : op.onEq checkedKeys e rest b = .ret ret) :
    Since (next hash) (State.init (.empty n hn₀)) as (.invoke c (.keyed op)) fun u =>
      op.sequential (valueOf hash eqv k₀ u.map) = (valueOf hash eqv k₀ u.map, ret) := by
  have hb : b = true := by
    cases b with
    | true => rfl
    | false => cases op <;> simp [KeyOp.onEq] at hret
  subst hb
  have hek : eqv e.1 k₀ = true := by
    rw [← hk.congr' hkey]
    exact hans.symm
  have hlookup : op.IsLookup → ret = op.lookupRet (some e.2) →
      Since (next hash) (State.init (.empty n hn₀)) as (.invoke c (.keyed op)) fun u =>
        op.sequential (valueOf hash eqv k₀ u.map) = (valueOf hash eqv k₀ u.map, ret) := by
    intro hop hr
    refine (lookup_run hk hP hrun c op checkedKeys (e :: rest) hop hkey hc).mono fun u hu => ?_
    rw [sequential_lookup hop, hu, valueIn_cons_self hek, hr]
  cases op with
  | get key => exact hlookup trivial (Ctl.ret.inj hret).symm
  | getVal key => exact hlookup trivial (Ctl.ret.inj hret).symm
  | containsKey key => exact hlookup trivial (Ctl.ret.inj hret).symm
  | getOrInsert key dflt =>
      refine (getOrInsert_run hk hP hrun c key dflt checkedKeys _ hkey hc e List.mem_cons_self hek).mono
        fun u hu => ?_
      rw [hu, ← Ctl.ret.inj hret]
      rfl
  | set key value => cases hret
  | delete key => cases hret
  | popVal key => cases hret

/-- The locked section that ends a call and leaves the value of the class alone. -/
theorem linearized_lock [DecidableEq K] (hk : LawfulKeys hash eqv)
    (hrun : RunWith (next hash) (LawfulOn eqv k₀) (State.init (.empty n hn₀)) as s) {c : C}
    {op : KeyOp K V} {pc : Pc K V} {l l' : Bucket K V} {ret : Ret K V}
    (hkey : eqv op.key k₀ = true) (hc : s.calls c = .keyed op pc)
    (hl : s.map.bucket (hash op.key) = l) (hl' : t.map.bucket (hash op.key) = l')
    (hstep : LockStep op pc l l' (.ret ret))
    (hquiet : valueOf hash eqv k₀ t.map = valueOf hash eqv k₀ s.map) :
    Linearized hash eqv k₀ (State.init (.empty n hn₀)) as s t c op ret := by
  have hinv := classInv_run hk hrun
  have hs : valueOf hash eqv k₀ s.map = valueIn eqv k₀ l := by
    rw [valueOf, ← hk.hash_eq hkey, hl]
  have ht : valueOf hash eqv k₀ t.map = valueIn eqv k₀ l' := by
    rw [valueOf, ← hk.hash_eq hkey, hl']
  have hone : OneEntry eqv k₀ l := by
    rw [← hl, hk.hash_eq hkey]
    exact hinv.one
  have habsent : op.IsRemoval → ret = op.removeRet none → valueIn eqv k₀ l = none →
      Linearized hash eqv k₀ (State.init (.empty n hn₀)) as s t c op ret := by
    intro hop hr hnone
    refine .inl ?_
    rw [sequential_removal hop, hquiet, hs, hnone, hr]
  have hset : ¬ op.IsSet := by
    intro hop
    rw [hinv.sets c op pc hc hop] at hkey
    cases hkey
  cases hstep with
  | exhausted hop =>
      refine .inr ⟨hquiet, (lookup_run hk (tidy_lawfulOn hk) hrun c op _ [] hop hkey hc).mono fun u hu => ?_⟩
      rw [sequential_lookup hop, hu]
      rfl
  | insertFast => exact (hset trivial).elim
  | insertLast => exact (hset trivial).elim
  | write => exact (hset trivial).elim
  | @remove _ k v _ l₁ l₂ hop htarget =>
      -- removing an entry of the class would have changed its value
      have hkk : eqv k k₀ = true := by
        rw [hk.congr (htarget.matches hk fun checkedKeys k hpc => hinv.hits c op checkedKeys k (hpc ▸ hc))]
        exact hkey
      rw [hs, ht, hone.valueIn_removed hkk,
        hone.valueIn_eq (List.mem_append_right _ List.mem_cons_self) hkk] at hquiet
      cases hquiet
  | absentFast hop => exact habsent hop rfl rfl
  | absentLast hop hall hne =>
      by_cases hnone : valueIn eqv k₀ l = none
      · exact habsent hop rfl hnone
      · obtain ⟨e, he, hek⟩ : ∃ e ∈ l, eqv e.1 k₀ = true := by
          by_contra hcon
          refine hnone (valueIn_eq_none.mpr fun e he => ?_)
          by_contra hek
          exact hcon ⟨e, he, by simpa using hek⟩
        have hin : ∃ e' ∈ s.map.bucket (hash k₀), e'.1 = e.1 := by
          rw [← hk.hash_eq hkey, hl]
          exact ⟨e, he, rfl⟩
        have hpast := removal_run hk (tidy_lawfulOn hk) hrun c op _ hop hkey hc e.1 (hall e he) hek
          (fun _ h => by cases h) hin
        refine .inr ⟨hquiet, hpast.mono fun u hu => ?_⟩
        rw [sequential_removal hop, hu]
  | @getLast key dflt v checkedKeys l₁ l₂ hall =>
      have hself := hinv.compared c key dflt _ hc key
        (hall _ (List.mem_append_right _ List.mem_cons_self))
      rw [hk.refl] at hself
      cases hself
  | @orInsertLast key dflt checkedKeys _ hall hne =>
      have hnone : valueIn eqv k₀ l = none := by
        refine valueIn_eq_none.mpr fun e he => ?_
        have hdiff := hinv.compared c key dflt _ hc e.1 (hall e he)
        exact (hk.congr' hkey).symm.trans hdiff
      rw [hs, ht, hnone, valueIn_push hnone hkey] at hquiet
      cases hquiet

/-- A call on the class that returns is linearized, and a lawful call does not raise. -/
theorem linearized_run [DecidableEq K] (hk : LawfulKeys hash eqv)
    (hrun : RunWith (next hash) (LawfulOn eqv k₀) (State.init (.empty n hn₀)) as s)
    (hlaw : LawfulOn eqv k₀ s a) (hn : next hash s a = some t) {c : C} {op : KeyOp K V}
    {pc : Pc K V} {r : PyResult (Ret K V)} (hkey : eqv op.key k₀ = true)
    (hs : s.calls c = .keyed op pc) (ht : t.calls c = .done (.keyed op) r) :
    ∃ ret, r = .ok ret ∧ Linearized hash eqv k₀ (State.init (.empty n hn₀)) as s t c op ret := by
  obtain ⟨-, hstep⟩ := ret_step hn hs ht
  cases hstep with
  | raise ha =>
      subst ha
      obtain ⟨_, _, _, _, hc, -⟩ := next_eq hn
      cases hlaw.1.answer hc
  | @eq checkedKeys e rest b ret ha hcompare hmap honEq =>
      subst ha hcompare
      have hans := Option.some.inj (hlaw.1.answer hs)
      exact ⟨ret, rfl, .inr ⟨by rw [hmap], linearized_eq hk (tidy_lawfulOn hk) hrun hkey hs hans honEq⟩⟩
  | @lock l l' ret ha hl hl' hlock =>
      refine ⟨ret, rfl, ?_⟩
      cases ((classInv_run hk hrun).step hk hlaw.1 hn).2 with
      | quiet hquiet => exact linearized_lock hk hrun hkey hs hl hl' hlock hquiet
      | cleared hvisit =>
          rw [ha] at hvisit
          cases hvisit
      | inserted hlock' hc _ hnone hsome hdone =>
          cases ha.symm.trans hlock'
          cases hc.symm.trans hs
          cases hdone.symm.trans ht
          refine .inl ?_
          rw [hnone, hsome]
          rfl
      | removed hlock' hc hop _ hsome hnone hdone =>
          cases ha.symm.trans hlock'
          cases hc.symm.trans hs
          cases hdone.symm.trans ht
          refine .inl ?_
          rw [sequential_removal hop, hsome, hnone]

/-- The value changes only in a `clear` of its shard and in the step that ends a call on the class. -/
theorem valueOf_changes [DecidableEq K] (hk : LawfulKeys hash eqv)
    (hrun : RunWith (next hash) (LawfulOn eqv k₀) (State.init (.empty n hn₀)) as s)
    (hlaw : LawfulOn eqv k₀ s a) (hn : next hash s a = some t)
    (hchange : valueOf hash eqv k₀ t.map ≠ valueOf hash eqv k₀ s.map) :
    (∃ c order i acc, a = .visit c order ∧ s.calls c = .whole .clear i acc ∧
        (s.map.index (hash k₀)).val = i) ∨
      ∃ c op pc ret, a = .lock c ∧ eqv op.key k₀ = true ∧ s.calls c = .keyed op pc ∧
        t.calls c = .done (.keyed op) (.ok ret) ∧
        op.sequential (valueOf hash eqv k₀ s.map) = (valueOf hash eqv k₀ t.map, ret) := by
  cases ((classInv_run hk hrun).step hk hlaw.1 hn).2 with
  | quiet hquiet => exact (hchange hquiet).elim
  | cleared ha hc hi => exact .inl ⟨_, _, _, _, ha, hc, hi⟩
  | @inserted c key dflt pc ha hc hkey hnone hsome hdone =>
      refine .inr ⟨c, .getOrInsert key dflt, pc, _, ha, hkey, hc, hdone, ?_⟩
      rw [hnone, hsome]
      rfl
  | removed ha hc hop hkey hsome hnone hdone =>
      refine .inr ⟨_, _, _, _, ha, hkey, hc, hdone, ?_⟩
      rw [sequential_removal hop, hsome, hnone]

end Trace

/-- No removal of a key equal to `k₀` and no `clear` is called. -/
def NoRemovalOn (eqv : K → K → Bool) (k₀ : K) (_ : State C K V) : Act C K V → Prop
  | .invoke _ (.keyed op) => op.IsRemoval → eqv op.key k₀ = false
  | .invoke _ (.whole op) => op ≠ .clear
  | _ => True

structure NoRemovals (eqv : K → K → Bool) (k₀ : K) (s : State C K V) : Prop where
  keyed : ∀ c op pc, s.calls c = .keyed op pc → op.IsRemoval → eqv op.key k₀ = false
  whole : ∀ c op i acc, s.calls c = .whole op i acc → op ≠ .clear

theorem NoRemovals.next [DecidableEq K] (h : NoRemovals eqv k₀ s) (hno : NoRemovalOn eqv k₀ s a)
    (hn : next hash s a = some t) : NoRemovals eqv k₀ t where
  keyed := by
    intro c op pc hc
    obtain ⟨pc', hpc⟩ | ⟨rfl, -⟩ := running_next hn hc
    · exact h.keyed c op pc' hpc
    · exact hno
  whole := by
    intro c op i acc hc
    obtain ⟨i', acc', hi⟩ | rfl := scanning_next hn hc
    · exact h.whole c op i' acc' hi
    · exact hno

/-- Without removals a value stays. -/
theorem valueOf_stays [DecidableEq K] (hk : LawfulKeys hash eqv) (hinv : ClassInv hash eqv k₀ s)
    (hno : NoRemovals eqv k₀ s) (hlaw : LawfulOn eqv k₀ s a) (hn : next hash s a = some t) {v : V}
    (hv : valueOf hash eqv k₀ s.map = some v) : valueOf hash eqv k₀ t.map = some v := by
  cases (hinv.step hk hlaw.1 hn).2 with
  | quiet hquiet => rw [hquiet, hv]
  | cleared _ hc => exact (hno.whole _ _ _ _ hc rfl).elim
  | inserted _ _ _ hnone =>
      rw [hv] at hnone
      cases hnone
  | removed _ hc hop hkey =>
      rw [hno.keyed _ _ _ hc hop] at hkey
      cases hkey

section Agree

variable {as : List (Act C K V)} {n : ℕ} {hn₀ : 0 < n}

theorem noRemovals_run [DecidableEq K] {P : State C K V → Act C K V → Prop}
    (hrun : RunWith (next hash) (fun s a => P s a ∧ NoRemovalOn eqv k₀ s a)
      (State.init (.empty n hn₀)) as s) : NoRemovals eqv k₀ s := by
  refine hrun.invariant ⟨fun c op pc hc => ?_, fun c op i acc hc => ?_⟩ fun _ _ _ h hp hn =>
    h.next hp.2 hn
  · cases hc
  · cases hc

/-- A value seen at some state of a run without removals is still there at its end. -/
theorem valueOf_since [DecidableEq K] (hk : LawfulKeys hash eqv)
    (hrun : RunWith (next hash) (fun s a => LawfulOn eqv k₀ s a ∧ NoRemovalOn eqv k₀ s a)
      (State.init (.empty n hn₀)) as s) {start : Act C K V} {v : V}
    (hsince : Since (next hash) (State.init (.empty n hn₀)) as start fun u =>
      valueOf hash eqv k₀ u.map = some v) : valueOf hash eqv k₀ s.map = some v := by
  obtain ⟨pre, mid, u, hpre, hu, hv⟩ := hsince
  obtain ⟨pre', post, -, hbefore, hafter⟩ := hrun.visits_split ⟨_, hpre, hu⟩
  have hinv : ClassInv hash eqv k₀ u := classInv_run hk (hbefore.mono fun _ _ h => h.1)
  have hno : NoRemovals eqv k₀ u := noRemovals_run hbefore
  let Inv : State C K V → Prop := fun s =>
    ClassInv hash eqv k₀ s ∧ NoRemovals eqv k₀ s ∧ valueOf hash eqv k₀ s.map = some v
  have hall : Inv s := hafter.invariant ⟨hinv, hno, hv⟩ fun s a t h hp hn =>
    ⟨h.1.next hk hp.1 hn, h.2.1.next hp.2 hn, valueOf_stays hk h.1 h.2.1 hp.1 hn h.2.2⟩
  exact hall.2.2

/-- Without removals every `get_or_insert` on the class has returned the value that is stored. -/
theorem getOrInsert_agree [DecidableEq K] (hk : LawfulKeys hash eqv)
    (hrun : RunWith (next hash) (fun s a => LawfulOn eqv k₀ s a ∧ NoRemovalOn eqv k₀ s a)
      (State.init (.empty n hn₀)) as s) {c : C} {key : K} {dflt : V} {r : PyResult (Ret K V)}
    (hkey : eqv key k₀ = true) (hc : s.calls c = .done (.keyed (.getOrInsert key dflt)) r) :
    ∃ v, r = .ok (.value v) ∧ valueOf hash eqv k₀ s.map = some v := by
  induction hrun generalizing c key dflt r with
  | nil => cases hc
  | @snoc as s a t hr hp hn ih =>
      have hr' := hr.mono fun _ _ h => h.1
      have hinv := classInv_run hk hr'
      have hno := noRemovals_run hr
      obtain hdone | ⟨pc, hpc⟩ | rfl := done_next hn hc
      · obtain ⟨v, rfl, hv⟩ := ih hkey hdone
        exact ⟨v, rfl, valueOf_stays hk hinv hno hp.1 hn hv⟩
      · have hop : eqv (KeyOp.getOrInsert key dflt).key k₀ = true := hkey
        obtain ⟨ret, rfl, hlin⟩ := linearized_run hk hr' hp.1 hn hop hpc hc
        -- the sequential operation stores the value it returns
        have hseq : ∀ o o', (KeyOp.getOrInsert key dflt).sequential o = (o', ret) →
            ∃ v, ret = .value v ∧ o' = some v := by
          intro o o' h
          cases o <;> (simp only [KeyOp.sequential, Prod.mk.injEq] at h; exact ⟨_, h.2.symm, h.1.symm⟩)
        rcases hlin with hnow | ⟨hsame, hpast⟩
        · obtain ⟨v, rfl, hv⟩ := hseq _ _ hnow
          exact ⟨v, rfl, hv⟩
        · obtain ⟨_, _, u, -, -, hu⟩ := id hpast
          obtain ⟨v, rfl, -⟩ := hseq _ _ hu
          refine ⟨v, rfl, ?_⟩
          rw [hsame]
          refine valueOf_since hk hr (hpast.mono fun w hw => ?_)
          obtain ⟨v', hv', hval⟩ := hseq _ _ hw
          cases hv'
          exact hval
      · exact hp.1.1.elim

end Agree

end Class

variable [DecidableEq K]

/-- The operations on a class of equal keys that no `set` writes are linearizable: a call on it that
returns has an instant between its invocation and its return at which the sequential operation
changes the value as the map does and yields its result, and the value changes at no other instant
but a `clear` of its shard. Without removals all completed `get_or_insert` calls agree. -/
theorem linearizable_class (hash : K → UInt64) (eqv : K → K → Bool) (hk : LawfulKeys hash eqv)
    (k₀ : K) (n : ℕ) (hn₀ : 0 < n) :
    (∀ (as : List (Act C K V)) (s t : State C K V) (a : Act C K V),
      RunWith (next hash) (LawfulOn eqv k₀) (State.init (.empty n hn₀)) as s →
      LawfulOn eqv k₀ s a → next hash s a = some t →
      (∀ c op pc r, eqv op.key k₀ = true → s.calls c = .keyed op pc →
        t.calls c = .done (.keyed op) r → ∃ ret, r = .ok ret ∧
          Linearized hash eqv k₀ (State.init (.empty n hn₀)) as s t c op ret) ∧
      (valueOf hash eqv k₀ t.map ≠ valueOf hash eqv k₀ s.map →
        (∃ c order i acc, a = .visit c order ∧ s.calls c = .whole .clear i acc ∧
          (s.map.index (hash k₀)).val = i) ∨
        ∃ c op pc ret, a = .lock c ∧ eqv op.key k₀ = true ∧ s.calls c = .keyed op pc ∧
          t.calls c = .done (.keyed op) (.ok ret) ∧
          op.sequential (valueOf hash eqv k₀ s.map) = (valueOf hash eqv k₀ t.map, ret))) ∧
    ∀ (as : List (Act C K V)) (s : State C K V),
      RunWith (next hash) (fun s a => LawfulOn eqv k₀ s a ∧ NoRemovalOn eqv k₀ s a)
        (State.init (.empty n hn₀)) as s →
      ∀ c c' key key' dflt dflt' r r', eqv key k₀ = true → eqv key' k₀ = true →
        s.calls c = .done (.keyed (.getOrInsert key dflt)) r →
        s.calls c' = .done (.keyed (.getOrInsert key' dflt')) r' →
        ∃ v, r = .ok (.value v) ∧ r' = .ok (.value v) := by
  refine ⟨fun as s t a hrun hlaw hn => ⟨fun c op pc r hkey hs ht => ?_, fun hchange => ?_⟩,
    fun as s hrun c c' key key' dflt dflt' r r' hkey hkey' hc hc' => ?_⟩
  · exact linearized_run hk hrun hlaw hn hkey hs ht
  · exact valueOf_changes hk hrun hlaw hn hchange
  · obtain ⟨v, rfl, hv⟩ := getOrInsert_agree hk hrun hkey hc
    obtain ⟨v', rfl, hv'⟩ := getOrInsert_agree hk hrun hkey' hc'
    rw [hv] at hv'
    cases hv'
    exact ⟨v, rfl, rfl⟩

/-- `delete(true)` matches key object `false`, which is removed and inserted again before the last
lock: the call answers that nothing was there. -/
def lostMatchTrace : List (Act ℕ Bool ℕ) :=
  [.invoke 0 (.keyed (.getOrInsert false 0)), .lock 0, .lock 0,
   .invoke 1 (.keyed (.delete true)), .lock 1, .lock 1, .eq 1 (some true),
   .invoke 2 (.keyed (.delete false)), .lock 2, .lock 1,
   .invoke 3 (.keyed (.getOrInsert false 5)), .lock 3, .lock 3, .lock 1]

instance (eqv : K → K → Bool) (k₀ : K) (s : State C K V) (a : Act C K V) :
    Decidable (NoSetOn eqv k₀ s a) :=
  match a with
  | .invoke _ (.keyed (.set key _)) => inferInstanceAs (Decidable (eqv key k₀ = false))
  | .invoke _ (.keyed (.get _)) | .invoke _ (.keyed (.getVal _))
  | .invoke _ (.keyed (.containsKey _)) | .invoke _ (.keyed (.getOrInsert _ _))
  | .invoke _ (.keyed (.delete _)) | .invoke _ (.keyed (.popVal _))
  | .invoke _ (.whole _) | .unhashable _ _ | .lock _ | .eq _ _ | .visit _ _ => .isTrue trivial

instance (eqv : K → K → Bool) (k₀ : K) (s : State C K V) (a : Act C K V) :
    Decidable (LawfulOn eqv k₀ s a) :=
  inferInstanceAs (Decidable (_ ∧ _))

theorem lostMatchTrace_exec :
    (exec (next fun _ : Bool => 0) (LawfulOn (fun _ _ => true) false)
      (State.init (.empty 1 (by decide))) lostMatchTrace).map
        (fun s => decide (s.calls 1 = .done (.keyed (.delete true)) (.ok (.bool false)) ∧
          s.map.bucket 0 = [(false, 5)])) = some true := by
  decide +kernel

/-- The removal of `lostMatchTrace` that finds nothing is linearized in the past. -/
theorem linearizable_lostMatchTrace :
    ∃ s t, next (fun _ : Bool => 0) s (.lock 1) = some t ∧
      t.calls 1 = .done (.keyed (.delete true)) (.ok (.bool false)) ∧
      Linearized (fun _ => 0) (fun _ _ => true) false (State.init (.empty 1 (by decide)))
        lostMatchTrace.dropLast s t (1 : ℕ) (.delete true) (.bool false : Ret Bool ℕ) := by
  obtain ⟨t, hrun, ht⟩ := exists_runWith_of_exec lostMatchTrace_exec
  have hsplit : lostMatchTrace = lostMatchTrace.dropLast ++ [.lock 1] := rfl
  rw [hsplit] at hrun
  obtain ⟨s, hs, hlaw, hn⟩ := hrun.snoc_inv
  obtain ⟨hdone, -⟩ := of_decide_eq_true ht
  refine ⟨s, t, hn, hdone, ?_⟩
  obtain ⟨op, pc, -, -, -, -, hc, -⟩ := next_lock hn
  have hop : op = .delete true := by
    obtain ⟨hop, -⟩ := ret_step hn hc hdone
    cases hop
    rfl
  subst hop
  have hmain := linearizable_class (C := ℕ) (V := ℕ) (fun _ : Bool => 0) (fun _ _ => true)
    ⟨fun _ => rfl, fun _ => rfl, fun _ _ => rfl, fun _ => rfl⟩ false 1 (by decide)
  obtain ⟨ret, hret, hlin⟩ := (hmain.1 _ s t _ hs hlaw hn).1 1 _ pc _ rfl hc hdone
  cases hret
  exact hlin

end Pysync.Map
