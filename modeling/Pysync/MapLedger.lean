import Pysync.MapEntries

/-!
The ledger of a run: one record for every entry ever inserted, in order of insertion, with the value
last written to it and what became of it. Whatever `__eq__` answers, the entries of the map are the
records still present, and a call that reports a removal has exactly one record to its name.
-/

namespace Pysync.Map
open Transition ConcurrentMap

/-- What became of an entry. -/
inductive Fate (C : Type) where
  | present
  | removed (c : C)
  | cleared (c : C)
  deriving DecidableEq

structure Record (C K V : Type) where
  key : K
  value : V
  fate : Fate C

abbrev Ledger (C K V : Type) := List (Record C K V)

section Ledger

variable {C K V : Type} [DecidableEq C] {hash : K → UInt64} {L L₁ L₂ : Ledger C K V}
variable {c d : C} {k : K} {v w : V} {h : UInt64} {l₁ l₂ : Bucket K V}

def Record.entry (r : Record C K V) : K × V := (r.key, r.value)

/-- The records present under the hash `h`. -/
def Ledger.present (hash : K → UInt64) (L : Ledger C K V) (h : UInt64) : Bucket K V :=
  (L.filter fun r => r.fate = .present ∧ hash r.key = h).map Record.entry

/-- The records that the call `c` removed. -/
def Ledger.removedBy (L : Ledger C K V) (c : C) : Ledger C K V :=
  L.filter fun r => r.fate = .removed c

/-- The record after `c` cleared the keys that meet `p`. -/
def Record.clear (c : C) (p : K → Prop) [DecidablePred p] (r : Record C K V) : Record C K V :=
  if r.fate = .present ∧ p r.key then { r with fate := .cleared c } else r

@[simp] theorem present_append :
    Ledger.present hash (L₁ ++ L₂) h = Ledger.present hash L₁ h ++ Ledger.present hash L₂ h := by
  simp [Ledger.present]

theorem present_cons (r : Record C K V) :
    Ledger.present hash (r :: L) h =
      if r.fate = .present ∧ hash r.key = h then r.entry :: Ledger.present hash L h
      else Ledger.present hash L h := by
  unfold Ledger.present
  by_cases hr : r.fate = .present ∧ hash r.key = h
  · simp [hr]
  · simp [hr]

@[simp] theorem present_cons_removed :
    Ledger.present hash (⟨k, v, .removed c⟩ :: L) h = Ledger.present hash L h := by
  rw [present_cons, if_neg (by simp)]

/-- An entry of a bucket is a record of the ledger. -/
theorem present_split (hl : Ledger.present hash L h = l₁ ++ (k, v) :: l₂) :
    ∃ L₁ L₂, L = L₁ ++ ⟨k, v, .present⟩ :: L₂ ∧ hash k = h ∧ Ledger.present hash L₁ h = l₁ ∧
      Ledger.present hash L₂ h = l₂ := by
  obtain ⟨R₁, R₂, hfilter, hR₁, hR₂⟩ := List.map_eq_append_iff.mp hl
  obtain ⟨r, R₃, rfl, hr, hR₃⟩ := List.map_eq_cons_iff.mp hR₂
  obtain ⟨L₁, L', rfl, hL₁, hL'⟩ := List.filter_eq_append_iff.mp hfilter
  obtain ⟨M, L₂, rfl, hM, hpresent, hL₂⟩ := List.filter_eq_cons_iff.mp hL'
  obtain ⟨hfate, hhash⟩ := of_decide_eq_true hpresent
  obtain ⟨k', v', fate⟩ := r
  cases hr
  subst hfate
  refine ⟨L₁ ++ M, L₂, by simp, hhash, ?_, ?_⟩
  · have hnone : Ledger.present hash M h = [] := by
      unfold Ledger.present
      rw [List.filter_eq_nil_iff.mpr hM, List.map_nil]
    rw [present_append, hnone, List.append_nil, ← hR₁, ← hL₁]
    rfl
  · rw [← hR₃, ← hL₂]
    rfl

theorem present_clear (p : K → Prop) [DecidablePred p] (q : Prop) [Decidable q]
    (hp : ∀ k, hash k = h → (p k ↔ q)) :
    Ledger.present hash (L.map (Record.clear c p)) h =
      if q then [] else Ledger.present hash L h := by
  induction L with
  | nil => simp [Ledger.present]
  | cons r L ih =>
      rw [List.map_cons, present_cons, present_cons, ih]
      unfold Record.clear
      by_cases hr : r.fate = .present ∧ hash r.key = h
      · have hiff := hp r.key hr.2
        by_cases hq : q
        · simp [hr, hiff.mpr hq, hq]
        · simp [hr, mt hiff.mp hq, hq]
      · by_cases hcut : r.fate = .present ∧ p r.key
        · have hne : hash r.key ≠ h := fun hh => hr ⟨hcut.1, hh⟩
          simp [hcut, hne]
        · simp [hcut, hr]

@[simp] theorem removedBy_append :
    Ledger.removedBy (L₁ ++ L₂) c = Ledger.removedBy L₁ c ++ Ledger.removedBy L₂ c := by
  simp [Ledger.removedBy]

@[simp] theorem removedBy_cons_present :
    Ledger.removedBy (⟨k, v, .present⟩ :: L) c = Ledger.removedBy L c := by
  simp [Ledger.removedBy]

@[simp] theorem removedBy_nil : Ledger.removedBy ([] : Ledger C K V) c = [] := rfl

@[simp] theorem removedBy_cons_self :
    Ledger.removedBy (⟨k, v, .removed c⟩ :: L) c = ⟨k, v, .removed c⟩ :: Ledger.removedBy L c := by
  simp [Ledger.removedBy]

theorem removedBy_cons_ne (hne : c ≠ d) :
    Ledger.removedBy (⟨k, v, .removed d⟩ :: L) c = Ledger.removedBy L c := by
  simp [Ledger.removedBy, Ne.symm hne]

theorem removedBy_clear (p : K → Prop) [DecidablePred p] :
    Ledger.removedBy (L.map (Record.clear d p)) c = Ledger.removedBy L c := by
  induction L with
  | nil => rfl
  | cons r L ih =>
      obtain ⟨k, v, fate⟩ := r
      unfold Ledger.removedBy at ih ⊢
      rw [List.map_cons, List.filter_cons, List.filter_cons, ih]
      unfold Record.clear
      by_cases hcut : fate = .present ∧ p k
      · obtain ⟨rfl, hk⟩ := hcut
        simp [hk]
      · simp [hcut]

end Ledger

section Posting

variable {C K V : Type} [DecidableEq C]

/-- The operation stores `v` under its key when it finds no entry. -/
def KeyOp.Inserts : KeyOp K V → V → Prop
  | .set _ value, v => v = value
  | .getOrInsert _ dflt, v => v = dflt
  | _, _ => False

/-- The operation writes `v` to the entry that it finds. -/
def KeyOp.Writes : KeyOp K V → V → Prop
  | .set _ value, v => v = value
  | _, _ => False

/-- A removal returns that it found an entry. -/
def KeyOp.Took : KeyOp K V → Ret K V → Prop
  | .delete _, .bool true => True
  | .popVal _, .found (some _) => True
  | _, _ => False

/-- How the ledger follows a step from `s` to `t`: each posting is a change of one bucket that the step
makes, or the clearing of a shard. -/
inductive Posted (hash : K → UInt64) (s t : State C K V) :
    Act C K V → Ledger C K V → Ledger C K V → Prop
  | keep {a : Act C K V} {L : Ledger C K V} : (∀ h, t.map.bucket h = s.map.bucket h) →
      Posted hash s t a L L
  | insert {c : C} {op : KeyOp K V} {pc : Pc K V} {v : V} {L : Ledger C K V} :
      s.calls c = .keyed op pc → op.Inserts v →
      t.map.bucket (hash op.key) = s.map.bucket (hash op.key) ++ [(op.key, v)] →
      (∀ h, h ≠ hash op.key → t.map.bucket h = s.map.bucket h) →
      Posted hash s t (.lock c) L (L ++ [⟨op.key, v, .present⟩])
  | write {c : C} {op : KeyOp K V} {k : K} {v old : V} {pc : Pc K V} {l₁ l₂ : Bucket K V}
      {L₁ L₂ : Ledger C K V} : s.calls c = .keyed op pc → op.Writes v →
      s.map.bucket (hash op.key) = l₁ ++ (k, old) :: l₂ →
      t.map.bucket (hash op.key) = l₁ ++ (k, v) :: l₂ →
      (∀ h, h ≠ hash op.key → t.map.bucket h = s.map.bucket h) →
      Posted hash s t (.lock c) (L₁ ++ ⟨k, old, .present⟩ :: L₂) (L₁ ++ ⟨k, v, .present⟩ :: L₂)
  | remove {c : C} {op : KeyOp K V} {k : K} {v : V} {pc : Pc K V} {l₁ l₂ : Bucket K V}
      {L₁ L₂ : Ledger C K V} : s.calls c = .keyed op pc → op.IsRemoval →
      s.map.bucket (hash op.key) = l₁ ++ (k, v) :: l₂ → t.map.bucket (hash op.key) = l₁ ++ l₂ →
      (∀ h, h ≠ hash op.key → t.map.bucket h = s.map.bucket h) →
      Posted hash s t (.lock c) (L₁ ++ ⟨k, v, .present⟩ :: L₂) (L₁ ++ ⟨k, v, .removed c⟩ :: L₂)
  | clear {c : C} {order : List UInt64} {i : ℕ} {acc : List (K × V)} {L : Ledger C K V} :
      s.calls c = .whole .clear i acc →
      (∀ h, t.map.bucket h = if (s.map.index h).val = i then [] else s.map.bucket h) →
      Posted hash s t (.visit c order) L
        (L.map (Record.clear c fun k => (s.map.index (hash k)).val = i))

/-- The ledger of a run. -/
inductive Booked [DecidableEq K] (hash : K → UInt64) (s₀ : State C K V) :
    List (Act C K V) → State C K V → Ledger C K V → Prop
  | nil : Booked hash s₀ [] s₀ []
  | snoc {as : List (Act C K V)} {s t : State C K V} {a : Act C K V} {L L' : Ledger C K V} :
      Booked hash s₀ as s L → next hash s a = some t → Posted hash s t a L L' →
      Booked hash s₀ (as ++ [a]) t L'

/-- A later state of a record: only a present one changes, and none its key. -/
def Record.Later (r r' : Record C K V) : Prop :=
  r'.key = r.key ∧ (r.fate ≠ .present → r' = r)

/-- The records of `L` come back in `L'` at their places, later. -/
def Ledger.Grows (L L' : Ledger C K V) : Prop :=
  ∀ (i : ℕ) (r : Record C K V), L[i]? = some r → ∃ r', L'[i]? = some r' ∧ r.Later r'

/-- In the run `as` the call `c` asked an entry with the key object `k`, and the answer was true. -/
def ComparedEqual [DecidableEq K] (hash : K → UInt64) (s₀ : State C K V) (as : List (Act C K V)) (c : C)
    (k : K) : Prop :=
  ∃ pre post u op checkedKeys v rest, as = pre ++ .eq c (some true) :: post ∧
    Run (next hash) s₀ pre u ∧ u.calls c = .keyed op (.compare checkedKeys ((k, v) :: rest))

/-- What the ledger `L` says of a call: a removal that took an entry has one record to its name, with
the value that it returned and a key that is its own object or compared equal; any other call none. -/
inductive Accounts (E : C → K → Prop) (L : Ledger C K V) (c : C) : CallState K V → Prop
  | took {op : KeyOp K V} {r : Ret K V} {k : K} {v : V} : op.Took r →
      (∀ w, r = .found (some w) → w = v) → k = op.key ∨ E c k →
      L.removedBy c = [⟨k, v, .removed c⟩] → Accounts E L c (.done (.keyed op) (.ok r))
  | nothing {x : CallState K V} : L.removedBy c = [] →
      (∀ op r, x = .done (.keyed op) (.ok r) → ¬ op.Took r) →
      (∀ op checkedKeys k, x = .keyed op (.hit checkedKeys k) → E c k) → Accounts E L c x

/-- The books agree with the map and with what the calls report. -/
structure Balanced [DecidableEq K] (hash : K → UInt64) (E : C → K → Prop) (s : State C K V)
    (L : Ledger C K V) : Prop where
  placed : Placed hash s.map
  distinct : ∀ h, DistinctKeys (fun k k' => decide (k = k')) (s.map.bucket h)
  bucket : ∀ h, s.map.bucket h = L.present hash h
  accounts : ∀ c, Accounts E L c (s.calls c)

/-- What a locked section does to the entries, and how the call leaves it. -/
inductive Effect (op : KeyOp K V) (pc : Pc K V) : Bucket K V → Bucket K V → Ctl K V → Prop
  | keep {l : Bucket K V} {ctl : Ctl K V} : (∀ r, ctl = .ret r → ¬ op.Took r) →
      (∀ checkedKeys k, ctl ≠ .goto (.hit checkedKeys k)) → Effect op pc l l ctl
  | insert {l : Bucket K V} {v : V} {r : Ret K V} : op.Inserts v → ¬ op.Took r →
      Effect op pc l (l ++ [(op.key, v)]) (.ret r)
  | write {k : K} {v old : V} {l₁ l₂ : Bucket K V} {r : Ret K V} : op.Writes v → ¬ op.Took r →
      Effect op pc (l₁ ++ (k, old) :: l₂) (l₁ ++ (k, v) :: l₂) (.ret r)
  | remove {k : K} {v : V} {l₁ l₂ : Bucket K V} : op.IsRemoval → Target op pc k →
      Effect op pc (l₁ ++ (k, v) :: l₂) (l₁ ++ l₂) (.ret (op.removeRet (some v)))

variable {hash : K → UInt64} {s s₀ t : State C K V} {a : Act C K V} {as : List (Act C K V)}
variable {L L' : Ledger C K V} {c d : C} {op : KeyOp K V} {pc : Pc K V} {l l' : Bucket K V}
variable {ctl : Ctl K V} {E E' : C → K → Prop} {x : CallState K V}

theorem not_took_lookup (hop : op.IsLookup) (r : Ret K V) : ¬ op.Took r := by
  cases op <;> simp [KeyOp.IsLookup, KeyOp.Took] at hop ⊢

theorem not_took_absent : ¬ op.Took (op.removeRet none) := by
  cases op <;> simp [KeyOp.removeRet, KeyOp.Took]

theorem took_removed (hop : op.IsRemoval) (v : V) : op.Took (op.removeRet (some v)) := by
  cases op <;> simp [KeyOp.IsRemoval, KeyOp.removeRet, KeyOp.Took] at hop ⊢

theorem removeRet_found {v w : V} (h : op.removeRet (some v) = .found (some w)) : v = w := by
  cases op <;> cases h
  all_goals rfl

theorem target_cases {k : K} (h : Target op pc k) :
    k = op.key ∨ ∃ checkedKeys, pc = .hit checkedKeys k := by
  cases pc with
  | fast => exact .inl h
  | collect => exact h.elim
  | hit checkedKeys k' =>
      obtain rfl : k = k' := h
      exact .inr ⟨checkedKeys, rfl⟩
  | compare checkedKeys candidates =>
      cases candidates with
      | nil => exact .inl h
      | cons => exact h.elim

theorem LockStep.effect [DecidableEq K] (h : LockStep op pc l l' ctl) : Effect op pc l l' ctl := by
  have hmove : ∀ {pc' : Pc K V}, (∀ checkedKeys k, pc' ≠ .hit checkedKeys k) →
      Effect op pc l l (.goto pc') := fun hpc' =>
    .keep (by simp) fun checkedKeys k hctl => hpc' checkedKeys k (Ctl.goto.inj hctl)
  cases h with
  | snapshot => exact hmove (by simp)
  | collect => exact hmove (by simp)
  | retry => exact hmove (by simp)
  | slow => exact hmove (by simp)
  | miss => exact hmove (by simp)
  | exhausted hop => exact .keep (fun r _ => not_took_lookup hop r) (by simp)
  | insertFast => exact .insert rfl id
  | insertLast => exact .insert rfl id
  | orInsertLast => exact .insert rfl id
  | write => exact .write rfl id
  | remove hop htarget => exact .remove hop htarget
  | absentFast hop =>
      refine .keep (fun r hr => ?_) (by simp)
      cases hr
      exact not_took_absent
  | absentLast hop =>
      refine .keep (fun r hr => ?_) (by simp)
      cases hr
      exact not_took_absent
  | getLast => exact .keep (fun r _ => id) (by simp)

/-- A call goes on to a match only for a key that answered true, and takes nothing meanwhile. -/
theorem onEq_quiet {checkedKeys : List K} {e : K × V} {rest : List (K × V)} {b : Bool} :
    (∀ r, op.onEq checkedKeys e rest b = .ret r → ¬ op.Took r) ∧
      ∀ checkedKeys' k, op.onEq checkedKeys e rest b = .goto (.hit checkedKeys' k) →
        b = true ∧ k = e.1 := by
  constructor
  · intro r hr
    cases op with
    | set => cases b <;> cases hr
    | delete => cases b <;> cases hr
    | popVal => cases b <;> cases hr
    | _ => exact id
  · intro checkedKeys' k hk
    cases b with
    | true =>
        cases op <;> cases hk
        all_goals exact ⟨rfl, rfl⟩
    | false => cases op <;> cases hk

theorem Accounts.none (h : Accounts E L c x) (hx : ∀ op r, x ≠ .done (.keyed op) (.ok r)) :
    L.removedBy c = [] := by
  cases h with
  | took => exact absurd rfl (hx _ _)
  | nothing hnone => exact hnone

theorem Accounts.hit (h : Accounts E L c (.keyed op pc)) {checkedKeys : List K} {k : K}
    (hpc : pc = .hit checkedKeys k) : E c k := by
  cases h with
  | nothing _ _ hhit => exact hhit op checkedKeys k (by rw [hpc])

theorem Accounts.mono (h : Accounts E L c x) (hE : ∀ c k, E c k → E' c k)
    (hL : L'.removedBy c = L.removedBy c) : Accounts E' L' c x := by
  cases h with
  | took htook hvalue hkey hone => exact .took htook hvalue (hkey.imp_right (hE c _)) (hL.trans hone)
  | nothing hnone htook hhit =>
      exact .nothing (hL.trans hnone) htook fun op checkedKeys k hx => hE c k (hhit op checkedKeys k hx)

/-- A call that moves on with no record to its name. -/
theorem accounts_resume (hnone : L.removedBy c = []) (hret : ∀ r, ctl = .ret r → ¬ op.Took r)
    (hhit : ∀ checkedKeys k, ctl = .goto (.hit checkedKeys k) → E c k) :
    Accounts E L c ((s.resume c op ctl).calls c) := by
  rw [State.calls_resume_self]
  cases ctl with
  | goto pc =>
      refine .nothing hnone (by simp) fun op' checkedKeys k hpc => hhit checkedKeys k ?_
      rw [(CallState.keyed.inj hpc).2]
  | ret r =>
      refine .nothing hnone (fun op' r' hdone => ?_) (by simp)
      obtain ⟨hop, hr⟩ := CallState.done.inj hdone
      rw [← Op.keyed.inj hop, ← Except.ok.inj hr]
      exact hret r rfl

variable [DecidableEq K]

/-- The step rule of the books. -/
theorem Balanced.step (h : Balanced hash E s L) (hn : next hash s a = some t) (hcall : a.call = c)
    (hE : ∀ c k, E c k → E' c k) (hbucket : ∀ h, t.map.bucket h = L'.present hash h)
    (hothers : ∀ d, d ≠ c → L'.removedBy d = L.removedBy d)
    (hself : Accounts E' L' c (t.calls c)) : Balanced hash E' t L' where
  placed := placed_next h.placed hn
  distinct := distinctObjects_next h.distinct hn
  bucket := hbucket
  accounts d := by
    by_cases hd : d = c
    · rw [hd]
      exact hself
    · rw [next_frame hn (hcall ▸ hd)]
      exact (h.accounts d).mono hE (hothers d hd)

theorem Balanced.lock (h : Balanced hash E s L) (hn : next hash s (.lock c) = some t)
    (hE : ∀ c k, E c k → E' c k) :
    ∃ L', Posted hash s t (.lock c) L L' ∧ Balanced hash E' t L' := by
  obtain ⟨op, pc, slot, ctl, l, l', hc, hl, hl', hstep, rfl⟩ := id (next_lock hn)
  have hcall : (Act.lock c : Act C K V).call = c := rfl
  have hbucket := bucket_lock hash s c op slot ctl
  rw [hl'] at hbucket
  have hself := hbucket (hash op.key)
  rw [if_pos rfl] at hself
  have hframe : ∀ x, x ≠ hash op.key → _ = s.map.bucket x := fun x hx =>
    (hbucket x).trans (if_neg hx)
  have haccount := h.accounts c
  rw [hc] at haccount
  have hnone := haccount.none (by simp)
  cases hstep.effect with
  | keep hret hgoto =>
      have hsame : ∀ x, _ = s.map.bucket x := fun x => (hbucket x).trans (by
        split
        · rename_i hx
          rw [hx, hl]
        · rfl)
      refine ⟨L, .keep hsame, h.step hn hcall hE (fun x => ?_) (fun _ _ => rfl) ?_⟩
      · rw [hsame, h.bucket]
      · exact accounts_resume hnone hret fun checkedKeys k hk => absurd hk (hgoto checkedKeys k)
  | @insert _ v r hinsert htook =>
      refine ⟨L ++ [⟨op.key, v, .present⟩], .insert hc hinsert (by rw [hself, hl]) hframe,
        h.step hn hcall hE (fun x => ?_) (fun d _ => by simp) ?_⟩
      · rw [present_append, present_cons, ← h.bucket, hbucket]
        by_cases hx : x = hash op.key
        · subst hx
          simp [hl, Ledger.present, Record.entry]
        · simp [hx, Ne.symm hx, Ledger.present]
      · refine accounts_resume (by simpa using hnone) (fun r' hr' => ?_) (by simp)
        cases hr'
        exact htook
  | @write k v old l₁ l₂ r hwrite htook =>
      obtain ⟨L₁, L₂, rfl, hk, hl₁, hl₂⟩ := present_split ((h.bucket _).symm.trans hl)
      refine ⟨L₁ ++ ⟨k, v, .present⟩ :: L₂, .write hc hwrite hl hself hframe,
        h.step hn hcall hE (fun x => ?_) (fun d _ => by simp) ?_⟩
      · by_cases hx : x = hash op.key
        · subst hx
          rw [hself, present_append, present_cons, if_pos ⟨rfl, hk⟩, hl₁, hl₂]
          rfl
        · have hkx : hash k ≠ x := fun hkx => hx (hkx.symm.trans hk)
          rw [hframe x hx, h.bucket, present_append, present_append, present_cons, present_cons,
            if_neg (fun hr => hkx hr.2), if_neg (fun hr => hkx hr.2)]
      · refine accounts_resume (by simpa using hnone) (fun r' hr' => ?_) (by simp)
        cases hr'
        exact htook
  | @remove k v l₁ l₂ hremoval htarget =>
      obtain ⟨L₁, L₂, rfl, hk, hl₁, hl₂⟩ := present_split ((h.bucket _).symm.trans hl)
      refine ⟨L₁ ++ ⟨k, v, .removed c⟩ :: L₂, .remove hc hremoval hl hself hframe,
        h.step hn hcall hE (fun x => ?_) (fun d hd => by simp [removedBy_cons_ne hd]) ?_⟩
      · by_cases hx : x = hash op.key
        · subst hx
          rw [hbucket, if_pos rfl, present_append, present_cons_removed, hl₁, hl₂]
        · have hkx : hash k ≠ x := fun hkx => hx (hkx.symm.trans hk)
          rw [hframe x hx, h.bucket, present_append, present_append, present_cons,
            present_cons_removed, if_neg (fun hr => hkx hr.2)]
      · rw [State.calls_resume_self]
        have hkey : k = op.key ∨ E' c k :=
          (target_cases htarget).imp_right fun ⟨_, hpc⟩ => hE c k (haccount.hit hpc)
        rw [removedBy_append, removedBy_cons_present] at hnone
        obtain ⟨hnone₁, hnone₂⟩ := List.append_eq_nil_iff.mp hnone
        refine .took (took_removed hremoval v) (fun w hw => (removeRet_found hw).symm) hkey ?_
        rw [removedBy_append, removedBy_cons_self, hnone₁, hnone₂]
        rfl

/-- A step that leaves the map alone posts nothing. -/
theorem Balanced.keep (h : Balanced hash E s L) (hn : next hash s a = some t) (hcall : a.call = c)
    (hE : ∀ c k, E c k → E' c k) (hmap : t.map = s.map) (hself : Accounts E' L c (t.calls c)) :
    ∃ L', Posted hash s t a L L' ∧ Balanced hash E' t L' :=
  have hbucket : ∀ x, t.map.bucket x = s.map.bucket x := fun x => by rw [hmap]
  ⟨L, .keep hbucket, h.step hn hcall hE (fun x => (hbucket x).trans (h.bucket x)) (fun _ _ => rfl)
    hself⟩

theorem Balanced.visit (h : Balanced hash E s L) {order : List UInt64}
    (hn : next hash s (.visit c order) = some t) (hE : ∀ c k, E c k → E' c k) :
    ∃ L', Posted hash s t (.visit c order) L L' ∧ Balanced hash E' t L' := by
  have hcall : (Act.visit c order : Act C K V).call = c := rfl
  obtain ⟨op, i, acc, hi, hc, hmap, -, hself⟩ := next_visit hn
  have haccount := h.accounts c
  rw [hc] at haccount
  have hnone := haccount.none (by simp)
  have hdone : ∀ L' : Ledger C K V, L'.removedBy c = [] → Accounts E' L' c (t.calls c) := by
    intro L' hL'
    obtain ⟨r, hr⟩ | ⟨acc', hacc⟩ := hself
    · rw [hr]
      exact .nothing hL' (by simp) (by simp)
    · rw [hacc]
      exact .nothing hL' (by simp) (by simp)
  split at hmap
  · rename_i hop
    subst hop
    have hbucket : ∀ x, t.map.bucket x = if (s.map.index x).val = i then [] else s.map.bucket x := by
      intro x
      rw [hmap, bucket_clearShard]
      exact if_congr Fin.ext_iff rfl rfl
    refine ⟨_, .clear hc hbucket, h.step hn hcall hE (fun x => ?_) (fun d _ => removedBy_clear _)
      (hdone _ ((removedBy_clear _).trans hnone))⟩
    rw [hbucket, h.bucket]
    exact (present_clear _ _ fun k hk => by rw [hk]).symm
  · exact h.keep hn hcall hE hmap (hdone L hnone)

/-- A step keeps the books balanced; what it compares equal is added to what was. -/
theorem Balanced.next (h : Balanced hash E s L) (hn : Map.next hash s a = some t)
    (hE : ∀ c k, E c k → E' c k)
    (hnew : ∀ c op checkedKeys k v rest, a = .eq c (some true) →
      s.calls c = .keyed op (.compare checkedKeys ((k, v) :: rest)) → E' c k) :
    ∃ L', Posted hash s t a L L' ∧ Balanced hash E' t L' := by
  cases a with
  | invoke c op =>
      obtain ⟨hidle, hop⟩ := next_invoke hn
      have haccount := h.accounts c
      rw [hidle] at haccount
      have hnone := haccount.none (by simp)
      obtain ⟨kop, rfl, rfl⟩ | ⟨wop, rfl, rfl⟩ := hop
      · refine h.keep hn rfl hE rfl ?_
        rw [Act.call, State.calls_setCall_self]
        refine .nothing hnone (by simp) fun op checkedKeys k hstart => ?_
        obtain ⟨-, hstart⟩ := CallState.keyed.inj hstart
        cases kop <;> cases hstart
      · refine h.keep hn rfl hE rfl ?_
        rw [Act.call, State.calls_setCall_self]
        exact .nothing hnone (by simp) (by simp)
  | unhashable c op =>
      obtain ⟨hidle, rfl⟩ := next_unhashable hn
      have haccount := h.accounts c
      rw [hidle] at haccount
      refine h.keep hn rfl hE rfl ?_
      rw [Act.call, State.calls_setCall_self]
      exact .nothing (haccount.none (by simp)) (by simp) (by simp)
  | lock c => exact h.lock hn hE
  | eq c answer =>
      obtain ⟨op, checkedKeys, e, rest, hc, hans⟩ := next_eq hn
      have haccount := h.accounts c
      rw [hc] at haccount
      have hnone := haccount.none (by simp)
      obtain ⟨-, rfl⟩ | ⟨b, rfl, rfl⟩ := hans
      · refine h.keep hn rfl hE rfl ?_
        rw [Act.call, State.calls_setCall_self]
        exact .nothing hnone (by simp) (by simp)
      · refine h.keep hn rfl hE (State.map_resume _ _ _ _) (accounts_resume hnone onEq_quiet.1 ?_)
        intro checkedKeys' k hk
        obtain ⟨rfl, rfl⟩ := onEq_quiet.2 checkedKeys' k hk
        exact hnew c op checkedKeys e.1 e.2 rest rfl hc
  | visit c order => exact h.visit hn hE

theorem ComparedEqual.snoc {k : K} (h : ComparedEqual hash s₀ as c k) (a : Act C K V) :
    ComparedEqual hash s₀ (as ++ [a]) c k := by
  obtain ⟨pre, post, u, op, checkedKeys, v, rest, rfl, hu, hc⟩ := h
  exact ⟨pre, post ++ [a], u, op, checkedKeys, v, rest, by simp, hu, hc⟩

theorem comparedEqual_now {k : K} {checkedKeys : List K} {v : V} {rest : List (K × V)}
    (hrun : Run (Map.next hash) s₀ as s) (ha : a = .eq c (some true))
    (hc : s.calls c = .keyed op (.compare checkedKeys ((k, v) :: rest))) :
    ComparedEqual hash s₀ (as ++ [a]) c k :=
  ⟨as, [], s, op, checkedKeys, v, rest, by rw [ha], hrun, hc⟩

/-- Every run from an empty map has a ledger, and it balances. -/
theorem exists_booked {n : ℕ} {hn : 0 < n}
    (h : Run (Map.next hash) (State.init (.empty n hn)) as s) :
    ∃ L, Booked hash (State.init (.empty n hn)) as s L ∧
      Balanced hash (ComparedEqual hash (State.init (.empty n hn)) as) s L := by
  induction h with
  | nil =>
      have hempty : ∀ x, (ConcurrentMap.empty n hn : ConcurrentMap K V).bucket x = [] := by
        simp [ConcurrentMap.bucket, ConcurrentMap.slot, ConcurrentMap.empty]
      refine ⟨[], .nil, placed_empty n hn, fun x => ?_, fun x => ?_, fun c => ?_⟩
      · rw [State.init, hempty]
        exact List.Pairwise.nil
      · rw [State.init, hempty]
        rfl
      · exact .nothing rfl (by simp [State.init]) (by simp [State.init])
  | @snoc as s a t hr _ hn ih =>
      obtain ⟨L, hbooked, hbalanced⟩ := ih
      obtain ⟨L', hposted, hbalanced'⟩ := hbalanced.next hn (fun c k hck => hck.snoc a)
        fun c op checkedKeys k v rest ha hc => comparedEqual_now hr ha hc
      exact ⟨L', .snoc hbooked hn hposted, hbalanced'⟩

/-- The entries of the map are the records present. -/
theorem Balanced.entries (h : Balanced hash E s L) :
    s.map.entries = ((L.filter fun r => r.fate = .present).map Record.entry : List (K × V)) := by
  have hbucket : ∀ x, s.map.bucket x =
      ((L.filter fun r => r.fate = .present).map Record.entry).filter fun e => hash e.1 = x := by
    intro x
    rw [h.bucket, Ledger.present, List.filter_map, List.filter_filter]
    congr 1
    refine List.filter_congr fun r _ => ?_
    rw [Function.comp_apply, ← Bool.decide_and, decide_eq_decide]
    exact and_comm
  have hnodup : ∀ x, (s.map.bucket x).Nodup := fun x => nodup_bucket (by simp) (h.distinct x)
  have hnodup' : ((L.filter fun r => r.fate = .present).map Record.entry).Nodup := by
    refine List.nodup_iff_sublist.mpr fun e hsub => ?_
    have hfilter := hsub.filter fun e' => hash e'.1 = hash e.1
    rw [← hbucket] at hfilter
    exact List.nodup_iff_sublist.mp (hnodup _) e (by simpa using hfilter)
  refine (Multiset.Nodup.ext (h.placed.nodup_entries hnodup)
    (Multiset.coe_nodup.mpr hnodup')).mpr fun e => ?_
  rw [h.placed.mem_entries, hbucket, List.mem_filter]
  simp

section Growth

omit [DecidableEq C] [DecidableEq K] in
theorem Record.Later.refl (r : Record C K V) : r.Later r := ⟨rfl, fun _ => rfl⟩

omit [DecidableEq C] [DecidableEq K] in
theorem Record.Later.trans {r₁ r₂ r₃ : Record C K V} (h : r₁.Later r₂) (h' : r₂.Later r₃) :
    r₁.Later r₃ := by
  refine ⟨h'.1.trans h.1, fun hfate => ?_⟩
  obtain rfl := h.2 hfate
  exact h'.2 hfate

omit [DecidableEq C] [DecidableEq K] in
theorem Ledger.Grows.refl (L : Ledger C K V) : L.Grows L := fun _ r hr => ⟨r, hr, .refl r⟩

omit [DecidableEq C] [DecidableEq K] in
theorem Ledger.Grows.trans {L₁ L₂ L₃ : Ledger C K V} (h : L₁.Grows L₂) (h' : L₂.Grows L₃) :
    L₁.Grows L₃ := by
  intro i r hr
  obtain ⟨r', hr', hlater⟩ := h i r hr
  obtain ⟨r'', hr'', hlater'⟩ := h' i r' hr'
  exact ⟨r'', hr'', hlater.trans hlater'⟩

omit [DecidableEq C] [DecidableEq K] in
theorem grows_replace {r r' : Record C K V} (L₁ L₂ : Ledger C K V) (h : r.Later r') :
    Ledger.Grows (L₁ ++ r :: L₂) (L₁ ++ r' :: L₂) := by
  induction L₁ with
  | nil =>
      intro i q hq
      cases i with
      | zero =>
          cases hq
          exact ⟨r', rfl, h⟩
      | succ i => exact ⟨q, hq, .refl q⟩
  | cons r₀ L₁ ih =>
      intro i q hq
      cases i with
      | zero => exact ⟨q, hq, .refl q⟩
      | succ i => exact ih i q hq

omit [DecidableEq K] in
theorem Posted.grows (h : Posted hash s t a L L') : L.Grows L' := by
  cases h with
  | keep => exact .refl L
  | insert =>
      intro i r hr
      obtain ⟨hi, -⟩ := List.getElem?_eq_some_iff.mp hr
      exact ⟨r, (List.getElem?_append_left hi).trans hr, .refl r⟩
  | write => exact grows_replace _ _ ⟨rfl, fun hfate => absurd rfl hfate⟩
  | remove => exact grows_replace _ _ ⟨rfl, fun hfate => absurd rfl hfate⟩
  | clear =>
      intro i r hr
      refine ⟨_, by rw [List.getElem?_map, hr]; rfl, ?_⟩
      unfold Record.clear
      split
      · rename_i hcut
        exact ⟨rfl, fun hfate => absurd hcut.1 hfate⟩
      · exact .refl r

/-- The ledger of the first part of a run, and how it goes on: what was removed or cleared stays so. -/
theorem Booked.grows (h : Booked hash s₀ as s L) {pre : List (Act C K V)} (hpre : pre <+: as) :
    ∃ u L₁, Booked hash s₀ pre u L₁ ∧ L₁.Grows L := by
  induction h with
  | nil =>
      obtain rfl := List.prefix_nil.mp hpre
      exact ⟨_, _, .nil, .refl _⟩
  | snoc hbooked hn hposted ih =>
      rcases List.prefix_concat_iff.mp hpre with rfl | hpre
      · exact ⟨_, _, .snoc hbooked hn hposted, .refl _⟩
      · obtain ⟨u, L₁, hu, hgrows⟩ := ih hpre
        exact ⟨u, L₁, hu, hgrows.trans hposted.grows⟩

end Growth

end Posting

end Pysync.Map
