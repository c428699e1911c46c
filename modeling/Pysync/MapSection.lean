import Pysync.MapModel

/-!
What the locked sections do, read off once: `LockStep` lists every way a section can change a bucket
and leave, and `lock_cases` says that the code takes one of them.
-/

namespace Pysync.Map

variable {K V : Type} [DecidableEq K]

theorem position_eq_none {list : Bucket K V} {key : K} :
    position list key = none ↔ ∀ e ∈ list, e.1 ≠ key := by
  simp [position, List.findFinIdx?_eq_none_iff]

/-- The position found splits the bucket, and says what writing and removing there do. -/
theorem position_eq_some {list : Bucket K V} {key : K} {pos : Fin list.length}
    (h : position list key = some pos) :
    ∃ l₁ v l₂, list = l₁ ++ (key, v) :: l₂ ∧ (list.get pos).2 = v ∧
      (∀ w, writeAt list pos w = l₁ ++ (key, w) :: l₂) ∧ list.eraseIdx pos = l₁ ++ l₂ := by
  obtain ⟨hkey, -⟩ := List.findFinIdx?_eq_some_iff.mp h
  have hkey : list[pos].1 = key := by simpa using hkey
  refine ⟨list.take pos, (list.get pos).2, list.drop (pos + 1), ?_, rfl, fun w => ?_, ?_⟩
  · rw [← hkey]
    simp
  · rw [writeAt, hkey, List.set_eq_take_append_cons_drop, if_pos pos.isLt]
  · rw [List.eraseIdx_eq_take_drop_succ]

omit [DecidableEq K] in
theorem getD_removeAt (list : Bucket K V) (pos : Fin list.length) :
    (removeAt list pos).getD [] = list.eraseIdx pos := by
  unfold removeAt
  split
  · rename_i hempty
    simpa using (List.isEmpty_iff.mp hempty).symm
  · rfl

theorem hasUnboundCandidate_eq_false {checkedKeys : List K} {list : Bucket K V} :
    hasUnboundCandidate checkedKeys list = false ↔ ∀ e ∈ list, e.1 ∈ checkedKeys := by
  simp [hasUnboundCandidate]

theorem hasUnboundCandidate_eq_true {checkedKeys : List K} {list : Bucket K V} :
    hasUnboundCandidate checkedKeys list = true ↔ ∃ e ∈ list, e.1 ∉ checkedKeys := by
  simp [hasUnboundCandidate]

theorem mem_newCandidates {checkedKeys : List K} {slot : Option (Bucket K V)} {e : K × V} :
    e ∈ newCandidates checkedKeys slot ↔ e ∈ slot.getD [] ∧ e.1 ∉ checkedKeys := by
  simp [newCandidates]

namespace KeyOp

def IsLookup : KeyOp K V → Prop
  | get _ | getVal _ | containsKey _ => True
  | _ => False

/-- `delete` and `pop_val`. -/
def IsRemoval : KeyOp K V → Prop
  | delete _ | popVal _ => True
  | _ => False

def IsSet : KeyOp K V → Prop
  | set _ _ => True
  | _ => False

/-- What a removal returns for the value it removed, or for nothing. -/
def removeRet : KeyOp K V → Option V → Ret K V
  | delete _, v => .bool v.isSome
  | _, v => .found v

end KeyOp

/-- The section at `pc` may write or remove the entry of key object `k`. -/
def Target (op : KeyOp K V) : Pc K V → K → Prop
  | .fast, k => k = op.key
  | .hit _ k', k => k = k'
  | .compare _ [], k => k = op.key
  | _, _ => False

/-- The outcomes of a locked section: the entries of the bucket before and after, and how the call
leaves. -/
inductive LockStep : KeyOp K V → Pc K V → Bucket K V → Bucket K V → Ctl K V → Prop
  | snapshot {op : KeyOp K V} {checkedKeys : List K} {l : Bucket K V} :
      op.IsLookup → LockStep op (.collect checkedKeys) l l (.goto (.compare [] l))
  | exhausted {op : KeyOp K V} {checkedKeys : List K} {l : Bucket K V} :
      op.IsLookup → LockStep op (.compare checkedKeys []) l l (.ret (op.lookupRet none))
  | collect {op : KeyOp K V} {checkedKeys : List K} {l : Bucket K V} :
      ¬ op.IsLookup → LockStep op (.collect checkedKeys) l l
        (.goto (.compare checkedKeys (newCandidates checkedKeys (some l))))
  | retry {op : KeyOp K V} {checkedKeys : List K} {l : Bucket K V} :
      ¬ op.IsLookup → (∃ e ∈ l, e.1 ∉ checkedKeys) →
      LockStep op (.compare checkedKeys []) l l (.goto (.collect checkedKeys))
  | slow {op : KeyOp K V} {l : Bucket K V} :
      op.IsSet ∨ op.IsRemoval → l ≠ [] → (∀ e ∈ l, e.1 ≠ op.key) →
      LockStep op .fast l l (.goto (.collect []))
  | miss {op : KeyOp K V} {checkedKeys : List K} {k : K} {l : Bucket K V} :
      op.IsSet ∨ op.IsRemoval → (∀ e ∈ l, e.1 ≠ k) →
      LockStep op (.hit checkedKeys k) l l (.goto (.compare checkedKeys []))
  | insertFast {key : K} {value : V} :
      LockStep (.set key value) .fast [] [(key, value)] (.ret .unit)
  | insertLast {key : K} {value : V} {checkedKeys : List K} {l : Bucket K V} :
      (∀ e ∈ l, e.1 ∈ checkedKeys) → (∀ e ∈ l, e.1 ≠ key) →
      LockStep (.set key value) (.compare checkedKeys []) l (l ++ [(key, value)]) (.ret .unit)
  | write {key k : K} {value old : V} {pc : Pc K V} {l₁ l₂ : Bucket K V} :
      Target (.set key value) pc k →
      LockStep (.set key value) pc (l₁ ++ (k, old) :: l₂) (l₁ ++ (k, value) :: l₂) (.ret .unit)
  | remove {op : KeyOp K V} {k : K} {v : V} {pc : Pc K V} {l₁ l₂ : Bucket K V} :
      op.IsRemoval → Target op pc k →
      LockStep op pc (l₁ ++ (k, v) :: l₂) (l₁ ++ l₂) (.ret (op.removeRet (some v)))
  | absentFast {op : KeyOp K V} :
      op.IsRemoval → LockStep op .fast [] [] (.ret (op.removeRet none))
  | absentLast {op : KeyOp K V} {checkedKeys : List K} {l : Bucket K V} :
      op.IsRemoval → (∀ e ∈ l, e.1 ∈ checkedKeys) → (∀ e ∈ l, e.1 ≠ op.key) →
      LockStep op (.compare checkedKeys []) l l (.ret (op.removeRet none))
  | getLast {key : K} {dflt v : V} {checkedKeys : List K} {l₁ l₂ : Bucket K V} :
      (∀ e ∈ l₁ ++ (key, v) :: l₂, e.1 ∈ checkedKeys) →
      LockStep (.getOrInsert key dflt) (.compare checkedKeys []) (l₁ ++ (key, v) :: l₂)
        (l₁ ++ (key, v) :: l₂) (.ret (.value v))
  | orInsertLast {key : K} {dflt : V} {checkedKeys : List K} {l : Bucket K V} :
      (∀ e ∈ l, e.1 ∈ checkedKeys) → (∀ e ∈ l, e.1 ≠ key) →
      LockStep (.getOrInsert key dflt) (.compare checkedKeys []) l (l ++ [(key, dflt)])
        (.ret (.value dflt))

theorem lockStep_collect {op : KeyOp K V} (hop : ¬ op.IsLookup) (checkedKeys : List K)
    (slot : Option (Bucket K V)) :
    LockStep op (.collect checkedKeys) (slot.getD []) (slot.getD [])
      (.goto (.compare checkedKeys (newCandidates checkedKeys slot))) :=
  show LockStep op (.collect checkedKeys) (slot.getD []) (slot.getD [])
    (.goto (.compare checkedKeys (newCandidates checkedKeys (some (slot.getD []))))) from .collect hop

/-- Removing at the position found. -/
theorem lockStep_removeAt {op : KeyOp K V} {pc : Pc K V} {k : K} {list : Bucket K V}
    {pos : Fin list.length} (hop : op.IsRemoval) (htarget : Target op pc k)
    (hpos : position list k = some pos) :
    LockStep op pc list ((removeAt list pos).getD []) (.ret (op.removeRet (some (list.get pos).2))) := by
  obtain ⟨l₁, v, l₂, hl, hv, -, herase⟩ := position_eq_some hpos
  rw [getD_removeAt, herase, hv]
  exact hl ▸ .remove hop htarget

/-- Writing at the position found. -/
theorem lockStep_writeAt {key k : K} {value : V} {pc : Pc K V} {list : Bucket K V}
    {pos : Fin list.length} (htarget : Target (.set key value) pc k)
    (hpos : position list k = some pos) :
    LockStep (.set key value) pc list (writeAt list pos value) (.ret .unit) := by
  obtain ⟨l₁, v, l₂, hl, -, hwrite, -⟩ := position_eq_some hpos
  rw [hwrite]
  exact hl ▸ .write htarget

/-- What the section `f` does at `pc` is one of the outcomes; it goes on at `onwards`. -/
def Does (op : KeyOp K V) (pc onwards : Pc K V) (f : Section K V) : Prop :=
  ∀ slot, LockStep op pc (slot.getD []) ((KeyOp.leave (f slot) onwards).1.getD [])
    (KeyOp.leave (f slot) onwards).2

/-- The sections of a method with a retry loop. -/
theorem retry_cases {op : KeyOp K V} {pc : Pc K V} {slot slot' : Option (Bucket K V)} {ctl : Ctl K V}
    {fast : Section K V} {hit : K → Section K V} {last : List K → Section K V} (hop : ¬ op.IsLookup)
    (hfast : Does op .fast (.collect []) fast)
    (hhit : ∀ checkedKeys k, Does op (.hit checkedKeys k) (.compare checkedKeys []) (hit k))
    (hlast : ∀ checkedKeys, Does op (.compare checkedKeys []) (.collect checkedKeys) (last checkedKeys))
    (h : KeyOp.retry fast hit last pc slot = some (slot', ctl)) :
    LockStep op pc (slot.getD []) (slot'.getD []) ctl := by
  cases pc with
  | fast =>
      cases h
      exact hfast slot
  | collect checkedKeys =>
      cases h
      exact lockStep_collect hop checkedKeys slot
  | hit checkedKeys k =>
      cases h
      exact hhit checkedKeys k slot
  | compare checkedKeys candidates =>
      cases candidates with
      | cons e rest => cases h
      | nil =>
          cases h
          exact hlast checkedKeys slot

theorem does_removeFast {op : KeyOp K V} (hop : op.IsRemoval) :
    Does op .fast (.collect [])
      (removeFast (op.removeRet none) (fun v => op.removeRet (some v)) op.key) := by
  intro slot
  cases slot with
  | none => exact .absentFast hop
  | some list =>
      cases list with
      | nil => exact .absentFast hop
      | cons e list =>
          simp only [removeFast, List.isEmpty_cons, Bool.false_eq_true, if_false]
          cases hpos : position (e :: list) op.key with
          | none => exact .slow (.inr hop) (List.cons_ne_nil _ _) (position_eq_none.mp hpos)
          | some pos => exact lockStep_removeAt hop rfl hpos

theorem does_removeHit {op : KeyOp K V} (hop : op.IsRemoval) (checkedKeys : List K) (k : K) :
    Does op (.hit checkedKeys k) (.compare checkedKeys [])
      (removeHit (fun v => op.removeRet (some v)) k) := by
  intro slot
  cases slot with
  | none => exact .miss (.inr hop) (by simp)
  | some list =>
      simp only [removeHit]
      cases hpos : position list k with
      | none => exact .miss (.inr hop) (position_eq_none.mp hpos)
      | some pos => exact lockStep_removeAt hop rfl hpos

theorem does_removeLast {op : KeyOp K V} (hlookup : ¬ op.IsLookup) (hop : op.IsRemoval)
    (checkedKeys : List K) :
    Does op (.compare checkedKeys []) (.collect checkedKeys)
      (removeLast (op.removeRet none) (fun v => op.removeRet (some v)) op.key checkedKeys) := by
  intro slot
  cases slot with
  | none => exact .absentLast hop (by simp) (by simp)
  | some list =>
      simp only [removeLast]
      cases hun : hasUnboundCandidate checkedKeys list with
      | true => exact .retry hlookup (hasUnboundCandidate_eq_true.mp hun)
      | false =>
          have hall := hasUnboundCandidate_eq_false.mp hun
          cases hpos : position list op.key with
          | none => exact .absentLast hop hall (position_eq_none.mp hpos)
          | some pos => exact lockStep_removeAt hop rfl hpos

theorem does_setFast (key : K) (value : V) :
    Does (.set key value) .fast (.collect []) (setFast key value) := by
  intro slot
  cases slot with
  | none => exact .insertFast
  | some list =>
      cases list with
      | nil => exact .insertFast
      | cons e list =>
          simp only [setFast, List.isEmpty_cons, Bool.false_eq_true, if_false]
          cases hpos : position (e :: list) key with
          | none => exact .slow (.inl trivial) (List.cons_ne_nil _ _) (position_eq_none.mp hpos)
          | some pos => exact lockStep_writeAt rfl hpos

theorem does_setHit (key : K) (value : V) (checkedKeys : List K) (k : K) :
    Does (.set key value) (.hit checkedKeys k) (.compare checkedKeys []) (setHit value k) := by
  intro slot
  cases slot with
  | none => exact .miss (.inl trivial) (by simp)
  | some list =>
      simp only [setHit]
      cases hpos : position list k with
      | none => exact .miss (.inl trivial) (position_eq_none.mp hpos)
      | some pos => exact lockStep_writeAt rfl hpos

theorem does_setLast (key : K) (value : V) (checkedKeys : List K) :
    Does (.set key value) (.compare checkedKeys []) (.collect checkedKeys)
      (setLast key value checkedKeys) := by
  intro slot
  simp only [setLast]
  generalize slot.getD [] = list
  cases hun : hasUnboundCandidate checkedKeys list with
  | true => exact .retry (fun h => h) (hasUnboundCandidate_eq_true.mp hun)
  | false =>
      have hall := hasUnboundCandidate_eq_false.mp hun
      cases hpos : position list key with
      | none => exact .insertLast hall (position_eq_none.mp hpos)
      | some pos => exact lockStep_writeAt rfl hpos

theorem does_getOrInsertLast (key : K) (dflt : V) (checkedKeys : List K) :
    Does (.getOrInsert key dflt) (.compare checkedKeys []) (.collect checkedKeys)
      (getOrInsertLast key dflt checkedKeys) := by
  intro slot
  simp only [getOrInsertLast]
  cases hun : hasUnboundCandidate checkedKeys (slot.getD []) with
  | true => exact .retry (fun h => h) (hasUnboundCandidate_eq_true.mp hun)
  | false =>
      have hall := hasUnboundCandidate_eq_false.mp hun
      cases hpos : position (slot.getD []) key with
      | none => exact .orInsertLast hall (position_eq_none.mp hpos)
      | some pos =>
          obtain ⟨l₁, v, l₂, hl, hv, -, -⟩ := position_eq_some hpos
          have hget : LockStep (.getOrInsert key dflt) (.compare checkedKeys [])
              (l₁ ++ (key, v) :: l₂) (l₁ ++ (key, v) :: l₂) (.ret (.value v)) :=
            .getLast (hl ▸ hall)
          rw [← hl, ← hv] at hget
          exact hget

theorem getOrInsert_cases {key : K} {dflt : V} {pc : Pc K V} {slot slot' : Option (Bucket K V)}
    {ctl : Ctl K V} (h : (KeyOp.getOrInsert key dflt).lock pc slot = some (slot', ctl)) :
    LockStep (.getOrInsert key dflt) pc (slot.getD []) (slot'.getD []) ctl := by
  have hlookup : ¬ (KeyOp.getOrInsert key dflt : KeyOp K V).IsLookup := id
  cases pc with
  | fast => cases h
  | hit checkedKeys k => cases h
  | collect checkedKeys =>
      cases h
      exact lockStep_collect hlookup checkedKeys slot
  | compare checkedKeys candidates =>
      cases candidates with
      | cons e rest => cases h
      | nil =>
          cases h
          exact does_getOrInsertLast key dflt checkedKeys slot

theorem lookup_cases {op : KeyOp K V} {pc : Pc K V} {slot slot' : Option (Bucket K V)}
    {ctl : Ctl K V} (hop : op.IsLookup) (h : op.lookup pc slot = some (slot', ctl)) :
    LockStep op pc (slot.getD []) (slot'.getD []) ctl := by
  cases pc with
  | fast => cases h
  | hit checkedKeys k => cases h
  | collect checkedKeys =>
      cases h
      exact .snapshot hop
  | compare checkedKeys candidates =>
      cases candidates with
      | cons e rest => cases h
      | nil =>
          cases h
          exact .exhausted hop

/-- Every locked section of the code is one of the listed outcomes. -/
theorem lock_cases {op : KeyOp K V} {pc : Pc K V} {slot slot' : Option (Bucket K V)}
    {ctl : Ctl K V} (h : op.lock pc slot = some (slot', ctl)) :
    LockStep op pc (slot.getD []) (slot'.getD []) ctl := by
  cases op with
  | get key => exact lookup_cases trivial h
  | getVal key => exact lookup_cases trivial h
  | containsKey key => exact lookup_cases trivial h
  | getOrInsert key dflt => exact getOrInsert_cases h
  | set key value =>
      exact retry_cases (fun h => h) (does_setFast key value) (does_setHit key value)
        (does_setLast key value) h
  | delete key =>
      have hop : (KeyOp.delete key : KeyOp K V).IsRemoval := trivial
      exact retry_cases (fun h => h) (does_removeFast hop) (does_removeHit hop)
        (does_removeLast (fun h => h) hop) h
  | popVal key =>
      have hop : (KeyOp.popVal key : KeyOp K V).IsRemoval := trivial
      exact retry_cases (fun h => h) (does_removeFast hop) (does_removeHit hop)
        (does_removeLast (fun h => h) hop) h

section Next

variable {C : Type} [DecidableEq C] {hash : K → UInt64} {s t : State C K V} {c : C}

theorem next_invoke {op : Op K V} (h : next hash s (.invoke c op) = some t) :
    s.calls c = .idle ∧ ((∃ kop, op = .keyed kop ∧ t = s.setCall c (.keyed kop kop.start)) ∨
      ∃ wop, op = .whole wop ∧ t = s.setCall c (.whole wop 0 [])) := by
  simp only [next] at h
  split at h
  · exact ⟨‹_›, .inl ⟨_, rfl, (Option.some.inj h).symm⟩⟩
  · exact ⟨‹_›, .inr ⟨_, rfl, (Option.some.inj h).symm⟩⟩
  · cases h

theorem next_unhashable {op : KeyOp K V} (h : next hash s (.unhashable c op) = some t) :
    s.calls c = .idle ∧ t = s.setCall c (.done (.keyed op) (.error .user)) := by
  simp only [next] at h
  split at h
  · exact ⟨‹_›, (Option.some.inj h).symm⟩
  · cases h

theorem next_lock (h : next hash s (.lock c) = some t) :
    ∃ op pc slot ctl l l', s.calls c = .keyed op pc ∧ s.map.bucket (hash op.key) = l ∧
      slot.getD [] = l' ∧ LockStep op pc l l' ctl ∧
      t = State.resume { s with map := s.map.setSlot (hash op.key) slot } c op ctl := by
  simp only [next] at h
  split at h
  · obtain ⟨⟨slot, ctl⟩, hlock, rfl⟩ := Option.map_eq_some_iff.mp h
    exact ⟨_, _, slot, ctl, _, _, ‹_›, rfl, rfl, lock_cases hlock, rfl⟩
  · cases h

theorem next_eq {answer : Option Bool} (h : next hash s (.eq c answer) = some t) :
    ∃ op checkedKeys e rest, s.calls c = .keyed op (.compare checkedKeys (e :: rest)) ∧
      ((answer = none ∧ t = s.setCall c (.done (.keyed op) (.error .user))) ∨
        ∃ b, answer = some b ∧ t = s.resume c op (op.onEq checkedKeys e rest b)) := by
  simp only [next] at h
  split at h
  · refine ⟨_, _, _, _, ‹_›, ?_⟩
    cases answer with
    | none => exact .inl ⟨rfl, (Option.some.inj h).symm⟩
    | some b => exact .inr ⟨b, rfl, (Option.some.inj h).symm⟩
  · cases h

theorem next_visit {order : List UInt64} (h : next hash s (.visit c order) = some t) :
    ∃ op i acc, ∃ hi : i < s.map.shardCount, s.calls c = .whole op i acc ∧
      t.map = (if op = .clear then s.map.clearShard ⟨i, hi⟩ else s.map) ∧
      (∀ d, d ≠ c → t.calls d = s.calls d) ∧
      ((∃ r, t.calls c = .done (.whole op) r) ∨ ∃ acc', t.calls c = .whole op (i + 1) acc') := by
  simp only [next] at h
  split at h
  · split at h
    · split at h
      · cases h
        rename_i op i acc hc hi _
        refine ⟨op, i, acc, hi, hc, rfl, fun d hd => State.calls_setCall_ne _ _ hd, ?_⟩
        rw [State.calls_setCall_self]
        split
        · exact .inl ⟨_, rfl⟩
        · exact .inr ⟨_, rfl⟩
      · cases h
    · cases h
  · cases h

/-- A step touches no call but its own. -/
theorem next_frame {a : Act C K V} (h : next hash s a = some t) {d : C} (hd : d ≠ a.call) :
    t.calls d = s.calls d := by
  cases a with
  | invoke c op =>
      obtain ⟨-, ⟨_, -, rfl⟩ | ⟨_, -, rfl⟩⟩ := next_invoke h <;> exact State.calls_setCall_ne _ _ hd
  | unhashable c op =>
      obtain ⟨-, rfl⟩ := next_unhashable h
      exact State.calls_setCall_ne _ _ hd
  | lock c =>
      obtain ⟨op, pc, slot, ctl, l, l', -, -, -, -, rfl⟩ := next_lock h
      exact State.calls_resume_ne _ op ctl hd
  | eq c answer =>
      obtain ⟨op, _, _, _, -, ⟨-, rfl⟩ | ⟨_, -, rfl⟩⟩ := next_eq h
      · exact State.calls_setCall_ne _ _ hd
      · exact State.calls_resume_ne _ op _ hd
  | visit c order =>
      obtain ⟨_, _, _, _, -, -, hframe, -⟩ := next_visit h
      exact hframe d hd

/-- The operation of a call that has begun. -/
def CallState.operation : CallState K V → Option (Op K V)
  | .idle => none
  | .keyed op _ => some (.keyed op)
  | .whole op _ _ => some (.whole op)
  | .done op _ => some op

/-- A call keeps its operation, and when it has returned its result. -/
theorem call_next {a : Act C K V} (h : next hash s a = some t) {d : C} {o : Op K V}
    (ho : (s.calls d).operation = some o) :
    (t.calls d).operation = some o ∧ ∀ r, s.calls d = .done o r → t.calls d = .done o r := by
  by_cases hda : d = a.call
  swap
  · rw [next_frame h hda]
    exact ⟨ho, fun _ => id⟩
  subst hda
  have hrunning : ∀ {x : CallState K V}, s.calls a.call = x →
      (t.calls a.call).operation = x.operation → (∀ r, x ≠ .done o r) →
      (t.calls a.call).operation = some o ∧
        ∀ r, s.calls a.call = .done o r → t.calls a.call = .done o r :=
    fun hx hop hne => ⟨by rw [hop, ← hx, ho], fun r hr => absurd (hx.symm.trans hr) (hne r)⟩
  cases a with
  | invoke c op =>
      obtain ⟨hidle, -⟩ := next_invoke h
      rw [Act.call, hidle] at ho
      cases ho
  | unhashable c op =>
      obtain ⟨hidle, -⟩ := next_unhashable h
      rw [Act.call, hidle] at ho
      cases ho
  | lock c =>
      obtain ⟨op, pc, slot, ctl, l, l', hc, -, -, -, rfl⟩ := next_lock h
      refine hrunning hc ?_ (by simp)
      rw [Act.call, State.calls_resume_self]
      cases ctl <;> rfl
  | eq c answer =>
      obtain ⟨op, checkedKeys, e, rest, hc, ⟨-, rfl⟩ | ⟨b, -, rfl⟩⟩ := next_eq h
      · refine hrunning hc ?_ (by simp)
        rw [Act.call, State.calls_setCall_self]
        rfl
      · refine hrunning hc ?_ (by simp)
        rw [Act.call, State.calls_resume_self]
        split <;> rfl
  | visit c order =>
      obtain ⟨op, i, acc, hi, hc, -, -, ⟨r, hr⟩ | ⟨acc', hacc⟩⟩ := next_visit h
      · exact hrunning hc (by rw [Act.call, hr]; rfl) (by simp)
      · exact hrunning hc (by rw [Act.call, hacc]; rfl) (by simp)

/-- The call `c` of the operation `op` begins. -/
def Act.Begins (a : Act C K V) (c : C) (op : Op K V) : Prop :=
  a = .invoke c op ∨ ∃ kop, op = .keyed kop ∧ a = .unhashable c kop

omit [DecidableEq K] [DecidableEq C] in
theorem Act.Begins.call_eq {a : Act C K V} {op : Op K V} (h : a.Begins c op) : a.call = c := by
  obtain rfl | ⟨_, _, rfl⟩ := h
  · rfl
  · rfl

theorem begins_next {a : Act C K V} (h : next hash s a = some t) {op : Op K V}
    (hb : a.Begins c op) : (t.calls c).operation = some op := by
  rcases hb with rfl | ⟨kop, rfl, rfl⟩
  · obtain ⟨-, ⟨_, rfl, rfl⟩ | ⟨_, rfl, rfl⟩⟩ := next_invoke h <;>
      (rw [State.calls_setCall_self]; rfl)
  · obtain ⟨-, rfl⟩ := next_unhashable h
    rw [State.calls_setCall_self]
    rfl

theorem idle_next {a : Act C K V} (h : next hash s a = some t) (hc : s.calls c = .idle)
    (hb : ∀ op, ¬ a.Begins c op) : t.calls c = .idle := by
  by_cases hca : c = a.call
  swap
  · rw [next_frame h hca, hc]
  subst hca
  cases a with
  | invoke c op => exact absurd (.inl rfl) (hb op)
  | unhashable c op => exact absurd (.inr ⟨op, rfl, rfl⟩) (hb (.keyed op))
  | lock c =>
      obtain ⟨_, _, _, _, _, _, hkeyed, -⟩ := next_lock h
      cases hc.symm.trans hkeyed
  | eq c answer =>
      obtain ⟨_, _, _, _, hkeyed, -⟩ := next_eq h
      cases hc.symm.trans hkeyed
  | visit c order =>
      obtain ⟨_, _, _, _, hwhole, -⟩ := next_visit h
      cases hc.symm.trans hwhole

/-- A running call keeps its operation from its invocation on. -/
theorem running_next {a : Act C K V} (h : next hash s a = some t) {d : C} {op : KeyOp K V}
    {pc : Pc K V} (hd : t.calls d = .keyed op pc) :
    (∃ pc', s.calls d = .keyed op pc') ∨ (a = .invoke d (.keyed op) ∧ pc = op.start) := by
  by_cases hda : d = a.call
  swap
  · rw [next_frame h hda] at hd
    exact .inl ⟨pc, hd⟩
  subst hda
  cases a with
  | invoke c op' =>
      obtain ⟨-, ⟨_, rfl, rfl⟩ | ⟨_, -, rfl⟩⟩ := next_invoke h
      · rw [Act.call, State.calls_setCall_self] at hd
        cases hd
        exact .inr ⟨rfl, rfl⟩
      · rw [Act.call, State.calls_setCall_self] at hd
        cases hd
  | unhashable c op' =>
      obtain ⟨-, rfl⟩ := next_unhashable h
      rw [Act.call, State.calls_setCall_self] at hd
      cases hd
  | lock c =>
      obtain ⟨op', pc', slot, ctl, l, l', hc, -, -, -, rfl⟩ := next_lock h
      rw [Act.call, State.calls_resume_self] at hd
      cases ctl with
      | ret r => cases hd
      | goto pc'' =>
          cases hd
          exact .inl ⟨pc', hc⟩
  | eq c answer =>
      obtain ⟨op', checkedKeys, e, rest, hc, ⟨-, rfl⟩ | ⟨b, -, rfl⟩⟩ := next_eq h
      · rw [Act.call, State.calls_setCall_self] at hd
        cases hd
      · rw [Act.call, State.calls_resume_self] at hd
        cases hctl : op'.onEq checkedKeys e rest b with
        | ret r =>
            rw [hctl] at hd
            cases hd
        | goto pc'' =>
            rw [hctl] at hd
            cases hd
            exact .inl ⟨_, hc⟩
  | visit c order =>
      obtain ⟨_, _, _, _, -, -, -, ⟨r, hr⟩ | ⟨acc', hacc⟩⟩ := next_visit h
      · rw [Act.call, hr] at hd
        cases hd
      · rw [Act.call, hacc] at hd
        cases hd

/-- A scan keeps its operation from its invocation on. -/
theorem scanning_next {a : Act C K V} (h : next hash s a = some t) {d : C} {op : WholeOp} {i : ℕ}
    {acc : List (K × V)} (hd : t.calls d = .whole op i acc) :
    (∃ i' acc', s.calls d = .whole op i' acc') ∨ a = .invoke d (.whole op) := by
  by_cases hda : d = a.call
  swap
  · rw [next_frame h hda] at hd
    exact .inl ⟨i, acc, hd⟩
  subst hda
  cases a with
  | invoke c op' =>
      obtain ⟨-, ⟨_, -, rfl⟩ | ⟨_, rfl, rfl⟩⟩ := next_invoke h
      · rw [Act.call, State.calls_setCall_self] at hd
        cases hd
      · rw [Act.call, State.calls_setCall_self] at hd
        cases hd
        exact .inr rfl
  | unhashable c op' =>
      obtain ⟨-, rfl⟩ := next_unhashable h
      rw [Act.call, State.calls_setCall_self] at hd
      cases hd
  | lock c =>
      obtain ⟨op', _, slot, ctl, l, l', -, -, -, -, rfl⟩ := next_lock h
      rw [Act.call, State.calls_resume_self] at hd
      cases ctl <;> cases hd
  | eq c answer =>
      obtain ⟨op', checkedKeys, e, rest, -, ⟨-, rfl⟩ | ⟨b, -, rfl⟩⟩ := next_eq h
      · rw [Act.call, State.calls_setCall_self] at hd
        cases hd
      · rw [Act.call, State.calls_resume_self] at hd
        split at hd <;> cases hd
  | visit c order =>
      obtain ⟨op', i', acc₀, _, hc, -, -, ⟨r, hr⟩ | ⟨acc', hacc⟩⟩ := next_visit h
      · rw [Act.call, hr] at hd
        cases hd
      · rw [Act.call, hacc] at hd
        cases hd
        exact .inl ⟨i', acc₀, hc⟩

/-- A call on a key that has returned was done before the step, or returns in it. -/
theorem done_next {a : Act C K V} (h : next hash s a = some t) {d : C} {op : KeyOp K V}
    {r : PyResult (Ret K V)} (hd : t.calls d = .done (.keyed op) r) :
    s.calls d = .done (.keyed op) r ∨ (∃ pc, s.calls d = .keyed op pc) ∨ a = .unhashable d op := by
  by_cases hda : d = a.call
  swap
  · rw [next_frame h hda] at hd
    exact .inl hd
  subst hda
  cases a with
  | invoke c op' =>
      obtain ⟨-, ⟨_, -, rfl⟩ | ⟨_, -, rfl⟩⟩ := next_invoke h <;>
        (rw [Act.call, State.calls_setCall_self] at hd; cases hd)
  | unhashable c op' =>
      obtain ⟨-, rfl⟩ := next_unhashable h
      rw [Act.call, State.calls_setCall_self] at hd
      cases hd
      exact .inr (.inr rfl)
  | lock c =>
      obtain ⟨op', pc, slot, ctl, l, l', hc, -, -, -, rfl⟩ := next_lock h
      rw [Act.call, State.calls_resume_self] at hd
      cases ctl <;> cases hd
      exact .inr (.inl ⟨pc, hc⟩)
  | eq c answer =>
      obtain ⟨op', checkedKeys, e, rest, hc, ⟨-, rfl⟩ | ⟨b, -, rfl⟩⟩ := next_eq h
      · rw [Act.call, State.calls_setCall_self] at hd
        cases hd
        exact .inr (.inl ⟨_, hc⟩)
      · rw [Act.call, State.calls_resume_self] at hd
        split at hd <;> cases hd
        exact .inr (.inl ⟨_, hc⟩)
  | visit c order =>
      obtain ⟨op', i', acc₀, _, hc, -, -, ⟨r', hr⟩ | ⟨acc', hacc⟩⟩ := next_visit h
      · rw [Act.call, hr] at hd
        cases hd
      · rw [Act.call, hacc] at hd
        cases hd

/-- How a call that keeps running got from one program counter to the next. -/
inductive GotoStep (hash : K → UInt64) (s : State C K V) (a : Act C K V) (t : State C K V) (d : C)
    (op : KeyOp K V) (pc pc' : Pc K V) : Prop
  | stay : d ≠ a.call → pc' = pc → GotoStep hash s a t d op pc pc'
  | lock {l l' : Bucket K V} : a = .lock d → s.map.bucket (hash op.key) = l →
      t.map.bucket (hash op.key) = l' → LockStep op pc l l' (.goto pc') →
      GotoStep hash s a t d op pc pc'
  | eq {checkedKeys : List K} {e : K × V} {rest : List (K × V)} {b : Bool} :
      a = .eq d (some b) → pc = .compare checkedKeys (e :: rest) → t.map = s.map →
      op.onEq checkedKeys e rest b = .goto pc' → GotoStep hash s a t d op pc pc'

/-- How a running call came to return. -/
inductive RetStep (hash : K → UInt64) (s : State C K V) (a : Act C K V) (t : State C K V) (d : C)
    (op : KeyOp K V) (pc : Pc K V) : PyResult (Ret K V) → Prop
  | lock {l l' : Bucket K V} {ret : Ret K V} : a = .lock d → s.map.bucket (hash op.key) = l →
      t.map.bucket (hash op.key) = l' → LockStep op pc l l' (.ret ret) →
      RetStep hash s a t d op pc (.ok ret)
  | eq {checkedKeys : List K} {e : K × V} {rest : List (K × V)} {b : Bool} {ret : Ret K V} :
      a = .eq d (some b) → pc = .compare checkedKeys (e :: rest) → t.map = s.map →
      op.onEq checkedKeys e rest b = .ret ret → RetStep hash s a t d op pc (.ok ret)
  | raise : a = .eq d none → t.map = s.map → RetStep hash s a t d op pc (.error .user)

omit [DecidableEq K] in
/-- A locked section rewrites the bucket of its hash and no other. -/
theorem bucket_lock (hash : K → UInt64) (s : State C K V) (c : C) (op : KeyOp K V)
    (slot : Option (Bucket K V)) (ctl : Ctl K V) (h : UInt64) :
    (State.resume { s with map := s.map.setSlot (hash op.key) slot } c op ctl).map.bucket h =
      if h = hash op.key then slot.getD [] else s.map.bucket h := by
  rw [State.map_resume]
  exact ConcurrentMap.bucket_setSlot s.map (hash op.key) h slot

omit [DecidableEq K] in
theorem bucket_resume (hash : K → UInt64) (s : State C K V) (c : C) (op : KeyOp K V)
    (slot : Option (Bucket K V)) (ctl : Ctl K V) :
    (State.resume { s with map := s.map.setSlot (hash op.key) slot } c op ctl).map.bucket
      (hash op.key) = slot.getD [] := by
  rw [bucket_lock, if_pos rfl]

theorem goto_step {a : Act C K V} (h : next hash s a = some t) {d : C} {op op' : KeyOp K V}
    {pc pc' : Pc K V} (hs : s.calls d = .keyed op pc) (ht : t.calls d = .keyed op' pc') :
    op' = op ∧ GotoStep hash s a t d op pc pc' := by
  by_cases hda : d = a.call
  swap
  · rw [next_frame h hda, hs] at ht
    cases ht
    exact ⟨rfl, .stay hda rfl⟩
  subst hda
  cases a with
  | invoke c kop =>
      obtain ⟨hidle, -⟩ := next_invoke h
      rw [Act.call, hidle] at hs
      cases hs
  | unhashable c kop =>
      obtain ⟨hidle, -⟩ := next_unhashable h
      rw [Act.call, hidle] at hs
      cases hs
  | lock c =>
      obtain ⟨kop, pc₁, slot, ctl, l, l', hc, hl, hl', hstep, rfl⟩ := next_lock h
      obtain ⟨rfl, rfl⟩ := CallState.keyed.inj (hc.symm.trans hs)
      have hbucket := bucket_resume hash s c kop slot ctl
      rw [Act.call, State.calls_resume_self] at ht
      cases ctl <;> cases ht
      exact ⟨rfl, .lock rfl hl (hbucket.trans hl') hstep⟩
  | eq c answer =>
      obtain ⟨kop, checkedKeys, e, rest, hc, ⟨-, rfl⟩ | ⟨b, rfl, rfl⟩⟩ := next_eq h
      · rw [Act.call, State.calls_setCall_self] at ht
        cases ht
      · obtain ⟨rfl, rfl⟩ := CallState.keyed.inj (hc.symm.trans hs)
        rw [Act.call, State.calls_resume_self] at ht
        split at ht <;> cases ht
        exact ⟨rfl, .eq rfl rfl (State.map_resume _ _ _ _) ‹_›⟩
  | visit c order =>
      obtain ⟨_, _, _, _, hc, -⟩ := next_visit h
      rw [Act.call, hc] at hs
      cases hs

theorem ret_step {a : Act C K V} (h : next hash s a = some t) {d : C} {op : KeyOp K V}
    {o : Op K V} {pc : Pc K V} {r : PyResult (Ret K V)} (hs : s.calls d = .keyed op pc)
    (ht : t.calls d = .done o r) : o = .keyed op ∧ RetStep hash s a t d op pc r := by
  by_cases hda : d = a.call
  swap
  · rw [next_frame h hda, hs] at ht
    cases ht
  subst hda
  cases a with
  | invoke c kop =>
      obtain ⟨hidle, -⟩ := next_invoke h
      rw [Act.call, hidle] at hs
      cases hs
  | unhashable c kop =>
      obtain ⟨hidle, -⟩ := next_unhashable h
      rw [Act.call, hidle] at hs
      cases hs
  | lock c =>
      obtain ⟨kop, pc₁, slot, ctl, l, l', hc, hl, hl', hstep, rfl⟩ := next_lock h
      obtain ⟨rfl, rfl⟩ := CallState.keyed.inj (hc.symm.trans hs)
      have hbucket := bucket_resume hash s c kop slot ctl
      rw [Act.call, State.calls_resume_self] at ht
      cases ctl <;> cases ht
      exact ⟨rfl, .lock rfl hl (hbucket.trans hl') hstep⟩
  | eq c answer =>
      obtain ⟨kop, checkedKeys, e, rest, hc, ⟨rfl, rfl⟩ | ⟨b, rfl, rfl⟩⟩ := next_eq h
      · obtain ⟨rfl, rfl⟩ := CallState.keyed.inj (hc.symm.trans hs)
        rw [Act.call, State.calls_setCall_self] at ht
        cases ht
        exact ⟨rfl, .raise rfl rfl⟩
      · obtain ⟨rfl, rfl⟩ := CallState.keyed.inj (hc.symm.trans hs)
        rw [Act.call, State.calls_resume_self] at ht
        split at ht <;> cases ht
        exact ⟨rfl, .eq rfl rfl (State.map_resume _ _ _ _) ‹_›⟩
  | visit c order =>
      obtain ⟨_, _, _, _, hc, -⟩ := next_visit h
      rw [Act.call, hc] at hs
      cases hs

end Next

end Pysync.Map
