import Pysync.AttributeModel
import Mathlib.Data.Finset.Basic

/-!
Who gets at the public attributes of an actor. The gate is `_initialized` and not the existence of the
worker: it closes when the construction is complete, and lets through nothing that comes upon it later.
-/

namespace Pysync.Attribute
open Transition

variable {C T V : Type} {cls : Cls V} {s u v : State C T V}
variable {a : Act C T V} {c d : C} {t w : T} {op : Op V} {name : String} {pc : Pc T V}
variable {r : Result V} {as bs : List (Act C T V)}

/-- An exception of the interceptors, a future, or the function that returns futures. -/
def Result.Refused : Result V → Prop
  | .raised (.attributeError _) | .future | .asyncCall => True
  | _ => False

/-- As `Refused`, or what everybody is told who reads when the actor is stopped. -/
def Result.Shielded (r : Result V) : Prop :=
  r.Refused ∨ r = .raised stoppedErr

/-- From the state `u` on, but for the accesses of the kind `old`: what an access of a thread other than
a worker to a guarded attribute ends with is among `answers`, and guarded attributes change only by
accesses of the worker. -/
def IsolatedFrom [DecidableEq C] [DecidableEq T] (cls : Cls V) (answers : Result V → Prop)
    (old : C → Prop) (u : State C T V) : Prop :=
  ∀ bs s, Run (next cls) u bs s →
    (∀ c t op name r, s.calls c = .done t op name r → op.guarded name = true → ¬ old c →
      t ∉ s.workers → answers r) ∧
    (∀ a v, next cls s a = some v → ∀ name, name.startsWith "_" = false →
      v.attrs name ≠ s.attrs name → ∃ c t op byUser, a = .step c byUser ∧
        s.calls c = .access t op name .direct ∧ (old c ∨ t ∈ s.workers))

/-- The call has been let through the gate before, or has returned. -/
def State.letThrough (s : State C T V) (c : C) : Bool :=
  match s.calls c with
  | .access _ _ _ .direct | .done .. => true
  | _ => false

/-- What an access that stands at `pc` and has got past the comparison with `_thread` knows. -/
def Knows (s : State C T V) (t : T) (op : Op V) : Pc T V → Prop
  | .gate own => op ≠ .get ∧ (own = true → t ∈ s.workers)
  | .ensure r | .start _ r => r.Shielded
  | .direct => op = .get → t ∈ s.workers
  | _ => True

/-- What holds whether the gate is closed or not. -/
structure Sound (s : State C T V) : Prop where
  thread : ∀ w, s.thread = some (some w) → w ∈ s.workers
  knows : ∀ c t op name pc, s.calls c = .access t op name pc → op.guarded name = true →
    Knows s t op pc

/-- The gate has been closed since `u`, and no access but the old ones has come through. -/
structure Closed (old : C → Prop) (s : State C T V) : Prop where
  initialized : s.initialized = true
  direct : ∀ c t op name, s.calls c = .access t op name .direct → op.guarded name = true → ¬ old c →
    t ∈ s.workers
  done : ∀ c t op name r, s.calls c = .done t op name r → op.guarded name = true → ¬ old c →
    t ∉ s.workers → r.Shielded

/-- What a step of an access does: how the rest of the state and the call stand after it. -/
inductive AccessStep [DecidableEq T] (cls : Cls V) (s : State C T V) (t : T) (name : String) :
    Op V → Pc T V → State C T V → Call T V → Prop
  | worker (hthread : s.thread = some (some t)) :
      AccessStep cls s t name .get .thread s (.access t .get name .direct)
  | outside : AccessStep cls s t name .get .thread s (.access t .get name .stopped)
  | compare {op : Op V} {own : Bool} (hop : op ≠ .get) (hown : own = true → s.thread = some (some t)) :
      AccessStep cls s t name op .thread s (.access t op name (.gate own))
  | halt {op : Op V} : AccessStep cls s t name op .stopped s (.done t op name (.raised stoppedErr))
  | property {op : Op V} :
      AccessStep cls s t name op .stopped s (.access t op name (.ensure .future))
  | attribute {op : Op V} : AccessStep cls s t name op .stopped s (.access t op name .lookup)
  | missing {op : Op V} :
      AccessStep cls s t name op .lookup s (.done t op name (.raised (missingErr cls.name name)))
  | callable {op : Op V} :
      AccessStep cls s t name op .lookup s (.access t op name (.ensure .asyncCall))
  | plain {op : Op V} {v : V} : AccessStep cls s t name op .lookup s (.access t op name (.hold v))
  | unready {op : Op V} {r : Result V} (field : String) :
      AccessStep cls s t name op (.ensure r) s (.done t op name (.raised (missingErr cls.name field)))
  | ensured {op : Op V} {r : Result V} : AccessStep cls s t name op (.ensure r) s (.done t op name r)
  | make {op : Op V} {r : Result V} (w : T) :
      AccessStep cls s t name op (.ensure r)
        { s with thread := some (some w), workers := insert w s.workers }
        (.access t op name (.start w r))
  | start {op : Op V} {r : Result V} {w : T} :
      AccessStep cls s t name op (.start w r) { s with started := insert w s.started }
        (.done t op name r)
  | refuse {op : Op V} {v : V} :
      AccessStep cls s t name op (.hold v) s (.done t op name (.raised (readErr name)))
  | leak {op : Op V} {v : V} (hopen : s.initialized = false) :
      AccessStep cls s t name op (.hold v) s (.done t op name (.value v))
  | pass {op : Op V} {own : Bool}
      (hgate : s.initialized = false ∨ name.startsWith "_" = true ∨ own = true) :
      AccessStep cls s t name op (.gate own) s (.access t op name .direct)
  | forbid {op : Op V} {own : Bool} :
      AccessStep cls s t name op (.gate own) s (.done t op name (.raised (op.refusal name)))
  | direct {op : Op V} (byUser : PyResult V) :
      AccessStep cls s t name op .direct (direct cls s op name byUser).1
        (.done t op name (direct cls s op name byUser).2)

/-- A step that is none of an access: the fields it may change, and the call it may begin or go on
with. -/
structure Elsewhere (s t : State C T V) : Prop where
  thread : t.thread = s.thread ∨ t.thread = some none
  workers : t.workers = s.workers
  attrs : t.attrs = s.attrs
  initialized : s.initialized = true → t.initialized = true
  calls : ∀ c, t.calls c = s.calls c ∨ (∃ pc, t.calls c = .wrapped pc) ∨
    ∃ t' op name, t.calls c = .access t' op name (op.first name)

/-- The steps of an actor. -/
inductive OneStep [DecidableEq C] [DecidableEq T] (cls : Cls V) (s : State C T V) :
    Act C T V → State C T V → Prop
  | access {c : C} {t : T} {op : Op V} {name : String} {pc : Pc T V} {a : Act C T V}
      {s' : State C T V} {k : Call T V} (hcall : s.calls c = .access t op name pc)
      (hstep : AccessStep cls s t name op pc s' k)
      (hact : pc = .direct → ∃ byUser, a = .step c byUser) : OneStep cls s a (s'.setCall c k)
  | elsewhere {a : Act C T V} {s' : State C T V} (h : Elsewhere s s') : OneStep cls s a s'

theorem State.calls_setCall_self [DecidableEq C] (s : State C T V) (c : C) (k : Call T V) :
    (s.setCall c k).calls c = k := Function.update_self ..

theorem State.calls_setCall_ne [DecidableEq C] (s : State C T V) (k : Call T V) (h : d ≠ c) :
    (s.setCall c k).calls d = s.calls d := Function.update_of_ne h ..

theorem Elsewhere.setCall [DecidableEq C] {k : Call T V} {s' : State C T V} (hcalls : s'.calls = s.calls)
    (hthread : s'.thread = s.thread ∨ s'.thread = some none) (hworkers : s'.workers = s.workers)
    (hattrs : s'.attrs = s.attrs) (hinit : s.initialized = true → s'.initialized = true)
    (hk : (∃ pc, k = .wrapped pc) ∨ ∃ t op name, k = .access t op name (op.first name)) :
    Elsewhere s (s'.setCall c k) := by
  refine ⟨hthread, hworkers, hattrs, hinit, fun d => ?_⟩
  by_cases hd : d = c
  · subst hd
    rw [State.calls_setCall_self]
    exact .inr hk
  · rw [State.calls_setCall_ne _ _ hd, hcalls]
    exact .inl rfl

theorem stepWrapped_cases [DecidableEq C] {pc : InitPc} (h : stepWrapped s c pc = some v) :
    Elsewhere s v := by
  cases pc <;> cases h
  all_goals exact .setCall rfl (.inl rfl) rfl rfl (fun h => by first | exact h | rfl) (.inl ⟨_, rfl⟩)

variable [DecidableEq T]

theorem stepAccess_cases [DecidableEq C] {byUser : PyResult V}
    (h : stepAccess cls s c t op name byUser pc = some v) :
    ∃ s' k, v = s'.setCall c k ∧ AccessStep cls s t name op pc s' k := by
  cases pc with
  | thread =>
      cases h
      cases op with
      | get =>
          by_cases hown : s.thread = some (some t)
          · exact ⟨s, _, by simp [hown], .worker hown⟩
          · exact ⟨s, _, by simp [hown], .outside⟩
      | set v => exact ⟨s, _, rfl, .compare (by simp) (by simp)⟩
      | del => exact ⟨s, _, rfl, .compare (by simp) (by simp)⟩
  | stopped =>
      cases h
      split
      · exact ⟨s, _, rfl, .halt⟩
      · split
        · exact ⟨s, _, rfl, .property⟩
        · exact ⟨s, _, rfl, .attribute⟩
  | lookup =>
      cases h
      split
      · exact ⟨s, _, rfl, .missing⟩
      · split
        · exact ⟨s, _, rfl, .callable⟩
        · exact ⟨s, _, rfl, .plain⟩
  | ensure r =>
      simp only [stepAccess] at h
      split at h
      · cases h
        exact ⟨s, _, rfl, .unready _⟩
      · split at h
        · cases h
          exact ⟨s, _, rfl, .unready _⟩
        · cases h
          exact ⟨s, _, rfl, .ensured⟩
        · cases h
  | start w r =>
      cases h
      exact ⟨_, _, rfl, .start⟩
  | hold v =>
      cases h
      split
      · exact ⟨s, _, rfl, .refuse⟩
      · rename_i hopen
        exact ⟨s, _, rfl, .leak (by simpa using hopen)⟩
  | gate own =>
      cases h
      split
      · rename_i hgate
        exact ⟨s, _, rfl, .pass (by simpa [or_assoc] using hgate)⟩
      · exact ⟨s, _, rfl, .forbid⟩
  | direct =>
      cases h
      exact ⟨_, _, rfl, .direct byUser⟩

theorem next_cases [DecidableEq C] (hn : next cls s a = some v) : OneStep cls s a v := by
  cases a with
  | invoke c t op name =>
      unfold next at hn
      dsimp only at hn
      split at hn
      · split at hn
        · cases hn
          exact .elsewhere (.setCall rfl (.inl rfl) rfl rfl id (.inr ⟨t, op, name, rfl⟩))
        · cases hn
      · cases hn
  | step c byUser =>
      unfold next at hn
      dsimp only at hn
      split at hn
      · rename_i t op name pc hcall
        obtain ⟨s', k, rfl, hstep⟩ := stepAccess_cases hn
        exact .access hcall hstep fun _ => ⟨byUser, rfl⟩
      · exact .elsewhere (stepWrapped_cases hn)
      · cases hn
  | make c w =>
      unfold next at hn
      dsimp only at hn
      split at hn
      · rename_i t op name r hcall hlock hthread
        split at hn
        · cases hn
          exact .access hcall (.make w) (by simp)
        · cases hn
      · cases hn
  | beginInit c =>
      unfold next at hn
      dsimp only at hn
      split at hn
      · cases hn
        exact .elsewhere (.setCall rfl (.inl rfl) rfl rfl id (.inl ⟨_, rfl⟩))
      · cases hn
  | endInit c success =>
      unfold next at hn
      dsimp only at hn
      split at hn
      · cases hn
        exact .elsewhere (.setCall rfl (.inl rfl) rfl rfl id (.inl ⟨_, rfl⟩))
      · cases hn
  | initThread =>
      cases hn
      exact .elsewhere ⟨.inr rfl, rfl, rfl, id, fun _ => .inl rfl⟩
  | initLock =>
      cases hn
      exact .elsewhere ⟨.inl rfl, rfl, rfl, id, fun _ => .inl rfl⟩
  | stop =>
      cases hn
      exact .elsewhere ⟨.inl rfl, rfl, rfl, id, fun _ => .inl rfl⟩

section Frame

variable {s' : State C T V} {k : Call T V}

omit [DecidableEq T] in
theorem direct_get (cls : Cls V) (s : State C T V) (name : String) (byUser : PyResult V) :
    (direct cls s .get name byUser).1 = s := by
  unfold direct
  split <;> rfl

omit [DecidableEq T] in
theorem direct_frame (cls : Cls V) (s : State C T V) (op : Op V) (name : String)
    (byUser : PyResult V) : ∃ attrs, (direct cls s op name byUser).1 = { s with attrs := attrs } ∧
      ∀ name', attrs name' ≠ s.attrs name' → name' = name := by
  have hkeep : ∃ attrs, s = { s with attrs := attrs } ∧
      ∀ name', attrs name' ≠ s.attrs name' → name' = name :=
    ⟨s.attrs, rfl, fun _ h => absurd rfl h⟩
  have hset : ∀ x name', Function.update s.attrs name x name' ≠ s.attrs name' → name' = name := by
    intro x name' hne
    by_contra hother
    exact hne (Function.update_of_ne hother ..)
  unfold direct
  split
  · exact hkeep
  · cases op with
    | get => exact hkeep
    | set v => exact ⟨_, rfl, hset _⟩
    | del =>
        dsimp only
        split
        · exact ⟨_, rfl, hset _⟩
        · exact hkeep

theorem AccessStep.calls (h : AccessStep cls s t name op pc s' k) : s'.calls = s.calls := by
  cases h with
  | direct byUser =>
      obtain ⟨attrs, hs', -⟩ := direct_frame cls s op name byUser
      rw [hs']
  | _ => rfl

theorem AccessStep.initialized (h : AccessStep cls s t name op pc s' k) :
    s'.initialized = s.initialized := by
  cases h with
  | direct byUser =>
      obtain ⟨attrs, hs', -⟩ := direct_frame cls s op name byUser
      rw [hs']
  | _ => rfl

theorem AccessStep.workers (h : AccessStep cls s t name op pc s' k) : s.workers ⊆ s'.workers := by
  cases h with
  | make w => exact Finset.subset_insert w s.workers
  | direct byUser =>
      obtain ⟨attrs, hs', -⟩ := direct_frame cls s op name byUser
      rw [hs']
  | _ => exact Finset.Subset.refl _

theorem AccessStep.thread (h : AccessStep cls s t name op pc s' k) :
    s'.thread = s.thread ∨ ∃ w ∈ s'.workers, s'.thread = some (some w) := by
  cases h with
  | make w => exact .inr ⟨w, Finset.mem_insert_self w s.workers, rfl⟩
  | direct byUser =>
      obtain ⟨attrs, hs', -⟩ := direct_frame cls s op name byUser
      exact .inl (by rw [hs'])
  | _ => exact .inl rfl

/-- Attributes change by nothing but a call of `__setattr__` or `__delattr__` of `object`. -/
theorem AccessStep.attrs (h : AccessStep cls s t name op pc s' k) {name' : String}
    (hne : s'.attrs name' ≠ s.attrs name') : pc = .direct ∧ op ≠ .get ∧ name = name' := by
  cases h with
  | direct byUser =>
      refine ⟨rfl, ?_, ?_⟩
      · rintro rfl
        exact hne (congrArg (·.attrs name') (direct_get cls s name byUser))
      · obtain ⟨attrs, hs', hattrs⟩ := direct_frame cls s op name byUser
        exact (hattrs name' (by rwa [hs'] at hne)).symm
  | _ => exact absurd rfl hne

theorem AccessStep.same {t' : T} {op' : Op V} {name' : String} {pc' : Pc T V}
    (h : AccessStep cls s t name op pc s' (.access t' op' name' pc')) :
    t = t' ∧ op = op' ∧ name = name' := by
  cases h <;> exact ⟨rfl, rfl, rfl⟩

theorem AccessStep.same_done {t' : T} {op' : Op V} {name' : String}
    (h : AccessStep cls s t name op pc s' (.done t' op' name' r)) :
    t = t' ∧ op = op' ∧ name = name' := by
  cases h <;> exact ⟨rfl, rfl, rfl⟩

end Frame

omit [DecidableEq T] in
theorem Knows.mono (h : Knows s t op pc) (hw : s.workers ⊆ v.workers) : Knows v t op pc := by
  cases pc with
  | gate own => exact ⟨h.1, fun hown => hw (h.2 hown)⟩
  | direct => exact fun hop => hw (h hop)
  | _ => exact h

omit [DecidableEq T] in
theorem first_of_guarded (hg : op.guarded name = true) : (op.first name : Pc T V) = .thread := by
  cases op with
  | get => exact if_pos hg
  | _ => rfl

/-- What an access knows at its next stop. -/
theorem AccessStep.knows {s' : State C T V} {pc' : Pc T V}
    (h : AccessStep cls s t name op pc s' (.access t op name pc'))
    (hthread : ∀ w, s.thread = some (some w) → w ∈ s.workers) (hk : Knows s t op pc)
    (hg : op.guarded name = true) : Knows s' t op pc' := by
  cases h with
  | worker hown => exact fun _ => hthread _ hown
  | compare hop hown => exact ⟨hop, fun how => hthread _ (hown how)⟩
  | property => exact .inl trivial
  | callable => exact .inl trivial
  | make w => exact hk
  | pass hgate => exact fun hop => absurd hop hk.1
  | _ => trivial

omit [DecidableEq T] in
theorem Sound.init : Sound (State.init : State C T V) where
  thread _ h := nomatch h
  knows _ _ _ _ _ h := nomatch h

theorem Sound.next [DecidableEq C] (h : Sound s) (hn : next cls s a = some v) : Sound v := by
  cases next_cases hn with
  | @access c t op name pc _ s' k hcall hstep =>
      constructor
      · intro w hw
        rcases hstep.thread with hthread | ⟨w', hmem, hthread⟩
        · exact hstep.workers (h.thread w (hthread.symm.trans hw))
        · obtain rfl : w' = w := by simpa using hthread.symm.trans hw
          exact hmem
      · intro d t' op' name' pc' hd hg
        by_cases hdc : d = c
        · subst hdc
          obtain rfl : k = .access t' op' name' pc' := (State.calls_setCall_self _ _ _).symm.trans hd
          obtain ⟨rfl, rfl, rfl⟩ := hstep.same
          exact hstep.knows h.thread (h.knows _ _ _ _ _ hcall hg) hg
        · rw [State.calls_setCall_ne _ _ hdc, hstep.calls] at hd
          exact (h.knows _ _ _ _ _ hd hg).mono hstep.workers
  | elsewhere hstep =>
      constructor
      · intro w hw
        rw [hstep.workers]
        rcases hstep.thread with hthread | hthread
        · exact h.thread w (hthread.symm.trans hw)
        · cases hthread.symm.trans hw
      · intro d t' op' name' pc' hd hg
        rcases hstep.calls d with hcalls | ⟨pc, hcalls⟩ | ⟨t, op, name, hcalls⟩
        · exact (h.knows _ _ _ _ _ (hcalls.symm.trans hd) hg).mono hstep.workers.ge
        · cases hcalls.symm.trans hd
        · cases hcalls.symm.trans hd
          rw [first_of_guarded hg]
          trivial

/-- A closed gate lets nobody but the worker pass. -/
theorem AccessStep.closed {s' : State C T V} {t' : T} {op' : Op V} {name' : String}
    (h : AccessStep cls s t name op pc s' (.access t' op' name' .direct))
    (hthread : ∀ w, s.thread = some (some w) → w ∈ s.workers) (hk : Knows s t op pc)
    (hinit : s.initialized = true) (hg : op.guarded name = true) : t ∈ s.workers := by
  cases h with
  | worker hown => exact hthread _ hown
  | pass hgate =>
      rcases hgate with hopen | hprivate | hown
      · rw [hinit] at hopen
        cases hopen
      · cases op with
        | get => exact absurd rfl hk.1
        | _ => simp [Op.guarded, hprivate] at hg
      · exact hk.2 hown

/-- What is answered behind a closed gate. -/
theorem AccessStep.answers {s' : State C T V} {t' : T} {op' : Op V} {name' : String}
    (h : AccessStep cls s t name op pc s' (.done t' op' name' r)) (hk : Knows s t op pc)
    (hinit : s.initialized = true) : pc = .direct ∨ r.Shielded := by
  cases h with
  | halt => exact .inr (.inr rfl)
  | missing => exact .inr (.inl trivial)
  | unready => exact .inr (.inl trivial)
  | ensured => exact .inr hk
  | start => exact .inr hk
  | refuse => exact .inr (.inl trivial)
  | leak hopen =>
      rw [hinit] at hopen
      cases hopen
  | forbid => exact .inr (.inl (by cases op <;> trivial))
  | direct => exact .inl rfl

variable [DecidableEq C]

/-- The step rule of a closed gate. -/
theorem Closed.next {old : C → Prop} (h : Closed old s) (hs : Sound s)
    (hn : next cls s a = some v) : Closed old v := by
  cases next_cases hn with
  | @access c t op name pc _ s' k hcall hstep =>
      refine ⟨hstep.initialized.trans h.initialized, fun d t' op' name' hd hg hold => ?_,
        fun d t' op' name' r hd hg hold hout => ?_⟩
      · by_cases hdc : d = c
        · subst hdc
          obtain rfl : k = .access t' op' name' .direct :=
            (State.calls_setCall_self _ _ _).symm.trans hd
          obtain ⟨rfl, rfl, rfl⟩ := hstep.same
          exact hstep.workers
            (hstep.closed hs.thread (hs.knows _ _ _ _ _ hcall hg) h.initialized hg)
        · rw [State.calls_setCall_ne _ _ hdc, hstep.calls] at hd
          exact hstep.workers (h.direct d _ _ _ hd hg hold)
      · have hbefore : t' ∉ s.workers := fun ht => hout (hstep.workers ht)
        by_cases hdc : d = c
        · subst hdc
          obtain rfl : k = .done t' op' name' r := (State.calls_setCall_self _ _ _).symm.trans hd
          obtain ⟨rfl, rfl, rfl⟩ := hstep.same_done
          rcases hstep.answers (hs.knows _ _ _ _ _ hcall hg) h.initialized with rfl | hr
          · exact absurd (h.direct d _ _ _ hcall hg hold) hbefore
          · exact hr
        · rw [State.calls_setCall_ne _ _ hdc, hstep.calls] at hd
          exact h.done d _ _ _ _ hd hg hold hbefore
  | elsewhere hstep =>
      refine ⟨hstep.initialized h.initialized, fun d t' op' name' hd hg hold => ?_,
        fun d t' op' name' r hd hg hold hout => ?_⟩
      · rw [hstep.workers]
        rcases hstep.calls d with hcalls | ⟨pc, hcalls⟩ | ⟨t, op, name, hcalls⟩
        · exact h.direct d _ _ _ (hcalls.symm.trans hd) hg hold
        · cases hcalls.symm.trans hd
        · injection hcalls.symm.trans hd with _ hop hname hpc
          subst hop hname
          rw [first_of_guarded hg] at hpc
          cases hpc
      · rw [hstep.workers] at hout
        rcases hstep.calls d with hcalls | ⟨pc, hcalls⟩ | ⟨t, op, name, hcalls⟩
        · exact h.done d _ _ _ _ (hcalls.symm.trans hd) hg hold hout
        · cases hcalls.symm.trans hd
        · cases hcalls.symm.trans hd

theorem Closed.attrs {old : C → Prop} (h : Closed old s) (hn : Attribute.next cls s a = some v)
    (hname : name.startsWith "_" = false) (hne : v.attrs name ≠ s.attrs name) :
    ∃ c t op byUser, a = .step c byUser ∧ s.calls c = .access t op name .direct ∧
      (old c ∨ t ∈ s.workers) := by
  cases next_cases hn with
  | @access c t op attr pc _ s' k hcall hstep hact =>
      obtain ⟨rfl, hop, hsame⟩ := hstep.attrs hne
      subst hsame
      obtain ⟨byUser, rfl⟩ := hact rfl
      have hg : op.guarded attr = true := by
        cases op with
        | get => exact absurd rfl hop
        | _ => exact congrArg not hname
      refine ⟨c, t, op, byUser, rfl, hcall, ?_⟩
      by_cases hold : old c
      · exact .inl hold
      · exact .inr (h.direct c _ _ _ hcall hg hold)
  | elsewhere hstep => exact absurd (congrFun hstep.attrs name) hne

theorem Closed.run {old : C → Prop} (h0 : Closed old u) (hs : Sound u)
    (h : Run (Attribute.next cls) u bs s) : Closed old s := by
  have hstep : ∀ (v : State C T V) a w, Closed old v ∧ Sound v → True →
      Attribute.next cls v a = some w → Closed old w ∧ Sound w :=
    fun _ _ _ hv _ hn => ⟨hv.1.next hv.2 hn, hv.2.next hn⟩
  exact (h.invariant ⟨h0, hs⟩ hstep).1

theorem sound_of_run (h : Run (next cls) .init as u) : Sound u :=
  h.invariant .init fun _ _ _ hs _ hn => hs.next hn

/-- From the end of the construction on, an actor is isolated, but for what had been let through. -/
theorem isolatedFrom_initialized (hu : Run (next cls) .init as u) (hinit : u.initialized = true) :
    IsolatedFrom cls Result.Shielded (fun c => u.letThrough c = true) u := by
  intro bs s h
  have hclosed : Closed (fun c => u.letThrough c = true) u := by
    refine ⟨hinit, ?_, ?_⟩
    · intro c t op name hc _ hold
      exact absurd (by rw [State.letThrough, hc]) hold
    · intro c t op name r hc _ hold _
      exact absurd (by rw [State.letThrough, hc]) hold
  have hs := hclosed.run (sound_of_run hu) h
  exact ⟨hs.done, fun a v hn name hname hne => hs.attrs hn hname hne⟩

section Traces

/-- A class with a method `inc`, which is the value 0 and the only callable one. -/
def counterCls : Cls ℕ where
  name := "Counter"
  isProperty _ := false
  attr name := if name = "inc" then some 0 else none
  callable v := v == 0

/-- `__init__` calls that of the base class and then the method `inc`, which starts the worker 1. -/
def earlyTrace : List (Act ℕ ℕ ℕ) :=
  [.beginInit 0, .step 0 (.ok 0), .step 0 (.ok 0), .initThread, .initLock, .invoke 1 0 .get "inc",
    .step 1 (.ok 0), .step 1 (.ok 0), .step 1 (.ok 0), .make 1 1, .step 1 (.ok 0)]

/-- The thread 2 assigns the attribute `val`. -/
def assignTrace : List (Act ℕ ℕ ℕ) :=
  [.invoke 2 2 (.set 5) "val", .step 2 (.ok 0), .step 2 (.ok 0), .step 2 (.ok 0)]

/-- `__init__` returns. -/
def returnTrace : List (Act ℕ ℕ ℕ) :=
  [.endInit 0 true, .step 0 (.ok 0), .step 0 (.ok 0), .step 0 (.ok 0)]

theorem earlyTrace_exec : (exec (next counterCls) (fun _ _ => True) .init earlyTrace).map (fun u =>
    decide (1 ∈ u.workers ∧ u.calls 2 = .idle ∧
      (exec (next counterCls) (fun _ _ => True) u assignTrace).map
        (fun s => decide (s.calls 2 = .done 2 (.set 5) "val" .returned ∧ 2 ∉ s.workers)) =
          some true)) = some true := by
  decide +kernel

/-- The worker does not close the gate: while `__init__` runs, any thread may assign. -/
theorem not_isolatedFrom_worker :
    ¬ ∀ (cls : Cls ℕ) (as : List (Act ℕ ℕ ℕ)) (u : State ℕ ℕ ℕ), Run (next cls) .init as u →
      u.workers.Nonempty → IsolatedFrom cls Result.Refused (fun c => u.calls c ≠ .idle) u := by
  intro hall
  obtain ⟨u, hu, hp⟩ := exists_runWith_of_exec earlyTrace_exec
  obtain ⟨hworker, hidle, hexec⟩ := of_decide_eq_true hp
  obtain ⟨s, hs, hdone⟩ := exists_runWith_of_exec hexec
  obtain ⟨hdone, hout⟩ := of_decide_eq_true hdone
  exact (hall counterCls _ u hu ⟨1, hworker⟩ _ s hs).1 2 _ _ _ _ hdone (by decide +kernel)
    (by simp [hidle]) hout

theorem returnTrace_exec : (exec (next counterCls) (fun _ _ => True) .init
    (earlyTrace ++ returnTrace)).map (fun u => decide (1 ∈ u.workers ∧ u.initialized = true)) =
      some true := by
  decide +kernel

theorem isolatedFrom_initialized_returnTrace :
    ∃ u : State ℕ ℕ ℕ, Run (next counterCls) .init (earlyTrace ++ returnTrace) u ∧
      1 ∈ u.workers ∧ IsolatedFrom counterCls Result.Shielded (fun c => u.letThrough c = true) u := by
  obtain ⟨u, hu, hp⟩ := exists_runWith_of_exec returnTrace_exec
  obtain ⟨hworker, hinit⟩ := of_decide_eq_true hp
  exact ⟨u, hu, hworker, isolatedFrom_initialized hu hinit⟩

end Traces

end Pysync.Attribute
