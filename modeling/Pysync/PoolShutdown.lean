import Pysync.PoolRuns

/-!
When `shutdown(wait=True)` waits: the call that finds the pool active joins all the workers, and one
that finds it inactive returns at once, wherever the workers are. A worker that a panic has ended is
joined like any other, with its task lost.
-/

namespace Pysync.Pool
open Queue Transition

variable {n : ℕ} {C E V : Type} [DecidableEq C]
variable {s t : State n C E V} {a : Act n C E V} {c d : C} {w v : Fin n}
variable {as : List (Act n C E V)} {P : State n C E V → Act n C E V → Prop}

/-- What a step of `shutdown` does to the flags. -/
inductive ShutdownStep (s : State n C E V) (c : C) (wait cancel : Bool) :
    Pc → State n C E V → Prop
  | off (hactive : s.active = true) :
      ShutdownStep s c wait cancel .active
        (State.setCall { s with active := false } c (.run (.shutdown wait cancel) .cancelFlag))
  | already (hactive : s.active = false) :
      ShutdownStep s c wait cancel .active
        (s.setCall c (.run (.shutdown wait cancel) (.ret (.ok ()))))
  | cancelFlag :
      ShutdownStep s c wait cancel .cancelFlag
        (State.setCall { s with cancelPending := s.cancelPending || cancel } c
          (.run (.shutdown wait cancel) .dropSender))
  | dropSender :
      ShutdownStep s c wait cancel .dropSender
        (State.setCall { s with sender := false } c (.run (.shutdown wait cancel) .join))
  | joined (hjoin : wait = true → s.workers = true → s.allExited) :
      ShutdownStep s c wait cancel .join
        (State.setCall { s with workers := false } c (.run (.shutdown wait cancel) (.ret (.ok ()))))
  | ret {r : PyResult Unit} :
      ShutdownStep s c wait cancel (.ret r)
        (State.setCall { s with exclusive := none } c (.done (.shutdown wait cancel) r))

/-- A pool that cannot be borrowed for `m`. -/
def State.busy (s : State n C E V) : Method → Prop
  | .submit => s.exclusive.isSome = true
  | .shutdown _ _ => s.exclusive.isSome = true ∨ s.shared ≠ ∅

/-- How `submit` goes on. -/
inductive SubmitGo (s : State n C E V) : Pc → Call → Prop
  | active (hactive : s.active = true) : SubmitGo s .active (.run .submit .sender)
  | inactive (hactive : s.active = false) :
      SubmitGo s .active (.run .submit (.ret (.error shutdownErr)))
  | sender (hsender : s.sender = true) : SubmitGo s .sender (.run .submit .send)
  | noSender (hsender : s.sender = false) :
      SubmitGo s .sender (.run .submit (.ret (.error shutdownErr)))
  | noReceiver (hall : s.allExited) : SubmitGo s .send (.run .submit (.ret (.error submitErr)))
  | sent : SubmitGo s .send (.run .submit (.ret (.ok ())))
  | ret {r : PyResult Unit} : SubmitGo s (.ret r) (.done .submit r)

/-- How a call comes to be at `k` in a step that is not one of `shutdown`. -/
inductive Moved (s : State n C E V) (a : Act n C E V) (c : C) (k : Call) : Prop
  | same (h : s.calls c = k)
  | refused {m : Method} (ha : a = .invoke c m) (hbusy : s.busy m)
      (hk : k = .done m (.error (match m with
        | .submit => mutablyBorrowedErr
        | .shutdown _ _ => borrowedErr)))
  | begun {m : Method} (ha : a = .invoke c m) (hfree : ¬ s.busy m) (hdrop : s.drop = .alive)
      (hk : k = .run m .active)
  | submit {pc : Pc} (ha : a = .step c) (hc : s.calls c = .run .submit pc) (hgo : SubmitGo s pc k)

/-- What a step of the pool does to its flags and to the calls. -/
inductive FlagStep (s : State n C E V) (a : Act n C E V) (t : State n C E V) : Prop
  | shutdown {c : C} {wait cancel : Bool} {pc : Pc} (ha : a = .step c)
      (hc : s.calls c = .run (.shutdown wait cancel) pc) (hstep : ShutdownStep s c wait cancel pc t)
  | drop (ha : a = .drop) (hstep : dropStep s = some t)
  | aside (hother : ∀ c wait cancel pc, a = .step c → s.calls c ≠ .run (.shutdown wait cancel) pc)
      (hactive : t.active = s.active) (hworkers : t.workers = s.workers)
      (hsender : t.sender = s.sender) (hdrop : t.drop = s.drop)
      (hcalls : ∀ c k, t.calls c = k → Moved s a c k)

theorem shutdownStep_flags {wait cancel : Bool} {pc : Pc}
    (h : shutdownStep s c wait cancel pc = some t) : ShutdownStep s c wait cancel pc t := by
  unfold shutdownStep at h
  split at h
  · split at h
    · rename_i hactive
      cases h
      exact .off hactive
    · rename_i hactive
      cases h
      exact .already (by simpa using hactive)
  · cases h
    exact .cancelFlag
  · cases h
    exact .dropSender
  · split at h
    · cases h
    · rename_i hjoin
      cases h
      exact .joined fun hwait hworkers => by
        by_contra hall
        exact hjoin ⟨hwait, hworkers, hall⟩
  · cases h
    exact .ret
  · cases h

/-- Only the call `c` moves. -/
theorem moved_of_update {k : Call} (hcalls : t.calls = Function.update s.calls c k)
    (hk : Moved s a c k) (d : C) (k' : Call) (hd : t.calls d = k') : Moved s a d k' := by
  rw [hcalls] at hd
  by_cases hdc : d = c
  · subst hdc
    rw [Function.update_self] at hd
    exact hd ▸ hk
  · rw [Function.update_of_ne hdc] at hd
    exact .same hd

theorem submitStep_flags {pc : Pc} (hc : s.calls c = .run .submit pc)
    (h : submitStep s c pc = some t) : FlagStep s (.step c) t := by
  have hgo : ∀ {k : Call}, SubmitGo s pc k → Moved s (.step c) c k := fun hk => .submit rfl hc hk
  have hother : ∀ d wait cancel pc', (.step c : Act n C E V) = .step d →
      s.calls d ≠ .run (.shutdown wait cancel) pc' := by
    rintro d wait cancel pc' hd hd'
    cases hd
    rw [hc] at hd'
    cases hd'
  unfold submitStep at h
  split at h
  · cases h
    refine .aside hother rfl rfl rfl rfl (moved_of_update rfl (hgo ?_))
    split
    · rename_i hactive
      exact .active hactive
    · rename_i hactive
      exact .inactive (by simpa using hactive)
  · cases h
    refine .aside hother rfl rfl rfl rfl (moved_of_update rfl (hgo ?_))
    split
    · rename_i hsender
      exact .sender hsender
    · rename_i hsender
      exact .noSender (by simpa using hsender)
  · split at h
    · rename_i hall
      cases h
      exact .aside hother rfl rfl rfl rfl (moved_of_update rfl (hgo (.noReceiver hall)))
    · obtain ⟨q, hq, rfl⟩ := Option.map_eq_some_iff.mp h
      exact .aside hother rfl rfl rfl rfl (moved_of_update rfl (hgo .sent))
  · cases h
    exact .aside hother rfl rfl rfl rfl (moved_of_update rfl (hgo .ret))
  · cases h

theorem invoke_flags {m : Method} (h : invoke s c m = some t) : FlagStep s (.invoke c m) t := by
  unfold invoke at h
  split at h
  · cases h
  rename_i hidle
  rw [not_or, not_not, not_not] at hidle
  split at h
  · split at h
    · rename_i hbusy
      cases h
      exact .aside (by simp) rfl rfl rfl rfl (moved_of_update rfl (.refused rfl hbusy rfl))
    · rename_i hfree
      cases h
      exact .aside (by simp) rfl rfl rfl rfl (moved_of_update rfl (.begun rfl hfree hidle.2 rfl))
  · split at h
    · rename_i hbusy
      cases h
      exact .aside (by simp) rfl rfl rfl rfl (moved_of_update rfl (.refused rfl hbusy rfl))
    · rename_i hfree
      cases h
      exact .aside (by simp) rfl rfl rfl rfl (moved_of_update rfl (.begun rfl hfree hidle.2 rfl))

theorem workStep_aside {pc : WorkerPc C E V} (h : workStep s w pc = some t) :
    t.active = s.active ∧ t.workers = s.workers ∧ t.sender = s.sender ∧ t.drop = s.drop ∧
      t.calls = s.calls := by
  unfold workStep at h
  split at h
  · split at h
    · cases h
      exact ⟨rfl, rfl, rfl, rfl, rfl⟩
    · split at h <;> cases h
      exact ⟨rfl, rfl, rfl, rfl, rfl⟩
  · split at h <;> cases h <;> exact ⟨rfl, rfl, rfl, rfl, rfl⟩
  · cases h
    exact ⟨rfl, rfl, rfl, rfl, rfl⟩
  · cases h
    exact ⟨rfl, rfl, rfl, rfl, rfl⟩
  · cases h
  · cases h
  · cases h

theorem panicStep_aside {pc : WorkerPc C E V} (h : panicStep s w pc = some t) :
    t.active = s.active ∧ t.workers = s.workers ∧ t.sender = s.sender ∧ t.drop = s.drop ∧
      t.calls = s.calls := by
  unfold panicStep at h
  split at h
  · cases h
    exact ⟨rfl, rfl, rfl, rfl, rfl⟩
  · split at h <;> cases h
    exact ⟨rfl, rfl, rfl, rfl, rfl⟩
  · split at h <;> cases h
    exact ⟨rfl, rfl, rfl, rfl, rfl⟩
  · cases h
  · cases h
  · cases h
  · cases h

theorem next_flags (hn : next s a = some t) : FlagStep s a t := by
  have hsame : ∀ c k, s.calls c = k → Moved s a c k := fun _ _ h => .same h
  cases a with
  | invoke c m => exact invoke_flags hn
  | step c =>
      unfold next at hn
      dsimp only at hn
      split at hn
      · rename_i hc
        exact submitStep_flags hc hn
      · rename_i hc
        exact .shutdown rfl hc (shutdownStep_flags hn)
      · cases hn
  | drop => exact .drop rfl hn
  | clientCancel c =>
      cases hn
      exact .aside (by simp) rfl rfl rfl rfl hsame
  | work w =>
      obtain ⟨hactive, hworkers, hsender, hdrop, hcalls⟩ := workStep_aside hn
      exact .aside (by simp) hactive hworkers hsender hdrop fun c k hk => .same (hcalls ▸ hk)
  | finish w o =>
      unfold next at hn
      dsimp only at hn
      split at hn
      · cases hn
        exact .aside (by simp) rfl rfl rfl rfl hsame
      · cases hn
  | panic w =>
      obtain ⟨hactive, hworkers, hsender, hdrop, hcalls⟩ := panicStep_aside hn
      exact .aside (by simp) hactive hworkers hsender hdrop fun c k hk => .same (hcalls ▸ hk)

/-- The pool is active until a `shutdown` or the drop clears the flag, and it has its workers until
that same call has joined them or left them to the helper thread. -/
structure Joinable (s : State n C E V) : Prop where
  active : s.active = true → s.workers = true
  late : ∀ c wait cancel pc, s.calls c = .run (.shutdown wait cancel) pc →
    pc = .cancelFlag ∨ pc = .dropSender ∨ pc = .join → s.active = false ∧ s.workers = true
  drop : s.drop = .sender ∨ s.drop = .join ∨ s.drop = .dropped → s.active = false

/-- While a `shutdown` is in progress no other call is. -/
theorem Borrowed.alone (h : Borrowed s) {wait cancel : Bool} {pc : Pc} {k : Call}
    (hc : s.calls c = .run (.shutdown wait cancel) pc)
    (hcalls : t.calls = Function.update s.calls c k) (d : C) (m : Method) (pc' : Pc)
    (hd : t.calls d = .run m pc') : k = .run m pc' := by
  have hexclusive := h.shutdown c wait cancel pc hc
  rw [hcalls] at hd
  by_cases hdc : d = c
  · subst hdc
    rwa [Function.update_self] at hd
  · rw [Function.update_of_ne hdc] at hd
    cases m with
    | submit =>
        have hmem := h.submit d pc' hd
        rw [h.exclusive c hexclusive] at hmem
        exact absurd hmem (Finset.notMem_empty d)
    | shutdown wait' cancel' =>
        exact (hdc (Option.some.inj ((h.shutdown d _ _ _ hd).symm.trans hexclusive))).elim

theorem Joinable.shutdown (h : Joinable s) (hb : Borrowed s) {wait cancel : Bool} {pc : Pc}
    (hc : s.calls c = .run (.shutdown wait cancel) pc)
    (hstep : ShutdownStep s c wait cancel pc t) : Joinable t := by
  have hexclusive := hb.shutdown c wait cancel pc hc
  have halive : s.drop = .alive := by
    by_contra hdrop
    rw [(hb.drop hdrop).2] at hexclusive
    cases hexclusive
  have hdrop : ∀ {u : State n C E V}, u.drop = s.drop →
      u.drop = .sender ∨ u.drop = .join ∨ u.drop = .dropped → u.active = false := by
    intro u hu hlate
    rw [hu, halive] at hlate
    simp at hlate
  cases hstep with
  | off hactive =>
      refine ⟨fun h => (by cases h), fun d wait' cancel' pc' hd _ => ?_, hdrop rfl⟩
      exact ⟨rfl, h.active hactive⟩
  | already hactive =>
      refine ⟨h.active, fun d wait' cancel' pc' hd hpc' => ?_, hdrop rfl⟩
      cases hb.alone hc rfl d _ _ hd
      simp at hpc'
  | cancelFlag => exact ⟨h.active, fun _ _ _ _ _ _ => h.late c _ _ _ hc (.inl rfl), hdrop rfl⟩
  | dropSender =>
      exact ⟨h.active, fun _ _ _ _ _ _ => h.late c _ _ _ hc (.inr (.inl rfl)), hdrop rfl⟩
  | joined hjoin =>
      have hinactive := (h.late c _ _ _ hc (.inr (.inr rfl))).1
      refine ⟨fun h => ?_, fun d wait' cancel' pc' hd hpc' => ?_, hdrop rfl⟩
      · rw [show s.active = true from h] at hinactive
        cases hinactive
      · cases hb.alone hc rfl d _ _ hd
        simp at hpc'
  | ret =>
      refine ⟨h.active, fun d wait' cancel' pc' hd hpc' => ?_, hdrop rfl⟩
      cases hb.alone hc rfl d _ _ hd

theorem Joinable.dropped (h : Joinable s) (hb : Borrowed s) (hstep : dropStep s = some t) :
    Joinable t := by
  -- nobody calls a pool that is dropped
  have hnobody : s.exclusive = none → ∀ {u : State n C E V}, u.calls = s.calls →
      ∀ c wait cancel pc, u.calls c = .run (.shutdown wait cancel) pc →
        pc = .cancelFlag ∨ pc = .dropSender ∨ pc = .join → u.active = false ∧ u.workers = true := by
    intro hnone u hu c wait cancel pc hc
    rw [hu] at hc
    rw [hb.shutdown c wait cancel pc hc] at hnone
    cases hnone
  unfold dropStep at hstep
  split at hstep
  · split at hstep
    · rename_i hfree
      cases hstep
      exact ⟨h.active, hnobody hfree.2 rfl, fun h => (by simp at h)⟩
    · cases hstep
  · rename_i hpc
    cases hstep
    exact ⟨fun h => (by cases h), hnobody (hb.drop (by simp [hpc])).2 rfl, fun _ => rfl⟩
  · rename_i hpc
    cases hstep
    exact ⟨h.active, hnobody (hb.drop (by simp [hpc])).2 rfl, fun _ => h.drop (.inl hpc)⟩
  · rename_i hpc
    split at hstep
    · cases hstep
    · cases hstep
      have hinactive := h.drop (.inr (.inl hpc))
      refine ⟨fun h => ?_, hnobody (hb.drop (by simp [hpc])).2 rfl, fun _ => hinactive⟩
      rw [show s.active = true from h] at hinactive
      cases hinactive
  · cases hstep

theorem Joinable.next (h : Joinable s) (hb : Borrowed s) (hn : next s a = some t) :
    Joinable t := by
  cases next_flags hn with
  | shutdown ha hc hstep => exact h.shutdown hb hc hstep
  | drop ha hstep => exact h.dropped hb hstep
  | aside hother hactive hworkers hsender hdrop hcalls =>
      refine ⟨?_, fun c wait cancel pc hc hpc => ?_, ?_⟩
      · rw [hactive, hworkers]
        exact h.active
      · rw [hactive, hworkers]
        cases hcalls c _ hc with
        | same hs => exact h.late c wait cancel pc hs hpc
        | refused ha hbusy hk => cases hk
        | begun ha hfree hdrop hk =>
            cases hk
            simp at hpc
        | submit ha hs hgo => cases hgo
      · rw [hdrop, hactive]
        exact h.drop

theorem joinable_run (h : RunWith next P State.init as s) : Joinable s := by
  have hinit : Joinable (State.init : State n C E V) :=
    ⟨fun _ => rfl, fun _ _ _ _ h => (by cases h), fun h => (by simp [State.init] at h)⟩
  exact h.invariant_run hinit fun _ _ _ _ hr hs _ hn => hs.next (Orderly.run hr).borrowed hn

theorem dropStep_calls (h : dropStep s = some t) : t.calls = s.calls := by
  unfold dropStep at h
  split at h
  · split at h <;> cases h
    rfl
  · cases h
    rfl
  · cases h
    rfl
  · split at h <;> cases h
    rfl
  · cases h

/-- The drop begins when nobody calls the pool. -/
theorem dropStep_free (hb : Borrowed s) (h : dropStep s = some t) :
    s.shared = ∅ ∧ s.exclusive = none := by
  by_cases halive : s.drop = .alive
  · rw [dropStep, halive] at h
    by_contra hfree
    simp only [hfree, if_false] at h
    cases h
  · exact hb.drop halive

/-- The drop gives the sender up after it has cleared the flag. -/
theorem dropStep_sender (hs : s.sender = false → s.active = false) (hj : Joinable s)
    (h : dropStep s = some t) : t.sender = false → t.active = false := by
  unfold dropStep at h
  split at h
  · split at h <;> cases h
    exact hs
  · cases h
    exact fun _ => rfl
  · rename_i hpc
    cases h
    exact fun _ => hj.drop (.inl hpc)
  · split at h <;> cases h
    exact hs
  · cases h

/-- The pool stays inactive. -/
theorem inactive_stays (hn : next s a = some t) (h : s.active = false) : t.active = false := by
  cases next_flags hn with
  | drop ha hstep =>
      unfold dropStep at hstep
      split at hstep
      · split at hstep <;> cases hstep
        exact h
      · cases hstep
        rfl
      · cases hstep
        exact h
      · split at hstep <;> cases hstep
        exact h
      · cases hstep
  | shutdown ha hc hstep =>
      cases hstep with
      | off => rfl
      | _ => exact h
  | aside hother hactive => rw [hactive, h]

/-- A `shutdown` leaves the pool inactive, and no `submit` gets past the flag of an inactive pool. -/
structure Quiet (s : State n C E V) : Prop where
  sender : s.sender = false → s.active = false
  shutdown : ∀ c wait cancel, s.calls c = .done (.shutdown wait cancel) (.ok ()) ∨
      (∃ pc, pc ≠ .active ∧ s.calls c = .run (.shutdown wait cancel) pc) → s.active = false
  submit : s.active = false → ∀ c pc, s.calls c = .run .submit pc →
    pc = .active ∨ ∃ e, pc = .ret (.error e)

/-- While a `shutdown` goes on, no `submit` does. -/
theorem Quiet.step (h : Quiet s) (hb : Borrowed s) {wait cancel : Bool} {pc : Pc}
    (hc : s.calls c = .run (.shutdown wait cancel) pc)
    (hstep : ShutdownStep s c wait cancel pc t) : Quiet t := by
  -- the call goes on to `k`, with the pool inactive
  have hgoto : ∀ {u : State n C E V} {k : Call}, u.calls = Function.update s.calls c k →
      u.active = false → (∀ pc', k ≠ .run .submit pc') → Quiet u := by
    intro u k hcalls hactive hk
    exact ⟨fun _ => hactive, fun _ _ _ _ => hactive, fun _ d pc' hd =>
      (hk pc' (hb.alone hc hcalls d _ _ hd)).elim⟩
  have hinactive : pc ≠ .active → s.active = false := fun hpc =>
    h.shutdown c wait cancel (.inr ⟨pc, hpc, hc⟩)
  cases hstep with
  | off => exact hgoto rfl rfl (by simp)
  | already hactive => exact hgoto rfl hactive (by simp)
  | cancelFlag => exact hgoto rfl (hinactive (by simp)) (by simp)
  | dropSender => exact hgoto rfl (hinactive (by simp)) (by simp)
  | joined => exact hgoto rfl (hinactive (by simp)) (by simp)
  | ret => exact hgoto rfl (hinactive (by simp)) (by simp)

theorem Quiet.next (h : Quiet s) (hb : Borrowed s) (hj : Joinable s) (hn : next s a = some t) :
    Quiet t := by
  cases next_flags hn with
  | shutdown ha hc hstep => exact h.step hb hc hstep
  | drop ha hstep =>
      have hcalls := dropStep_calls hstep
      refine ⟨dropStep_sender h.sender hj hstep, fun c wait cancel hc => ?_, fun _ c pc hc => ?_⟩
      · rw [hcalls] at hc
        exact inactive_stays hn (h.shutdown c wait cancel hc)
      · rw [hcalls] at hc
        have hmem := hb.submit c pc hc
        rw [(dropStep_free hb hstep).1] at hmem
        exact absurd hmem (Finset.notMem_empty c)
  | aside hother hactive hworkers hsender hdrop hcalls =>
      refine ⟨hsender ▸ hactive ▸ h.sender, fun c wait cancel hc => ?_,
        fun hinactive c pc hc => ?_⟩
      · rw [hactive]
        rcases hc with hc | ⟨pc, hpc, hc⟩
        · cases hcalls c _ hc with
          | same hs => exact h.shutdown c wait cancel (.inl hs)
          | refused ha hbusy hk => cases hk
          | begun ha hfree hdrop hk => cases hk
          | submit ha hs hgo => cases hgo
        · cases hcalls c _ hc with
          | same hs => exact h.shutdown c wait cancel (.inr ⟨pc, hpc, hs⟩)
          | refused ha hbusy hk => cases hk
          | begun ha hfree hdrop hk =>
              cases hk
              exact (hpc rfl).elim
          | submit ha hs hgo => cases hgo
      · rw [hactive] at hinactive
        cases hcalls c _ hc with
        | same hs => exact h.submit hinactive c pc hs
        | refused ha hbusy hk => cases hk
        | begun ha hfree hdrop hk =>
            cases hk
            exact .inl rfl
        | submit ha hs hgo =>
            have hbefore := h.submit hinactive c _ hs
            cases hgo with
            | active hon =>
                rw [hinactive] at hon
                cases hon
            | inactive | noSender | noReceiver => exact .inr ⟨_, rfl⟩
            | sender | sent => simp at hbefore

theorem quiet_run (h : RunWith next P State.init as s) : Quiet s := by
  have hinit : Quiet (State.init : State n C E V) :=
    ⟨fun h => (by cases h), fun _ _ _ h => (by rcases h with h | ⟨_, _, h⟩ <;> cases h),
      fun h => (by cases h)⟩
  exact h.invariant_run hinit
    fun _ _ _ _ hr hs _ hn => hs.next (Orderly.run hr).borrowed (joinable_run hr) hn

/-- A `shutdown(wait=True)` that has returned, or has nothing left to do but to return, has left all
workers exited and all futures done. -/
def Waited (s : State n C E V) : Prop :=
  ∀ c cancel, s.calls c = .done (.shutdown true cancel) (.ok ()) ∨
      s.calls c = .run (.shutdown true cancel) (.ret (.ok ())) →
    s.allExited ∧ ∀ d, s.calls d = .done .submit (.ok ()) → (s.future d).done = true

/-- Of the tasks that nobody will finish clients have cancelled the futures. -/
def AbandonedCancelled (s : State n C E V) : Prop := ∀ c, Abandoned s c → s.future c = .cancelled

/-- A `shutdown(wait=True)` that finds the pool inactive finds its workers exited, and where it finds
that, or has joined them, no panic has left a task that no client has cancelled. -/
def FindsExited (s : State n C E V) : Act n C E V → Prop
  | .step c => ∀ cancel,
      (s.calls c = .run (.shutdown true cancel) .active → s.active = false →
        s.allExited ∧ AbandonedCancelled s) ∧
      (s.calls c = .run (.shutdown true cancel) .join → AbandonedCancelled s)
  | _ => True

theorem ended_stays (hn : next s a = some t) (hw : (s.worker w).Ended) : (t.worker w).Ended := by
  have hset : ∀ {v : Fin n} {pc pc' : WorkerPc C E V}, s.worker v = pc' → ¬ pc'.Ended →
      (Function.update s.worker v pc w).Ended := by
    intro v pc pc' hv hpc'
    have hwv : w ≠ v := by
      rintro rfl
      exact hpc' (hv ▸ hw)
    rwa [Function.update_of_ne hwv]
  rcases next_or_cancel hn with hstep | ⟨c, rfl, rfl⟩
  · cases hstep with
    | take hv | exit hv | decline hv | start hv | cancel hv | finish hv | complete hv =>
        exact hset hv id
    | panic ha hv => exact hset hv id
    | _ => exact hw
  · exact hw

/-- A future that is done stays so. -/
theorem done_stays (hn : next s a = some t) (hc : (s.future c).done = true) :
    (t.future c).done = true := by
  have hset : ∀ {d : C} {f : Future E V}, f.done = true →
      (Function.update s.future d f c).done = true := by
    intro d f hf
    by_cases hcd : c = d
    · subst hcd
      rwa [Function.update_self]
    · rwa [Function.update_of_ne hcd]
  rcases next_or_cancel hn with hstep | ⟨d, rfl, rfl⟩
  · cases hstep with
    | cancel => exact hset (Future.cancel_done _)
    | complete => exact hset (complete_getD_done _ _)
    | _ => exact hc
  · exact hset (Future.cancel_done _)

omit [DecidableEq C] in
/-- While a `shutdown` is in progress every `submit` that has been accepted has returned. -/
theorem Orderly.returned (h : Orderly s) {wait cancel : Bool} {pc : Pc}
    (hc : s.calls c = .run (.shutdown wait cancel) pc) (hd : d ∈ s.queue.accepted.map Prod.snd) :
    s.calls d = .done .submit (.ok ()) := by
  rw [h.sentOnce.sent] at hd
  cases hcall : s.calls d with
  | idle =>
      rw [hcall] at hd
      exact hd.elim
  | run m pc' =>
      cases m with
      | submit =>
          have hmem := h.borrowed.submit d pc' hcall
          rw [h.borrowed.exclusive c (h.borrowed.shutdown c _ _ _ hc)] at hmem
          exact absurd hmem (Finset.notMem_empty d)
      | shutdown =>
          rw [hcall] at hd
          exact hd.elim
  | done m r =>
      rw [hcall] at hd
      cases m with
      | submit =>
          cases r with
          | ok => rfl
          | error => exact hd.elim
      | shutdown => exact hd.elim

omit [DecidableEq C] in
/-- Once all workers have exited, all returned futures are done just when clients have cancelled those
of the abandoned tasks. -/
theorem Orderly.abandonedCancelled_iff (h : Orderly s) {wait cancel : Bool} {pc : Pc}
    (hc : s.calls c = .run (.shutdown wait cancel) pc) (hall : s.allExited) :
    AbandonedCancelled s ↔ ∀ d, s.calls d = .done .submit (.ok ()) → (s.future d).done = true := by
  constructor
  · intro hcancelled d hd
    rcases h.done_or_abandoned hall hd with hdone | habandoned
    · exact hdone
    · rw [hcancelled d habandoned]
      rfl
  · intro hdone d hd
    obtain ⟨haccepted, hpending | hcancelled⟩ := h.abandoned d hd
    · have hd' := hdone d (h.returned hc haccepted)
      rw [hpending] at hd'
      cases hd'
    · exact hcancelled

/-- After a step the calls that had waited have done so still. -/
theorem Waited.mono (h : Waited s) (hnext : next s a = some t)
    (hreturned : s.active = false → ∀ d, t.calls d = .done .submit (.ok ()) →
      s.calls d = .done .submit (.ok ()))
    (hq : Quiet s)
    (hcalls : ∀ c cancel, t.calls c = .done (.shutdown true cancel) (.ok ()) ∨
        t.calls c = .run (.shutdown true cancel) (.ret (.ok ())) →
      (s.calls c = .done (.shutdown true cancel) (.ok ()) ∨
        s.calls c = .run (.shutdown true cancel) (.ret (.ok ()))) ∨
      (s.active = false ∧ s.allExited ∧
        ∀ d, s.calls d = .done .submit (.ok ()) → (s.future d).done = true)) : Waited t := by
  intro c cancel hc
  obtain ⟨hactive, hall, hdone⟩ : s.active = false ∧ s.allExited ∧
      ∀ d, s.calls d = .done .submit (.ok ()) → (s.future d).done = true := by
    rcases hcalls c cancel hc with hs | hnew
    · exact ⟨hq.shutdown c true cancel (hs.imp id fun hs => ⟨_, by simp, hs⟩), h c cancel hs⟩
    · exact hnew
  exact ⟨fun w => ended_stays hnext (hall w), fun d hd =>
    done_stays hnext (hdone d (hreturned hactive d hd))⟩

theorem waited_shutdown (ho : Orderly s) (hj : Joinable s) (hq : Quiet s) (h : Waited s)
    (hnext : next s (.step c) = some t) {wait cancel : Bool} {pc : Pc}
    (hc : s.calls c = .run (.shutdown wait cancel) pc)
    (hstep : ShutdownStep s c wait cancel pc t) : FindsExited s (.step c) ↔ Waited t := by
  -- a step that brings `c` to `k`, which promises nothing new unless all is done
  have hkeep : ∀ {k : Call}, t.calls = Function.update s.calls c k →
      (∀ d, k ≠ .done .submit (.ok d)) →
      (∀ cancel', k = .done (.shutdown true cancel') (.ok ()) ∨
          k = .run (.shutdown true cancel') (.ret (.ok ())) →
        s.calls c = .run (.shutdown true cancel') (.ret (.ok ())) ∨
        (s.active = false ∧ s.allExited ∧
          ∀ d, s.calls d = .done .submit (.ok ()) → (s.future d).done = true)) →
      Waited t := by
    intro k hk hsubmit hnew
    refine h.mono hnext (fun _ d hd => ?_) hq fun d cancel' hd => ?_
    · rw [hk] at hd
      by_cases hdc : d = c
      · subst hdc
        rw [Function.update_self] at hd
        exact (hsubmit () hd).elim
      · rwa [Function.update_of_ne hdc] at hd
    · rw [hk] at hd
      by_cases hdc : d = c
      · subst hdc
        rw [Function.update_self] at hd
        exact (hnew cancel' hd).imp .inr id
      · rw [Function.update_of_ne hdc] at hd
        exact .inl hd
  have hnot : pc ≠ .active ∨ s.active = true ∨ wait = false → pc ≠ .join ∨ wait = false →
      FindsExited s (.step c) := by
    rintro hactive hjoin cancel'
    refine ⟨fun hc' hinactive => ?_, fun hc' => ?_⟩
    · rw [hc] at hc'
      cases hc'
      rw [hinactive] at hactive
      simp at hactive
    · rw [hc] at hc'
      cases hc'
      simp at hjoin
  -- what a call that has waited leaves behind, seen from the state before its last step
  have hleft : Waited t → t.worker = s.worker → t.future = s.future → wait = true →
      t.calls = Function.update s.calls c (.run (.shutdown wait cancel) (.ret (.ok ()))) →
      s.allExited ∧ AbandonedCancelled s := by
    rintro ht hworker hfuture rfl hcalls
    obtain ⟨hall, hdone⟩ := ht c cancel (.inr (by rw [hcalls, Function.update_self]))
    replace hall : s.allExited := fun w => hworker ▸ hall w
    refine ⟨hall, (ho.abandonedCancelled_iff hc hall).mpr fun d hd => ?_⟩
    have hdc : d ≠ c := by
      rintro rfl
      rw [hc] at hd
      cases hd
    rw [← hfuture]
    refine hdone d ?_
    rwa [hcalls, Function.update_of_ne hdc]
  cases hstep with
  | off hactive =>
      exact ⟨fun _ => hkeep rfl (by simp) (by simp),
        fun _ => hnot (.inr (.inl hactive)) (.inl (by simp))⟩
  | already hactive =>
      cases wait with
      | false =>
          exact ⟨fun _ => hkeep rfl (by simp) (by simp),
            fun _ => hnot (.inr (.inr rfl)) (.inr rfl)⟩
      | true =>
          constructor
          · intro hfinds
            obtain ⟨hall, hcancelled⟩ := (hfinds cancel).1 hc hactive
            exact hkeep rfl (by simp) fun _ _ =>
              .inr ⟨hactive, hall, (ho.abandonedCancelled_iff hc hall).mp hcancelled⟩
          · intro hw cancel'
            refine ⟨fun _ _ => hleft hw rfl rfl rfl rfl, fun hc' => ?_⟩
            rw [hc] at hc'
            cases hc'
  | cancelFlag =>
      exact ⟨fun _ => hkeep rfl (by simp) (by simp),
        fun _ => hnot (.inl (by simp)) (.inl (by simp))⟩
  | dropSender =>
      exact ⟨fun _ => hkeep rfl (by simp) (by simp),
        fun _ => hnot (.inl (by simp)) (.inl (by simp))⟩
  | joined hjoin =>
      cases wait with
      | false =>
          exact ⟨fun _ => hkeep rfl (by simp) (by simp),
            fun _ => hnot (.inl (by simp)) (.inr rfl)⟩
      | true =>
          obtain ⟨hactive, hworkers⟩ := hj.late c true cancel _ hc (.inr (.inr rfl))
          have hall := hjoin rfl hworkers
          constructor
          · intro hfinds
            exact hkeep rfl (by simp) fun _ _ =>
              .inr ⟨hactive, hall, (ho.abandonedCancelled_iff hc hall).mp ((hfinds cancel).2 hc)⟩
          · intro hw cancel'
            refine ⟨fun hc' => ?_, fun _ => (hleft hw rfl rfl rfl rfl).2⟩
            rw [hc] at hc'
            cases hc'
  | ret =>
      refine ⟨fun _ => hkeep rfl (by simp) fun cancel' hk => .inl ?_,
        fun _ => hnot (.inl (by simp)) (.inl (by simp))⟩
      rcases hk with hk | hk <;> cases hk
      exact hc

/-- A step keeps the promise if and only if it is not one in which a `shutdown(wait=True)` is content
with workers that are still there, or with tasks that nobody will finish. -/
theorem waited_next (ho : Orderly s) (hj : Joinable s) (hq : Quiet s) (h : Waited s)
    (hnext : next s a = some t) : FindsExited s a ↔ Waited t := by
  cases next_flags hnext with
  | drop ha hstep =>
      subst ha
      have hcalls := dropStep_calls hstep
      exact ⟨fun _ => h.mono hnext (fun _ d hd => hcalls ▸ hd) hq
        fun c cancel hc => .inl (by rwa [← hcalls]), fun _ => trivial⟩
  | aside hother hactive hworkers hsender hdrop hcalls =>
      have hfinds : FindsExited s a := by
        cases a with
        | step c =>
            exact fun cancel => ⟨fun hc => (hother c true cancel .active rfl hc).elim,
              fun hc => (hother c true cancel .join rfl hc).elim⟩
        | _ => trivial
      refine ⟨fun _ => h.mono hnext (fun hinactive d hd => ?_) hq fun c cancel hc => .inl ?_,
        fun _ => hfinds⟩
      · cases hcalls d _ hd with
        | same hsame => exact hsame
        | refused ha hbusy hk => cases hk
        | begun ha hfree hdrop hk => cases hk
        | submit ha hc' hgo =>
            cases hgo
            have hbefore := hq.submit hinactive d _ hc'
            simp at hbefore
      · rcases hc with hc | hc
        · cases hcalls c _ hc with
          | same hsame => exact .inl hsame
          | refused ha hbusy hk => cases hk
          | begun ha hfree hdrop hk => cases hk
          | submit ha hc' hgo => cases hgo
        · cases hcalls c _ hc with
          | same hsame => exact .inr hsame
          | refused ha hbusy hk => cases hk
          | begun ha hfree hdrop hk => cases hk
          | submit ha hc' hgo => cases hgo
  | shutdown ha hc hstep =>
      subst ha
      exact waited_shutdown ho hj hq h hnext hc hstep

/-- Under any calls of `submit` and `shutdown` with any flags, any cancels by clients, the drop of the
pool and any interleaving: every `shutdown(wait=True)` that returns leaves all workers exited and all
returned futures done, if and only if none comes upon an inactive pool before its workers have
exited, and whenever one finds them exited, at its look or after its join, clients have cancelled the
futures of the tasks that panics have cost their workers. -/
theorem waited_iff (as : List (Act n C E V)) (s : State n C E V)
    (hrun : Run next State.init as s) :
    (∀ u, Visits next State.init as u → Waited u) ↔ RunWith next FindsExited State.init as s := by
  have hinit : Waited (State.init : State n C E V) := by
    rintro c cancel (h | h) <;> cases h
  have hiff := always_iff_runWith (P := FindsExited) hinit
    (fun as s a t hr hs _ hnext => waited_next (Orderly.run hr) (joinable_run hr) (quiet_run hr) hs
      hnext) hrun
  exact hiff.trans ⟨fun h => h.mono fun _ _ h => h.2, fun h => h.mono fun _ _ h => ⟨trivial, h⟩⟩

/-- A task runs; `shutdown(wait=False)` and then `shutdown(wait=True)` return. -/
def unwaitedTrace : List (Act 1 ℕ Unit ℕ) :=
  [.invoke 0 .submit, .step 0, .step 0, .step 0, .step 0, .work only, .work only,
   .invoke 1 (.shutdown false false), .step 1, .step 1, .step 1, .step 1, .step 1,
   .invoke 2 (.shutdown true false), .step 2, .step 2]

theorem unwaitedTrace_exec :
    (exec next (fun _ _ => True) State.init unwaitedTrace).map (fun s => decide
      (s.calls 2 = .done (.shutdown true false) (.ok ()) ∧ s.worker 0 = .run 0)) = some true := by
  decide +kernel

theorem waited_iff_unwaitedTrace :
    ∃ s : State 1 ℕ Unit ℕ, Run next State.init unwaitedTrace s ∧
      ((∀ u, Visits next State.init unwaitedTrace u → Waited u) ↔
        RunWith next FindsExited State.init unwaitedTrace s) := by
  obtain ⟨s, hrun, -⟩ := exists_runWith_of_exec unwaitedTrace_exec
  exact ⟨s, hrun, waited_iff unwaitedTrace s hrun⟩

/-- A `shutdown(wait=True)` after a `shutdown(wait=False)` does not wait. -/
theorem not_always_waited :
    ¬ ∀ (n : ℕ) (C E V : Type) [DecidableEq C] [DecidableEq E] [DecidableEq V], 0 < n →
      ∀ (as : List (Act n C E V)) (s : State n C E V), Run next State.init as s →
        ∀ c cancel, s.calls c = .done (.shutdown true cancel) (.ok ()) →
          s.allExited ∧ ∀ d, s.calls d = .done .submit (.ok ()) → (s.future d).done = true := by
  intro h
  obtain ⟨s, hrun, hs⟩ := exists_runWith_of_exec unwaitedTrace_exec
  obtain ⟨hdone, hworker⟩ := of_decide_eq_true hs
  have hended := (h 1 ℕ Unit ℕ (by decide) _ s hrun 2 false hdone).1 0
  rw [hworker] at hended
  exact hended

end Pysync.Pool
