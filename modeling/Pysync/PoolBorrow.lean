import Pysync.PoolShutdown

/-!
When calls of the pool fail though nobody has shut it down: a `shutdown` borrows the pool exclusively
until it returns, the whole join included, and a call that cannot borrow the pool raises; and a
`submit` to workers that have all died of a panic finds no receiver.
-/

namespace Pysync.Pool
open Queue Transition

variable {n : ℕ} {C E V : Type}
variable {s t : State n C E V} {a : Act n C E V} {c d : C} {w v : Fin n}
variable {as : List (Act n C E V)} {P : State n C E V → Act n C E V → Prop}

/-- No `submit` begins during a `shutdown`, no `shutdown` during another call, and no `submit` comes to
send its task to workers that have all exited. -/
def Unhindered (s : State n C E V) : Act n C E V → Prop
  | .invoke _ .submit => ∀ d wait cancel pc, s.calls d ≠ .run (.shutdown wait cancel) pc
  | .invoke _ (.shutdown _ _) => ∀ d m pc, s.calls d ≠ .run m pc
  | .step c => s.calls c = .run .submit .send → ¬ s.allExited
  | _ => True

/-- The call of `m` has ended with `r`, or has nothing left to do but to give its borrow back. -/
def Call.Answers (k : Call) (m : Method) (r : PyResult Unit) : Prop :=
  k = .done m r ∨ k = .run m (.ret r)

/-- Every `shutdown` that has ended has raised nothing and left the pool inactive, and every `submit`
that has ended has enqueued its task, or has raised because the pool was shut down. -/
structure NeverSpurious (s : State n C E V) : Prop where
  shutdown : ∀ c wait cancel r, (s.calls c).Answers (.shutdown wait cancel) r →
    r = .ok () ∧ s.active = false
  submit : ∀ c r, (s.calls c).Answers .submit r →
    (r = .ok () ∧ c ∈ s.queue.accepted.map Prod.snd) ∨ (r = .error shutdownErr ∧ s.active = false)

/-- Only calls in progress borrow the pool. -/
structure Lent (s : State n C E V) : Prop where
  shared : ∀ c ∈ s.shared, ∃ pc, s.calls c = .run .submit pc
  exclusive : ∀ c, s.exclusive = some c → ∃ wait cancel pc, s.calls c = .run (.shutdown wait cancel) pc

theorem Lent.setCall [DecidableEq C] (h : Lent s) {k : Call} (hcalls : t.calls = Function.update s.calls c k)
    (hshared : ∀ d ∈ t.shared, d ≠ c → d ∈ s.shared)
    (hexclusive : ∀ d, t.exclusive = some d → d ≠ c → s.exclusive = some d)
    (hsubmit : c ∈ t.shared → ∃ pc, k = .run .submit pc)
    (hshutdown : t.exclusive = some c → ∃ wait cancel pc, k = .run (.shutdown wait cancel) pc) :
    Lent t := by
  refine ⟨fun d hd => ?_, fun d hd => ?_⟩
  · rw [hcalls]
    by_cases hdc : d = c
    · subst hdc
      rw [Function.update_self]
      exact hsubmit hd
    · rw [Function.update_of_ne hdc]
      exact h.shared d (hshared d hd hdc)
  · rw [hcalls]
    by_cases hdc : d = c
    · subst hdc
      rw [Function.update_self]
      exact hshutdown hd
    · rw [Function.update_of_ne hdc]
      exact h.exclusive d (hexclusive d hd hdc)

theorem Lent.not_shared (h : Lent s) (hc : ∀ pc, s.calls c ≠ .run .submit pc) : c ∉ s.shared :=
  fun hmem => by
    obtain ⟨pc, hpc⟩ := h.shared c hmem
    exact hc pc hpc

theorem Lent.not_exclusive (h : Lent s)
    (hc : ∀ wait cancel pc, s.calls c ≠ .run (.shutdown wait cancel) pc) :
    s.exclusive ≠ some c := fun hmem => by
  obtain ⟨wait, cancel, pc, hpc⟩ := h.exclusive c hmem
  exact hc wait cancel pc hpc

theorem Lent.next [DecidableEq C] (h : Lent s) (hstep : PoolStep s a t) : Lent t := by
  -- a call that goes on and keeps its borrow
  have hgoto : ∀ {u : State n C E V} {c : C} {m : Method} {pc pc' : Pc}, s.calls c = .run m pc →
      u.calls = Function.update s.calls c (.run m pc') → u.shared = s.shared →
      u.exclusive = s.exclusive → Lent u := by
    intro u c m pc pc' hc hcalls hshared hexclusive
    refine h.setCall hcalls (fun d hd _ => hshared ▸ hd) (fun d hd _ => hexclusive ▸ hd) ?_ ?_
    · intro hmem
      obtain ⟨pc₀, hpc₀⟩ := h.shared c (hshared ▸ hmem)
      rw [hc] at hpc₀
      cases hpc₀
      exact ⟨pc', rfl⟩
    · intro hmem
      obtain ⟨wait, cancel, pc₀, hpc₀⟩ := h.exclusive c (hexclusive ▸ hmem)
      rw [hc] at hpc₀
      cases hpc₀
      exact ⟨wait, cancel, pc', rfl⟩
  cases hstep with
  | refused hc =>
      refine h.setCall rfl (fun d hd _ => hd) (fun d hd _ => hd) (fun hmem => ?_) fun hmem => ?_
      · exact (h.not_shared (by simp [hc]) hmem).elim
      · exact (h.not_exclusive (by simp [hc]) hmem).elim
  | submit hc halive hexclusive =>
      refine h.setCall rfl (fun d hd hdc => Finset.mem_of_mem_insert_of_ne hd hdc)
        (fun d hd _ => hd) (fun _ => ⟨_, rfl⟩) fun hmem => ?_
      exact (h.not_exclusive (by simp [hc]) hmem).elim
  | shutdown hc halive hexclusive hshared =>
      refine h.setCall rfl (fun d hd _ => hd) (fun d hd hdc => ?_) (fun hmem => ?_)
        fun _ => ⟨_, _, _, rfl⟩
      · exact (hdc (Option.some.inj hd).symm).elim
      · exact (h.not_shared (by simp [hc]) hmem).elim
  | submitGoto hc => exact hgoto hc rfl rfl rfl
  | accept hc => exact hgoto hc rfl rfl rfl
  | shutdownGoto hc => exact hgoto hc rfl rfl rfl
  | dropSender hc => exact hgoto hc rfl rfl rfl
  | submitRet hc =>
      refine h.setCall rfl (fun d hd _ => Finset.mem_of_mem_erase hd) (fun d hd _ => hd)
        (fun hmem => (Finset.notMem_erase _ _ hmem).elim) fun hmem => ?_
      exact (h.not_exclusive (by simp [hc]) hmem).elim
  | shutdownRet hc =>
      refine h.setCall rfl (fun d hd _ => hd) (fun d hd _ => (by cases hd)) (fun hmem => ?_)
        fun hmem => (by cases hmem)
      exact (h.not_shared (by simp [hc]) hmem).elim
  | _ => exact ⟨h.shared, h.exclusive⟩

theorem lent_run [DecidableEq C] (h : RunWith next P State.init as s) : Lent s := by
  induction h with
  | nil => exact ⟨fun _ h => absurd h (Finset.notMem_empty _), fun _ h => (by cases h)⟩
  | snoc _ _ hn ih =>
      rcases next_or_cancel hn with hstep | ⟨c, rfl, rfl⟩
      · exact ih.next hstep
      · exact ⟨ih.shared, ih.exclusive⟩

/-- The pool cannot be borrowed just when a call in progress is in the way. -/
theorem busy_iff (h : Lent s) (hb : Borrowed s) {m : Method} :
    s.busy m ↔ ¬ Unhindered s (.invoke c m) := by
  cases m with
  | submit =>
      constructor
      · intro hbusy hfree
        obtain ⟨d, hd⟩ := Option.isSome_iff_exists.mp hbusy
        obtain ⟨wait, cancel, pc, hpc⟩ := h.exclusive d hd
        exact hfree d wait cancel pc hpc
      · intro hnot
        by_contra hfree
        refine hnot fun d wait cancel pc hd => hfree ?_
        show s.exclusive.isSome = true
        rw [hb.shutdown d wait cancel pc hd]
        rfl
  | shutdown wait cancel =>
      constructor
      · rintro (hbusy | hbusy) hfree
        · obtain ⟨d, hd⟩ := Option.isSome_iff_exists.mp hbusy
          obtain ⟨wait', cancel', pc, hpc⟩ := h.exclusive d hd
          exact hfree d _ pc hpc
        · obtain ⟨d, hd⟩ := Finset.nonempty_iff_ne_empty.mpr hbusy
          obtain ⟨pc, hpc⟩ := h.shared d hd
          exact hfree d _ pc hpc
      · intro hnot
        by_contra hfree
        refine hnot fun d m pc hd => hfree ?_
        cases m with
        | submit =>
            refine .inr fun hempty => ?_
            have hmem := hb.submit d pc hd
            rw [hempty] at hmem
            exact Finset.notMem_empty d hmem
        | shutdown wait' cancel' =>
            refine .inl ?_
            rw [hb.shutdown d wait' cancel' pc hd]
            rfl

/-- What a call that is answered may be answered, as far as the state before the step tells. -/
def Rightly (s : State n C E V) (r : PyResult Unit) : Method → Prop
  | .shutdown _ _ => r = .ok () ∧ s.active = false
  | .submit => r = .ok () ∨ r = .error shutdownErr ∧ s.active = false

theorem NeverSpurious.rightly (h : NeverSpurious s) {m : Method} {r : PyResult Unit}
    (hc : (s.calls c).Answers m r) : Rightly s r m := by
  cases m with
  | submit => exact (h.submit c r hc).imp And.left id
  | shutdown wait cancel => exact h.shutdown c wait cancel r hc

variable [DecidableEq C]

/-- Calls that are answered rightly before a step are so after it. -/
theorem neverSpurious_of_rightly (ho : Orderly t) (hnext : next s a = some t)
    (hcalls : ∀ c m r, (t.calls c).Answers m r → Rightly s r m) : NeverSpurious t := by
  constructor
  · intro c wait cancel r hc
    exact (hcalls c _ r hc).imp id (inactive_stays hnext)
  · intro c r hc
    rcases hcalls c _ r hc with rfl | ⟨rfl, hactive⟩
    · refine .inl ⟨rfl, ?_⟩
      rw [ho.sentOnce.sent]
      rcases hc with hc | hc <;> rw [hc] <;> trivial
    · exact .inr ⟨rfl, inactive_stays hnext hactive⟩

/-- What beginning a call does. -/
theorem invoke_calls {m : Method} (h : invoke s c m = some t) :
    (s.busy m ∧ t.calls c = .done m (.error (match m with
        | .submit => mutablyBorrowedErr
        | .shutdown _ _ => borrowedErr))) ∨
      ¬ s.busy m ∧ t.calls = Function.update s.calls c (.run m .active) := by
  unfold invoke at h
  split at h
  · cases h
  · split at h
    · split at h
      · rename_i hbusy
        cases h
        exact .inl ⟨hbusy, calls_setCall_self _ _ _⟩
      · rename_i hfree
        cases h
        exact .inr ⟨hfree, rfl⟩
    · split at h
      · rename_i hbusy
        cases h
        exact .inl ⟨hbusy, calls_setCall_self _ _ _⟩
      · rename_i hfree
        cases h
        exact .inr ⟨hfree, rfl⟩

/-- A `shutdown` answers only when the pool is inactive. -/
theorem shutdown_rightly (hq : Quiet s) (h : NeverSpurious s) {wait cancel : Bool} {pc : Pc}
    (hc : s.calls c = .run (.shutdown wait cancel) pc) (hstep : ShutdownStep s c wait cancel pc t)
    {m : Method} {r : PyResult Unit} (hd : (t.calls d).Answers m r) : Rightly s r m := by
  have hold : (s.calls d).Answers m r → Rightly s r m := h.rightly
  by_cases hdc : d = c
  · subst hdc
    cases hstep with
    | off | cancelFlag | dropSender =>
        rw [calls_setCall_self] at hd
        rcases hd with hd | hd <;> cases hd
    | already hactive =>
        rw [calls_setCall_self] at hd
        rcases hd with hd | hd <;> cases hd
        exact ⟨rfl, hactive⟩
    | joined =>
        rw [calls_setCall_self] at hd
        rcases hd with hd | hd <;> cases hd
        exact ⟨rfl, hq.shutdown d wait cancel (.inr ⟨_, by simp, hc⟩)⟩
    | ret =>
        rw [calls_setCall_self] at hd
        rcases hd with hd | hd <;> cases hd
        exact hold (.inr hc)
  · cases hstep <;> rw [calls_setCall_ne _ _ hdc] at hd <;> exact hold hd

omit [DecidableEq C] in
/-- A `submit` is refused by the flag or the sender, unless all receivers are gone. -/
theorem submit_rightly (hq : Quiet s) (h : NeverSpurious s) {pc : Pc} {k : Call}
    (hlive : pc = .send → ¬ s.allExited) (hc : s.calls c = .run .submit pc) (hgo : SubmitGo s pc k)
    {m : Method} {r : PyResult Unit} (hk : k.Answers m r) : Rightly s r m := by
  cases hgo with
  | active | sender => rcases hk with hk | hk <;> cases hk
  | inactive hactive =>
      rcases hk with hk | hk <;> cases hk
      exact .inr ⟨rfl, hactive⟩
  | noSender hsender =>
      rcases hk with hk | hk <;> cases hk
      exact .inr ⟨rfl, hq.sender hsender⟩
  | noReceiver hall => exact (hlive rfl hall).elim
  | sent =>
      rcases hk with hk | hk <;> cases hk
      exact .inl rfl
  | ret =>
      rcases hk with hk | hk <;> cases hk
      exact h.rightly (.inr hc)

/-- A step that begins no call answers rightly if no `submit` sends in vain. -/
theorem neverSpurious_aside (hq : Quiet s) (ho : Orderly t) (h : NeverSpurious s)
    (hnext : next s a = some t) (hinvoke : ∀ c m, a ≠ .invoke c m)
    (hlive : ∀ c, a = .step c → s.calls c = .run .submit .send → ¬ s.allExited) :
    NeverSpurious t := by
  refine neverSpurious_of_rightly ho hnext fun d m r hd => ?_
  cases next_flags hnext with
  | drop ha hstep =>
      rw [dropStep_calls hstep] at hd
      exact h.rightly hd
  | shutdown ha hc hstep => exact shutdown_rightly hq h hc hstep hd
  | aside hother hactive hworkers hsender hdrop hcalls =>
      cases hcalls d _ rfl with
      | same hs => exact h.rightly (hs ▸ hd)
      | refused ha => exact (hinvoke _ _ ha).elim
      | begun ha => exact (hinvoke _ _ ha).elim
      | submit ha hs hgo =>
          exact submit_rightly hq h (fun hpc => hlive d ha (hpc ▸ hs)) hs hgo hd

/-- A step keeps the pool from failing spuriously if and only if no call begins during another that
is in its way, and no `submit` sends to workers that have all exited. -/
theorem neverSpurious_next (hl : Lent s) (hb : Borrowed s) (hq : Quiet s) (ho : Orderly t)
    (h : NeverSpurious s) (hnext : next s a = some t) : Unhindered s a ↔ NeverSpurious t := by
  cases a with
  | invoke c m =>
      rcases invoke_calls hnext with ⟨hbusy, hc⟩ | ⟨hfree, hcalls⟩
      · refine ⟨fun hgood => ((busy_iff hl hb).mp hbusy hgood).elim, fun ht => ?_⟩
        cases m with
        | submit =>
            rcases ht.submit c _ (.inl hc) with ⟨herr, -⟩ | ⟨herr, -⟩
            · cases herr
            · simp [mutablyBorrowedErr, shutdownErr] at herr
        | shutdown wait cancel => cases (ht.shutdown c wait cancel _ (.inl hc)).1
      · refine ⟨fun _ => neverSpurious_of_rightly ho hnext fun d m' r hd => ?_, fun _ => ?_⟩
        · rw [hcalls] at hd
          by_cases hdc : d = c
          · subst hdc
            rw [Function.update_self] at hd
            rcases hd with hd | hd <;> cases hd
          · rw [Function.update_of_ne hdc] at hd
            exact h.rightly hd
        · by_contra hgood
          exact hfree ((busy_iff hl hb).mpr hgood)
  | step c =>
      refine ⟨fun hlive => neverSpurious_aside hq ho h hnext (by simp) fun d hd => ?_,
        fun ht hc hall => ?_⟩
      · cases hd
        exact hlive
      · simp only [next, hc, submitStep, if_pos hall] at hnext
        cases hnext
        rcases ht.submit c _ (.inr (calls_setCall_self _ _ _)) with ⟨herr, -⟩ | ⟨herr, -⟩
        · cases herr
        · simp [submitErr, shutdownErr] at herr
  | _ =>
      exact ⟨fun _ => neverSpurious_aside hq ho h hnext (by simp) (by simp), fun _ => trivial⟩

/-- For any number of `submit` and `shutdown` calls from any threads, in any interleaving with the
workers: none fails but for a pool that was shut down, if and only if no `submit` begins during a
`shutdown`, no `shutdown` during another call, and no `submit` comes to send its task when no worker
is left. -/
theorem neverSpurious_iff (as : List (Act n C E V)) (s : State n C E V)
    (hrun : Run next State.init as s) :
    (∀ u, Visits next State.init as u → NeverSpurious u) ↔
      RunWith next Unhindered State.init as s := by
  have hinit : NeverSpurious (State.init : State n C E V) := by
    constructor
    · rintro _ _ _ _ (h | h) <;> cases h
    · rintro _ _ (h | h) <;> cases h
  have hiff := always_iff_runWith (P := Unhindered) hinit
    (fun as s a t hr hs _ hnext => neverSpurious_next (lent_run hr) (Orderly.run hr).borrowed
      (quiet_run hr) (Orderly.run (.snoc hr.run trivial hnext)) hs hnext) hrun
  exact hiff.trans ⟨fun h => h.mono fun _ _ h => h.2, fun h => h.mono fun _ _ h => ⟨trivial, h⟩⟩

/-- A task submits another one while `shutdown` waits for it. -/
def overlapTrace : List (Act 1 ℕ Unit ℕ) :=
  [.invoke 0 .submit, .step 0, .step 0, .step 0, .step 0, .work only, .work only,
   .invoke 1 (.shutdown true false), .invoke 2 .submit, .invoke 3 (.shutdown true false)]

theorem overlapTrace_exec :
    (exec next (fun _ _ => True) State.init overlapTrace).map (fun s => decide
      (s.calls 2 = .done .submit (.error mutablyBorrowedErr) ∧
        s.calls 3 = .done (.shutdown true false) (.error borrowedErr))) = some true := by
  decide +kernel

theorem neverSpurious_iff_overlapTrace :
    ∃ s : State 1 ℕ Unit ℕ, Run next State.init overlapTrace s ∧
      ((∀ u, Visits next State.init overlapTrace u → NeverSpurious u) ↔
        RunWith next Unhindered State.init overlapTrace s) := by
  obtain ⟨s, hrun, -⟩ := exists_runWith_of_exec overlapTrace_exec
  exact ⟨s, hrun, neverSpurious_iff overlapTrace s hrun⟩

/-- Calls that overlap a `shutdown` raise. -/
theorem not_always_neverSpurious :
    ¬ ∀ (n : ℕ) (C E V : Type) [DecidableEq C] [DecidableEq E] [DecidableEq V], 0 < n →
      ∀ (as : List (Act n C E V)) (s : State n C E V), Run next State.init as s →
        NeverSpurious s := by
  intro h
  obtain ⟨s, hrun, hs⟩ := exists_runWith_of_exec overlapTrace_exec
  obtain ⟨-, hshutdown⟩ := of_decide_eq_true hs
  cases ((h 1 ℕ Unit ℕ (by decide) _ s hrun).shutdown 3 true false _ (.inl hshutdown)).1

end Pysync.Pool
