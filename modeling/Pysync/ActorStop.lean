import Pysync.ActorCalls

/-!
When `stop` is effective: it raises nothing, and after it has returned no worker thread is alive or
comes to life, unless it runs into a call that is between its look at `_stopped` and the start of the
thread.
-/

namespace Pysync.Actor
open Queue Channel Transition

variable {C E V : Type} [DecidableEq C] {s t s' : State C E V} {a : Act C E V} {c d : C}
variable {m m' : Method C} {arm : Arm} {pc pc' : Pc} {k : Call C} {msg : Msg C}
variable {capacity : Option ℕ} {as : List (Act C E V)} {P : State C E V → Act C E V → Prop}

/-- `stop` is called without a timeout and not on the worker thread. -/
def StopsOutside : Act C E V → Prop
  | .invoke _ (.stop timeout) onWorker => timeout = none ∧ onWorker = false
  | _ => True

instance : DecidablePred (StopsOutside : Act C E V → Prop) := fun a => by
  unfold StopsOutside
  split <;> infer_instance

/-- A `stop` finds no thread while a call is about to make one, or joins a thread that has not been
started yet. -/
def StopsEarly (s : State C E V) : Act C E V → Prop
  | .step c _ =>
      (∃ timeout, s.calls c = .run (.stop timeout) .readThread) ∧ s.thread = false ∧
        (∃ d m, s.calls d = .run m .ensure) ∨
      (∃ timeout, s.calls c = .run (.stop timeout) .join) ∧ s.worker = .absent
  | _ => False

/-- No `stop` has raised, and if one has returned, no worker thread is alive, none comes to life, and
no method body is executed any more. -/
structure StopsSafely (s : State C E V) : Prop where
  ok : ∀ c timeout r, s.calls c = .done (.stop timeout) r → r = .ok ()
  still : ∀ c timeout r, s.calls c = .done (.stop timeout) r → ∀ bs t, Run next s bs t →
    t.worker.alive = false ∧ t.worker = s.worker ∧ t.executed = s.executed

/-- The worker has exited, or there is none and nobody is on the way to start one. -/
def Inert (s : State C E V) : Prop :=
  (∃ why, s.worker = .exited why) ∨
  s.worker = .absent ∧ s.thread = false ∧ s.stopped = true ∧
    ∀ c m, s.calls c ≠ .run m .ensure ∧ s.calls c ≠ .run m .start

theorem CallStep.stopped (h : CallStep s c m arm pc s' k) (hs : s.stopped = true) :
    s'.stopped = true := by
  cases h with
  | setStopped => rfl
  | _ => exact hs

theorem WorkStep.flags (h : WorkStep s t) : t.stopped = s.stopped ∧ t.thread = s.thread := by
  cases h <;> exact ⟨rfl, rfl⟩

theorem UserStep.flags (h : UserStep s t) : t.stopped = s.stopped ∧ t.thread = s.thread := by
  cases h <;> exact ⟨rfl, rfl⟩

/-- The thread is set by a call in `_ensure_thread_started`, which then starts it. -/
theorem CallStep.thread (h : CallStep s c m arm pc s' k) :
    s'.thread = s.thread ∨ pc = .ensure ∧ s'.thread = true := by
  cases h with
  | published => exact .inr ⟨rfl, rfl⟩
  | _ => exact .inl rfl

theorem stopped_next (hn : next s a = some t) (hs : s.stopped = true) : t.stopped = true := by
  cases next_cases hn with
  | call hcall hstep => exact hstep.stopped hs
  | work hstep => rwa [hstep.flags.1]
  | user ha hstep => rwa [hstep.flags.1]
  | _ => exact hs

/-- A call comes to start the thread by setting it, and to set it by a look at `_stopped`. -/
theorem CallStep.to_start (h : CallStep s c m arm pc s' (.run m' pc')) :
    (pc' = .ensure → pc = .check ∧ s.stopped = false) ∧
      (pc' = .start → pc = .ensure ∧ s'.thread = true) := by
  generalize hk : Call.run m' pc' = k at h
  cases h with
  | checked hstopped =>
      cases hk
      exact ⟨fun _ => ⟨rfl, hstopped⟩, fun h => (by cases h)⟩
  | published =>
      cases hk
      exact ⟨fun h => (by cases h), fun _ => ⟨rfl, rfl⟩⟩
  | ensured | started =>
      rcases afterEnsure_eq m with ⟨-, hm⟩ | hm <;> rw [hm] at hk <;> cases hk
      simp
  | unsent =>
      rcases afterSend_eq m (.error closedErr) with ⟨-, hm⟩ | ⟨-, _, hm⟩ | hm <;> rw [hm] at hk <;>
        cases hk <;> simp
  | sent =>
      rename_i r
      rcases afterSend_eq m r with ⟨-, hm⟩ | ⟨-, _, hm⟩ | hm <;> rw [hm] at hk <;> cases hk <;> simp
  | _ => cases hk <;> simp

/-- Before `_thread` is set there is no worker and nobody about to start one. -/
structure Unstarted (s : State C E V) : Prop where
  worker : s.thread = false → s.worker = .absent
  start : ∀ c m, s.calls c = .run m .start → s.thread = true

theorem thread_next (hn : next s a = some t) (hs : s.thread = true) : t.thread = true := by
  cases next_cases hn with
  | call hcall hstep => exact hstep.thread.elim (fun h => h.trans hs) And.right
  | work hstep => rwa [hstep.flags.2]
  | user ha hstep => rwa [hstep.flags.2]
  | _ => exact hs

/-- Only a call that starts the thread brings a worker to life. -/
theorem absent_next (hn : next s a = some t) (habsent : s.worker = .absent) :
    t.worker = .absent ∨ ∃ c m arm, a = .step c arm ∧ s.calls c = .run m .start ∧
      t.calls c = afterEnsure m := by
  cases next_cases hn with
  | call hcall hstep =>
      rename_i c m pc arm s' k
      cases hstep with
      | started => exact .inr ⟨c, m, arm, rfl, hcall, State.calls_setCall_self _ _ _⟩
      | _ => exact .inl habsent
  | work hstep =>
      cases hstep with
      | take htakes =>
          rw [habsent] at htakes
          cases htakes
      | _ hworker =>
          rw [habsent] at hworker
          cases hworker
  | user ha hstep =>
      cases hstep with
      | ready hworker => rcases hworker with hw | hw <;> rw [habsent] at hw <;> cases hw
      | _ hworker =>
          rw [habsent] at hworker
          cases hworker
  | handoff hcall hmsg hoffer htakes =>
      rw [habsent] at htakes
      cases htakes
  | _ => exact .inl habsent

theorem Unstarted.next (h : Unstarted s) (hn : next s a = some t) : Unstarted t := by
  constructor
  · intro hthread
    have hbefore : s.thread = false := by
      by_contra hset
      rw [thread_next hn (by simpa using hset)] at hthread
      cases hthread
    rcases absent_next hn (h.worker hbefore) with habsent | ⟨c, m, arm, -, hcall, -⟩
    · exact habsent
    · rw [h.start _ _ hcall] at hbefore
      cases hbefore
  · intro c m hc
    cases calls_next hn hc with
    | same hcall => exact thread_next hn (h.start c m hcall)
    | begun hact hfirst => cases m <;> cases hfirst
    | stepped hact hcall hstep ht =>
        rw [ht]
        exact (hstep.to_start.2 rfl).2
    | met hsend => cases hsend

theorem unstarted_run (h : RunWith next P (State.init capacity) as s) : Unstarted s :=
  h.invariant ⟨fun _ => rfl, fun _ _ h => (by cases h)⟩ fun _ _ _ hs _ hn => hs.next hn

/-- A worker that is not alive does nothing. -/
theorem work_alive (h : WorkStep s t) : s.worker.alive = true := by
  cases h with
  | take htakes => cases hw : s.worker <;> rw [hw] at htakes <;> cases htakes <;> rfl
  | _ hworker => rw [hworker]; rfl

theorem user_alive (h : UserStep s t) : s.worker.alive = true := by
  cases h with
  | ready hworker => rcases hworker with hw | hw <;> rw [hw] <;> rfl
  | _ hworker => rw [hworker]; rfl

omit [DecidableEq C] in
theorem Inert.alive (h : Inert s) : s.worker.alive = false := by
  rcases h with ⟨why, hw⟩ | ⟨hw, -⟩ <;> rw [hw] <;> rfl

/-- What is inert stays as it is. -/
theorem Inert.next (h : Inert s) (hn : next s a = some t) :
    Inert t ∧ t.worker = s.worker ∧ t.executed = s.executed := by
  have halive := h.alive
  have hsame : t.worker = s.worker ∧ t.executed = s.executed := by
    cases next_cases hn with
    | call hcall hstep =>
        refine ⟨?_, hstep.executed⟩
        rcases hstep.worker with hworker | ⟨rfl, habsent, -⟩
        · exact hworker
        · rcases h with ⟨why, hw⟩ | ⟨-, -, -, hnobody⟩
          · rw [habsent] at hw
            cases hw
          · exact ((hnobody _ _).2 hcall).elim
    | work hstep =>
        rw [work_alive hstep] at halive
        cases halive
    | user ha hstep =>
        rw [user_alive hstep] at halive
        cases halive
    | handoff hcall hmsg hoffer htakes =>
        cases hw : s.worker <;> rw [hw] at htakes halive <;> cases htakes <;> cases halive
    | _ => exact ⟨rfl, rfl⟩
  refine ⟨?_, hsame⟩
  rcases h with ⟨why, hw⟩ | ⟨hw, hthread, hstopped, hnobody⟩
  · exact .inl ⟨why, hsame.1.trans hw⟩
  · refine .inr ⟨hsame.1.trans hw, ?_, stopped_next hn hstopped, fun c m => ⟨fun hc => ?_,
      fun hc => ?_⟩⟩
    · cases next_cases hn with
      | call hcall hstep =>
          rcases hstep.thread with hsame' | ⟨rfl, -⟩
          · exact hsame'.trans hthread
          · exact ((hnobody _ _).1 hcall).elim
      | work hstep => rwa [hstep.flags.2]
      | user ha hstep => rwa [hstep.flags.2]
      | _ => exact hthread
    · cases calls_next hn hc with
      | same hcall => exact (hnobody c m).1 hcall
      | begun hact hfirst => cases m <;> cases hfirst
      | stepped hact hcall hstep ht =>
          rw [(hstep.to_start.1 rfl).2] at hstopped
          cases hstopped
      | met hsend => cases hsend
    · cases calls_next hn hc with
      | same hcall => exact (hnobody c m).2 hcall
      | begun hact hfirst => cases m <;> cases hfirst
      | stepped hact hcall hstep ht =>
          obtain ⟨rfl, -⟩ := hstep.to_start.2 rfl
          exact (hnobody c _).1 hcall
      | met hsend => cases hsend

theorem inert_run (h : Inert s) (hrun : RunWith next P s as t) :
    Inert t ∧ t.worker = s.worker ∧ t.executed = s.executed := by
  induction hrun with
  | nil => exact ⟨h, rfl, rfl⟩
  | snoc _ _ hn ih =>
      obtain ⟨hinert, hworker, hexec⟩ := ih.1.next hn
      exact ⟨hinert, hworker.trans ih.2.1, hexec.trans ih.2.2⟩

theorem CallStep.nested (h : CallStep s c m arm pc s' k) : s'.nested = s.nested := by
  cases h <;> rfl

/-- A call goes on or returns. -/
theorem CallStep.goes (h : CallStep s c m arm pc s' k) :
    (∃ pc', k = .run m pc') ∨ ∃ r, k = .done m r := by
  cases h with
  | ensured | started => rcases afterEnsure_eq m with ⟨-, hm⟩ | hm <;> simp [hm]
  | unsent =>
      rcases afterSend_eq m (.error closedErr) with ⟨-, hm⟩ | ⟨-, _, hm⟩ | hm <;> simp [hm]
  | sent =>
      rename_i r
      rcases afterSend_eq m r with ⟨-, hm⟩ | ⟨-, _, hm⟩ | hm <;> simp [hm]
  | _ => simp

theorem CallStep.to_readThread (h : CallStep s c m arm pc s' (.run m' .readThread)) :
    s'.stopped = true := by
  generalize hk : Call.run m' .readThread = k at h
  cases h with
  | setStopped => rfl
  | ensured | started => rcases afterEnsure_eq m with ⟨-, hm⟩ | hm <;> rw [hm] at hk <;> cases hk
  | unsent =>
      rcases afterSend_eq m (.error closedErr) with ⟨-, hm⟩ | ⟨-, _, hm⟩ | hm <;> rw [hm] at hk <;>
        cases hk
  | sent =>
      rename_i r
      rcases afterSend_eq m r with ⟨-, hm⟩ | ⟨-, _, hm⟩ | hm <;> rw [hm] at hk <;> cases hk
  | _ => cases hk

/-- `stop` comes to close the mailbox from its join. -/
theorem CallStep.to_close (h : CallStep s c m arm pc s' (.run m' pc'))
    (hpc' : pc' = .close ∨ pc' = .closeTx) :
    pc = .close ∨ pc = .join ∧ (s.nested = some c ∨ (∃ why, s.worker = .exited why) ∨
      m.timeout.isSome = true) := by
  generalize hk : Call.run m' pc' = k at h
  cases h with
  | joined hjoin => exact .inr ⟨rfl, hjoin⟩
  | dropSender => exact .inl rfl
  | ensured | started =>
      rcases afterEnsure_eq m with ⟨-, hm⟩ | hm <;> rw [hm] at hk <;> cases hk
      simp at hpc'
  | unsent =>
      rcases afterSend_eq m (.error closedErr) with ⟨-, hm⟩ | ⟨-, _, hm⟩ | hm <;> rw [hm] at hk <;>
        cases hk <;> simp at hpc'
  | sent =>
      rename_i r
      rcases afterSend_eq m r with ⟨-, hm⟩ | ⟨-, _, hm⟩ | hm <;> rw [hm] at hk <;> cases hk <;>
        simp at hpc'
  | _ => cases hk <;> simp at hpc'

/-- How `stop` returns. -/
theorem CallStep.stop_done {timeout : Option PyFloat} {r : PyResult Unit}
    (h : CallStep s c (.stop timeout) arm pc s' (.done m r)) (hfits : Fits (.stop timeout : Method C) pc) :
    pc = .readThread ∧ s.thread = false ∧ r = .ok () ∨ pc = .join ∧ s.worker = .absent ∨
      pc = .closeTx ∧ r = .ok () ∨ ∃ e, pc = .send (.drop (.error e)) ∧ e ≠ closedErr := by
  generalize hk : Call.done m r = k at h
  cases h with
  | noThread hthread =>
      cases hk
      exact .inl ⟨rfl, hthread, rfl⟩
  | joinedEarly hnested hworker => exact .inr (.inl ⟨rfl, hworker⟩)
  | dropCloseTx =>
      cases hk
      exact .inr (.inr (.inl ⟨rfl, rfl⟩))
  | unsent => cases hk
  | sent =>
      rename_i r'
      cases r' with
      | ok u => cases hk
      | error e =>
          refine .inr (.inr (.inr ⟨e, rfl, ?_⟩))
          rintro rfl
          cases hk
  | refused | ensured | startedTwice | started | told | untold => cases hfits
  | _ => cases hk

/-- The standing facts about untimed `stop` calls made outside the worker thread. -/
structure StopsPlaced (s : State C E V) : Prop where
  untimed : ∀ c timeout pc, s.calls c = .run (.stop timeout) pc → timeout = none
  nested : ∀ c, s.nested = some c → ∃ m pc, s.calls c = .run m pc ∧ m.isStop = false
  stopped : ∀ c m, s.calls c = .run m .readThread → s.stopped = true
  dropped : ∀ c timeout e, s.calls c = .run (.stop timeout) (.send (.drop (.error e))) →
    e = closedErr

theorem StopsPlaced.nested_next (h : StopsPlaced s) (ha : StopsOutside a) (hn : next s a = some t)
    (hd : t.nested = some d) : ∃ m pc, t.calls d = .run m pc ∧ m.isStop = false := by
  cases next_cases hn with
  | invoke hcall hmay =>
      rename_i c m onWorker
      simp only [State.setCall, Call.returned, Bool.false_eq_true, false_and, if_false] at hd
      cases onWorker with
      | true =>
          cases hd
          refine ⟨m, m.first, State.calls_setCall_self _ _ _, ?_⟩
          cases m with
          | stop timeout => cases ha.2
          | _ => rfl
      | false =>
          obtain ⟨m', pc, hd', hm'⟩ := h.nested d hd
          have hdc : d ≠ c := by
            rintro rfl
            rw [hcall] at hd'
            cases hd'
          exact ⟨m', pc, (State.calls_setCall_ne _ _ hdc).trans hd', hm'⟩
  | call hcall hstep =>
      rename_i c m pc arm s' k
      rw [State.setCall, hstep.nested] at hd
      dsimp only at hd
      split at hd
      · cases hd
      · rename_i hnot
        obtain ⟨m', pc', hd', hm'⟩ := h.nested d hd
        by_cases hdc : d = c
        · subst hdc
          rw [hcall] at hd'
          cases hd'
          rcases hstep.goes with ⟨pc'', rfl⟩ | ⟨r, rfl⟩
          · exact ⟨m, pc'', State.calls_setCall_self _ _ _, hm'⟩
          · exact (hnot ⟨rfl, hd⟩).elim
        · refine ⟨m', pc', ?_, hm'⟩
          rw [State.calls_setCall_ne _ _ hdc, hstep.calls]
          exact hd'
  | work hstep =>
      rw [hstep.calls]
      exact h.nested d (by cases hstep <;> exact hd)
  | user hact hstep =>
      rw [hstep.calls]
      exact h.nested d (by cases hstep <;> exact hd)
  | handoff hcall hmsg hoffer htakes hcap hpass =>
      rename_i c arm arm' m pc msg f w
      simp only [State.setCall, Call.returned, Bool.false_eq_true, false_and, if_false] at hd
      obtain ⟨m', pc', hd', hm'⟩ := h.nested d hd
      by_cases hdc : d = c
      · subst hdc
        rw [hcall] at hd'
        cases hd'
        exact ⟨m, _, State.calls_setCall_self _ _ _, hm'⟩
      · exact ⟨m', pc', (State.calls_setCall_ne _ _ hdc).trans hd', hm'⟩
  | cancel => exact h.nested d hd

theorem StopsPlaced.next (h : StopsPlaced s) (ha : StopsOutside a) (hn : next s a = some t) :
    StopsPlaced t := by
  refine ⟨fun c timeout pc hc => ?_, fun c hc => h.nested_next ha hn hc, fun c m hc => ?_,
    fun c timeout e hc => ?_⟩
  · cases calls_next hn hc with
    | same hcall => exact h.untimed c timeout pc hcall
    | begun hact =>
        subst hact
        exact ha.1
    | stepped hact hcall hstep ht =>
        obtain ⟨rfl, -⟩ := hstep.method
        exact h.untimed c timeout _ hcall
    | met hsend hcall => exact h.untimed c timeout _ hcall
  · cases calls_next hn hc with
    | same hcall => exact stopped_next hn (h.stopped c m hcall)
    | begun hact hfirst => cases m <;> cases hfirst
    | stepped hact hcall hstep ht =>
        rw [ht]
        exact hstep.to_readThread
    | met hsend => cases hsend
  · cases calls_next hn hc with
    | same hcall => exact h.dropped c timeout e hcall
    | begun hact hfirst => cases hfirst
    | stepped hact hcall hstep ht =>
        obtain ⟨rfl, -⟩ := hstep.method
        rcases hstep.to_drop with ⟨_, _, _, he⟩ | ⟨e', he, ⟨hclosed, -⟩ | htimed⟩
        · cases he
        · cases he
          exact hclosed
        · rw [h.untimed c timeout _ hcall] at htimed
          cases htimed
    | met hsend => cases hsend

theorem stopsPlaced_run (h : RunWith next P (State.init capacity) as s)
    (hP : ∀ s a, P s a → StopsOutside a) : StopsPlaced s := by
  have hinit : StopsPlaced (State.init capacity : State C E V) :=
    ⟨fun _ _ _ h => (by cases h), fun _ h => (by cases h), fun _ _ h => (by cases h),
      fun _ _ _ h => (by cases h)⟩
  exact h.invariant hinit fun _ _ _ hs ha hn => hs.next (hP _ _ ha) hn

/-- A `stop` that is past its join has seen the worker exit, and one that has returned has returned
normally and leaves the actor inert. -/
structure Guarded (s : State C E V) : Prop where
  closing : ∀ c timeout pc, s.calls c = .run (.stop timeout) pc → pc = .close ∨ pc = .closeTx →
    ∃ why, s.worker = .exited why
  done : ∀ c timeout r, s.calls c = .done (.stop timeout) r → r = .ok () ∧ Inert s

theorem Guarded.next (h : Guarded s) (hp : Placed s) (hs : StopsPlaced s) (hu : Unstarted s)
    (hearly : ¬ StopsEarly s a) (hn : next s a = some t) : Guarded t := by
  have hexited : (∃ why, s.worker = .exited why) → ∃ why, t.worker = .exited why := by
    rintro ⟨why, hw⟩
    exact ⟨why, (Inert.next (.inl ⟨why, hw⟩) hn).2.1.trans hw⟩
  refine ⟨fun c timeout pc hc hpc => ?_, fun c timeout r hc => ?_⟩
  · cases calls_next hn hc with
    | same hcall => exact hexited (h.closing c timeout pc hcall hpc)
    | begun hact hfirst =>
        rw [hfirst] at hpc
        rcases hpc with hpc | hpc <;> cases hpc
    | stepped hact hcall hstep ht =>
        obtain ⟨rfl, -⟩ := hstep.method
        rcases hstep.to_close hpc with rfl | ⟨rfl, hnested | hworker | htimed⟩
        · exact hexited (h.closing c timeout _ hcall (.inl rfl))
        · obtain ⟨m', pc', hc', hm'⟩ := hs.nested c hnested
          rw [hcall] at hc'
          cases hc'
          cases hm'
        · exact hexited hworker
        · rw [hs.untimed c timeout _ hcall] at htimed
          cases htimed
    | met hsend =>
        rw [hsend] at hpc
        rcases hpc with hpc | hpc <;> cases hpc
  · cases calls_next hn hc with
    | same hcall =>
        obtain ⟨hok, hinert⟩ := h.done c timeout r hcall
        exact ⟨hok, (hinert.next hn).1⟩
    | stepped hact hcall hstep ht =>
        obtain ⟨hm, -⟩ := hstep.to_done
        subst hm hact
        rcases hstep.stop_done (hp c _ _ hcall) with ⟨rfl, hthread, hok⟩ | ⟨rfl, habsent⟩ |
          ⟨rfl, hok⟩ | ⟨e, rfl, he⟩
        · refine ⟨hok, (Inert.next (.inr ⟨hu.worker hthread, hthread, hs.stopped c _ hcall,
            fun d m => ⟨fun hd => ?_, fun hd => ?_⟩⟩) hn).1⟩
          · exact hearly (.inl ⟨⟨timeout, hcall⟩, hthread, d, m, hd⟩)
          · rw [hu.start d m hd] at hthread
            cases hthread
        · exact (hearly (.inr ⟨⟨timeout, hcall⟩, habsent⟩)).elim
        · exact ⟨hok, (Inert.next (.inl (h.closing c timeout _ hcall (.inr rfl))) hn).1⟩
        · exact (he (hs.dropped c timeout e hcall)).elim

theorem guarded_run
    (h : RunWith next (fun s a => StopsOutside a ∧ ¬ StopsEarly s a) (State.init capacity) as s) :
    Guarded s := by
  induction h with
  | nil => exact ⟨fun _ _ _ h => (by cases h), fun _ _ _ h => (by cases h)⟩
  | snoc hr ha hn ih =>
      exact ih.next (placed_run hr) (stopsPlaced_run hr fun _ _ h => h.1) (unstarted_run hr) ha.2 hn

theorem Guarded.stopsSafely (h : Guarded s) : StopsSafely s := by
  refine ⟨fun c timeout r hc => (h.done c timeout r hc).1, fun c timeout r hc bs t hbs => ?_⟩
  obtain ⟨hinert, hworker, hexec⟩ := inert_run (h.done c timeout r hc).2 hbs
  exact ⟨hinert.alive, hworker, hexec⟩

/-- A call that is about to make the thread can make it and start it. -/
theorem exists_start (hcall : s.calls d = .run m .ensure) (hthread : s.thread = false)
    (habsent : s.worker = .absent) : ∃ bs t, Run next s bs t ∧ t.worker = .onStart := by
  have hfirst : next s (.step d .go) =
      some (State.setCall { s with thread := true } d (.run m .start)) := by
    simp [Actor.next, hcall, stepCall, hthread]
  have hsecond : next (State.setCall { s with thread := true } d (.run m .start)) (.step d .go) =
      some ((State.setWorker (State.setCall { s with thread := true } d (.run m .start))
        .onStart).setCall d (afterEnsure m)) := by
    simp [Actor.next, stepCall, habsent, Worker.started]
  exact ⟨_, _, .snoc (.single trivial hfirst) trivial hsecond, rfl⟩

/-- A `stop` that comes too early returns while a thread is about to be started, or raises. -/
theorem not_safe_of_early (hu : Unstarted s) (hs : StopsPlaced s) (h : StopsEarly s a)
    (hn : next s a = some t) : ¬ StopsSafely t := by
  intro hsafe
  cases a with
  | step c arm =>
      rcases h with ⟨⟨timeout, hcall⟩, hthread, d, m, hd⟩ | ⟨⟨timeout, hcall⟩, habsent⟩
      · cases next_cases hn with
        | call hcall' hstep =>
            rw [hcall] at hcall'
            cases hcall'
            cases hstep with
            | hasThread hset =>
                rw [hthread] at hset
                cases hset
            | noThread =>
                have hdc : d ≠ c := by
                  rintro rfl
                  rw [hcall] at hd
                  cases hd
                obtain ⟨bs, t, hrun, ht⟩ := exists_start
                  (s := s.setCall c (.done (.stop timeout) (.ok ())))
                  ((State.calls_setCall_ne _ _ hdc).trans hd) hthread (hu.worker hthread)
                have halive := (hsafe.still c timeout _ (State.calls_setCall_self _ _ _) bs t hrun).1
                rw [ht] at halive
                cases halive
        | user ha => cases ha
      · cases next_cases hn with
        | call hcall' hstep =>
            rw [hcall] at hcall'
            cases hcall'
            cases hstep with
            | joined hjoin =>
                rcases hjoin with hnested | ⟨why, hw⟩ | htimed
                · obtain ⟨m', pc', hc', hm'⟩ := hs.nested c hnested
                  rw [hcall] at hc'
                  cases hc'
                  cases hm'
                · rw [habsent] at hw
                  cases hw
                · rw [hs.untimed c timeout _ hcall] at htimed
                  cases htimed
            | joinedEarly => cases hsafe.ok c timeout _ (State.calls_setCall_self _ _ _)
        | user ha => cases ha
  | _ => exact h

theorem stopsSafely_init (capacity : Option ℕ) :
    StopsSafely (State.init capacity : State C E V) :=
  ⟨fun _ _ _ h => (by cases h), fun _ _ _ h => (by cases h)⟩

/-- With any mailbox and under any clients whose `stop` calls are untimed and made outside the worker
thread: in every state of a run no `stop` has raised, and once one has returned no worker is alive, is
started, or executes a method body, if and only if no step of the run is a `stop` that comes too
early. -/
theorem stopsSafely_iff (capacity : Option ℕ) (as : List (Act C E V)) (s : State C E V)
    (hrun : RunWith next (fun _ a => StopsOutside a) (State.init capacity) as s) :
    (∀ u, Visits next (State.init capacity) as u → StopsSafely u) ↔
      RunWith next (fun s a => StopsOutside a ∧ ¬ StopsEarly s a) (State.init capacity) as s := by
  refine always_iff_runWith (stopsSafely_init capacity) (fun as s a t hr _ ha hn => ?_) hrun
  constructor
  · exact fun hearly => (guarded_run (.snoc hr ⟨ha, hearly⟩ hn)).stopsSafely
  · exact fun hsafe hearly => not_safe_of_early (unstarted_run hr)
      (stopsPlaced_run hr fun _ _ h => h.1) hearly hn hsafe

/-- A call is past its look at `_stopped` when `stop` finds no thread and returns; then the call starts
the worker. -/
def lateStartTrace : List (Act (Fin 2) Unit ℕ) :=
  [.invoke 0 .call false, .step 0 .go,
   .invoke 1 (.stop none) false, .step 1 .go, .step 1 .go, .step 0 .go, .step 0 .go]

/-- `stop` comes between the setting of `_thread` and its start. -/
def earlyJoinTrace : List (Act (Fin 2) Unit ℕ) :=
  [.invoke 0 .call false, .step 0 .go, .step 0 .go,
   .invoke 1 (.stop none) false, .step 1 .go, .step 1 .go, .step 1 .go, .step 1 .go, .step 1 .go,
   .step 1 .go]

theorem lateStartTrace_exec :
    (exec next (fun _ a => StopsOutside a) (State.init none) lateStartTrace).map (fun s => decide
      (s.calls 1 = .done (.stop none) (.ok ()) ∧ s.worker = .onStart)) = some true := by
  decide +kernel

theorem earlyJoinTrace_exec :
    (exec next (fun _ a => StopsOutside a) (State.init none) earlyJoinTrace).map (fun s => decide
      (s.calls 1 = .done (.stop none) (.error joinErr))) = some true := by
  decide +kernel

theorem stopsSafely_iff_lateStartTrace :
    ∃ s, RunWith next (fun _ a => StopsOutside a) (State.init none) lateStartTrace s ∧
      ¬ RunWith next (fun s a => StopsOutside a ∧ ¬ StopsEarly s a) (State.init none)
        lateStartTrace s := by
  obtain ⟨s, hrun, hs⟩ := exists_runWith_of_exec lateStartTrace_exec
  obtain ⟨hcall, hworker⟩ := of_decide_eq_true hs
  refine ⟨s, hrun, fun h => ?_⟩
  have hsafe := (stopsSafely_iff none lateStartTrace s hrun).mpr h s hrun.visits_self
  have halive := (hsafe.still 1 none _ hcall [] s .nil).1
  rw [hworker] at halive
  cases halive

/-- A `stop` can return and leave a worker alive behind it, and a `stop` can raise. -/
theorem not_always_stopsSafely :
    (¬ ∀ (C E V : Type) [DecidableEq C] (capacity : Option ℕ) (as : List (Act C E V))
      (s : State C E V), RunWith next (fun _ a => StopsOutside a) (State.init capacity) as s →
      ∀ c timeout r, s.calls c = .done (.stop timeout) r → s.worker.alive = false) ∧
    ¬ ∀ (C E V : Type) [DecidableEq C] (capacity : Option ℕ) (as : List (Act C E V))
      (s : State C E V), RunWith next (fun _ a => StopsOutside a) (State.init capacity) as s →
      ∀ c timeout r, s.calls c = .done (.stop timeout) r → r = .ok () := by
  constructor
  · intro h
    obtain ⟨s, hrun, hs⟩ := exists_runWith_of_exec lateStartTrace_exec
    obtain ⟨hcall, hworker⟩ := of_decide_eq_true hs
    have halive := h (Fin 2) Unit ℕ none _ s hrun _ _ _ hcall
    rw [hworker] at halive
    cases halive
  · intro h
    obtain ⟨s, hrun, hs⟩ := exists_runWith_of_exec earlyJoinTrace_exec
    cases h (Fin 2) Unit ℕ none _ s hrun _ _ _ (of_decide_eq_true hs)

end Pysync.Actor
