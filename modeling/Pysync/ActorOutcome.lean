import Pysync.ActorStop
import Pysync.ActorSurvival

/-!
What the worker of an actor does with the messages it accepts, when no client cancels: one thread
runs the method bodies one at a time in the order of the mailbox, and every message that asks for a
future gets its own outcome, once.
-/

namespace Pysync.Actor
open Queue Channel Transition

variable {C E V : Type} {s t s' : State C E V} {a : Act C E V} {c d : C}
variable {m : Method C} {arm : Arm} {pc : Pc} {k : Call C} {msg : Msg C}
variable {capacity : Option ℕ} {as : List (Act C E V)} {P : State C E V → Act C E V → Prop}

/-- The body of `c` has returned and the future, if there is one, has the result; or it has raised
and the future has `None` or the exception, as `on_error` answers. -/
def State.Reported (s : State C E V) (c : C) (future : Bool) : Prop :=
  (∃ v, s.reports c = [.returned v] ∧ (future = true → s.future c = .result v)) ∨
  ∃ e answer, s.reports c = [.raised (.user e) answer] ∧
    (future = true →
      s.future c = if answer = some true then .result none else .exception (.user e))

/-- What has been reported on the message that the worker is executing. -/
def Worker.Reporting (w : Worker C E V) (reports : C → List (Report E V)) : Prop :=
  match w with
  | .body c _ _ => reports c = []
  | .onError c _ _ e => reports c = [] ∧ ∃ e', e = .user e'
  | .complete c _ v => reports c = [.returned v]
  | .completeErr c _ o =>
      ∃ e answer, reports c = [.raised (.user e) answer] ∧ o = handled (.user e) answer
  | _ => True

structure Outcomes (s : State C E V) : Prop where
  fresh : ∀ c, ¬ s.Ran c → s.reports c = []
  running : s.worker.Reporting s.reports
  settled : ∀ c b, Msg.call c b ∈ s.executed → ¬ s.worker.Runs c → s.Reported c b

theorem State.Reported.congr {b : Bool} (h : s.Reported c b) (hreports : t.reports c = s.reports c)
    (hfuture : t.future c = s.future c) : t.Reported c b := by
  unfold State.Reported
  rwa [hreports, hfuture]

/-- The worker executes at most one message. -/
theorem Worker.Runs.unique {w : Worker C E V} (hc : w.Runs c) (hd : w.Runs d) : c = d := by
  obtain ⟨b, hb⟩ := hc
  obtain ⟨b', hb'⟩ := hd
  cases hb.symm.trans hb'
  rfl

/-- A call is executed with a future or without, not both. -/
theorem SentOnce.future_unique (hs : SentOnce s) (hl : Ledger s) {b b' : Bool}
    (hb : Msg.call c b ∈ s.executed) (hb' : Msg.call c b' ∈ s.executed) : b = b' := by
  obtain ⟨pre, post, hsplit⟩ := List.append_of_mem hb
  have hacc := hl.accepted
  rw [hsplit, List.append_assoc, List.append_assoc] at hacc
  obtain ⟨hpre, hpost⟩ := hs.split hacc b'
  rw [hsplit] at hb'
  rcases List.mem_append.mp hb' with hmem | hmem
  · exact (hpre hmem).elim
  · rcases List.mem_cons.mp hmem with heq | hmem
    · cases heq
      rfl
    · exact (hpost (List.mem_append_left _ hmem)).elim

theorem Outcomes.aside (h : Outcomes s) (hreports : t.reports = s.reports)
    (hexec : t.executed = s.executed) (hworker : t.worker = s.worker)
    (hfuture : ∀ c, s.Ran c → t.future c = s.future c) : Outcomes t := by
  refine ⟨fun c hc => ?_, ?_, fun c b hmem hruns => ?_⟩
  · rw [hreports]
    exact h.fresh c (mt (State.ran_congr hexec).mpr hc)
  · rw [hworker, hreports]
    exact h.running
  · rw [hexec] at hmem
    exact (h.settled c b hmem (hworker ▸ hruns)).congr (by rw [hreports])
      (hfuture c ⟨b, hmem⟩)

/-- The worker goes on without a message, or with the one it was executing. -/
theorem Outcomes.goto (h : Outcomes s) (hreports : t.reports = s.reports)
    (hexec : t.executed = s.executed) (hfuture : t.future = s.future)
    (hrunning : t.worker.Reporting s.reports)
    (hruns : ∀ c, s.worker.Runs c → t.worker.Runs c) : Outcomes t := by
  refine ⟨fun c hc => ?_, hreports ▸ hrunning, fun c b hmem hnot => ?_⟩
  · rw [hreports]
    exact h.fresh c (mt (State.ran_congr hexec).mpr hc)
  · rw [hexec] at hmem
    exact (h.settled c b hmem (mt (hruns c) hnot)).congr (by rw [hreports]) (by rw [hfuture])

/-- The worker is done with `c`. -/
theorem Outcomes.settle [DecidableEq C] (h : Outcomes s) (hruns : s.worker.Runs c) (hran : s.Ran c)
    (hexec : t.executed = s.executed) (hrunning : t.worker.Reporting t.reports)
    (hreports : ∀ d, d ≠ c → t.reports d = s.reports d)
    (hfuture : ∀ d, d ≠ c → t.future d = s.future d)
    (hc : ∀ b, Msg.call c b ∈ s.executed → t.Reported c b) : Outcomes t := by
  refine ⟨fun d hd => ?_, hrunning, fun d b hmem _ => ?_⟩
  · have hdc : d ≠ c := by
      rintro rfl
      exact hd ((State.ran_congr hexec).mpr hran)
    rw [hreports d hdc]
    exact h.fresh d (mt (State.ran_congr hexec).mpr hd)
  · rw [hexec] at hmem
    by_cases hdc : d = c
    · subst hdc
      exact hc b hmem
    · exact (h.settled d b hmem fun hd => hdc (hd.unique hruns)).congr (hreports d hdc)
        (hfuture d hdc)

theorem Takes.reporting {w w' : Worker C E V} (h : Takes w msg w')
    (reports : C → List (Report E V)) : w'.Reporting reports := by
  cases h <;> trivial

variable [DecidableEq C]

theorem handled_outcome {e : E} {answer : Option Bool} {f : ActorFuture E V}
    (hf : Future.complete (handled (.user e) answer) (.pending : ActorFuture E V) = some f) :
    f = if answer = some true then .result none else .exception (.user e) := by
  unfold handled at hf
  split at hf
  · rename_i htrue
    cases hf
    rw [if_pos htrue]
  · rename_i hfalse
    cases hf
    rw [if_neg hfalse]

theorem Outcomes.work (h : Outcomes s) (hs : SentOnce s) (hl : Ledger s)
    (hpending : ∀ c, s.worker.Runs c → s.future c = .pending) (hstep : WorkStep s t) :
    Outcomes t := by
  -- a worker that executes nothing goes on to execute nothing
  have hidle : (∀ c, ¬ s.worker.Runs c) → t.reports = s.reports → t.executed = s.executed →
      t.future = s.future → t.worker.Reporting s.reports → Outcomes t :=
    fun hnot hreports hexec hfuture hrunning =>
      h.goto hreports hexec hfuture hrunning fun c hc => (hnot c hc).elim
  cases hstep with
  | take htakes =>
      rename_i w hpop
      refine hidle (fun c => ?_) rfl rfl rfl ?_
      · rcases htakes.takes with ⟨pc, hw⟩ | ⟨batch, hw⟩ <;> rw [hw] <;>
          exact not_runs_of_current rfl
      · exact htakes.reporting s.reports
  | execute hworker =>
      rename_i c b rest
      have hnotRan := (hl.not_ran hs hworker).1
      refine ⟨fun d hd => h.fresh d fun ⟨b', hb'⟩ => hd ⟨b', List.mem_append_left _ hb'⟩,
        h.fresh c hnotRan, fun d b' hmem hnot => ?_⟩
      rcases List.mem_append.mp hmem with hold | hnew
      · have hidle' : ¬ s.worker.Runs d := by
          rw [hworker]
          exact not_runs_of_current rfl
        exact (h.settled d b' hold hidle').congr rfl rfl
      · obtain ⟨rfl, rfl⟩ : d = c ∧ b' = b := by simpa using hnew
        exact (hnot ⟨b', rfl⟩).elim
  | completed hworker hf =>
      rename_i c rest v f
      have hruns : s.worker.Runs c := ⟨true, by rw [hworker]; rfl⟩
      have hreport : s.reports c = [.returned v] := by
        have := h.running
        rwa [hworker] at this
      rw [hpending c hruns] at hf
      cases hf
      refine h.settle hruns (hl.ran_of_runs hruns) rfl trivial (fun _ _ => rfl)
        (fun d hd => Function.update_of_ne hd _ _) fun b _ => .inl ⟨v, hreport, fun _ => ?_⟩
      exact Function.update_self _ _ _
  | completedErr hworker hf =>
      rename_i c rest o f
      have hruns : s.worker.Runs c := ⟨true, by rw [hworker]; rfl⟩
      obtain ⟨e, answer, hreport, rfl⟩ : ∃ e answer,
          s.reports c = [.raised (.user e) answer] ∧ o = handled (.user e) answer := by
        have := h.running
        rwa [hworker] at this
      rw [hpending c hruns] at hf
      obtain rfl := handled_outcome hf
      refine h.settle hruns (hl.ran_of_runs hruns) rfl trivial (fun _ _ => rfl)
        (fun d hd => Function.update_of_ne hd _ _)
        fun b _ => .inr ⟨e, answer, hreport, fun _ => ?_⟩
      exact Function.update_self _ _ _
  | uncompleted hworker hf =>
      rename_i c rest v
      rw [hpending c ⟨true, by rw [hworker]; rfl⟩] at hf
      cases hf
  | escaped hworker hf =>
      rename_i c rest o
      rw [hpending c ⟨true, by rw [hworker]; rfl⟩] at hf
      cases hf
  | _ hworker =>
      refine hidle (fun c => ?_) rfl rfl rfl trivial
      rw [hworker]
      exact not_runs_of_current rfl

/-- The body of `c` has ended and `r` says how. -/
theorem Outcomes.reported (h : Outcomes s) (hs : SentOnce s) (hl : Ledger s) {future : Bool}
    {r : Report E V} (hcurrent : s.worker.current = some (.call c future))
    (hexec : t.executed = s.executed) (hfuture : t.future = s.future)
    (hreports : t.reports = Function.update s.reports c [r])
    (hr : (∃ v, r = .returned v) ∨ ∃ e answer, r = .raised (.user e) answer)
    (hruns : future = true → t.worker.Runs c) (hrunning : t.worker.Reporting t.reports) :
    Outcomes t := by
  have hother : ∀ d, d ≠ c → t.reports d = s.reports d := fun d hd => by
    rw [hreports, Function.update_of_ne hd]
  have hbefore : s.worker.Runs c := ⟨future, hcurrent⟩
  refine ⟨fun d hd => ?_, hrunning, fun d b hmem hnot => ?_⟩
  · have hdc : d ≠ c := by
      rintro rfl
      exact hd ((State.ran_congr hexec).mpr (hl.ran_of_runs hbefore))
    exact (hother d hdc).trans (h.fresh d (mt (State.ran_congr hexec).mpr hd))
  · rw [hexec] at hmem
    by_cases hdc : d = c
    · subst hdc
      obtain ⟨pre, hpre⟩ := hl.current _ hcurrent
      obtain rfl : b = future := hs.future_unique hl hmem (by simp [hpre])
      have hself : t.reports d = [r] := by rw [hreports, Function.update_self]
      rcases hr with ⟨v, rfl⟩ | ⟨e, answer, rfl⟩
      · exact .inl ⟨v, hself, fun hb => (hnot (hruns hb)).elim⟩
      · exact .inr ⟨e, answer, hself, fun hb => (hnot (hruns hb)).elim⟩
    · exact (h.settled d b hmem fun hd => hdc (hd.unique hbefore)).congr (hother d hdc)
        (by rw [hfuture])

theorem Outcomes.user (h : Outcomes s) (hs : SentOnce s) (hl : Ledger s) (hstep : UserStep s t) :
    Outcomes t := by
  have hrunning := h.running
  cases hstep with
  | onStart hworker =>
      exact h.goto rfl rfl rfl trivial fun c hc => by
        rw [hworker] at hc
        exact (not_runs_of_current rfl hc).elim
  | ready hworker =>
      refine h.goto rfl rfl rfl trivial fun c hc => ?_
      rcases hworker with hw | hw <;> rw [hw] at hc <;> exact (not_runs_of_current rfl hc).elim
  | onStop hworker =>
      exact h.goto rfl rfl rfl trivial fun c hc => by
        rw [hworker] at hc
        exact (not_runs_of_current rfl hc).elim
  | raised hworker =>
      rename_i c future rest e
      rw [hworker] at hrunning
      refine h.goto rfl rfl rfl ⟨hrunning, e, rfl⟩ fun d hd => ?_
      rw [hworker] at hd
      exact hd
  | returned hworker =>
      rename_i c future rest v
      rw [hworker] at hrunning
      have hreports : s.reports c = [] := hrunning
      refine h.reported (r := .returned v) hs hl (by rw [hworker]; rfl) rfl rfl
        (by simp [State.report, State.setWorker, hreports]) (.inl ⟨v, rfl⟩) ?_ ?_
      · rintro rfl
        exact ⟨true, rfl⟩
      · cases future with
        | false => trivial
        | true => simp [State.report, State.setWorker, Worker.Reporting, hreports]
  | answered hworker =>
      rename_i c future rest e answer
      rw [hworker] at hrunning
      obtain ⟨hreports, e, rfl⟩ := hrunning
      refine h.reported (r := .raised (.user e) answer) hs hl (by rw [hworker]; rfl) rfl rfl
        (by simp [State.report, State.setWorker, hreports]) (.inr ⟨e, answer, rfl⟩) ?_ ?_
      · rintro rfl
        exact ⟨true, rfl⟩
      · cases future with
        | false => trivial
        | true => exact ⟨e, answer, by simp [State.report, State.setWorker, hreports], rfl⟩

theorem CallStep.reports (h : CallStep s c m arm pc s' k) : s'.reports = s.reports := by
  cases h <;> rfl

theorem Outcomes.next (h : Outcomes s) (hs : SentOnce s) (hl : Ledger s)
    (hpending : ∀ c, s.worker.Runs c → s.future c = .pending) (ha : NoCancel a)
    (hn : next s a = some t) : Outcomes t := by
  cases next_cases hn with
  | invoke => exact h.aside rfl rfl rfl fun _ _ => rfl
  | call hcall hstep =>
      rename_i c m pc arm s' k
      have hfuture : ∀ d, s.Ran d → s'.future d = s.future d := by
        intro d hran
        rcases hstep.future with hsame | ⟨msg, f, rfl, -, -, hsame⟩
        · rw [hsame]
        · rw [hsame, Function.update_of_ne]
          rintro rfl
          refine hs.not_accepted (fun msg hsent => ?_) (hl.accepted_of_ran hran)
          rw [hcall] at hsent
          exact hsent
      rcases hstep.worker with hworker | ⟨-, habsent, hstart⟩
      · exact h.aside hstep.reports hstep.executed hworker hfuture
      · refine ⟨fun d hd => ?_, ?_, fun d b hmem _ => ?_⟩
        · rw [show (s'.setCall c k).reports = s.reports from hstep.reports]
          exact h.fresh d (mt (State.ran_congr hstep.executed).mpr hd)
        · rw [show (s'.setCall c k).worker = .onStart from hstart]
          trivial
        · rw [show (s'.setCall c k).executed = s.executed from hstep.executed] at hmem
          refine (h.settled d b hmem ?_).congr (congrFun hstep.reports d) (hfuture d ⟨b, hmem⟩)
          rw [habsent]
          exact not_runs_of_current rfl
  | work hstep => exact h.work hs hl hpending hstep
  | user hact hstep => exact h.user hs hl hstep
  | handoff hcall hmsg hoffer htakes =>
      refine h.goto rfl rfl rfl (htakes.reporting _) fun c hc => ?_
      rcases htakes.takes with ⟨pc, hw⟩ | ⟨batch, hw⟩ <;> rw [hw] at hc <;>
        exact (not_runs_of_current rfl hc).elim
  | cancel => exact ha.elim

theorem pending_of_runs
    (h : RunWith next (fun _ a => NoCancel a) (State.init capacity) as s)
    (hruns : s.worker.Runs c) : s.future c = .pending :=
  (future_of_runs h hruns).resolve_right (not_cancelled_run h c)

theorem outcomes_run (h : RunWith next (fun _ a => NoCancel a) (State.init capacity) as s) :
    Outcomes s := by
  induction h with
  | nil => exact ⟨fun _ _ => rfl, trivial, fun _ _ h => (by cases h)⟩
  | snoc hr ha hn ih =>
      exact ih.next (sentOnce_run hr) (ledger_run hr) (fun _ => pending_of_runs hr) ha hn

/-- The step makes a thread for the actor. -/
def CreatesThread (s : State C E V) (a : Act C E V) : Prop :=
  ∃ c m, a = .step c .go ∧ s.calls c = .run m .ensure ∧ s.thread = false

/-- The step starts the thread, or tries to. -/
def StartsThread (s : State C E V) (a : Act C E V) : Prop :=
  ∃ c m arm, a = .step c arm ∧ s.calls c = .run m .start

/-- The step sets the result or the exception of the future of `c`, or tries to. -/
def Completes (c : C) (s : State C E V) : Act C E V → Prop
  | .work _ => (∃ rest v, s.worker = .complete c rest v) ∨ ∃ rest o, s.worker = .completeErr c rest o
  | .step d _ => d = c ∧ ∃ m msg, s.calls c = .run m (.setException msg)
  | _ => False

theorem createsThread_once (h : RunWith next P (State.init capacity) as s) :
    AtMostOnce next CreatesThread (State.init capacity) as := by
  refine h.atMostOnce (Q := fun s => s.thread = true) ?_
    (fun as s a t _ _ hn hs => thread_next hn hs) fun as s a _ hs hA => ?_
  · rintro as s a t - - hn ⟨c, m, rfl, hcall, hthread⟩
    simp only [next, hcall, stepCall, hthread] at hn
    cases hn
    rfl
  · obtain ⟨c, m, -, -, hthread⟩ := hA
    rw [hs] at hthread
    cases hthread

omit [DecidableEq C] in
theorem Takes.started {w w' : Worker C E V} (h : Takes w msg w') : w'.started = true := by
  cases h <;> rfl

theorem started_next (hn : next s a = some t) (hs : s.worker.started = true) :
    t.worker.started = true := by
  cases next_cases hn with
  | call hcall hstep =>
      rcases hstep.worker with hworker | ⟨-, -, hstart⟩
      · show Worker.started _ = true
        rwa [State.worker_setCall, hworker]
      · show Worker.started _ = true
        rw [State.worker_setCall, hstart]
        rfl
  | work hstep =>
      cases hstep with
      | take htakes => exact htakes.started
      | _ => rfl
  | user ha hstep =>
      cases hstep with
      | returned =>
          rename_i future _ _ _
          cases future <;> rfl
      | answered =>
          rename_i future _ _ _ _
          cases future <;> rfl
      | _ => rfl
  | handoff hcall hmsg hoffer htakes => exact htakes.started
  | _ => exact hs

/-- A call that is about to start the thread is the only one, and the thread is not started. -/
def OneStarter (s : State C E V) : Prop :=
  ∀ c m, s.calls c = .run m .start →
    s.worker = .absent ∧ ∀ d m', s.calls d = .run m' .start → d = c

theorem CallStep.publishes (h : CallStep s c m arm pc s' (.run m' .start)) :
    s.thread = false ∧ s'.worker = s.worker := by
  generalize hk : Call.run m' .start = k at h
  cases h with
  | published hthread => exact ⟨hthread, rfl⟩
  | ensured | started => rcases afterEnsure_eq m with ⟨-, hm⟩ | hm <;> rw [hm] at hk <;> cases hk
  | unsent =>
      rcases afterSend_eq m (.error closedErr) with ⟨-, hm⟩ | ⟨-, _, hm⟩ | hm <;> rw [hm] at hk <;>
        cases hk
  | sent =>
      rename_i r
      rcases afterSend_eq m r with ⟨-, hm⟩ | ⟨-, _, hm⟩ | hm <;> rw [hm] at hk <;> cases hk
  | _ => cases hk

omit [DecidableEq C] in
theorem afterEnsure_ne_start (m m' : Method C) : afterEnsure m ≠ .run m' .start := by
  cases m <;> simp [afterEnsure]

theorem OneStarter.next (h : OneStarter s) (hu : Unstarted s) (hn : next s a = some t) :
    OneStarter t := by
  intro c m hc
  cases calls_next hn hc with
  | same hcall =>
      obtain ⟨habsent, hone⟩ := h c m hcall
      refine ⟨?_, fun d m' hd => ?_⟩
      · rcases absent_next hn habsent with ht | ⟨d, m', arm, -, hd, hgone⟩
        · exact ht
        · obtain rfl := hone d m' hd
          exact (afterEnsure_ne_start m' m (hgone.symm.trans hc)).elim
      · cases calls_next hn hd with
        | same hcall' => exact hone d m' hcall'
        | begun hact hfirst => cases m' <;> cases hfirst
        | stepped hact hcall' hstep ht =>
            have hthread := hu.start c m hcall
            rw [hstep.publishes.1] at hthread
            cases hthread
        | met hsend => cases hsend
  | begun hact hfirst => cases m <;> cases hfirst
  | stepped hact hcall hstep ht =>
      obtain ⟨hthread, hworker⟩ := hstep.publishes
      refine ⟨?_, fun d m' hd => ?_⟩
      · rw [ht]
        exact hworker.trans (hu.worker hthread)
      · cases calls_next hn hd with
        | same hcall' =>
            rw [hu.start d m' hcall'] at hthread
            cases hthread
        | begun hact' hfirst => cases m' <;> cases hfirst
        | stepped hact' hcall' hstep' ht' =>
            cases hact.symm.trans hact'
            rfl
        | met hsend => cases hsend
  | met hsend => cases hsend

theorem oneStarter_run (h : RunWith next P (State.init capacity) as s) : OneStarter s :=
  h.invariant_run (fun _ _ h => (by cases h))
    fun _ _ _ _ hr hs _ hn => hs.next (unstarted_run hr) hn

theorem startsThread_once (h : RunWith next P (State.init capacity) as s) :
    AtMostOnce next StartsThread (State.init capacity) as := by
  refine h.atMostOnce (Q := fun s => s.worker.started = true) ?_
    (fun as s a t _ _ hn hs => started_next hn hs) ?_
  · rintro as s a t hr - hn ⟨c, m, arm, rfl, hcall⟩
    obtain ⟨habsent, -⟩ := oneStarter_run hr c m hcall
    cases arm <;> simp only [next, hcall, stepCall, habsent, Worker.started] at hn <;> cases hn
    rfl
  · rintro as s a hr hs ⟨c, m, arm, rfl, hcall⟩
    rw [(oneStarter_run hr c m hcall).1] at hs
    cases hs

theorem Completes.pending (hr : RunWith next (fun _ a => NoCancel a) (State.init capacity) as s)
    (hA : Completes c s a) : s.future c = .pending := by
  cases a with
  | work arm =>
      rcases hA with ⟨rest, v, hworker⟩ | ⟨rest, o, hworker⟩ <;>
        exact pending_of_runs hr ⟨true, by rw [hworker]; rfl⟩
  | step d arm =>
      obtain ⟨rfl, m, msg, hcall⟩ := hA
      refine (untouched_run hr).unsent d ((sentOnce_run hr).not_accepted fun msg hsent => ?_) ?_
      · rw [hcall] at hsent
        exact hsent
      · rw [hcall]
        rfl
  | _ => exact hA.elim

theorem complete_pending (o : Except (Exc E) (Option V)) :
    ∃ f, (Future.pending : ActorFuture E V).complete o = some f ∧ f.done = true := by
  cases o <;> exact ⟨_, rfl, rfl⟩

theorem Completes.done (hpending : s.future c = .pending) (hn : next s a = some t)
    (hA : Completes c s a) : (t.future c).done = true := by
  have hset : ∀ {f : ActorFuture E V}, f.done = true →
      (Function.update s.future c f c).done = true := fun hf => by rwa [Function.update_self]
  cases a with
  | work arm =>
      rcases hA with ⟨rest, v, hworker⟩ | ⟨rest, o, hworker⟩
      · obtain ⟨f, hf, hdone⟩ := complete_pending (E := E) (.ok v)
        rw [← hpending] at hf
        cases arm <;> simp only [next, workStep, hworker, hf] at hn <;> cases hn
        exact hset hdone
      · obtain ⟨f, hf, hdone⟩ := complete_pending o
        rw [← hpending] at hf
        cases arm <;> simp only [next, workStep, hworker, hf] at hn <;> cases hn
        exact hset hdone
  | step d arm =>
      obtain ⟨rfl, m, msg, hcall⟩ := hA
      obtain ⟨f, hf, hdone⟩ := complete_pending (V := V) (.error (.py (unsentErr msg)) :
        Except (Exc E) (Option V))
      rw [← hpending] at hf
      cases arm <;> simp only [next, hcall, stepCall, hf] at hn <;> cases hn
      exact hset hdone
  | _ => exact hA.elim

theorem completes_once (h : RunWith next (fun _ a => NoCancel a) (State.init capacity) as s)
    (c : C) : AtMostOnce next (Completes c) (State.init capacity) as := by
  refine h.atMostOnce (Q := fun s => (s.future c).done = true)
    (fun as s a t hr _ hn hA => hA.done (hA.pending hr) hn)
    (fun as s a t _ _ hn hs => done_next hn hs) fun as s a hr hs hA => ?_
  rw [hA.pending hr] at hs
  cases hs

theorem sent_grows {u : State C E V} {bs : List (Act C E V)} (h : RunWith next P u bs s) :
    u.sent <+: s.sent := by
  induction h with
  | nil => exact List.prefix_rfl
  | snoc _ _ hn ih =>
      rcases sent_next hn with hsent | ⟨_, _, _, _, _, _, hsent, _⟩
      · rwa [hsent]
      · rw [hsent]
        exact ih.trans (List.prefix_append _ _)

/-- A call that has returned stays as it is. -/
theorem done_stays {r : PyResult Unit} (hn : next s a = some t) (h : s.calls c = .done m r) :
    t.calls c = .done m r := by
  generalize hk : t.calls c = k
  cases calls_next hn hk with
  | same hcall => exact hcall.symm.trans h
  | begun hact =>
      subst hact
      rw [next, h] at hn
      cases hn
  | stepped hact hcall hstep ht =>
      rw [h] at hcall
      cases hcall
  | met hsend hcall =>
      rw [h] at hcall
      cases hcall

/-- A call that has returned sends nothing any more. -/
theorem sent_of_returned {u : State C E V} {bs : List (Act C E V)} (h : RunWith next P u bs s)
    {b : Bool} (hret : (u.calls c).returned = true) (hmem : Msg.call c b ∈ s.sent) :
    Msg.call c b ∈ u.sent := by
  obtain ⟨m, r, hdone⟩ : ∃ m r, u.calls c = .done m r := by
    cases hc : u.calls c with
    | done m r => exact ⟨m, r, rfl⟩
    | _ =>
        rw [hc] at hret
        cases hret
  have hstays : ∀ {bs : List (Act C E V)} {x : State C E V}, RunWith next P u bs x →
      x.calls c = .done m r := by
    intro bs x hx
    induction hx with
    | nil => exact hdone
    | snoc _ _ hn ih => exact done_stays hn ih
  induction h with
  | nil => exact hmem
  | snoc hr _ hn ih =>
      rcases sent_next hn with hsent | ⟨d, m', pc, msg, hcall, hmsg, hsent, _⟩
      · exact ih (hsent ▸ hmem)
      · rw [hsent] at hmem
        rcases List.mem_append.mp hmem with hold | hnew
        · exact ih hold
        · obtain rfl := List.mem_singleton.mp hnew
          obtain rfl := Method.msg_call hmsg
          rw [hstays hr] at hcall
          cases hcall

omit [DecidableEq C] in
theorem executed_nodup (hs : SentOnce s) (hl : Ledger s) : s.executed.Nodup := by
  have hpair : (s.mailbox.fifo.accepted.map Prod.snd).Pairwise fun x y => x = y → x = .stop := by
    refine List.pairwise_map.mpr ((List.pairwise_map.mp hs.once).imp_of_mem ?_)
    rintro ⟨d, msg⟩ ⟨d', msg'⟩ hmem hmem' hne heq
    dsimp only at hne heq ⊢
    subst heq
    cases msg with
    | stop => rfl
    | call c b => exact (hne ((hs.own hmem).trans (hs.own hmem').symm)).elim
  rw [hl.accepted, List.append_assoc] at hpair
  refine (List.pairwise_append.mp hpair).1.imp_of_mem fun hmem _ hstop heq => ?_
  exact hl.executed (hstop heq ▸ hmem)

/-- What holds of a run of an actor: one worker thread; method bodies one at a time, each message
once, in the order of the mailbox and of every client; and every message that is finished has
completed its future once, with its own outcome. -/
structure SerialExecution (capacity : Option ℕ) (as : List (Act C E V)) (s : State C E V) :
    Prop where
  created : AtMostOnce next CreatesThread (State.init capacity) as
  started : AtMostOnce next StartsThread (State.init capacity) as
  alone : ∀ msg, s.worker.current = some msg → s.executed.getLast? = some msg
  nodup : s.executed.Nodup
  order : s.executed <+: s.sent
  calls : ∀ u, Visits next (State.init capacity) as u → ∀ c d b b',
    (u.calls c).returned = true → u.calls d = .idle → Msg.call c b ∈ s.sent →
      Msg.call d b' ∈ s.executed → [Msg.call c b, Msg.call d b'].Sublist s.executed
  outcome : ∀ c b, Msg.call c b ∈ s.executed → s.worker.current ≠ some (.call c b) →
    s.Reported c b
  once : ∀ c, AtMostOnce next (Completes c) (State.init capacity) as

omit [DecidableEq C] in
theorem Ledger.executed_le_sent (h : Ledger s) : s.executed <+: s.sent := by
  rw [State.sent, h.accepted, List.append_assoc]
  exact List.prefix_append _ _

theorem calls_in_order {u : State C E V} {bs : List (Act C E V)} {b b' : Bool} (hsu : SentOnce u)
    (hl : Ledger s) (h : RunWith next P u bs s) (hret : (u.calls c).returned = true)
    (hidle : u.calls d = .idle) (hc : Msg.call c b ∈ s.sent) (hd : Msg.call d b' ∈ s.executed) :
    [Msg.call c b, Msg.call d b'].Sublist s.executed := by
  have hcu := sent_of_returned h hret hc
  have hdu : Msg.call d b' ∉ u.sent := fun hmem =>
    hsu.not_accepted (fun msg hsent => by rw [hidle] at hsent; exact hsent) ⟨b', hmem⟩
  have hbefore : u.sent <+: s.executed := by
    rcases List.prefix_or_prefix_of_prefix (sent_grows h) hl.executed_le_sent with hle | hle
    · exact hle
    · exact (hdu (hle.subset hd)).elim
  obtain ⟨rest, hrest⟩ := hbefore
  rw [← hrest] at hd ⊢
  have hmem : Msg.call d b' ∈ rest := (List.mem_append.mp hd).resolve_left hdu
  exact (List.singleton_sublist.mpr hcu).append (List.singleton_sublist.mpr hmem)

/-- Under any clients that do not cancel, and any outcomes of the method bodies and of the hooks. -/
theorem serialExecution (capacity : Option ℕ) (as : List (Act C E V)) (s : State C E V)
    (hrun : RunWith next (fun _ a => NoCancel a) (State.init capacity) as s) :
    SerialExecution capacity as s := by
  have hs := sentOnce_run hrun
  have hl := ledger_run hrun
  have ho := outcomes_run hrun
  refine ⟨createsThread_once hrun, startsThread_once hrun, fun msg hmsg => ?_,
    executed_nodup hs hl, hl.executed_le_sent, fun u hu c d b b' hret hidle hc hd => ?_,
    fun c b hmem hne => ho.settled c b hmem ?_, completes_once hrun⟩
  · obtain ⟨pre, hpre⟩ := hl.current msg hmsg
    rw [hpre, List.getLast?_append]
    rfl
  · obtain ⟨pre, post, -, hpre, hpost⟩ := hrun.visits_split hu
    exact calls_in_order (sentOnce_run hpre) hl hpost hret hidle hc hd
  · rintro ⟨b', hb'⟩
    obtain ⟨pre, hpre⟩ := hl.current _ hb'
    obtain rfl : b = b' := hs.future_unique hl hmem (by simp [hpre])
    exact hne hb'

/-- Two calls are taken in one batch; the body of the first raises. -/
def serialTrace : List (Act ℕ Unit ℕ) :=
  [.invoke 0 .call false, .step 0 .go, .step 0 .go, .step 0 .go, .step 0 .go, .step 0 .go,
   .step 0 .go, .invoke 1 .call false, .step 1 .go, .step 1 .go, .step 1 .go, .step 1 .go,
   .step 1 .go, .onStart false, .work .go, .work .go, .work .go, .work .go, .body (.error ()),
   .onError (some false), .work .go, .work .go, .body (.ok (some 7)), .work .go]

theorem serialTrace_exec :
    (exec next (fun _ a => NoCancel a) (State.init none) serialTrace).map (fun s => decide
      (s.executed = [.call 0 true, .call 1 true] ∧ s.future 0 = .exception (.user ()) ∧
        s.future 1 = .result (some 7))) = some true := by
  decide +kernel

theorem serialExecution_serialTrace :
    ∃ s, RunWith next (fun _ a => NoCancel a) (State.init none) serialTrace s ∧
      s.executed = [.call 0 true, .call 1 true] ∧ SerialExecution none serialTrace s := by
  obtain ⟨s, hrun, hs⟩ := exists_runWith_of_exec serialTrace_exec
  exact ⟨s, hrun, (of_decide_eq_true hs).1, serialExecution none serialTrace s hrun⟩

end Pysync.Actor
