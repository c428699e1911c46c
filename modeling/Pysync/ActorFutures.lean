import Pysync.ActorLedger

/-!
The futures of an actor, in every run: nobody but its client touches a future before the worker is
done with the method body. When no client cancels, each body is reported on once and its future says
what the report says.
-/

namespace Pysync.Actor
open Queue Channel Transition

variable {C E V : Type} {s t s' : State C E V} {a : Act C E V} {c d : C}
variable {m : Method C} {arm : Arm} {pc : Pc} {k : Call C} {msg : Msg C}

/-- The mailbox has accepted the message of `c`. -/
def State.Accepted (s : State C E V) (c : C) : Prop :=
  ∃ b, Msg.call c b ∈ s.mailbox.fifo.accepted.map Prod.snd

/-- The method body of `c` has been started. -/
def State.Ran (s : State C E V) (c : C) : Prop := ∃ b, Msg.call c b ∈ s.executed

/-- The worker is executing the message of `c`. -/
def Worker.Runs (w : Worker C E V) (c : C) : Prop := ∃ b, w.current = some (.call c b)

theorem Method.msg_call {b : Bool} (h : m.msg c = some (.call d b)) : d = c := by
  cases m <;> cases h <;> rfl

theorem SentOnce.not_accepted (h : SentOnce s) (hnot : ∀ msg, ¬ (s.calls c).Sent c msg) :
    ¬ s.Accepted c := by
  rintro ⟨b, hmem⟩
  obtain ⟨⟨d, msg⟩, he, hmsg⟩ := List.mem_map.mp hmem
  dsimp only at hmsg
  subst hmsg
  obtain rfl := h.own he
  exact hnot _ (h.sent _ he)

theorem SentOnce.not_accepted_of_offer {pc : SendPc} (h : SentOnce s)
    (hcall : s.calls c = .run m (.send pc)) (hoffer : (pc.offer arm).isSome = true) :
    ¬ s.Accepted c := by
  refine h.not_accepted fun msg hs => ?_
  rw [hcall] at hs
  exact not_sent_of_offer hoffer hs

theorem Ledger.ran_of_runs (h : Ledger s) (hruns : s.worker.Runs c) : s.Ran c := by
  obtain ⟨b, hb⟩ := hruns
  obtain ⟨pre, hpre⟩ := h.current _ hb
  exact ⟨b, by simp [hpre]⟩

theorem Ledger.accepted_of_ran (h : Ledger s) (hran : s.Ran c) : s.Accepted c := by
  obtain ⟨b, hb⟩ := hran
  exact ⟨b, by rw [h.accepted]; simp [hb]⟩

theorem State.accepted_congr (hacc : t.mailbox.fifo.accepted = s.mailbox.fifo.accepted) :
    t.Accepted c ↔ s.Accepted c := by
  unfold State.Accepted
  rw [hacc]

theorem State.ran_congr (hexec : t.executed = s.executed) : t.Ran c ↔ s.Ran c := by
  unfold State.Ran
  rw [hexec]

/-- A message about to be executed has not been executed before. -/
theorem Ledger.not_ran (h : Ledger s) (hs : SentOnce s) {b : Bool} {rest : List (Msg C)}
    (hworker : s.worker = .items (.call c b :: rest)) : ¬ s.Ran c ∧ s.Accepted c := by
  have hacc := h.accepted
  have hsplit : s.mailbox.fifo.accepted.map Prod.snd =
      s.executed ++ .call c b :: (rest ++ s.mailbox.fifo.queue) := by
    rw [hacc, hworker]
    simp [Worker.holding]
  refine ⟨?_, b, by simp [hsplit]⟩
  rintro ⟨b', hb'⟩
  exact (hs.split hsplit b').1 hb'

/-- A future is pending, or cancelled by its client, until the worker has completed it. -/
structure Untouched (s : State C E V) : Prop where
  unsent : ∀ c, ¬ s.Accepted c → (s.calls c).returned = false → s.future c = .pending
  unsettled : ∀ c, s.Accepted c → (¬ s.Ran c ∨ s.worker.Runs c) →
    s.future c = .pending ∨ s.future c = .cancelled

theorem Untouched.aside (h : Untouched s) (hfuture : t.future = s.future)
    (hacc : t.mailbox.fifo.accepted = s.mailbox.fifo.accepted) (hexec : t.executed = s.executed)
    (hruns : ∀ c, t.worker.Runs c → s.worker.Runs c)
    (hcalls : ∀ c, (t.calls c).returned = false → (s.calls c).returned = false) :
    Untouched t := by
  constructor
  · intro c hnot hret
    rw [hfuture]
    exact h.unsent c (mt (State.accepted_congr hacc).mpr hnot) (hcalls c hret)
  · intro c hc hopen
    rw [hfuture]
    exact h.unsettled c ((State.accepted_congr hacc).mp hc)
      (hopen.imp (mt (State.ran_congr hexec).mpr) (hruns c))

/-- A message is accepted while its future is still pending. -/
theorem Untouched.accept [DecidableEq C] (h : Untouched s) (hcall : s.calls c = .run m pc)
    (hnot : ¬ s.Accepted c) (hmsg : m.msg c = some msg) (hfuture : t.future = s.future)
    (hacc : t.mailbox.fifo.accepted = s.mailbox.fifo.accepted ++ [(c, msg)])
    (hexec : t.executed = s.executed) (hruns : ∀ c, t.worker.Runs c → s.worker.Runs c)
    (hcalls : ∀ d, d ≠ c → t.calls d = s.calls d) : Untouched t := by
  have hsplit : ∀ d, t.Accepted d ↔ s.Accepted d ∨ ∃ b, msg = .call d b := by
    intro d
    unfold State.Accepted
    rw [hacc, ← exists_or]
    simp [eq_comm]
  constructor
  · intro d hd hret
    rw [hfuture]
    refine h.unsent d (fun hold => hd ((hsplit d).mpr (.inl hold))) ?_
    by_cases hdc : d = c
    · rw [hdc, hcall]
      rfl
    · rwa [← hcalls d hdc]
  · intro d hd hopen
    rw [hfuture]
    rcases (hsplit d).mp hd with hold | ⟨b, rfl⟩
    · exact h.unsettled d hold (hopen.imp (mt (State.ran_congr hexec).mpr) (hruns d))
    · obtain rfl := Method.msg_call hmsg
      refine .inl (h.unsent d hnot ?_)
      rw [hcall]
      rfl

/-- The worker completes the future of the message that it has executed. -/
theorem Untouched.settle [DecidableEq C] (h : Untouched s) {f : ActorFuture E V}
    (hran : s.Ran c) (hfuture : t.future = Function.update s.future c f)
    (hacc : t.mailbox.fifo.accepted = s.mailbox.fifo.accepted) (hexec : t.executed = s.executed)
    (hcurrent : t.worker.current = none) (haccepted : s.Accepted c) (hcalls : t.calls = s.calls) :
    Untouched t := by
  constructor
  · intro d hd hret
    have hdc : d ≠ c := by
      rintro rfl
      exact hd ((State.accepted_congr hacc).mpr haccepted)
    rw [hfuture, Function.update_of_ne hdc]
    exact h.unsent d (mt (State.accepted_congr hacc).mpr hd) (by rwa [← hcalls])
  · intro d hd hopen
    have hnot : ¬ s.Ran d := by
      rcases hopen with hnot | ⟨b, hb⟩
      · exact mt (State.ran_congr hexec).mpr hnot
      · rw [hcurrent] at hb
        cases hb
    have hdc : d ≠ c := by
      rintro rfl
      exact hnot hran
    rw [hfuture, Function.update_of_ne hdc]
    exact h.unsettled d ((State.accepted_congr hacc).mp hd) (.inl hnot)

theorem not_runs_of_current {w : Worker C E V} (h : w.current = none) : ¬ w.Runs c := by
  rintro ⟨b, hb⟩
  rw [h] at hb
  cases hb

theorem runs_of_current {w w' : Worker C E V} (h : w'.current = none ∨ w'.current = w.current)
    (c : C) (hruns : w'.Runs c) : w.Runs c := by
  rcases h with h | h
  · exact (not_runs_of_current h hruns).elim
  · unfold Worker.Runs at hruns
    rwa [h] at hruns

variable [DecidableEq C]

theorem CallStep.runs (h : CallStep s c m arm pc s' k) (d : C) (hruns : s'.worker.Runs d) :
    s.worker.Runs d := by
  rcases h.worker with hworker | ⟨-, -, hstart⟩
  · rwa [hworker] at hruns
  · rw [hstart] at hruns
    exact (not_runs_of_current rfl hruns).elim

/-- A call touches its own future only, when it could not send its message. -/
theorem CallStep.future (h : CallStep s c m arm pc s' k) :
    s'.future = s.future ∨ ∃ msg f, pc = .setException msg ∧ k = .done m (.ok ()) ∧
      (s.future c).complete (.error (.py (unsentErr msg))) = some f ∧
      s'.future = Function.update s.future c f := by
  cases h with
  | told hf => exact .inr ⟨_, _, rfl, rfl, hf, rfl⟩
  | _ => exact .inl rfl

theorem Untouched.call (h : Untouched s) (hs : SentOnce s) (hcall : s.calls c = .run m pc)
    (hstep : CallStep s c m arm pc s' k) : Untouched (s'.setCall c k) := by
  have hother : ∀ d, d ≠ c → (s'.setCall c k).calls d = s.calls d := by
    intro d hd
    rw [State.calls_setCall_ne _ _ hd, hstep.calls]
  rcases hstep.mailbox with hfifo | ⟨pc₀, msg, rfl, hmsg, hoffer, hpush, rfl⟩
  · have hacc := congrArg Fifo.accepted hfifo
    have hret : ∀ d, ((s'.setCall c k).calls d).returned = false →
        (s.calls d).returned = false := by
      intro d hd
      by_cases hdc : d = c
      · rw [hdc, hcall]
        rfl
      · rwa [← hother d hdc]
    rcases hstep.future with hfuture | ⟨msg, f, rfl, rfl, -, hfuture⟩
    · exact h.aside hfuture hacc hstep.executed hstep.runs hret
    · have hnot : ¬ s.Accepted c := by
        refine hs.not_accepted fun msg hsent => ?_
        rw [hcall] at hsent
        exact hsent
      constructor
      · intro d hd hret'
        have hdc : d ≠ c := by
          rintro rfl
          rw [State.calls_setCall_self] at hret'
          cases hret'
        show s'.future d = _
        rw [hfuture, Function.update_of_ne hdc]
        exact h.unsent d (mt (State.accepted_congr hacc).mpr hd) (hret d hret')
      · intro d hd hopen
        have hold := (State.accepted_congr hacc).mp hd
        have hdc : d ≠ c := by
          rintro rfl
          exact hnot hold
        show s'.future d = _ ∨ s'.future d = _
        rw [hfuture, Function.update_of_ne hdc]
        exact h.unsettled d hold
          (hopen.imp (mt (State.ran_congr hstep.executed).mpr) (hstep.runs d))
  · have hfuture : s'.future = s.future := by
      rcases hstep.future with hfuture | ⟨_, _, hpc, -⟩
      · exact hfuture
      · cases hpc
    exact h.accept hcall (hs.not_accepted_of_offer hcall hoffer) hmsg hfuture
      (Fifo.push_eq_some.mp hpush).2.2.2.1 hstep.executed hstep.runs hother

theorem Untouched.work (h : Untouched s) (hs : SentOnce s) (hl : Ledger s)
    (hstep : WorkStep s t) : Untouched t := by
  have hacc := hstep.accepted
  have hcalls := hstep.calls
  have hret : ∀ c, (t.calls c).returned = false → (s.calls c).returned = false := fun c =>
    hcalls ▸ id
  cases hstep with
  | take htakes =>
      exact h.aside rfl hacc rfl (runs_of_current (.inl htakes.current)) hret
  | execute hworker =>
      rename_i c b rest
      obtain ⟨hnotRan, haccepted⟩ := hl.not_ran hs hworker
      refine ⟨h.unsent, fun d hd hopen => ?_⟩
      by_cases hdc : d = c
      · subst hdc
        exact h.unsettled d hd (.inl hnotRan)
      · refine h.unsettled d hd (.inl fun hran => ?_)
        rcases hopen with hnot | ⟨b', hb'⟩
        · obtain ⟨b', hb'⟩ := hran
          exact hnot ⟨b', List.mem_append_left _ hb'⟩
        · cases hb'
          exact hdc rfl
  | completed hworker =>
      have hran := hl.ran_of_runs ⟨true, by rw [hworker]; rfl⟩
      exact h.settle hran rfl rfl rfl rfl (hl.accepted_of_ran hran) rfl
  | completedErr hworker =>
      have hran := hl.ran_of_runs ⟨true, by rw [hworker]; rfl⟩
      exact h.settle hran rfl rfl rfl rfl (hl.accepted_of_ran hran) rfl
  | uncompleted hworker =>
      exact h.aside rfl rfl rfl (runs_of_current (.inr (by rw [hworker]; rfl))) hret
  | _ => exact h.aside rfl rfl rfl (runs_of_current (.inl rfl)) hret

theorem Untouched.user (h : Untouched s) (hstep : UserStep s t) : Untouched t := by
  have hruns : t.worker.current = none ∨ t.worker.current = s.worker.current := by
    cases hstep with
    | returned hworker =>
        rename_i future _ _
        cases future with
        | false => exact .inl rfl
        | true => exact .inr (by rw [hworker]; rfl)
    | raised hworker => exact .inr (by rw [hworker]; rfl)
    | answered hworker =>
        rename_i future _ _ _
        cases future with
        | false => exact .inl rfl
        | true => exact .inr (by rw [hworker]; rfl)
    | _ => exact .inl rfl
  have hfuture : t.future = s.future := by cases hstep <;> rfl
  exact h.aside hfuture (by rw [hstep.mailbox]) hstep.executed (runs_of_current hruns)
    fun c => hstep.calls ▸ id

theorem done_update {f : ActorFuture E V} (hf : f.done = true) (h : (s.future c).done = true) :
    (Function.update s.future d f c).done = true := by
  by_cases hcd : c = d
  · subst hcd
    rwa [Function.update_self]
  · rwa [Function.update_of_ne hcd]

/-- A future that is done stays done. -/
theorem done_next (hn : next s a = some t) (h : (s.future c).done = true) :
    (t.future c).done = true := by
  cases next_cases hn with
  | call hcall hstep =>
      rename_i d m pc arm s' k
      show (s'.future c).done = true
      rcases hstep.future with hfuture | ⟨_, f, _, _, hf, hfuture⟩
      · rwa [hfuture]
      · rw [hfuture]
        exact done_update (Future.complete_done hf) h
  | work hstep =>
      cases hstep with
      | completed hworker hf => exact done_update (Future.complete_done hf) h
      | completedErr hworker hf => exact done_update (Future.complete_done hf) h
      | _ => exact h
  | user hact hstep => cases hstep <;> exact h
  | cancel hcall => exact done_update (Future.cancel_done _) h
  | _ => exact h

theorem cancel_open {f : ActorFuture E V} (h : f = .pending ∨ f = .cancelled) :
    f.cancel.1 = .cancelled := by
  rcases h with rfl | rfl <;> rfl

theorem Untouched.next (h : Untouched s) (hs : SentOnce s) (hl : Ledger s)
    (hn : next s a = some t) : Untouched t := by
  cases next_cases hn with
  | invoke hcall hmay =>
      rename_i c m onWorker
      refine h.aside rfl rfl rfl (fun _ => id) fun d hd => ?_
      by_cases hdc : d = c
      · rw [hdc, hcall]
        rfl
      · rwa [State.calls_setCall_ne _ _ hdc] at hd
  | call hcall hstep => exact h.call hs hcall hstep
  | work hstep => exact h.work hs hl hstep
  | user ha hstep => exact h.user hstep
  | handoff hcall hmsg hoffer htakes hcap hpass =>
      exact h.accept hcall (hs.not_accepted_of_offer hcall hoffer) hmsg rfl
        (Fifo.pass_eq_some.mp hpass).2.2.2.1 rfl (runs_of_current (.inl htakes.current))
        fun d hd => State.calls_setCall_ne _ _ hd
  | cancel hcall =>
      rename_i c m
      constructor
      · intro d hd hret
        have hdc : d ≠ c := by
          rintro rfl
          rw [show (s.setFuture d _).calls d = _ from hcall] at hret
          cases hret
        show Function.update s.future c _ d = _
        rw [Function.update_of_ne hdc]
        exact h.unsent d hd hret
      · intro d hd hopen
        have hold := h.unsettled d hd hopen
        show Function.update s.future c _ d = _ ∨ Function.update s.future c _ d = _
        by_cases hdc : d = c
        · subst hdc
          rw [Function.update_self]
          exact .inr (cancel_open hold)
        · rwa [Function.update_of_ne hdc]

theorem untouched_run {capacity : Option ℕ} {P : State C E V → Act C E V → Prop}
    {as : List (Act C E V)} (h : RunWith next P (State.init capacity) as s) : Untouched s :=
  h.invariant_run ⟨fun _ _ _ => rfl, fun _ _ _ => .inl rfl⟩
    fun _ _ _ _ hr hs _ hn => hs.next (sentOnce_run hr) (ledger_run hr) hn

/-- While the worker executes a message its future is pending or cancelled. -/
theorem future_of_runs {capacity : Option ℕ} {P : State C E V → Act C E V → Prop}
    {as : List (Act C E V)} (h : RunWith next P (State.init capacity) as s)
    (hruns : s.worker.Runs c) : s.future c = .pending ∨ s.future c = .cancelled :=
  have hl := ledger_run h
  (untouched_run h).unsettled c (hl.accepted_of_ran (hl.ran_of_runs hruns)) (.inr hruns)

end Pysync.Actor
