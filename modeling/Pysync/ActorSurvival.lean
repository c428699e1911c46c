import Pysync.ActorClosing

/-!
When the worker of an actor survives its clients: it leaves its loop for a sentinel or for a closed
mailbox, unless its exception handler comes to complete a future that the client has cancelled.
-/

namespace Pysync.Actor
open Queue Channel Transition

variable {C E V : Type} {s t s' : State C E V} {a : Act C E V} {c d : C}
variable {m : Method C} {arm : Arm} {pc : Pc} {k : Call C} {msg : Msg C} {why : Why C}

/-- The worker had the right to leave: it has taken a sentinel, or the mailbox is closed. -/
def State.InOrder (s : State C E V) : Why C → Prop
  | .sentinel => Msg.stop ∈ s.mailbox.fifo.delivered.map Prod.snd
  | .closed _ => s.mailbox.sender = false
  | .escaped _ => False

/-- If the worker has left its loop, it had the right to. -/
def LeftInOrder (s : State C E V) : Prop :=
  ∀ why, s.worker = .onStop why ∨ s.worker = .exited why → s.InOrder why

/-- The exception handler of the worker is not about to complete a cancelled future. -/
def HandlesOpen (s : State C E V) : Act C E V → Prop
  | .work _ => ∀ c rest o, s.worker = .completeErr c rest o → s.future c ≠ .cancelled
  | _ => True

theorem State.InOrder.mono (h : s.InOrder why)
    (hdel : s.mailbox.fifo.delivered <+: t.mailbox.fifo.delivered)
    (hsender : s.mailbox.sender = false → t.mailbox.sender = false) : t.InOrder why := by
  cases why with
  | sentinel => exact (hdel.map Prod.snd).subset h
  | closed batch => exact hsender h
  | escaped rest => exact h

theorem LeftInOrder.aside [DecidableEq C] (h : LeftInOrder s) (hn : next s a = some t)
    (hdel : t.mailbox.fifo.delivered = s.mailbox.fifo.delivered)
    (hworker : ∀ why, t.worker = .onStop why ∨ t.worker = .exited why →
      s.worker = .onStop why ∨ s.worker = .exited why) : LeftInOrder t := fun why hwhy =>
  (h why (hworker why hwhy)).mono (by rw [hdel]) (sender_next hn)

theorem UserStep.left [DecidableEq C] (h : UserStep s t)
    (hwhy : t.worker = .onStop why ∨ t.worker = .exited why) :
    s.worker = .onStop why ∨ s.worker = .exited why := by
  cases h with
  | onStop hworker =>
      rcases hwhy with hwhy | hwhy
      · cases hwhy
      · cases hwhy
        exact .inl hworker
  | returned hworker =>
      rename_i c future rest v
      cases future <;> rcases hwhy with hwhy | hwhy <;> simp [State.setWorker] at hwhy
  | answered hworker =>
      rename_i c future rest e answer
      cases future <;> rcases hwhy with hwhy | hwhy <;> simp [State.setWorker] at hwhy
  | _ => rcases hwhy with hwhy | hwhy <;> cases hwhy

theorem Takes.left {w w' : Worker C E V} (h : Takes w msg w')
    (hwhy : w' = .onStop why ∨ w' = .exited why) : why = .sentinel ∧ msg = .stop := by
  cases h <;> rcases hwhy with hwhy | hwhy <;> cases hwhy
  exact ⟨rfl, rfl⟩

/-- A worker that finds a sentinel takes it out of the mailbox by that. -/
theorem LeftInOrder.take {w : Worker C E V} (htakes : Takes s.worker msg w)
    (hdel : t.mailbox.fifo.delivered = s.mailbox.fifo.delivered ++ [((), msg)])
    (hworker : t.worker = w) : LeftInOrder t := by
  intro why hwhy
  subst hworker
  obtain ⟨rfl, rfl⟩ := htakes.left hwhy
  show Msg.stop ∈ t.mailbox.fifo.delivered.map Prod.snd
  rw [hdel]
  simp

variable [DecidableEq C]

theorem leftInOrder_work (hl : Ledger s) (hc : Closing s)
    (hfuture : ∀ c, s.worker.Runs c → s.future c = .pending ∨ s.future c = .cancelled)
    (hstep : WorkStep s t) :
    HandlesOpen s (.work arm) ↔ LeftInOrder t := by
  -- a step from elsewhere than the exception handler, to inside the loop
  have hinside : (∀ c rest o, s.worker ≠ .completeErr c rest o) →
      (∀ why, ¬ (t.worker = .onStop why ∨ t.worker = .exited why)) →
      (HandlesOpen s (.work arm) ↔ LeftInOrder t) := fun hs ht =>
    ⟨fun _ why hwhy => (ht why hwhy).elim, fun _ c rest o hw => (hs c rest o hw).elim⟩
  -- a step from elsewhere that leaves the loop
  have hleave : (∀ c rest o, s.worker ≠ .completeErr c rest o) → LeftInOrder t →
      (HandlesOpen s (.work arm) ↔ LeftInOrder t) := fun hs ht =>
    ⟨fun _ => ht, fun _ c rest o hw => (hs c rest o hw).elim⟩
  have hdelivered := hl.conserved
  cases hstep with
  | take htakes hpop =>
      refine hleave (fun c rest o hw => ?_)
        (LeftInOrder.take htakes (Fifo.pop_eq_some.mp hpop).2.2.2 rfl)
      rw [hw] at htakes
      cases htakes
  | recvClosed hworker hqueue hclosed =>
      refine hleave (by simp [hworker]) fun why hwhy => ?_
      rcases hwhy with hwhy | hwhy <;> cases hwhy
      rcases hclosed with rfl | hdisc
      · exact hc.sender (hc.recheck hworker)
      · exact hdisc.1
  | drainClosed hworker hqueue hdisc =>
      refine hleave (by simp [hworker]) fun why hwhy => ?_
      rcases hwhy with hwhy | hwhy <;> cases hwhy
      exact hdisc.1
  | sentinel hworker =>
      refine hleave (by simp [hworker]) fun why hwhy => ?_
      rcases hwhy with hwhy | hwhy <;> cases hwhy
      show Msg.stop ∈ s.mailbox.fifo.delivered.map Prod.snd
      rw [hdelivered, hworker]
      simp [Worker.holding]
  | completedErr hworker hf =>
      refine ⟨fun _ why hwhy => ?_, fun _ c rest o hw => ?_⟩
      · rcases hwhy with hwhy | hwhy <;> cases hwhy
      · rw [hworker] at hw
        cases hw
        intro hcancelled
        rw [hcancelled] at hf
        cases hf
  | escaped hworker hf =>
      rename_i c rest o
      refine ⟨fun hopen => ?_, fun hleft => (hleft _ (.inl rfl)).elim⟩
      rcases hfuture c ⟨true, by rw [hworker]; rfl⟩ with hpending | hcancelled
      · rw [hpending] at hf
        cases hf
      · exact (hopen c rest o hworker hcancelled).elim
  | _ hworker => exact hinside (by simp [hworker]) (by simp [State.setWorker])

/-- A step leaves the worker in order if and only if it is not a handler's that meets a cancelled
future. -/
theorem leftInOrder_next (hl : Ledger s) (hc : Closing s)
    (hfuture : ∀ c, s.worker.Runs c → s.future c = .pending ∨ s.future c = .cancelled)
    (h : LeftInOrder s) (hn : next s a = some t) : HandlesOpen s a ↔ LeftInOrder t := by
  cases next_cases hn with
  | invoke => exact ⟨fun _ => h.aside hn rfl fun _ => id, fun _ => trivial⟩
  | call hcall hstep =>
      refine ⟨fun _ => h.aside hn hstep.delivered fun why hwhy => ?_, fun _ => trivial⟩
      rcases hstep.worker with hworker | ⟨-, -, hstart⟩
      · rwa [State.worker_setCall, hworker] at hwhy
      · rw [State.worker_setCall, hstart] at hwhy
        rcases hwhy with hwhy | hwhy <;> cases hwhy
  | work hstep => exact leftInOrder_work hl hc hfuture hstep
  | user ha hstep =>
      refine ⟨fun _ => h.aside hn (by rw [hstep.mailbox]) fun _ => hstep.left, fun _ => ?_⟩
      cases a with
      | work arm => cases ha
      | _ => trivial
  | handoff hcall hmsg hoffer htakes hcap hpass =>
      exact ⟨fun _ => LeftInOrder.take htakes (Fifo.pass_eq_some.mp hpass).2.2.2.2 rfl,
        fun _ => trivial⟩
  | cancel => exact ⟨fun _ => h.aside hn rfl fun _ => id, fun _ => trivial⟩

omit [DecidableEq C] in
theorem leftInOrder_init (capacity : Option ℕ) :
    LeftInOrder (State.init capacity : State C E V) := by
  rintro why (h | h) <;> cases h

/-- Under any clients, any outcomes of the method bodies and of the hooks, and any cancellations: the
worker never leaves its loop but for a sentinel or a closed mailbox, if and only if its exception
handler never comes to complete a cancelled future. -/
theorem leftInOrder_iff (capacity : Option ℕ) (as : List (Act C E V)) (s : State C E V)
    (hrun : Run next (State.init capacity) as s) :
    (∀ u, Visits next (State.init capacity) as u → LeftInOrder u) ↔
      RunWith next HandlesOpen (State.init capacity) as s := by
  have hiff := always_iff_runWith (P := HandlesOpen) (leftInOrder_init capacity)
    (fun as s a t hr hs _ hn => leftInOrder_next (ledger_run hr) (closing_run hr)
      (fun _ => future_of_runs hr) hs hn) hrun
  exact hiff.trans ⟨fun h => h.mono fun _ _ h => h.2, fun h => h.mono fun _ _ h => ⟨trivial, h⟩⟩

/-- No client cancels a future. -/
def NoCancel : Act C E V → Prop
  | .cancel _ => False
  | _ => True

instance : DecidablePred (NoCancel : Act C E V → Prop)
  | .cancel _ => .isFalse id
  | .invoke _ _ _ | .step _ _ | .work _ | .onStart _ | .body _ | .onError _ | .onStop
  | .handoff _ _ _ => .isTrue trivial

/-- Only a client cancels a future. -/
theorem not_cancelled_next (h : ∀ c, s.future c ≠ .cancelled) (ha : NoCancel a)
    (hn : next s a = some t) (c : C) : t.future c ≠ .cancelled := by
  have hset : ∀ {d} {f g : ActorFuture E V} {o}, f.complete o = some g →
      Function.update s.future d g c ≠ .cancelled := by
    intro d f g o hf
    by_cases hcd : c = d
    · subst hcd
      rw [Function.update_self]
      exact Future.complete_ne_cancelled hf
    · rw [Function.update_of_ne hcd]
      exact h c
  cases next_cases hn with
  | call hcall hstep =>
      rcases hstep.future with hfuture | ⟨_, _, _, _, hf, hfuture⟩
      · show _ ≠ _
        rw [State.setCall, hfuture]
        exact h c
      · rw [State.setCall, hfuture]
        exact hset hf
  | work hstep =>
      cases hstep with
      | completed hworker hf => exact hset hf
      | completedErr hworker hf => exact hset hf
      | _ => exact h c
  | user hact hstep => cases hstep <;> exact h c
  | cancel => exact ha.elim
  | _ => exact h c

theorem not_cancelled_run {capacity : Option ℕ} {as : List (Act C E V)}
    (h : RunWith next (fun _ a => NoCancel a) (State.init capacity) as s) (c : C) :
    s.future c ≠ .cancelled := by
  induction h generalizing c with
  | nil => simp [State.init]
  | snoc _ ha hn ih => exact not_cancelled_next ih ha hn c

omit [DecidableEq C] in
theorem handlesOpen (h : ∀ c, s.future c ≠ .cancelled) (a : Act C E V) : HandlesOpen s a := by
  cases a with
  | work arm => exact fun c _ _ _ => h c
  | _ => trivial

/-- Without cancellations the worker leaves its loop in order. -/
theorem leftInOrder_run {capacity : Option ℕ} {as : List (Act C E V)}
    (h : RunWith next (fun _ a => NoCancel a) (State.init capacity) as s) : LeftInOrder s := by
  induction h with
  | nil => exact leftInOrder_init capacity
  | snoc hr _ hn ih =>
      exact (leftInOrder_next (ledger_run hr) (closing_run hr) (fun _ => future_of_runs hr) ih
        hn).mp (handlesOpen (not_cancelled_run hr) _)

/-- A client cancels its future before the worker has run the body. -/
def cancelTrace : List (Act ℕ Unit ℕ) :=
  [.invoke 0 .call false, .step 0 .go, .step 0 .go, .step 0 .go, .step 0 .go, .step 0 .go,
   .step 0 .go, .cancel 0, .onStart false, .work .go, .work .go, .work .go, .body (.ok none),
   .work .go, .onError none, .work .go]

theorem cancelTrace_exec :
    (exec next (fun _ _ => True) (State.init none) cancelTrace).map (fun s => decide
      (s.worker = .onStop (.escaped []))) = some true := by
  decide +kernel

theorem leftInOrder_iff_cancelTrace :
    ∃ s, Run next (State.init none) cancelTrace s ∧
      ((∀ u, Visits next (State.init none) cancelTrace u → LeftInOrder u) ↔
        RunWith next HandlesOpen (State.init none) cancelTrace s) := by
  obtain ⟨s, hrun, -⟩ := exists_runWith_of_exec cancelTrace_exec
  exact ⟨s, hrun, leftInOrder_iff none cancelTrace s hrun⟩

/-- A client that cancels its future can bring the worker down. -/
theorem not_always_leftInOrder :
    ¬ ∀ (C E V : Type) [DecidableEq C] (capacity : Option ℕ) (as : List (Act C E V))
      (s : State C E V), Run next (State.init capacity) as s → LeftInOrder s := by
  intro h
  obtain ⟨s, hrun, hs⟩ := exists_runWith_of_exec cancelTrace_exec
  exact h ℕ Unit ℕ none _ s hrun _ (.inl (of_decide_eq_true hs))

end Pysync.Actor
