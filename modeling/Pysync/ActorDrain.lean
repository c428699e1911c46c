import Pysync.ActorBacklog
import Pysync.ActorOutcome
import Pysync.ChannelProgress

/-!
What `stop` brings about in the end. Once a sentinel is in the mailbox, or the mailbox is closed, only so
many messages can still come to the worker, so that it takes only so many steps; as long as it has not
exited it can take one, unless code of the user that it runs waits in a call of its own. Then the joins
of all the `stop`s are over.
-/

namespace Pysync.Actor
open Queue Channel Transition

variable {C E V : Type} [DecidableEq C] {s t s' : State C E V} {a : Act C E V} {c d : C}
variable {m : Method C} {arm : Arm} {pc : Pc} {k : Call C} {msg : Msg C}

/-- A step of the worker, the end of code of the user included. -/
def Act.ofWorker : Act C E V → Bool
  | .work _ | .handoff _ _ _ => true
  | a => a.ofUser

/-- How many steps the worker is from its end without a further message. -/
def Worker.left : Worker C E V → ℕ
  | exited _ => 0
  | onStop _ => 1
  | recv pc => pc.left + 1
  | items _ | onStartError => 5
  | drain _ | completeErr _ _ _ | onStart | absent => 6
  | onError _ _ _ _ => 7
  | complete _ _ _ => 8
  | body _ _ _ => 9

/-- Of a send: it has cloned the sender and its message may still be accepted. -/
def Call.sending : Call C → Bool
  | .run _ (.send .clone) | .run _ (.send (.drop _)) => false
  | .run _ (.send _) => true
  | _ => false

namespace State

/-- The sends that may put a message into a mailbox that is closed. -/
def late (s : State C E V) : Finset C := s.mailbox.senders.filter fun c => (s.calls c).sending = true

/-- How many messages the worker will have taken at most. -/
def quota (s : State C E V) : ℕ :=
  if Msg.stop ∈ s.sent then (s.sent.takeWhile (· ≠ .stop)).length + 1
  else s.sent.length + s.late.card

/-- The worker's account: five for every message taken, and five for every body begun. -/
def behind (s : State C E V) : ℕ := 5 * (s.mailbox.fifo.delivered.length + s.executed.length)

/-- How many steps the worker has before it at most. -/
def effort (s : State C E V) : ℕ := 10 * s.quota - s.behind + s.worker.left

/-- A sentinel has been accepted, or a `close` of the mailbox is over. -/
def Ending (s : State C E V) : Prop := Msg.stop ∈ s.sent ∨ s.mailbox.closeTx = false

end State

/-- From where it waits in `recv` the worker does not go back. -/
theorem left_recvGoto {pc pc' : RecvPc} (hn : workStep s arm = some t) (hworker : s.worker = .recv pc)
    (ht : t.worker = .recv pc') : pc'.left < pc.left := by
  unfold workStep at hn
  rw [hworker] at hn
  obtain ⟨⟨ch, out⟩, hrecv, rfl⟩ := Option.map_eq_some_iff.mp hn
  change afterRecv out = .recv pc' at ht
  cases Chan.recv_cases hrecv with
  | received =>
      rename_i item _ _ _
      cases item <;> cases ht
  | rejected htimeout => cases htimeout
  | timedOut htimeout => cases htimeout
  | missed | armed | closed =>
      cases ht
      simp [RecvPc.left]
  | disconnected | drained => cases ht

omit [DecidableEq C] in
/-- A message more in hand is worth the steps that it takes to put it aside. -/
theorem Takes.left_lt {w w' : Worker C E V} (h : Takes w msg w') : w'.left + 1 ≤ w.left + 5 := by
  cases h with
  | recvStop => simp [Worker.left]
  | recvCall =>
      rename_i pc _ _
      cases pc <;> simp [Worker.left, RecvPc.left]
  | drainStop | drainCall => simp [Worker.left]

theorem WorkStep.left_lt (h : WorkStep s t) (hn : workStep s arm = some t) :
    t.worker.left + 1 + s.behind ≤ s.worker.left + t.behind := by
  cases h with
  | take htakes hpop =>
      have hlt := htakes.left_lt
      have hdel := congrArg List.length (Fifo.pop_eq_some.mp hpop).2.2.2
      rw [List.length_append, List.length_singleton] at hdel
      simp only [State.behind, State.setWorker, State.setMailbox, Chan.setFifo, hdel]
      omega
  | recvGoto hworker =>
      have hlt := left_recvGoto hn hworker rfl
      simp only [State.setWorker, State.behind, hworker, Worker.left]
      omega
  | recvClosed hworker =>
      rename_i pc hqueue hclosed
      rw [hworker]
      cases pc <;> simp [State.setWorker, State.setMailbox, Chan.conclude, State.behind, Worker.left,
        RecvPc.left]
  | execute hworker =>
      rw [hworker]
      simp only [State.setWorker, State.behind, Worker.left, List.length_append, List.length_singleton]
      omega
  | drainEmpty hworker | drainClosed hworker | nextBatch hworker | sentinel hworker
  | completed hworker | uncompleted hworker | completedErr hworker | escaped hworker =>
      rw [hworker]
      simp only [State.setWorker, State.setMailbox, State.setFuture, Chan.conclude, State.behind,
        Worker.left, RecvPc.left]
      omega

theorem UserStep.left_lt (h : UserStep s t) : t.worker.left < s.worker.left := by
  cases h with
  | ready hworker =>
      rcases hworker with hw | hw <;> rw [hw] <;> simp [Worker.left, RecvPc.left, State.setWorker]
  | returned hworker =>
      rename_i c future rest v
      rw [hworker]
      cases future <;> simp [Worker.left, State.setWorker]
  | answered hworker =>
      rename_i c future rest e answer
      rw [hworker]
      cases future <;> simp [Worker.left, State.setWorker]
  | onStart hworker | raised hworker | onStop hworker =>
      rw [hworker]
      simp [Worker.left, State.setWorker]

/-- What a step leaves to the worker. -/
theorem left_next (hn : next s a = some t) :
    t.worker.left + a.ofWorker.toNat + s.behind ≤ s.worker.left + t.behind := by
  cases next_cases hn with
  | call hcall hstep =>
      rename_i c m pc arm s' k
      have hbehind : (s'.setCall c k).behind = s.behind := by
        simp only [State.behind, State.setCall, hstep.delivered, hstep.executed]
      have hleft : s'.worker.left ≤ s.worker.left := by
        rcases hstep.worker with hworker | ⟨-, habsent, hstart⟩
        · rw [hworker]
        · rw [habsent, hstart]
          exact le_rfl
      rw [hbehind]
      exact Nat.add_le_add_right hleft _
  | work hstep => exact hstep.left_lt hn
  | user ha hstep =>
      have hlt := hstep.left_lt
      have hworker : a.ofWorker = true := by
        cases a <;> first | rfl | cases ha
      simp only [State.behind, hstep.executed, hstep.mailbox, hworker, Bool.toNat_true]
      omega
  | handoff hcall hmsg hoffer htakes hcap hpass =>
      have hlt := htakes.left_lt
      have hdel := congrArg List.length (Fifo.pass_eq_some.mp hpass).2.2.2.2
      rw [List.length_append, List.length_singleton] at hdel
      simp only [State.behind, State.setWorker, State.setMailbox, State.setCall, Chan.setFifo, hdel,
        Act.ofWorker, Bool.toNat_true]
      omega
  | invoke | cancel => exact le_rfl

section Quota

theorem takeWhile_append_of_stop {l : List (Msg C)} (h : Msg.stop ∈ l) (l' : List (Msg C)) :
    (l ++ l').takeWhile (· ≠ .stop) = l.takeWhile (· ≠ .stop) := by
  obtain ⟨pre, post, rfl, hpre⟩ := List.eq_append_cons_of_mem h
  rw [List.append_assoc, List.cons_append, takeWhile_stop hpre, takeWhile_stop hpre]

/-- What has no sentinel but at its end is no longer than what is up to the first one. -/
theorem StopLast.length_le {l : List (Msg C)} (h : StopLast l) (l' : List (Msg C)) :
    l.length ≤ ((l ++ l').takeWhile (· ≠ .stop)).length + 1 := by
  rcases List.eq_nil_or_concat l with rfl | ⟨init, x, rfl⟩
  · simp
  · rw [List.concat_eq_append] at h ⊢
    have hinit : Msg.stop ∉ init := by
      simpa [StopLast] using h
    rw [List.append_assoc, List.takeWhile_append_of_pos fun y hy => by
      simpa using fun (hstop : y = .stop) => hinit (hstop ▸ hy)]
    simp only [List.length_append, List.length_singleton]
    omega

omit [DecidableEq C] in
theorem Ledger.stopLast (h : Ledger s) : StopLast (s.executed ++ s.worker.holding) := by
  have hholding : StopLast s.worker.holding := by
    have htidy := h.tidy
    cases hworker : s.worker with
    | drain batch =>
        rw [hworker] at htidy
        exact StopLast.of_not_mem htidy
    | onStop why | exited why =>
        rw [hworker] at htidy
        cases why with
        | sentinel => exact List.not_mem_nil
        | closed batch => exact StopLast.of_not_mem htidy
        | escaped rest => exact htidy
    | _ =>
        rw [hworker] at htidy
        exact htidy
  intro hmem
  by_cases hnil : s.worker.holding = []
  · rw [hnil, List.append_nil] at hmem
    exact h.executed (List.mem_of_mem_dropLast hmem)
  · rw [List.dropLast_append_of_ne_nil hnil] at hmem
    rcases List.mem_append.mp hmem with hmem | hmem
    · exact h.executed hmem
    · exact hholding hmem

/-- What the worker has taken is within the quota. -/
theorem Ledger.delivered_le (h : Ledger s) :
    s.mailbox.fifo.delivered.length ≤ s.quota ∧ s.executed.length ≤ s.mailbox.fifo.delivered.length := by
  have hdel := congrArg List.length h.conserved
  have hsent : s.sent = s.executed ++ s.worker.holding ++ s.mailbox.fifo.queue := h.accepted
  rw [List.length_map] at hdel
  constructor
  · unfold State.quota
    split
    · rw [hdel, hsent]
      exact h.stopLast.length_le _
    · rw [hdel, hsent]
      simp only [List.length_append]
      omega
  · rw [hdel, List.length_append]
    omega

omit [DecidableEq C] in
theorem Call.sending_of_offer {pc : SendPc} (h : (pc.offer arm).isSome = true) :
    (Call.run m (.send pc)).sending = true := by
  cases pc <;> first | rfl | cases h

/-- Once the mailbox is closed no send clones the sender. -/
theorem CallStep.sending (h : CallStep s c m arm pc s' k) (hsender : s.mailbox.sender = false)
    (hk : k.sending = true) : (Call.run m pc).sending = true := by
  cases h with
  | cloned hopen =>
      rw [hsender] at hopen
      cases hopen
  | waits hpc => rcases hpc with rfl | rfl <;> rfl
  | ensured | started =>
      rcases afterEnsure_eq m with ⟨-, hm⟩ | hm <;> rw [hm] at hk <;> cases hk
  | unsent =>
      rcases afterSend_eq m (.error closedErr) with ⟨-, hm⟩ | ⟨-, _, hm⟩ | hm <;> rw [hm] at hk <;>
        cases hk
  | sent =>
      rename_i r
      rcases afterSend_eq m r with ⟨-, hm⟩ | ⟨-, _, hm⟩ | hm <;> rw [hm] at hk <;> cases hk
  | _ => cases hk

theorem sending_next (hn : next s a = some t) (hsender : s.mailbox.sender = false)
    (hd : (t.calls d).sending = true) : (s.calls d).sending = true := by
  generalize hk : t.calls d = k at hd
  cases calls_next hn hk with
  | same hcall => rwa [hcall]
  | begun ha hpc =>
      rename_i m _ _
      subst hpc
      cases m <;> cases hd
  | stepped ha hcall hstep =>
      rw [hcall]
      exact hstep.sending hsender hd
  | met hpc =>
      subst hpc
      cases hd

omit [DecidableEq C] in
theorem mem_late (hclones : Clones s) : c ∈ s.late ↔ (s.calls c).sending = true := by
  refine Finset.mem_filter.trans (and_iff_right_of_imp fun h => ?_)
  cases hcall : s.calls c with
  | run m pc =>
      rw [hcall] at h
      cases pc with
      | send pc =>
          refine hclones c m pc hcall ?_
          rintro rfl
          cases h
      | _ => cases h
  | _ =>
      rw [hcall] at h
      cases h

/-- The call whose message comes in has been sending until then. -/
theorem sending_of_sent (hn : next s a = some t) : t.sent = s.sent ∨
    ∃ c msg, t.sent = s.sent ++ [msg] ∧ (s.calls c).sending = true ∧ (t.calls c).sending = false := by
  cases next_cases hn with
  | call hcall hstep =>
      rename_i c m pc arm s' k
      rcases hstep.mailbox with hfifo | ⟨pc₀, msg, rfl, hmsg, hoffer, hpush, rfl⟩
      · exact .inl (by simp only [State.sent, State.mailbox_setCall, hfifo])
      · refine .inr ⟨c, msg, ?_, hcall ▸ Call.sending_of_offer hoffer, ?_⟩
        · show s'.mailbox.fifo.accepted.map Prod.snd = _
          rw [(Fifo.push_eq_some.mp hpush).2.2.2.1, List.map_append]
          rfl
        · rw [State.calls_setCall_self]
          rfl
  | work hstep => exact .inl (by simp only [State.sent, hstep.accepted])
  | user ha hstep => exact .inl (by simp only [State.sent, hstep.mailbox])
  | handoff hcall hmsg hoffer htakes hcap hpass =>
      rename_i c arm arm' m pc msg f w
      refine .inr ⟨c, msg, ?_, hcall ▸ Call.sending_of_offer hoffer, ?_⟩
      · show f.accepted.map Prod.snd = _
        rw [(Fifo.pass_eq_some.mp hpass).2.2.2.1, List.map_append]
        rfl
      · rw [State.calls_setCall_self]
        rfl
  | invoke | cancel => exact .inl rfl

/-- The quota never grows: after a sentinel nothing counts any more, and the message that comes into a
closed mailbox has been counted before. -/
theorem quota_next (hclones : Clones s) (hclones' : Clones t) (hn : next s a = some t)
    (hend : Msg.stop ∈ s.sent ∨ s.mailbox.sender = false) : t.quota ≤ s.quota := by
  unfold State.quota
  by_cases hstop : Msg.stop ∈ s.sent
  · rw [if_pos hstop, if_pos (sent_mono hn hstop)]
    rcases sent_next hn with hsent | ⟨_, _, _, _, _, _, hsent, _⟩
    · rw [hsent]
    · rw [hsent, takeWhile_append_of_stop hstop]
  · have hsender := hend.resolve_left hstop
    have hlate : t.late ⊆ s.late := fun d hd => by
      rw [mem_late hclones'] at hd
      rw [mem_late hclones]
      exact sending_next hn hsender hd
    rw [if_neg hstop]
    rcases sending_of_sent hn with hsent | ⟨c, msg, hsent, hbefore, hafter⟩
    · rw [hsent, if_neg hstop]
      exact Nat.add_le_add_left (Finset.card_le_card hlate) _
    · have hnot : c ∉ t.late := by
        rw [mem_late hclones', hafter]
        exact Bool.false_ne_true
      have hcard : t.late.card < s.late.card :=
        Finset.card_lt_card ((Finset.ssubset_iff_of_subset hlate).mpr
          ⟨c, (mem_late hclones).mpr hbefore, hnot⟩)
      rw [hsent]
      split
      · rename_i hmem
        have hmsg : Msg.stop = msg := by
          simpa [hstop] using hmem
        rw [← hmsg, takeWhile_stop hstop]
        omega
      · rw [List.length_append, List.length_singleton]
        omega

end Quota

theorem effort_next (hl : Ledger s) (hl' : Ledger t) (hclones : Clones s) (hclones' : Clones t)
    (hend : Msg.stop ∈ s.sent ∨ s.mailbox.sender = false) (hn : next s a = some t) :
    t.effort + a.ofWorker.toNat ≤ s.effort := by
  have hleft := left_next hn
  have hquota := quota_next hclones hclones' hn hend
  obtain ⟨hdel, hexec⟩ := hl.delivered_le
  obtain ⟨hdel', hexec'⟩ := hl'.delivered_le
  unfold State.effort
  unfold State.behind at *
  omega

/-- The close signal does not come back. -/
theorem closeTx_next (hn : next s a = some t) (hclose : s.mailbox.closeTx = false) :
    t.mailbox.closeTx = false := by
  cases next_cases hn with
  | call hcall hstep =>
      cases hstep with
      | dropCloseTx => rfl
      | _ => exact hclose
  | work hstep => cases hstep <;> exact hclose
  | user ha hstep => rwa [hstep.mailbox]
  | _ => exact hclose

theorem ending_next (hn : next s a = some t) (h : s.Ending) : t.Ending :=
  h.imp (sent_mono hn) (closeTx_next hn)

/-- The worker waits in `recv` only as long as nothing has come that ends its loop. -/
theorem able_recv {pc : RecvPc} (hl : Ledger s) (hend : s.Ending) (hworker : s.worker = .recv pc) :
    ∃ arm, (workStep s arm).isSome = true := by
  by_cases hpc : pc = .select
  · subst hpc
    rcases hend with hstop | hclose
    · cases hpop : s.mailbox.fifo.pop () with
      | none =>
          have hqueue := Fifo.pop_eq_none.mp hpop
          exact (hl.not_sent_stop hqueue (.inl ⟨_, hworker⟩) hstop).elim
      | some r => exact ⟨.data, by simp [workStep, hworker, Chan.recvStep, hpop]⟩
    · exact ⟨.close, by simp [workStep, hworker, Chan.recvStep, hclose]⟩
  · have hgo : ∃ ch out, s.mailbox.recvStep () none pc .go = some (ch, out) ∧ out ≠ .goto pc :=
      recvStep_go s.mailbox hpc
    obtain ⟨ch, out, hstep, -⟩ := hgo
    exact ⟨.go, by simp [workStep, hworker, hstep]⟩

/-- A worker that has not exited can take a step, unless code of the user is waiting in a call. -/
theorem able_of_running (hl : Ledger s) (hend : s.Ending) (hstarted : s.worker.started = true)
    (hrunning : ∀ why, s.worker ≠ .exited why) (hnested : s.nested = none) :
    Able next (fun _ _ => True) (fun _ a => a.ofWorker) s := by
  have hable : ∀ a : Act C E V, a.ofWorker = true → (next s a).isSome = true →
      Able next (fun _ _ => True) (fun _ (a : Act C E V) => a.ofWorker) s := by
    intro a ha h
    obtain ⟨t, hn⟩ := Option.isSome_iff_exists.mp h
    exact ⟨a, t, trivial, ha, hn⟩
  cases hworker : s.worker with
  | absent =>
      rw [hworker] at hstarted
      cases hstarted
  | exited why => exact (hrunning why hworker).elim
  | recv pc =>
      obtain ⟨arm, hstep⟩ := able_recv hl hend hworker
      exact hable (.work arm) rfl hstep
  | drain batch => exact hable (.work .go) rfl (by simp [next, workStep, hworker])
  | items batch =>
      refine hable (.work .go) rfl ?_
      cases batch with
      | nil => simp [next, workStep, hworker]
      | cons msg rest => cases msg <;> simp [next, workStep, hworker]
  | complete c rest v =>
      refine hable (.work .go) rfl ?_
      cases hf : (s.future c).complete (.ok v) <;> simp [next, workStep, hworker, hf]
  | completeErr c rest o =>
      refine hable (.work .go) rfl ?_
      cases hf : (s.future c).complete o <;> simp [next, workStep, hworker, hf]
  | onStart => exact hable (.onStart false) rfl (by simp [next, hworker, hnested])
  | onStartError => exact hable (.onError none) rfl (by simp [next, hworker, hnested])
  | body c future rest => exact hable (.body (.ok none)) rfl (by simp [next, hworker, hnested])
  | onError c future rest e => exact hable (.onError none) rfl (by simp [next, hworker, hnested])
  | onStop why => exact hable .onStop rfl (by simp [next, hworker, hnested])

/-- The worker has exited, and no `stop` has to wait for it. -/
structure Over (s : State C E V) : Prop where
  exited : ∃ why, s.worker = .exited why
  joined : ∀ c m, s.calls c = .run m .join → (next s (.step c .go)).isSome = true

theorem over_of_exited {why : Why C} (hworker : s.worker = .exited why) : Over s := by
  refine ⟨⟨why, hworker⟩, fun c m hcall => ?_⟩
  rw [next, hcall]
  by_cases hnested : s.nested = some c
  · simp [stepCall, hnested]
  · simp [stepCall, hnested, hworker]

/-- From where a sentinel has been accepted, or the mailbox has been closed, the worker takes only so
many steps more, whatever the clients do meanwhile; as long as it has not exited it can take one, be it
that code of the user ends, unless that code waits in a call of its own. When it has exited no `stop`
waits in its join. -/
theorem winds_down (capacity : Option ℕ) (as : List (Act C E V)) (s : State C E V)
    (hrun : Run next (State.init capacity) as s) (hstarted : s.worker.started = true) (hend : s.Ending) :
    Settles next (fun _ _ => True) (fun _ a => a.ofWorker) s.effort
      (fun t => Over t ∨ t.nested ≠ none) s := by
  let Inv : State C E V → Prop := fun u =>
    (∃ bs, Run next (State.init capacity) bs u) ∧ u.worker.started = true ∧ u.Ending
  have h0 : Inv s := ⟨⟨as, hrun⟩, hstarted, hend⟩
  refine settles_of_measure State.effort h0 (fun u a t hu _ hn => ?_) fun u hu => ?_
  · obtain ⟨⟨bs, hbs⟩, hustarted, huend⟩ := hu
    have hbs' : Run next (State.init capacity) (bs ++ [a]) t := .snoc hbs trivial hn
    refine ⟨⟨⟨_, hbs'⟩, started_next hn hustarted, ending_next hn huend⟩, ?_⟩
    exact effort_next (ledger_run hbs) (ledger_run hbs') (clones_run hbs) (clones_run hbs')
      (huend.imp_right (closing_run hbs).sender) hn
  · obtain ⟨⟨bs, hbs⟩, hustarted, huend⟩ := hu
    by_cases hexited : ∃ why, u.worker = .exited why
    · obtain ⟨why, hworker⟩ := hexited
      exact .inl (.inl (over_of_exited hworker))
    · by_cases hnested : u.nested = none
      · exact .inr (able_of_running (ledger_run hbs) huend hustarted (not_exists.mp hexited) hnested)
      · exact .inl (.inr hnested)

/-- A call starts the worker and leaves its message; a `stop` leaves its sentinel and joins. -/
def joinTrace : List (Act ℕ Unit ℕ) :=
  [.invoke 0 .call false, .step 0 .go, .step 0 .go, .step 0 .go, .step 0 .go, .step 0 .go,
    .invoke 1 (.stop none) false, .step 1 .go, .step 1 .go, .step 1 .go, .step 1 .go, .step 1 .go]

theorem joinTrace_exec :
    (exec next (fun _ _ => True) (State.init none) joinTrace).map (fun s => decide
      (s.worker = .onStart ∧ s.sent = [.call 0 true, .stop] ∧ s.nested = none ∧
        s.calls 1 = .run (.stop none) .join ∧ s.effort = 26)) = some true := by
  decide +kernel

theorem winds_down_joinTrace :
    ∃ s : State ℕ Unit ℕ, Run next (State.init none) joinTrace s ∧
      s.calls 1 = .run (.stop none) .join ∧
      ∃ bs t, RunWith next (fun _ a => True ∧ a.ofWorker = true) s bs t ∧ bs.length ≤ 26 ∧
        (Over t ∨ t.nested ≠ none) := by
  obtain ⟨s, hrun, hs⟩ := exists_runWith_of_exec joinTrace_exec
  obtain ⟨hworker, hsent, -, hjoin, heffort⟩ := of_decide_eq_true hs
  have hstarted : s.worker.started = true := by
    rw [hworker]
    rfl
  have hend : s.Ending := .inl (by simp [hsent])
  obtain ⟨bs, t, ht, hlen, hover⟩ := (winds_down none joinTrace s hrun hstarted hend).reaches
  exact ⟨s, hrun, hjoin, bs, t, ht, heffort ▸ hlen, hover⟩

end Pysync.Actor
