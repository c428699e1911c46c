import Pysync.ActorBacklog
import Mathlib.Data.List.TakeWhile

/-!
Which futures are never completed. Under untimed `stop` calls and clients that cancel nothing the
worker leaves for a sentinel only, and it is the messages accepted behind the first sentinel that
nobody executes.
-/

namespace Pysync.Actor
open Queue Channel Transition

variable {C E V : Type} [DecidableEq C] {s t s' : State C E V} {a : Act C E V} {c d : C}
variable {m m' : Method C} {arm : Arm} {pc : Pc} {k : Call C} {msg : Msg C} {why : Why C}
variable {capacity : Option ℕ} {batch : List (Msg C)} {as : List (Act C E V)}
variable {P : State C E V → Act C E V → Prop}

/-- Every `stop` is called without a timeout. -/
def Untimed : Act C E V → Prop
  | .invoke _ m _ => m.timeout = none
  | _ => True

/-- Clients cancel nothing and no `stop` is timed. -/
def Plain (a : Act C E V) : Prop := NoCancel a ∧ Untimed a

instance : DecidablePred (Untimed : Act C E V → Prop)
  | .invoke _ m _ => inferInstanceAs (Decidable (m.timeout = none))
  | .step _ _ | .work _ | .onStart _ | .body _ | .onError _ | .onStop | .handoff _ _ _
  | .cancel _ => .isTrue trivial

instance : DecidablePred (Plain : Act C E V → Prop) :=
  fun _ => inferInstanceAs (Decidable (_ ∧ _))

/-- No running call is timed. -/
theorem untimed_run (h : RunWith next (fun _ a => Plain a) (State.init capacity) as s)
    (hcall : s.calls c = .run m pc) : m.timeout = none := by
  induction h generalizing m pc with
  | nil => cases hcall
  | snoc _ ha hn ih =>
      cases calls_next hn hcall with
      | same hcall => exact ih hcall
      | begun hact =>
          subst hact
          exact ha.2
      | stepped hact hcall hstep ht =>
          rw [hstep.method.1]
          exact ih hcall
      | met hsend hcall => exact ih hcall

/-- A call that has sent its message has it accepted. -/
theorem sent_of_dropped {u : Unit} (h : RunWith next P (State.init capacity) as s)
    (hcall : s.calls c = .run m (.send (.drop (.ok u)))) (hmsg : m.msg c = some msg) :
    msg ∈ s.sent := by
  induction h with
  | nil => cases hcall
  | snoc hr _ hn ih =>
      cases calls_next hn hcall with
      | same hcall => exact sent_mono hn (ih hcall)
      | begun hact hfirst => cases m <;> cases hfirst
      | stepped hact hold hstep ht =>
          obtain ⟨rfl, -⟩ := hstep.method
          rcases hstep.to_drop with ⟨msg', hmsg', hsent, -⟩ | ⟨e, he, -⟩
          · rw [hmsg] at hmsg'
            cases hmsg'
            rw [ht, State.sent_setCall, hsent]
            simp
          · cases he
      | met hsend hold hmsg' hoffer hacc =>
          rw [hmsg] at hmsg'
          cases hmsg'
          simp [State.sent, hacc]

/-- A closed mailbox, and a `stop` that is past its send, mean that a sentinel has been accepted. -/
structure Sentinel (s : State C E V) : Prop where
  sender : s.mailbox.sender = false → Msg.stop ∈ s.sent
  sending : ∀ c m r, s.calls c = .run m (.send (.drop r)) → m.isStop = true → Msg.stop ∈ s.sent
  past : ∀ c m pc, s.calls c = .run m pc → pc = .join ∨ pc = .close ∨ pc = .closeTx →
    Msg.stop ∈ s.sent

omit [DecidableEq C] in
theorem Method.msg_stop (h : m.isStop = true) : m.msg c = some .stop := by
  cases m <;> first | rfl | cases h

theorem sentinel_run (h : RunWith next (fun _ a => Plain a) (State.init capacity) as s) :
    Sentinel s := by
  induction h with
  | nil => exact ⟨fun h => (by cases h), fun _ _ _ h => (by cases h), fun _ _ _ h => (by cases h)⟩
  | snoc hr ha hn ih =>
      rename_i bs s a t
      have hclosing := closing_run hr
      refine ⟨fun hsender => sent_mono hn ?_, fun c m r hcall hm => ?_, fun c m pc hcall hpc =>
        sent_mono hn ?_⟩
      · by_cases hopen : s.mailbox.sender = false
        · exact ih.sender hopen
        · cases next_cases hn with
          | call hcall hstep =>
              cases hstep with
              | dropSender => exact ih.past _ _ _ hcall (.inr (.inl rfl))
              | _ => exact (hopen hsender).elim
          | work hstep => cases hstep <;> exact (hopen hsender).elim
          | user hact hstep =>
              rw [hstep.mailbox] at hsender
              exact (hopen hsender).elim
          | _ => exact (hopen hsender).elim
      · cases r with
        | ok u => exact sent_of_dropped (RunWith.snoc hr ha hn) hcall (Method.msg_stop hm)
        | error e =>
            refine sent_mono hn ?_
            cases calls_next hn hcall with
            | same hcall => exact ih.sending c m _ hcall hm
            | begun hact hfirst => cases m <;> cases hfirst
            | stepped hact hold hstep ht =>
                rcases hstep.to_drop with ⟨_, _, _, he⟩ | ⟨e', -, ⟨-, hclose⟩ | htimed⟩
                · cases he
                · exact ih.sender (hclosing.sender hclose)
                · rw [untimed_run hr hold] at htimed
                  cases htimed
            | met hsend => cases hsend
      · cases calls_next hn hcall with
        | same hcall => exact ih.past c m pc hcall hpc
        | begun hact hfirst =>
            rw [hfirst] at hpc
            cases m <;> rcases hpc with hpc | hpc | hpc <;> cases hpc
        | stepped hact hold hstep ht =>
            rcases hstep.to_past hpc with hsender | ⟨hm, r, rfl⟩ | rfl | rfl
            · exact ih.sender hsender
            · exact ih.sending c _ r hold hm
            · exact ih.past c _ _ hold (.inl rfl)
            · exact ih.past c _ _ hold (.inr (.inl rfl))
        | met hsend =>
            rw [hsend] at hpc
            rcases hpc with hpc | hpc | hpc <;> cases hpc

/-- Without timeouts the worker never finds the mailbox closed before it finds a sentinel. -/
theorem not_leftWith_run (h : RunWith next (fun _ a => Plain a) (State.init capacity) as s) :
    ¬ s.LeftWith batch := by
  induction h with
  | nil => rintro (hw | hw) <;> cases hw
  | snoc hr ha hn ih =>
      intro hleft
      have hclosing := closing_run hr
      cases next_cases hn with
      | call hcall hstep => exact ih (hstep.leftWith.mp hleft)
      | work hstep =>
          obtain ⟨-, -, -, hqueue, hfrom⟩ := hstep.leftWith hleft
          rcases hfrom with ⟨⟨pc, hworker, hclosed⟩, -⟩ | ⟨hworker, hdisc⟩
          · refine (ledger_run hr).not_sent_stop hqueue (.inl ⟨pc, hworker⟩)
              ((sentinel_run hr).sender ?_)
            rcases hclosed with rfl | hdisc
            · exact hclosing.sender (hclosing.recheck hworker)
            · exact hdisc.1
          · exact (ledger_run hr).not_sent_stop hqueue (.inr ⟨batch, hworker⟩)
              ((sentinel_run hr).sender hdisc.1)
      | user hact hstep => exact ih (hstep.leftWith hleft)
      | handoff hcall hmsg hoffer htakes => exact htakes.not_leftWith hleft
      | _ => exact ih hleft

/-- No message with a future has been accepted behind a sentinel. -/
def InFront (s : State C E V) : Prop := ∀ c, Msg.call c true ∉ s.sent.dropWhile (· ≠ .stop)

/-- The message of a call with a future is about to be accepted behind a sentinel. -/
def SendsBehind (s : State C E V) : Act C E V → Prop
  | .step c arm => (∃ m pc, s.calls c = .run m (.send pc) ∧ m.hasFuture = true ∧
      (pc.offer arm).isSome = true) ∧ s.mailbox.fifo.hasRoom = true ∧ Msg.stop ∈ s.sent
  | _ => False

theorem behind_append {l : List (Msg C)} (h : Msg.stop ∈ l) (msg : Msg C) :
    (l ++ [msg]).dropWhile (· ≠ .stop) = l.dropWhile (· ≠ .stop) ++ [msg] := by
  rw [List.dropWhile_append, if_neg]
  rw [List.isEmpty_iff, List.dropWhile_eq_nil_iff]
  exact fun hall => by simpa using hall _ h

theorem behind_eq_nil {l : List (Msg C)} (h : Msg.stop ∉ l) : l.dropWhile (· ≠ .stop) = [] := by
  rw [List.dropWhile_eq_nil_iff]
  intro x hx
  simpa using fun (hstop : x = .stop) => h (hstop ▸ hx)

omit [DecidableEq C] in
theorem Method.msg_future (h : m.hasFuture = true) : m.msg c = some (.call c true) := by
  cases m <;> first | rfl | cases h

theorem not_inFront_of_behind (h : SendsBehind s a) (hn : next s a = some t) : ¬ InFront t := by
  cases a with
  | step c arm =>
      obtain ⟨⟨m, pc, hcall, hm, hoffer⟩, hroom, hstop⟩ := h
      have hmsg : m.msg c = some (.call c true) := Method.msg_future hm
      cases hpush : s.mailbox.fifo.push c (.call c true) with
      | none =>
          rw [Fifo.push_eq_none.mp hpush] at hroom
          cases hroom
      | some f =>
          rw [next_send hcall hmsg hoffer hpush] at hn
          cases hn
          have hsent : f.accepted.map Prod.snd = s.sent ++ [.call c true] := by
            rw [(Fifo.push_eq_some.mp hpush).2.2.2.1, List.map_append]
            rfl
          intro hfront
          refine hfront c ?_
          show Msg.call c true ∈ (f.accepted.map Prod.snd).dropWhile _
          rw [hsent, behind_append hstop]
          simp
  | _ => exact h.elim

theorem inFront_next (hl : Ledger s) (h : InFront s) (hn : next s a = some t) :
    ¬ SendsBehind s a ↔ InFront t := by
  refine ⟨fun hnot c => ?_, fun ht hb => not_inFront_of_behind hb hn ht⟩
  rcases sent_next hn with hsent | ⟨d, m, pc, msg, hcall, hmsg, hsent, hhow⟩
  · rw [hsent]
    exact h c
  rw [hsent]
  by_cases hstop : Msg.stop ∈ s.sent
  · rw [behind_append hstop, List.mem_append, List.mem_singleton]
    rintro (hmem | rfl)
    · exact h c hmem
    · rcases hhow with ⟨arm, rfl, hoffer, hroom⟩ | ⟨hqueue, w, htakes⟩
      · refine hnot ⟨⟨m, pc, hcall, ?_, hoffer⟩, hroom, hstop⟩
        cases m <;> first | rfl | cases hmsg
      · exact hl.not_sent_stop hqueue htakes.takes hstop
  · rw [List.dropWhile_append, behind_eq_nil hstop]
    cases msg <;> simp

theorem inFront_of_next (hn : next s a = some t) (h : InFront t) : InFront s := by
  intro c hmem
  rcases sent_next hn with hsent | ⟨d, m, pc, msg, hcall, hmsg, hsent, hhow⟩
  · exact h c (by rwa [hsent])
  · refine h c ?_
    rw [hsent, behind_append ?_]
    · exact List.mem_append_left _ hmem
    · by_contra hstop
      rw [behind_eq_nil hstop] at hmem
      cases hmem

/-- The futures of the messages that the worker has executed are done. -/
def Settled (s : State C E V) : Prop :=
  ∀ c, Msg.call c true ∈ s.executed → s.worker.current ≠ some (.call c true) →
    (s.future c).done = true

theorem Settled.aside (h : Settled s) (hn : next s a = some t) (hexec : t.executed = s.executed)
    (hcurrent : ∀ c, t.worker.current ≠ some (.call c true) →
      s.worker.current ≠ some (.call c true)) : Settled t := fun c hmem hc =>
  done_next hn (h c (hexec ▸ hmem) (hcurrent c hc))

/-- The worker is done with a message, and its future is done. -/
theorem Settled.finish (h : Settled s) (hn : next s a = some t) (hexec : t.executed = s.executed)
    (hcurrent : s.worker.current = some (.call d true)) (hdone : (t.future d).done = true) :
    Settled t := by
  intro c hmem _
  by_cases hcd : c = d
  · rwa [hcd]
  · refine done_next hn (h c (hexec ▸ hmem) ?_)
    rw [hcurrent]
    simpa using Ne.symm hcd

theorem Settled.work (h : Settled s) (hn : next s (.work arm) = some t) (hstep : WorkStep s t) :
    Settled t := by
  cases hstep with
  | take htakes =>
      refine h.aside hn rfl fun c _ => ?_
      rcases htakes.takes with ⟨_, hw⟩ | ⟨_, hw⟩ <;> rw [hw] <;> simp [Worker.current]
  | execute hworker =>
      rename_i d b rest
      intro c hmem hc
      rcases List.mem_append.mp hmem with hold | hnew
      · exact done_next hn (h c hold (by rw [hworker]; simp [Worker.current]))
      · rw [List.mem_singleton] at hnew
        rw [hnew] at hc
        exact (hc rfl).elim
  | completed hworker hf =>
      refine h.finish hn rfl (by rw [hworker]; rfl) ?_
      show (Function.update s.future _ _ _).done = true
      rw [Function.update_self]
      exact Future.complete_done hf
  | completedErr hworker hf =>
      refine h.finish hn rfl (by rw [hworker]; rfl) ?_
      show (Function.update s.future _ _ _).done = true
      rw [Function.update_self]
      exact Future.complete_done hf
  | escaped hworker hf => exact h.finish hn rfl (by rw [hworker]; rfl) (Future.done_of_complete_none hf)
  | uncompleted hworker =>
      refine h.aside hn rfl fun c hc => ?_
      rw [hworker]
      exact hc
  | _ hworker => exact h.aside hn rfl fun c _ => by rw [hworker]; simp [Worker.current]

theorem Settled.user (h : Settled s) (hn : next s a = some t) (hstep : UserStep s t) :
    Settled t := by
  refine h.aside hn hstep.executed fun c hc => ?_
  cases hstep with
  | ready hworker => rcases hworker with hw | hw <;> rw [hw] <;> simp [Worker.current]
  | returned hworker =>
      rename_i d future rest v
      rw [hworker]
      cases future with
      | false => simp [Worker.current]
      | true => exact hc
  | answered hworker =>
      rename_i d future rest e answer
      rw [hworker]
      cases future with
      | false => simp [Worker.current]
      | true => exact hc
  | raised hworker =>
      rw [hworker]
      exact hc
  | onStart hworker => simp [hworker, Worker.current]
  | onStop hworker => simp [hworker, Worker.current]

theorem settled_run (h : RunWith next P (State.init capacity) as s) : Settled s := by
  induction h with
  | nil => exact fun c hmem => (by cases hmem)
  | snoc _ _ hn ih =>
      cases next_cases hn with
      | call hcall hstep =>
          refine ih.aside hn hstep.executed fun c hc => ?_
          rcases hstep.worker with hworker | ⟨-, habsent, -⟩
          · rwa [← hworker]
          · rw [habsent]
            simp [Worker.current]
      | work hstep => exact ih.work hn hstep
      | user ha hstep => exact ih.user hn hstep
      | handoff hcall hmsg hoffer htakes =>
          refine ih.aside hn rfl fun c _ => ?_
          rcases htakes.takes with ⟨_, hw⟩ | ⟨_, hw⟩ <;> rw [hw] <;> simp [Worker.current]
      | _ => exact ih.aside hn rfl fun _ => id

/-- A future is handed out after its message has been accepted, or with the news that it was not. -/
theorem sent_of_handed {u : Unit} (h : RunWith next (fun _ a => Plain a) (State.init capacity) as s)
    (hcall : s.calls c = .done m (.ok u)) (hm : m.hasFuture = true) :
    Msg.call c true ∈ s.sent ∨ (s.future c).done = true := by
  induction h with
  | nil => cases hcall
  | snoc hr ha hn ih =>
      cases calls_next hn hcall with
      | same hcall => exact (ih hcall).imp (sent_mono hn) (done_next hn)
      | stepped hact hold hstep ht =>
          obtain ⟨rfl, hbind | hdrop | hstop | hok | hdone⟩ := hstep.to_done
          · rw [hbind] at hm
            cases hm
          · subst hdrop
            exact .inl (sent_mono hn (sent_of_dropped hr hold (Method.msg_future hm)))
          · have hm' := (placed_run hr c _ _ hold).isStop hstop
            rw [Method.not_stop hm] at hm'
            cases hm'
          · exact (hok rfl).elim
          · exact .inr (by rw [ht]; exact hdone)

/-- Every future that a client has got is done. -/
def NoOrphan (s : State C E V) : Prop :=
  ∀ c m, s.calls c = .done m (.ok ()) → m.hasFuture = true → (s.future c).done = true

/-- The worker has left for a sentinel, the first one accepted. -/
theorem sent_of_exited (h : RunWith next (fun _ a => Plain a) (State.init capacity) as s)
    (hexit : s.worker = .exited why) : s.sent = s.executed ++ .stop :: s.mailbox.fifo.queue := by
  have hacc := (ledger_run h).accepted
  rw [hexit] at hacc
  cases why with
  | sentinel => simpa [State.sent, Worker.holding, Why.holding] using hacc
  | closed batch => exact (not_leftWith_run h (.inr hexit)).elim
  | escaped rest =>
      exact (leftInOrder_run (h.mono fun _ _ ha => ha.1) _ (.inr hexit)).elim

/-- What has been accepted behind the first sentinel is what is still in the mailbox. -/
theorem behind_of_exited (h : RunWith next (fun _ a => Plain a) (State.init capacity) as s)
    (hexit : s.worker = .exited why) :
    s.sent.dropWhile (· ≠ .stop) = .stop :: s.mailbox.fifo.queue := by
  have hexecuted := (ledger_run h).executed
  rw [sent_of_exited h hexit,
    List.dropWhile_append_of_pos fun x hx => by
      simpa using fun (hstop : x = .stop) => hexecuted (hstop ▸ hx)]
  simp

theorem noOrphan_of_inFront (h : RunWith next (fun _ a => Plain a) (State.init capacity) as s)
    (hexit : s.worker = .exited why) (hfront : InFront s) : NoOrphan s := by
  intro c m hcall hm
  rcases sent_of_handed h hcall hm with hsent | hdone
  · have hbehind := hfront c
    rw [behind_of_exited h hexit] at hbehind
    rw [sent_of_exited h hexit] at hsent
    have hexecuted := (List.mem_append.mp hsent).resolve_right hbehind
    exact settled_run h c hexecuted (by rw [hexit]; simp [Worker.current])
  · exact hdone

/-- A call whose message has been accepted has returned its future, unless it is still running. -/
theorem handed_of_sent (h : RunWith next (fun _ a => Plain a) (State.init capacity) as s)
    (hquiet : ∀ c m pc, s.calls c ≠ .run m pc) (hmem : Msg.call c true ∈ s.sent) :
    ∃ m, s.calls c = .done m (.ok ()) ∧ m.hasFuture = true := by
  obtain ⟨⟨d, msg⟩, he, hmsg⟩ := List.mem_map.mp hmem
  dsimp only at hmsg
  subst hmsg
  have hsentOnce := sentOnce_run h
  obtain rfl := hsentOnce.own he
  have hsent := hsentOnce.sent _ he
  cases hcall : s.calls d with
  | idle =>
      rw [hcall] at hsent
      exact hsent.elim
  | run m pc => exact (hquiet d m pc hcall).elim
  | done m r =>
      rw [hcall] at hsent
      obtain ⟨hm, hr⟩ := hsent
      refine ⟨m, by rw [hr (by simp)], ?_⟩
      cases m <;> first | rfl | cases hm

/-- A message behind the first sentinel is never executed, and nobody else completes its future. -/
theorem inFront_of_noOrphan (h : RunWith next (fun _ a => Plain a) (State.init capacity) as s)
    (hexit : s.worker = .exited why) (hquiet : ∀ c m pc, s.calls c ≠ .run m pc)
    (hno : NoOrphan s) : InFront s := by
  intro c hmem
  rw [behind_of_exited h hexit] at hmem
  have hqueue : Msg.call c true ∈ s.mailbox.fifo.queue := by simpa using hmem
  obtain ⟨l₁, l₂, hl⟩ := List.append_of_mem hqueue
  have hsent : s.sent = (s.executed ++ .stop :: l₁) ++ .call c true :: l₂ := by
    rw [sent_of_exited h hexit, hl]
    simp
  have hmem : Msg.call c true ∈ s.sent := by simp [hsent]
  have hran : ¬ s.Ran c := by
    rintro ⟨b, hb⟩
    exact ((sentOnce_run h).split hsent b).1 (List.mem_append_left _ hb)
  obtain ⟨m, hcall, hm⟩ := handed_of_sent h hquiet hmem
  have hdone := hno c m hcall hm
  rcases (untouched_run h).unsettled c ⟨true, hmem⟩ (.inl hran) with hpending | hcancelled
  · rw [hpending] at hdone
    cases hdone
  · exact not_cancelled_run (h.mono fun _ _ ha => ha.1) c hcancelled

/-- With any mailbox and under any clients that cancel nothing and call `stop` without a timeout: in
every run in which no message with a future is accepted behind a sentinel, every future handed out is
done once the worker has exited; and when no call is running any more, only in these. -/
theorem noOrphan_iff (capacity : Option ℕ) (as : List (Act C E V)) (s : State C E V)
    (hrun : RunWith next (fun _ a => Plain a) (State.init capacity) as s) (why : Why C)
    (hexit : s.worker = .exited why) :
    (RunWith next (fun s a => Plain a ∧ ¬ SendsBehind s a) (State.init capacity) as s →
      NoOrphan s) ∧
    ((∀ c m pc, s.calls c ≠ .run m pc) → NoOrphan s →
      RunWith next (fun s a => Plain a ∧ ¬ SendsBehind s a) (State.init capacity) as s) := by
  have hiff : InFront s ↔
      RunWith next (fun s a => Plain a ∧ ¬ SendsBehind s a) (State.init capacity) as s := by
    refine last_iff_runWith (fun c hmem => (by cases hmem)) (fun as s a t hr hs _ hn => ?_)
      (fun as s a t _ _ hn => inFront_of_next hn) hrun
    exact inFront_next (ledger_run hr) hs hn
  exact ⟨fun h => noOrphan_of_inFront hrun hexit (hiff.mpr h),
    fun hquiet h => hiff.mp (inFront_of_noOrphan hrun hexit hquiet h)⟩

/-- A call is past its look at `_stopped` when `stop` sends its sentinel; its message comes in behind
it, and the worker exits without it. -/
def behindTrace : List (Act (Fin 3) Unit ℕ) :=
  [.invoke 0 .call false, .step 0 .go, .step 0 .go, .step 0 .go, .step 0 .go, .step 0 .go,
   .step 0 .go,
   .onStart false, .work .go, .work .go, .work .go, .body (.ok none), .work .go, .work .go,
   .invoke 1 .call false, .step 1 .go, .step 1 .go, .step 1 .go,
   .invoke 2 (.stop none) false, .step 2 .go, .step 2 .go, .step 2 .go, .step 2 .go, .step 2 .go,
   .step 1 .go, .step 1 .go,
   .work .go, .onStop, .step 2 .go, .step 2 .go, .step 2 .go]

theorem behindTrace_exec :
    (exec next (fun _ a => Plain a) (State.init none) behindTrace).map (fun s => decide
      (s.worker = .exited .sentinel ∧ (∀ c, (s.calls c).returned = true) ∧
        s.calls 1 = .done .call (.ok ()) ∧ s.future 1 = .pending)) = some true := by
  decide +kernel

theorem noOrphan_iff_behindTrace :
    ∃ s, RunWith next (fun _ a => Plain a) (State.init none) behindTrace s ∧
      ¬ RunWith next (fun s a => Plain a ∧ ¬ SendsBehind s a) (State.init none) behindTrace s := by
  obtain ⟨s, hrun, hs⟩ := exists_runWith_of_exec behindTrace_exec
  obtain ⟨hexit, -, hcall, hfuture⟩ := of_decide_eq_true hs
  refine ⟨s, hrun, fun h => ?_⟩
  have hdone := (noOrphan_iff none behindTrace s hrun _ hexit).1 h 1 _ hcall rfl
  rw [hfuture] at hdone
  cases hdone

/-- A future can stay pending for ever. -/
theorem not_always_noOrphan :
    ¬ ∀ (C E V : Type) [DecidableEq C] (capacity : Option ℕ) (as : List (Act C E V))
      (s : State C E V), RunWith next (fun _ a => Plain a) (State.init capacity) as s →
      ∀ why, s.worker = .exited why → (∀ c timeout pc, s.calls c ≠ .run (.stop timeout) pc) →
      NoOrphan s := by
  intro h
  obtain ⟨s, hrun, hs⟩ := exists_runWith_of_exec behindTrace_exec
  obtain ⟨hexit, hreturned, hcall, hfuture⟩ := of_decide_eq_true hs
  have hstops : ∀ c timeout pc, s.calls c ≠ .run (.stop timeout) pc := by
    intro c timeout pc hc
    have hr := hreturned c
    rw [hc] at hr
    cases hr
  have hdone := h (Fin 3) Unit ℕ none _ s hrun _ hexit hstops 1 _ hcall rfl
  rw [hfuture] at hdone
  cases hdone

end Pysync.Actor
