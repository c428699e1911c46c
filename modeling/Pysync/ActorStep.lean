import Pysync.ActorModel

/-!
What a step of an actor can do, said once. The invariants of the actor are derived from these.
-/

namespace Pysync.Actor
open Queue Channel

variable {C E V : Type} [DecidableEq C] {s t : State C E V} {a : Act C E V} {c d : C}

namespace State

@[simp] theorem mailbox_setCall (s : State C E V) (c : C) (k : Call C) :
    (s.setCall c k).mailbox = s.mailbox := rfl

@[simp] theorem worker_setCall (s : State C E V) (c : C) (k : Call C) :
    (s.setCall c k).worker = s.worker := rfl

@[simp] theorem calls_setCall_self (s : State C E V) (c : C) (k : Call C) :
    (s.setCall c k).calls c = k := Function.update_self _ _ _

theorem calls_setCall_ne (s : State C E V) (k : Call C) (h : d ≠ c) :
    (s.setCall c k).calls d = s.calls d := Function.update_of_ne h _ _

end State

/-- What a step of a running call on its own can do: the state it leaves and how it goes on. -/
inductive CallStep (s : State C E V) (c : C) (m : Method C) (arm : Arm) :
    Pc → State C E V → Call C → Prop
  | checked (hstopped : s.stopped = false) : CallStep s c m arm .check s (.run m .ensure)
  | refused (hstopped : s.stopped = true) :
      CallStep s c m arm .check s (.done m (.error stoppedErr))
  | ensured (hthread : s.thread = true) : CallStep s c m arm .ensure s (afterEnsure m)
  | published (hthread : s.thread = false) :
      CallStep s c m arm .ensure { s with thread := true } (.run m .start)
  | startedTwice (hworker : s.worker ≠ .absent) :
      CallStep s c m arm .start s (.done m (.error startTwiceErr))
  | started (hworker : s.worker = .absent) :
      CallStep s c m arm .start (s.setWorker .onStart) (afterEnsure m)
  | cloned (hsender : s.mailbox.sender = true) (hmsg : (m.msg c).isSome = true) :
      CallStep s c m arm (.send .clone) (s.setMailbox (s.mailbox.hold c))
        (.run m (.send (if m.timeout.isNone then .trySend else .arm)))
  | accepted {pc : SendPc} {msg : Msg C} {f : Fifo C Unit (Msg C)} (hmsg : m.msg c = some msg)
      (hoffer : (pc.offer arm).isSome = true) (hpush : s.mailbox.fifo.push c msg = some f) :
      CallStep s c m arm (.send pc) (s.setMailbox (s.mailbox.setFifo f))
        (.run m (.send (.drop (.ok ()))))
  | waits {pc : SendPc} (hpc : pc = .trySend ∨ pc = .arm) :
      CallStep s c m arm (.send pc) s (.run m (.send .select))
  | givesUp {pc : SendPc} {e : PyErr} (hpc : pc = .arm ∨ pc = .select)
      (he : e = closedErr ∧ s.mailbox.closeTx = false ∨ m.timeout.isSome = true) :
      CallStep s c m arm (.send pc) s (.run m (.send (.drop (.error e))))
  | unsent (hsender : s.mailbox.sender = false) :
      CallStep s c m arm (.send .clone) s (afterSend m (.error closedErr))
  | sent {r : PyResult Unit} :
      CallStep s c m arm (.send (.drop r)) (s.setMailbox (s.mailbox.release c)) (afterSend m r)
  | told {msg : String} {f : ActorFuture E V}
      (hf : (s.future c).complete (.error (.py (unsentErr msg))) = some f) :
      CallStep s c m arm (.setException msg) (s.setFuture c f) (.done m (.ok ()))
  | untold {msg : String} (hf : (s.future c).complete (.error (.py (unsentErr msg))) = none) :
      CallStep s c m arm (.setException msg) s (.done m (.error .invalidState))
  | setStopped : CallStep s c m arm .setStopped { s with stopped := true } (.run m .readThread)
  | hasThread (hthread : s.thread = true) :
      CallStep s c m arm .readThread s (.run m (.send .clone))
  | noThread (hthread : s.thread = false) : CallStep s c m arm .readThread s (.done m (.ok ()))
  | joined (hjoin : s.nested = some c ∨ (∃ why, s.worker = .exited why) ∨
      m.timeout.isSome = true) : CallStep s c m arm .join s (.run m .close)
  | joinedEarly (hnested : s.nested ≠ some c) (hworker : s.worker = .absent) :
      CallStep s c m arm .join s (.done m (.error joinErr))
  | dropSender : CallStep s c m arm .close s.dropSender (.run m .closeTx)
  | dropCloseTx :
      CallStep s c m arm .closeTx (s.setMailbox s.mailbox.dropCloseTx) (.done m (.ok ()))

/-- The worker takes a message. -/
inductive Takes : Worker C E V → Msg C → Worker C E V → Prop
  | recvStop {pc : RecvPc} : Takes (.recv pc) .stop (.onStop .sentinel)
  | recvCall {pc : RecvPc} {c : C} {b : Bool} : Takes (.recv pc) (.call c b) (.drain [.call c b])
  | drainStop {batch : List (Msg C)} : Takes (.drain batch) .stop (.items (batch ++ [.stop]))
  | drainCall {batch : List (Msg C)} {c : C} {b : Bool} :
      Takes (.drain batch) (.call c b) (.drain (batch ++ [.call c b]))

/-- What a step of the worker outside the code of the user can do. -/
inductive WorkStep (s : State C E V) : State C E V → Prop
  | take {msg : Msg C} {f : Fifo C Unit (Msg C)} {w : Worker C E V}
      (htakes : Takes s.worker msg w) (hpop : s.mailbox.fifo.pop () = some (msg, f)) :
      WorkStep s ((s.setMailbox (s.mailbox.setFifo f)).setWorker w)
  | recvGoto {pc pc' : RecvPc} (hworker : s.worker = .recv pc)
      (hpc : pc' = .recheck → s.mailbox.closeTx = false) : WorkStep s (s.setWorker (.recv pc'))
  | recvClosed {pc : RecvPc} (hworker : s.worker = .recv pc)
      (hqueue : s.mailbox.fifo.queue = []) (hclosed : pc = .recheck ∨ s.mailbox.disconnected) :
      WorkStep s ((s.setMailbox s.mailbox.conclude).setWorker (.onStop (.closed [])))
  | drainEmpty {batch : List (Msg C)} (hworker : s.worker = .drain batch)
      (hqueue : s.mailbox.fifo.queue = []) (hdisc : ¬ s.mailbox.disconnected) :
      WorkStep s (s.setWorker (.items batch))
  | drainClosed {batch : List (Msg C)} (hworker : s.worker = .drain batch)
      (hqueue : s.mailbox.fifo.queue = []) (hdisc : s.mailbox.disconnected) :
      WorkStep s ((s.setMailbox s.mailbox.conclude).setWorker (.onStop (.closed batch)))
  | nextBatch (hworker : s.worker = .items []) : WorkStep s (s.setWorker (.recv .tryRecv))
  | sentinel {rest : List (Msg C)} (hworker : s.worker = .items (.stop :: rest)) :
      WorkStep s (s.setWorker (.onStop .sentinel))
  | execute {c : C} {future : Bool} {rest : List (Msg C)}
      (hworker : s.worker = .items (.call c future :: rest)) :
      WorkStep s (State.setWorker { s with executed := s.executed ++ [.call c future] }
        (.body c future rest))
  | completed {c : C} {rest : List (Msg C)} {v : Option V} {f : ActorFuture E V}
      (hworker : s.worker = .complete c rest v) (hf : (s.future c).complete (.ok v) = some f) :
      WorkStep s ((s.setFuture c f).setWorker (.items rest))
  | uncompleted {c : C} {rest : List (Msg C)} {v : Option V}
      (hworker : s.worker = .complete c rest v) (hf : (s.future c).complete (.ok v) = none) :
      WorkStep s (s.setWorker (.onError c true rest (.py .invalidState)))
  | completedErr {c : C} {rest : List (Msg C)} {o : Except (Exc E) (Option V)}
      {f : ActorFuture E V} (hworker : s.worker = .completeErr c rest o)
      (hf : (s.future c).complete o = some f) :
      WorkStep s ((s.setFuture c f).setWorker (.items rest))
  | escaped {c : C} {rest : List (Msg C)} {o : Except (Exc E) (Option V)}
      (hworker : s.worker = .completeErr c rest o) (hf : (s.future c).complete o = none) :
      WorkStep s (s.setWorker (.onStop (.escaped rest)))

/-- How code of the user that the worker runs can end. -/
inductive UserStep (s : State C E V) : State C E V → Prop
  | onStart (hworker : s.worker = .onStart) : UserStep s (s.setWorker .onStartError)
  | ready (hworker : s.worker = .onStart ∨ s.worker = .onStartError) :
      UserStep s (s.setWorker (.recv .tryRecv))
  | returned {c : C} {future : Bool} {rest : List (Msg C)} {v : Option V}
      (hworker : s.worker = .body c future rest) :
      UserStep s ((s.report c (.returned v)).setWorker
        (if future then .complete c rest v else .items rest))
  | raised {c : C} {future : Bool} {rest : List (Msg C)} {e : E}
      (hworker : s.worker = .body c future rest) :
      UserStep s (s.setWorker (.onError c future rest (.user e)))
  | answered {c : C} {future : Bool} {rest : List (Msg C)} {e : Exc E} {answer : Option Bool}
      (hworker : s.worker = .onError c future rest e) :
      UserStep s ((s.report c (.raised e answer)).setWorker
        (if future then .completeErr c rest (handled e answer) else .items rest))
  | onStop {why : Why C} (hworker : s.worker = .onStop why) :
      UserStep s (s.setWorker (.exited why))

/-- The action is the end of code of the user that the worker runs. -/
def Act.ofUser : Act C E V → Bool
  | .onStart _ | .body _ | .onError _ | .onStop => true
  | _ => false

/-- What a step of an actor under its clients can do. -/
inductive OneStep (s : State C E V) : Act C E V → State C E V → Prop
  | invoke {c : C} {m : Method C} {onWorker : Bool} (hcall : s.calls c = .idle)
      (hmay : s.mayInvoke m onWorker = true) :
      OneStep s (.invoke c m onWorker)
        (State.setCall { s with nested := if onWorker then some c else s.nested } c
          (.run m m.first))
  | call {c : C} {m : Method C} {pc : Pc} {arm : Arm} {s' : State C E V} {k : Call C}
      (hcall : s.calls c = .run m pc) (hstep : CallStep s c m arm pc s' k) :
      OneStep s (.step c arm) (s'.setCall c k)
  | work {arm : Arm} {t : State C E V} (hstep : WorkStep s t) : OneStep s (.work arm) t
  | user {a : Act C E V} {t : State C E V} (ha : a.ofUser = true) (hstep : UserStep s t) :
      OneStep s a t
  | handoff {c : C} {arm arm' : Arm} {m : Method C} {pc : SendPc} {msg : Msg C}
      {f : Fifo C Unit (Msg C)} {w : Worker C E V} (hcall : s.calls c = .run m (.send pc))
      (hmsg : m.msg c = some msg) (hoffer : (pc.offer arm).isSome = true)
      (htakes : Takes s.worker msg w) (hcap : s.mailbox.fifo.capacity = some 0)
      (hpass : s.mailbox.fifo.pass c () msg = some f) :
      OneStep s (.handoff c arm arm')
        (((s.setMailbox (s.mailbox.setFifo f)).setWorker w).setCall c
          (.run m (.send (.drop (.ok ())))))
  | cancel {c : C} {m : Method C} (hcall : s.calls c = .done m (.ok ())) :
      OneStep s (.cancel c) (s.setFuture c (s.future c).cancel.1)

omit [DecidableEq C] in
theorem takes_afterRecv (pc : RecvPc) (msg : Msg C) :
    Takes (E := E) (V := V) (.recv pc) msg (afterRecv (.ret (.ok msg))) := by
  cases msg with
  | stop => exact .recvStop
  | call c b => exact .recvCall

omit [DecidableEq C] in
theorem takes_afterTryRecv (batch : List (Msg C)) (msg : Msg C) :
    Takes (E := E) (V := V) (.drain batch) msg (afterTryRecv batch (.ok msg)) := by
  cases msg with
  | stop => exact .drainStop
  | call c b => exact .drainCall

theorem send_callStep {m : Method C} {pc : SendPc} {arm : Arm}
    (hn : stepCall s c m (.send pc) arm = some t) :
    ∃ s' k, CallStep s c m arm (.send pc) s' k ∧ t = s'.setCall c k := by
  unfold stepCall at hn
  dsimp only at hn
  split at hn
  · cases hn
  rename_i msg hmsg
  obtain ⟨⟨ch, out⟩, hsend, rfl⟩ := Option.map_eq_some_iff.mp hn
  cases Chan.send_cases hsend with
  | cloned hsender => exact ⟨_, _, .cloned hsender (by simp [hmsg]), rfl⟩
  | refused hsender => exact ⟨_, _, .unsent hsender, rfl⟩
  | accepted hpc hpush =>
      refine ⟨_, _, .accepted hmsg ?_ hpush, rfl⟩
      rcases hpc with rfl | rfl <;> cases arm <;> first | rfl | simp [Chan.sendStep] at hsend
  | full => exact ⟨_, _, .waits (.inl rfl), rfl⟩
  | armed => exact ⟨_, _, .waits (.inr rfl), rfl⟩
  | rejected htimeout =>
      refine ⟨_, _, .givesUp (.inl rfl) (.inr ?_), rfl⟩
      cases htime : m.timeout with
      | none =>
          rw [htime] at htimeout
          cases htimeout
      | some q => rfl
  | closed hclose => exact ⟨_, _, .givesUp (.inr rfl) (.inl ⟨rfl, hclose⟩), rfl⟩
  | timedOut htimeout => exact ⟨_, _, .givesUp (.inr rfl) (.inr htimeout), rfl⟩
  | dropped => exact ⟨_, _, .sent, rfl⟩

theorem join_callStep {m : Method C} {arm : Arm} (hn : stepCall s c m .join arm = some t) :
    ∃ s' k, CallStep s c m arm .join s' k ∧ t = s'.setCall c k := by
  unfold stepCall at hn
  dsimp only at hn
  split at hn
  · rename_i hnested
    split at hn
    · cases hn
      exact ⟨_, _, .joined (.inl hnested), rfl⟩
    · cases hn
  · rename_i hnested
    split at hn
    · rename_i hworker
      cases hn
      exact ⟨_, _, .joinedEarly hnested hworker, rfl⟩
    · cases hn
    · rename_i why hworker
      cases hn
      exact ⟨_, _, .joined (.inr (.inl ⟨why, hworker⟩)), rfl⟩
    · split at hn
      · rename_i htimeout
        cases hn
        exact ⟨_, _, .joined (.inr (.inr htimeout)), rfl⟩
      · cases hn
    · cases hn

theorem call_cases {m : Method C} {pc : Pc} {arm : Arm} (hn : stepCall s c m pc arm = some t) :
    ∃ s' k, CallStep s c m arm pc s' k ∧ t = s'.setCall c k := by
  cases pc with
  | send pc => exact send_callStep hn
  | join => exact join_callStep hn
  | check =>
      cases arm <;> cases hn
      cases hstopped : s.stopped with
      | false => exact ⟨_, _, .checked hstopped, rfl⟩
      | true => exact ⟨_, _, .refused hstopped, rfl⟩
  | ensure =>
      cases arm <;> try cases hn
      unfold stepCall at hn
      dsimp only at hn
      split at hn
      · rename_i hthread
        cases hn
        exact ⟨_, _, .ensured hthread, rfl⟩
      · rename_i hthread
        cases hn
        exact ⟨_, _, .published (by simpa using hthread), rfl⟩
  | start =>
      cases arm <;> try cases hn
      unfold stepCall at hn
      dsimp only at hn
      split at hn
      · rename_i hstarted
        cases hn
        refine ⟨_, _, .startedTwice fun habsent => ?_, rfl⟩
        rw [habsent] at hstarted
        cases hstarted
      · rename_i hstarted
        cases hn
        refine ⟨_, _, .started ?_, rfl⟩
        cases hw : s.worker with
        | absent => rfl
        | _ => simp [hw, Worker.started] at hstarted
  | setException msg =>
      cases arm <;> try cases hn
      unfold stepCall at hn
      dsimp only at hn
      split at hn
      · rename_i hf
        cases hn
        exact ⟨_, _, .told hf, rfl⟩
      · rename_i hf
        cases hn
        exact ⟨_, _, .untold hf, rfl⟩
  | setStopped =>
      cases arm <;> cases hn
      exact ⟨_, _, .setStopped, rfl⟩
  | readThread =>
      cases arm <;> cases hn
      cases hthread : s.thread with
      | false => exact ⟨_, _, .noThread hthread, rfl⟩
      | true => exact ⟨_, _, .hasThread hthread, rfl⟩
  | close =>
      cases arm <;> cases hn
      exact ⟨_, _, .dropSender, rfl⟩
  | closeTx =>
      cases arm <;> cases hn
      exact ⟨_, _, .dropCloseTx, rfl⟩

theorem work_cases {arm : Arm} (hn : workStep s arm = some t) : WorkStep s t := by
  unfold workStep at hn
  split at hn
  · rename_i pc hworker
    obtain ⟨⟨ch, out⟩, hrecv, rfl⟩ := Option.map_eq_some_iff.mp hn
    cases Chan.recv_cases hrecv with
    | received hpc hpop => exact .take (hworker ▸ takes_afterRecv _ _) hpop
    | missed => exact .recvGoto hworker (by simp)
    | armed => exact .recvGoto hworker (by simp)
    | rejected htimeout => cases htimeout
    | disconnected hqueue hdisc => exact .recvClosed hworker hqueue (.inr hdisc)
    | closed hclose => exact .recvGoto hworker fun _ => hclose
    | timedOut htimeout => cases htimeout
    | drained hqueue => exact .recvClosed hworker hqueue (.inl rfl)
  · rename_i batch hworker
    cases hn
    generalize hr : s.mailbox.tryRecv () = r
    have hcases := Chan.tryRecv_cases s.mailbox ()
    rw [hr] at hcases
    cases hcases with
    | received hpop => exact .take (hworker ▸ takes_afterTryRecv _ _) hpop
    | disconnected hqueue hdisc => exact .drainClosed hworker hqueue hdisc
    | empty hqueue hdisc => exact .drainEmpty hworker hqueue hdisc
  · rename_i hworker
    cases hn
    exact .nextBatch hworker
  · rename_i hworker
    cases hn
    exact .sentinel hworker
  · rename_i hworker
    cases hn
    exact .execute hworker
  · rename_i hworker
    split at hn
    · rename_i hf
      cases hn
      exact .completed hworker hf
    · rename_i hf
      cases hn
      exact .uncompleted hworker hf
  · rename_i hworker
    split at hn
    · rename_i hf
      cases hn
      exact .completedErr hworker hf
    · rename_i hf
      cases hn
      exact .escaped hworker hf
  · cases hn

omit [DecidableEq C] in
theorem offer_eq_some {k k' : Call C} {arm : Arm} {msg : Msg C} {b : Bool}
    (h : k.offer c arm = some (msg, b, k')) : ∃ m pc, k = .run m (.send pc) ∧
      m.msg c = some msg ∧ pc.offer arm = some b ∧ k' = .run m (.send (.drop (.ok ()))) := by
  unfold Call.offer at h
  split at h
  · split at h
    · rename_i hmsg hoffer
      cases h
      exact ⟨_, _, rfl, hmsg, hoffer, rfl⟩
    · cases h
  · cases h

omit [DecidableEq C] in
theorem want_takes {w : Worker C E V} {arm : Arm} {b : Bool} {w' : Msg C → Worker C E V}
    (h : w.want arm = some (b, w')) (msg : Msg C) : Takes w msg (w' msg) := by
  unfold Worker.want at h
  split at h
  · obtain ⟨b', -, hb⟩ := Option.map_eq_some_iff.mp h
    cases hb
    exact takes_afterRecv _ _
  · split at h
    · cases h
      exact takes_afterTryRecv _ _
    · cases h
  · cases h

theorem next_cases (hn : next s a = some t) : OneStep s a t := by
  cases a with
  | invoke c m onWorker =>
      unfold next at hn
      dsimp only at hn
      split at hn
      · rename_i hcall
        split at hn
        · rename_i hmay
          cases hn
          exact .invoke hcall hmay
        · cases hn
      · cases hn
  | step c arm =>
      unfold next at hn
      dsimp only at hn
      split at hn
      · rename_i m pc hcall
        obtain ⟨s', k, hstep, rfl⟩ := call_cases hn
        exact .call hcall hstep
      · cases hn
  | work arm => exact .work (work_cases hn)
  | onStart raises =>
      unfold next at hn
      dsimp only at hn
      split at hn
      · rename_i hworker _
        cases hn
        cases raises with
        | false => exact .user rfl (.ready (.inl hworker))
        | true => exact .user rfl (.onStart hworker)
      · cases hn
  | body o =>
      unfold next at hn
      dsimp only at hn
      split at hn
      · rename_i hworker _
        split at hn
        · cases hn
          exact .user rfl (.returned hworker)
        · cases hn
          exact .user rfl (.raised hworker)
      · cases hn
  | onError answer =>
      unfold next at hn
      dsimp only at hn
      split at hn
      · rename_i hworker _
        cases hn
        exact .user rfl (.ready (.inr hworker))
      · rename_i hworker _
        cases hn
        exact .user rfl (.answered hworker)
      · cases hn
  | onStop =>
      unfold next at hn
      dsimp only at hn
      split at hn
      · rename_i hworker _
        cases hn
        exact .user rfl (.onStop hworker)
      · cases hn
  | handoff c arm arm' =>
      unfold next at hn
      dsimp only at hn
      split at hn
      · rename_i hoffer hwant
        split at hn
        · obtain ⟨ch, hhand, rfl⟩ := Option.map_eq_some_iff.mp hn
          obtain ⟨m, pc, hcall, hmsg, hpc, rfl⟩ := offer_eq_some hoffer
          obtain ⟨hcap, f, hpass, rfl⟩ := Chan.handoff_eq_some.mp hhand
          exact .handoff hcall hmsg (by simp [hpc]) (want_takes hwant _) hcap hpass
        · cases hn
      · cases hn
  | cancel c =>
      unfold next at hn
      dsimp only at hn
      split at hn
      · rename_i hcall
        split at hn
        · cases hn
          exact .cancel hcall
        · cases hn
      · cases hn

end Pysync.Actor
