import Pysync.ActorStep

/-!
How a call on an actor goes on: what each of its steps leaves alone, and how it comes to be where it
is.
-/

namespace Pysync.Actor
open Queue Channel Transition

variable {C E V : Type} [DecidableEq C] {s t s' : State C E V} {a : Act C E V} {c d : C}
variable {m m' : Method C} {arm : Arm} {pc pc' : Pc} {k : Call C} {msg : Msg C}

theorem CallStep.calls (h : CallStep s c m arm pc s' k) : s'.calls = s.calls := by
  cases h <;> rfl

theorem CallStep.executed (h : CallStep s c m arm pc s' k) : s'.executed = s.executed := by
  cases h <;> rfl

theorem CallStep.worker (h : CallStep s c m arm pc s' k) :
    s'.worker = s.worker ∨ pc = .start ∧ s.worker = .absent ∧ s'.worker = .onStart := by
  cases h with
  | started hworker => exact .inr ⟨rfl, hworker, rfl⟩
  | _ => exact .inl rfl

/-- A step of a call takes nothing out of the mailbox and puts in at most its own message. -/
theorem CallStep.mailbox (h : CallStep s c m arm pc s' k) :
    s'.mailbox.fifo = s.mailbox.fifo ∨ ∃ pc₀ msg, pc = .send pc₀ ∧ m.msg c = some msg ∧
      (pc₀.offer arm).isSome = true ∧ s.mailbox.fifo.push c msg = some s'.mailbox.fifo ∧
      k = .run m (.send (.drop (.ok ()))) := by
  cases h with
  | accepted hmsg hoffer hpush => exact .inr ⟨_, _, rfl, hmsg, hoffer, hpush, rfl⟩
  | _ => exact .inl rfl

theorem CallStep.delivered (h : CallStep s c m arm pc s' k) :
    s'.mailbox.fifo.delivered = s.mailbox.fifo.delivered := by
  rcases h.mailbox with hfifo | ⟨_, _, _, _, _, hpush, _⟩
  · rw [hfifo]
  · exact (Fifo.push_eq_some.mp hpush).2.2.2.2

theorem WorkStep.accepted (h : WorkStep s t) :
    t.mailbox.fifo.accepted = s.mailbox.fifo.accepted := by
  cases h with
  | take htakes hpop => exact (Fifo.pop_eq_some.mp hpop).2.2.1
  | _ => rfl

theorem WorkStep.calls (h : WorkStep s t) : t.calls = s.calls := by
  cases h <;> rfl

theorem UserStep.mailbox (h : UserStep s t) : t.mailbox = s.mailbox := by
  cases h <;> rfl

theorem UserStep.calls (h : UserStep s t) : t.calls = s.calls := by
  cases h <;> rfl

theorem UserStep.executed (h : UserStep s t) : t.executed = s.executed := by
  cases h <;> rfl

/-- How a call comes to be where it is. -/
inductive Came (s : State C E V) (a : Act C E V) (t : State C E V) (c : C) : Call C → Prop
  | same {k : Call C} (hcall : s.calls c = k) : Came s a t c k
  | begun {m : Method C} {onWorker : Bool} {pc : Pc} (ha : a = .invoke c m onWorker)
      (hpc : pc = m.first) : Came s a t c (.run m pc)
  | stepped {m : Method C} {pc : Pc} {arm : Arm} {s' : State C E V} {k : Call C}
      (ha : a = .step c arm) (hcall : s.calls c = .run m pc) (hstep : CallStep s c m arm pc s' k)
      (ht : t = s'.setCall c k) : Came s a t c k
  | met {m : Method C} {pc₀ : SendPc} {pc : Pc} {arm : Arm} {msg : Msg C}
      (hpc : pc = .send (.drop (.ok ()))) (hcall : s.calls c = .run m (.send pc₀))
      (hmsg : m.msg c = some msg) (hoffer : (pc₀.offer arm).isSome = true)
      (hacc : t.mailbox.fifo.accepted = s.mailbox.fifo.accepted ++ [(c, msg)]) :
      Came s a t c (.run m pc)

theorem calls_next (hn : next s a = some t) (hd : t.calls d = k) : Came s a t d k := by
  cases next_cases hn with
  | invoke hcall hmay =>
      rename_i c m onWorker
      by_cases hdc : d = c
      · subst hdc
        rw [State.calls_setCall_self] at hd
        subst hd
        exact .begun rfl rfl
      · rw [State.calls_setCall_ne _ _ hdc] at hd
        exact .same hd
  | call hcall hstep =>
      rename_i c m pc arm s' k'
      by_cases hdc : d = c
      · subst hdc
        rw [State.calls_setCall_self] at hd
        subst hd
        exact .stepped rfl hcall hstep rfl
      · rw [State.calls_setCall_ne _ _ hdc, hstep.calls] at hd
        exact .same hd
  | work hstep => exact .same (hstep.calls ▸ hd)
  | user ha hstep => exact .same (hstep.calls ▸ hd)
  | handoff hcall hmsg hoffer htakes hcap hpass =>
      rename_i c arm arm' m pc msg f w
      by_cases hdc : d = c
      · subst hdc
        rw [State.calls_setCall_self] at hd
        subst hd
        exact .met rfl hcall hmsg hoffer (Fifo.pass_eq_some.mp hpass).2.2.2.1
      · rw [State.calls_setCall_ne _ _ hdc] at hd
        exact .same hd
  | cancel => exact .same hd

/-- The messages that the mailbox has accepted, in order. -/
def State.sent (s : State C E V) : List (Msg C) := s.mailbox.fifo.accepted.map Prod.snd

@[simp] theorem State.sent_setCall (s : State C E V) (c : C) (k : Call C) :
    (s.setCall c k).sent = s.sent := rfl

/-- A message for the mailbox's history is put there by the step of a send or by a meeting. -/
theorem sent_next (hn : next s a = some t) : t.sent = s.sent ∨
    ∃ c m pc msg, s.calls c = .run m (.send pc) ∧ m.msg c = some msg ∧ t.sent = s.sent ++ [msg] ∧
      ((∃ arm, a = .step c arm ∧ (pc.offer arm).isSome = true ∧
          s.mailbox.fifo.hasRoom = true) ∨
        s.mailbox.fifo.queue = [] ∧ ∃ w, Takes s.worker msg w) := by
  cases next_cases hn with
  | call hcall hstep =>
      rename_i c m pc arm s' k
      rcases hstep.mailbox with hfifo | ⟨pc₀, msg, rfl, hmsg, hoffer, hpush, rfl⟩
      · exact .inl (by simp only [State.sent, State.mailbox_setCall, hfifo])
      · obtain ⟨hroom, -, -, hacc, -⟩ := Fifo.push_eq_some.mp hpush
        refine .inr ⟨c, m, pc₀, msg, hcall, hmsg, ?_, .inl ⟨arm, rfl, hoffer, hroom⟩⟩
        show s'.mailbox.fifo.accepted.map Prod.snd = _
        rw [hacc, List.map_append]
        rfl
  | work hstep => exact .inl (by simp only [State.sent, hstep.accepted])
  | user ha hstep => exact .inl (by simp only [State.sent, hstep.mailbox])
  | handoff hcall hmsg hoffer htakes hcap hpass =>
      rename_i c arm arm' m pc msg f w
      obtain ⟨hqueue, -, -, hacc, -⟩ := Fifo.pass_eq_some.mp hpass
      refine .inr ⟨c, m, pc, msg, hcall, hmsg, ?_, .inr ⟨hqueue, w, htakes⟩⟩
      show f.accepted.map Prod.snd = _
      rw [hacc, List.map_append]
      rfl
  | _ => exact .inl rfl

theorem sent_mono (hn : next s a = some t) (hmem : msg ∈ s.sent) : msg ∈ t.sent := by
  rcases sent_next hn with hsent | ⟨_, _, _, _, _, _, hsent, _⟩
  · rwa [hsent]
  · rw [hsent]
    exact List.mem_append_left _ hmem

theorem CallStep.accepted_length (h : CallStep s c m arm pc s' k) :
    s.mailbox.fifo.accepted.length ≤ s'.mailbox.fifo.accepted.length := by
  rcases h.mailbox with hfifo | ⟨_, msg, _, _, _, hpush, _⟩
  · rw [hfifo]
  · rw [(Fifo.push_eq_some.mp hpush).2.2.2.1, List.length_append]
    exact Nat.le_add_right _ _

/-- A call with room for its message sends it. -/
theorem next_send {pc : SendPc} {f : Fifo C Unit (Msg C)} (hcall : s.calls c = .run m (.send pc))
    (hmsg : m.msg c = some msg) (hoffer : (pc.offer arm).isSome = true)
    (hpush : s.mailbox.fifo.push c msg = some f) :
    next s (.step c arm) = some ((s.setMailbox (s.mailbox.setFifo f)).setCall c
      (.run m (.send (.drop (.ok ()))))) := by
  cases pc <;> cases arm <;> cases hoffer <;>
    simp [next, hcall, stepCall, hmsg, Chan.sendStep, hpush]

/-- Steps that only `stop` takes. -/
def Pc.ofStop : Pc → Bool
  | .setStopped | .readThread | .join | .close | .closeTx => true
  | _ => false

def Method.isStop : Method C → Bool
  | stop _ => true
  | _ => false

omit [DecidableEq C] in
theorem Method.not_stop (h : m.hasFuture = true) : m.isStop = false := by
  cases m <;> first | rfl | cases h

/-- A call of `m` can be at the step `pc`. -/
def Fits (m : Method C) : Pc → Prop
  | .send _ => True
  | pc => pc.ofStop = m.isStop

omit [DecidableEq C] in
theorem afterEnsure_eq (m : Method C) :
    m = .bind ∧ afterEnsure m = .done m (.ok ()) ∨ afterEnsure m = .run m (.send .clone) := by
  cases m <;> simp [afterEnsure]

omit [DecidableEq C] in
/-- After its send a call goes to the join of `stop`, tells its future, or returns. -/
theorem afterSend_eq (m : Method C) (r : PyResult Unit) :
    m.isStop = true ∧ afterSend m r = .run m .join ∨
      m.hasFuture = true ∧ (∃ msg, afterSend m r = .run m (.setException msg)) ∨
      afterSend m r = .done m r := by
  unfold afterSend
  split <;> simp [Method.isStop, Method.hasFuture]

omit [DecidableEq C] in
theorem Fits.isStop (h : Fits m pc) (hpc : pc.ofStop = true) : m.isStop = true := by
  cases pc <;> first | exact h.symm | cases hpc

/-- A call stays with its method, where the method can be. -/
theorem CallStep.method (h : CallStep s c m arm pc s' (.run m' pc')) :
    m' = m ∧ (Fits m pc → Fits m pc') := by
  generalize hk : Call.run m' pc' = k at h
  cases h with
  | ensured | started =>
      rcases afterEnsure_eq m with ⟨-, hm⟩ | hm <;> rw [hm] at hk <;> cases hk
      exact ⟨rfl, fun _ => trivial⟩
  | unsent =>
      rcases afterSend_eq m (.error closedErr) with ⟨hstop, hm⟩ | ⟨hfuture, msg, hm⟩ | hm <;>
        rw [hm] at hk <;> cases hk
      · exact ⟨rfl, fun _ => hstop.symm⟩
      · exact ⟨rfl, fun _ => (Method.not_stop hfuture).symm⟩
  | sent =>
      rename_i r
      rcases afterSend_eq m r with ⟨hstop, hm⟩ | ⟨hfuture, msg, hm⟩ | hm <;>
        rw [hm] at hk <;> cases hk
      · exact ⟨rfl, fun _ => hstop.symm⟩
      · exact ⟨rfl, fun _ => (Method.not_stop hfuture).symm⟩
  | hasThread =>
      cases hk
      exact ⟨rfl, fun _ => trivial⟩
  | _ => cases hk <;> exact ⟨rfl, id⟩

/-- `close` drops the close signal after the sender. -/
theorem CallStep.to_closeTx (h : CallStep s c m arm pc s' k) (hk : k = .run m' .closeTx) :
    pc = .close := by
  cases h with
  | dropSender => rfl
  | ensured | started =>
      rcases afterEnsure_eq m with ⟨-, hm⟩ | hm <;> rw [hm] at hk <;> cases hk
  | unsent =>
      rcases afterSend_eq m (.error closedErr) with ⟨-, hm⟩ | ⟨-, _, hm⟩ | hm <;> rw [hm] at hk <;>
        cases hk
  | sent =>
      rename_i r
      rcases afterSend_eq m r with ⟨-, hm⟩ | ⟨-, _, hm⟩ | hm <;> rw [hm] at hk <;> cases hk
  | _ => cases hk

theorem CallStep.to_recheck (h : CallStep s c m arm pc s' k) (hw : s'.worker = .recv .recheck) :
    s.worker = .recv .recheck := by
  rcases h.worker with hworker | ⟨-, -, hstart⟩
  · rwa [hworker] at hw
  · rw [hstart] at hw
    cases hw

/-- A call that is at a later step of its send has been at an earlier one. -/
theorem CallStep.to_send {pc' : SendPc} (h : CallStep s c m arm pc s' k)
    (hk : k = .run m' (.send pc')) (hpc' : pc' ≠ .clone) :
    (pc = .send .clone ∧ s'.mailbox = s.mailbox.hold c) ∨
      ∃ pc₀, pc = .send pc₀ ∧ pc₀ ≠ .clone ∧ s'.mailbox.senders = s.mailbox.senders := by
  cases h with
  | cloned => exact .inl ⟨rfl, rfl⟩
  | accepted hmsg hoffer hpush =>
      rename_i pc₀ _ _
      refine .inr ⟨pc₀, rfl, ?_, rfl⟩
      rintro rfl
      cases hoffer
  | waits hpc => exact .inr ⟨_, rfl, by rcases hpc with rfl | rfl <;> simp, rfl⟩
  | givesUp hpc => exact .inr ⟨_, rfl, by rcases hpc with rfl | rfl <;> simp, rfl⟩
  | ensured | started =>
      rcases afterEnsure_eq m with ⟨-, hm⟩ | hm <;> rw [hm] at hk <;> cases hk
      exact (hpc' rfl).elim
  | unsent =>
      rcases afterSend_eq m (.error closedErr) with ⟨-, hm⟩ | ⟨-, _, hm⟩ | hm <;> rw [hm] at hk <;>
        cases hk
  | sent =>
      rename_i r
      rcases afterSend_eq m r with ⟨-, hm⟩ | ⟨-, _, hm⟩ | hm <;> rw [hm] at hk <;> cases hk
  | hasThread =>
      cases hk
      exact (hpc' rfl).elim
  | _ => cases hk

/-- How a call comes to drop its clone: it is about to, it has sent, or its send has failed. -/
theorem CallStep.to_drop {r : PyResult Unit}
    (h : CallStep s c m arm pc s' (.run m' (.send (.drop r)))) :
    (∃ msg, m.msg c = some msg ∧ s'.sent = s.sent ++ [msg] ∧ r = .ok ()) ∨
      ∃ e, r = .error e ∧
        (e = closedErr ∧ s.mailbox.closeTx = false ∨ m.timeout.isSome = true) := by
  generalize hk : Call.run m' (.send (.drop r)) = k at h
  cases h with
  | accepted hmsg hoffer hpush =>
      rename_i pc₀ msg f
      cases hk
      refine .inl ⟨msg, hmsg, ?_, rfl⟩
      show f.accepted.map Prod.snd = _
      rw [(Fifo.push_eq_some.mp hpush).2.2.2.1, List.map_append]
      rfl
  | givesUp hpc he =>
      cases hk
      exact .inr ⟨_, rfl, he⟩
  | ensured | started =>
      rcases afterEnsure_eq m with ⟨-, hm⟩ | hm <;> rw [hm] at hk <;> cases hk
  | unsent =>
      rcases afterSend_eq m (.error closedErr) with ⟨-, hm⟩ | ⟨-, _, hm⟩ | hm <;> rw [hm] at hk <;>
        cases hk
  | sent =>
      rename_i r'
      rcases afterSend_eq m r' with ⟨-, hm⟩ | ⟨-, _, hm⟩ | hm <;> rw [hm] at hk <;> cases hk
  | cloned =>
      split at hk <;> cases hk
  | _ => cases hk

/-- Past its send a `stop` comes from its send, which the mailbox refused or took. -/
theorem CallStep.to_past (h : CallStep s c m arm pc s' (.run m' pc'))
    (hpc' : pc' = .join ∨ pc' = .close ∨ pc' = .closeTx) :
    s.mailbox.sender = false ∨ (m.isStop = true ∧ ∃ r, pc = .send (.drop r)) ∨
      pc = .join ∨ pc = .close := by
  generalize hk : Call.run m' pc' = k at h
  cases h with
  | unsent hsender => exact .inl hsender
  | sent =>
      rename_i r
      rcases afterSend_eq m r with ⟨hstop, hm⟩ | ⟨-, _, hm⟩ | hm <;> rw [hm] at hk <;> cases hk
      · exact .inr (.inl ⟨hstop, r, rfl⟩)
      · rcases hpc' with hpc' | hpc' | hpc' <;> cases hpc'
  | joined => exact .inr (.inr (.inl rfl))
  | dropSender => exact .inr (.inr (.inr rfl))
  | ensured | started =>
      rcases afterEnsure_eq m with ⟨-, hm⟩ | hm <;> rw [hm] at hk <;> cases hk
      rcases hpc' with hpc' | hpc' | hpc' <;> cases hpc'
  | _ =>
      cases hk <;> rcases hpc' with hpc' | hpc' | hpc' <;> cases hpc'

theorem CallStep.to_done {r : PyResult Unit} (h : CallStep s c m arm pc s' (.done m' r)) :
    m' = m ∧ (m = .bind ∨ pc = .send (.drop r) ∨ pc.ofStop = true ∨ r ≠ .ok () ∨
      (s'.future c).done = true) := by
  generalize hk : Call.done m' r = k at h
  cases h with
  | ensured | started =>
      rcases afterEnsure_eq m with ⟨hbind, hm⟩ | hm <;> rw [hm] at hk <;> cases hk
      exact ⟨rfl, .inl hbind⟩
  | unsent =>
      rcases afterSend_eq m (.error closedErr) with ⟨-, hm⟩ | ⟨-, _, hm⟩ | hm <;> rw [hm] at hk <;>
        cases hk
      simp
  | sent =>
      rename_i r'
      rcases afterSend_eq m r' with ⟨-, hm⟩ | ⟨-, _, hm⟩ | hm <;> rw [hm] at hk <;> cases hk
      exact ⟨rfl, .inr (.inl rfl)⟩
  | told hf =>
      cases hk
      refine ⟨rfl, .inr (.inr (.inr (.inr ?_)))⟩
      show (Function.update s.future c _ c).done = true
      rw [Function.update_self]
      exact Future.complete_done hf
  | noThread | joinedEarly | dropCloseTx =>
      cases hk
      exact ⟨rfl, .inr (.inr (.inl rfl))⟩
  | _ =>
      cases hk <;> exact ⟨rfl, .inr (.inr (.inr (.inl (by simp))))⟩

/-- Every call is at a step of its method. -/
def Placed (s : State C E V) : Prop := ∀ c m pc, s.calls c = .run m pc → Fits m pc

theorem Placed.next (h : Placed s) (hn : next s a = some t) : Placed t := by
  intro c m pc hc
  cases calls_next hn hc with
  | same hcall => exact h c m pc hcall
  | begun hact hfirst =>
      rw [hfirst]
      cases m <;> first | rfl | trivial
  | stepped hact hcall hstep ht =>
      obtain ⟨rfl, hfits⟩ := hstep.method
      exact hfits (h c _ _ hcall)
  | met hsend =>
      rw [hsend]
      trivial

theorem placed_run {capacity : Option ℕ} {P : State C E V → Act C E V → Prop}
    {as : List (Act C E V)} (h : RunWith next P (State.init capacity) as s) : Placed s :=
  h.invariant (fun _ _ _ h => (by cases h)) fun _ _ _ hs _ hn => hs.next hn

end Pysync.Actor
