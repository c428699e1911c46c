import Pysync.ActorCalls
import Mathlib.Data.List.Nodup

/-!
Where the messages of an actor are, in every run: each call sends at most one, and what the worker
has taken out is what it has executed followed by what it holds.
-/

namespace Pysync.Actor
open Queue Channel Transition

variable {C E V : Type} {s t s' : State C E V} {a : Act C E V} {c d : C}
variable {m : Method C} {arm : Arm} {pc : Pc} {k : Call C} {msg : Msg C}

/-- The call has had its message `msg` accepted. -/
def Call.Sent (c : C) (msg : Msg C) : Call C → Prop
  | .run m (.send (.drop (.ok _))) => m.msg c = some msg
  | .run m .join | .run m .close | .run m .closeTx => m.msg c = some msg ∧ msg = .stop
  | .done m r => m.msg c = some msg ∧ (msg ≠ .stop → r = .ok ())
  | _ => False

theorem afterSend_sent (h : m.msg c = some msg) : (afterSend m (.ok ())).Sent c msg := by
  cases m with
  | stop timeout =>
      cases h
      exact ⟨rfl, rfl⟩
  | _ => exact ⟨h, fun _ => rfl⟩

theorem CallStep.sent_mono [DecidableEq C] (h : CallStep s c m arm pc s' k)
    (hs : (Call.run m pc).Sent c msg) : k.Sent c msg := by
  cases h with
  | sent =>
      rename_i r
      cases r with
      | ok u => exact afterSend_sent hs
      | error e => exact hs.elim
  | joined => exact hs
  | joinedEarly => exact ⟨hs.1, fun hne => (hne hs.2).elim⟩
  | dropSender => exact hs
  | dropCloseTx => exact ⟨hs.1, fun _ => rfl⟩
  | accepted hmsg hoffer hpush =>
      rename_i pc₀ _ _
      cases pc₀ with
      | drop r => cases hoffer
      | _ => exact hs.elim
  | waits hpc => rcases hpc with rfl | rfl <;> exact hs.elim
  | givesUp hpc => rcases hpc with rfl | rfl <;> exact hs.elim
  | _ => exact hs.elim

theorem not_sent_of_offer {pc : SendPc} (h : (pc.offer arm).isSome = true) :
    ¬ (Call.run m (.send pc)).Sent c msg := by
  cases pc with
  | drop r => cases h
  | _ => exact id

/-- Every call sends at most one message, its own. -/
structure SentOnce (s : State C E V) : Prop where
  sent : ∀ e ∈ s.mailbox.fifo.accepted, (s.calls e.1).Sent e.1 e.2
  once : (s.mailbox.fifo.accepted.map Prod.fst).Nodup

theorem SentOnce.setCall [DecidableEq C] (h : SentOnce s)
    (hacc : t.mailbox.fifo.accepted = s.mailbox.fifo.accepted)
    (hcalls : t.calls = Function.update s.calls c k)
    (hk : ∀ msg, (s.calls c).Sent c msg → k.Sent c msg) : SentOnce t := by
  refine ⟨fun e he => ?_, by rw [hacc]; exact h.once⟩
  rw [hacc] at he
  rw [hcalls]
  by_cases hc : e.1 = c
  · rw [hc, Function.update_self]
    have hsent := h.sent e he
    rw [hc] at hsent
    exact hk _ hsent
  · rw [Function.update_of_ne hc]
    exact h.sent e he

theorem SentOnce.accept [DecidableEq C] (h : SentOnce s) (hnot : ∀ msg, ¬ (s.calls c).Sent c msg)
    (hmsg : m.msg c = some msg)
    (hacc : t.mailbox.fifo.accepted = s.mailbox.fifo.accepted ++ [(c, msg)])
    (hcalls : t.calls = Function.update s.calls c (.run m (.send (.drop (.ok ()))))) :
    SentOnce t := by
  have hfresh : ∀ e ∈ s.mailbox.fifo.accepted, e.1 ≠ c := by
    rintro e he rfl
    exact hnot _ (h.sent e he)
  constructor
  · intro e he
    rw [hacc, List.mem_append, List.mem_singleton] at he
    rw [hcalls]
    rcases he with he | rfl
    · rw [Function.update_of_ne (hfresh e he)]
      exact h.sent e he
    · rw [Function.update_self]
      exact hmsg
  · rw [hacc, List.map_append, List.nodup_append]
    refine ⟨h.once, List.nodup_singleton _, fun d hd d' hd' => ?_⟩
    obtain ⟨e, he, rfl⟩ := List.mem_map.mp hd
    rw [List.map_singleton, List.mem_singleton] at hd'
    exact hd' ▸ hfresh e he

theorem SentOnce.next [DecidableEq C] (h : SentOnce s) (hn : next s a = some t) : SentOnce t := by
  cases next_cases hn with
  | invoke hcall hmay =>
      refine h.setCall rfl rfl fun msg hs => ?_
      rw [hcall] at hs
      exact hs.elim
  | call hcall hstep =>
      rename_i c m pc arm s' k
      have hcalls : (s'.setCall c k).calls = Function.update s.calls c k := by
        rw [← hstep.calls]
        rfl
      rcases hstep.mailbox with hfifo | ⟨pc₀, msg, rfl, hmsg, hoffer, hpush, rfl⟩
      · exact h.setCall (congrArg Fifo.accepted hfifo) hcalls fun msg hs =>
          hstep.sent_mono (hcall ▸ hs)
      · refine h.accept (fun msg hs => ?_) hmsg (Fifo.push_eq_some.mp hpush).2.2.2.1 hcalls
        rw [hcall] at hs
        exact not_sent_of_offer hoffer hs
  | work hstep => exact ⟨by rw [hstep.accepted, hstep.calls]; exact h.sent,
      by rw [hstep.accepted]; exact h.once⟩
  | user ha hstep => exact ⟨by rw [hstep.mailbox, hstep.calls]; exact h.sent,
      by rw [hstep.mailbox]; exact h.once⟩
  | handoff hcall hmsg hoffer htakes hcap hpass =>
      refine h.accept (fun msg hs => ?_) hmsg (Fifo.pass_eq_some.mp hpass).2.2.2.1 rfl
      rw [hcall] at hs
      exact not_sent_of_offer hoffer hs
  | cancel hcall => exact ⟨h.sent, h.once⟩

theorem sentOnce_run [DecidableEq C] {capacity : Option ℕ} {P : State C E V → Act C E V → Prop}
    {as : List (Act C E V)} (h : RunWith next P (State.init capacity) as s) : SentOnce s := by
  have hinit : SentOnce (State.init capacity : State C E V) :=
    ⟨fun e he => (by cases he), List.nodup_nil⟩
  exact h.invariant hinit fun _ _ _ hs _ hn => hs.next hn

/-- A call in the mailbox's history is the caller's own. -/
theorem SentOnce.own (h : SentOnce s) {b : Bool}
    (hmem : (d, .call c b) ∈ s.mailbox.fifo.accepted) : d = c := by
  have hmsg : ∀ m : Method C, m.msg d = some (.call c b) → d = c := by
    intro m hm
    cases m <;> cases hm <;> rfl
  have hsent := h.sent _ hmem
  unfold Call.Sent at hsent
  dsimp only at hsent
  split at hsent
  · exact hmsg _ hsent
  · exact hmsg _ hsent.1
  · exact hmsg _ hsent.1
  · exact hmsg _ hsent.1
  · exact hmsg _ hsent.1
  · exact hsent.elim

/-- No call is in the mailbox's history twice. -/
theorem SentOnce.split (h : SentOnce s) {pre post : List (Msg C)} {b : Bool}
    (hacc : s.mailbox.fifo.accepted.map Prod.snd = pre ++ .call c b :: post) (b' : Bool) :
    Msg.call c b' ∉ pre ∧ Msg.call c b' ∉ post := by
  obtain ⟨l₁, l₂, hl, rfl, hl₂⟩ := List.map_eq_append_iff.mp hacc
  obtain ⟨⟨d, msg⟩, l₃, rfl, hmsg, rfl⟩ := List.map_eq_cons_iff.mp hl₂
  dsimp only at hmsg
  subst hmsg
  have hown : ∀ e b', (e, Msg.call c b') ∈ s.mailbox.fifo.accepted → e = c := fun e b' =>
    h.own
  have hnodup := h.once
  rw [hl, List.map_append, List.map_cons] at hnodup
  have hd : d = c := hown d b (by simp [hl])
  obtain ⟨-, hcons, hdisj⟩ := List.nodup_append.mp hnodup
  constructor
  · intro hmem
    obtain ⟨⟨e, msg⟩, he, rfl⟩ := List.mem_map.mp hmem
    have hec := hown e b' (by simp [hl, he])
    exact hdisj e (List.mem_map.mpr ⟨_, he, rfl⟩) d (by simp) (hec.trans hd.symm)
  · intro hmem
    obtain ⟨⟨e, msg⟩, he, rfl⟩ := List.mem_map.mp hmem
    have hec := hown e b' (by simp [hl, he])
    exact (List.nodup_cons.mp hcons).1 (List.mem_map.mpr ⟨_, he, hec.trans hd.symm⟩)

def Why.holding : Why C → List (Msg C)
  | .sentinel => [.stop]
  | .closed batch => batch
  | .escaped rest => rest

/-- What the worker has taken out and has not executed. -/
def Worker.holding : Worker C E V → List (Msg C)
  | .absent | .onStart | .onStartError | .recv _ => []
  | .drain batch | .items batch => batch
  | .body _ _ rest | .complete _ rest _ | .onError _ _ rest _ | .completeErr _ rest _ => rest
  | .onStop why | .exited why => why.holding

/-- The message that the worker is executing. -/
def Worker.current : Worker C E V → Option (Msg C)
  | .body c future _ | .onError c future _ _ => some (.call c future)
  | .complete c _ _ | .completeErr c _ _ => some (.call c true)
  | _ => none

/-- The sentinel is the last message of the list, if it is one of them. -/
def StopLast (l : List (Msg C)) : Prop := Msg.stop ∉ l.dropLast

/-- Where the sentinel may be among the messages in hand. -/
def Worker.Tidy (w : Worker C E V) : Prop :=
  match w with
  | .drain batch | .onStop (.closed batch) | .exited (.closed batch) => Msg.stop ∉ batch
  | .onStop .sentinel | .exited .sentinel => True
  | w => StopLast w.holding

theorem StopLast.nil : StopLast ([] : List (Msg C)) := List.not_mem_nil

theorem StopLast.of_not_mem {l : List (Msg C)} (h : Msg.stop ∉ l) : StopLast l := fun hmem =>
  h (List.mem_of_mem_dropLast hmem)

theorem StopLast.tail {x : Msg C} {l : List (Msg C)} (h : StopLast (x :: l)) : StopLast l := by
  cases l with
  | nil => simp [StopLast]
  | cons y l => exact fun hmem => h (List.mem_cons_of_mem _ hmem)

theorem StopLast.stop_cons {l : List (Msg C)} (h : StopLast (.stop :: l)) : l = [] := by
  cases l with
  | nil => rfl
  | cons y l => exact (h List.mem_cons_self).elim

theorem stopLast_append_stop {l : List (Msg C)} (h : Msg.stop ∉ l) : StopLast (l ++ [.stop]) := by
  simpa [StopLast] using h

theorem Takes.holding {w w' : Worker C E V} (h : Takes w msg w') :
    w'.holding = w.holding ++ [msg] := by
  cases h <;> rfl

theorem Takes.tidy {w w' : Worker C E V} (h : Takes w msg w') (hw : w.Tidy) : w'.Tidy := by
  cases h with
  | recvStop => trivial
  | recvCall => simp [Worker.Tidy]
  | drainStop => exact stopLast_append_stop hw
  | drainCall =>
      have hbatch : Msg.stop ∉ _ := hw
      simp [Worker.Tidy, hbatch]

theorem Takes.current {w w' : Worker C E V} (h : Takes w msg w') : w'.current = none := by
  cases h <;> rfl

/-- What the worker has taken out is what it has executed and what it holds, in this order. -/
structure Ledger (s : State C E V) : Prop where
  conserved : s.mailbox.fifo.delivered.map Prod.snd = s.executed ++ s.worker.holding
  executed : Msg.stop ∉ s.executed
  tidy : s.worker.Tidy
  current : ∀ msg, s.worker.current = some msg → ∃ pre, s.executed = pre ++ [msg]

theorem Ledger.aside (h : Ledger s)
    (hdel : t.mailbox.fifo.delivered = s.mailbox.fifo.delivered)
    (hexec : t.executed = s.executed) (hworker : t.worker = s.worker) : Ledger t := by
  obtain ⟨hconserved, hexecuted, htidy, hcurrent⟩ := h
  rw [← hdel, ← hexec, ← hworker] at hconserved
  rw [← hexec] at hexecuted hcurrent
  rw [← hworker] at htidy hcurrent
  exact ⟨hconserved, hexecuted, htidy, hcurrent⟩

/-- The worker goes on with the same messages in hand. -/
theorem Ledger.goto (h : Ledger s)
    (hdel : t.mailbox.fifo.delivered = s.mailbox.fifo.delivered)
    (hexec : t.executed = s.executed) (hholding : t.worker.holding = s.worker.holding)
    (htidy : t.worker.Tidy)
    (hcurrent : t.worker.current = none ∨ t.worker.current = s.worker.current) : Ledger t := by
  refine ⟨by rw [hdel, hexec, hholding]; exact h.conserved, hexec ▸ h.executed, htidy, ?_⟩
  intro msg hmsg
  rw [hexec]
  rcases hcurrent with hnone | hsame
  · rw [hnone] at hmsg
    cases hmsg
  · exact h.current msg (hsame ▸ hmsg)

theorem Ledger.take (h : Ledger s) {w : Worker C E V} (htakes : Takes s.worker msg w)
    (hdel : t.mailbox.fifo.delivered = s.mailbox.fifo.delivered ++ [((), msg)])
    (hexec : t.executed = s.executed) (hworker : t.worker = w) : Ledger t := by
  subst hworker
  refine ⟨?_, hexec ▸ h.executed, htakes.tidy h.tidy, fun m hm => ?_⟩
  · rw [hdel, hexec, htakes.holding, List.map_append, h.conserved, List.append_assoc]
    rfl
  · rw [htakes.current] at hm
    cases hm

theorem Ledger.work [DecidableEq C] (h : Ledger s) (hstep : WorkStep s t) : Ledger t := by
  have htidy := h.tidy
  have hconserved := h.conserved
  cases hstep with
  | take htakes hpop => exact h.take htakes (Fifo.pop_eq_some.mp hpop).2.2.2 rfl rfl
  | recvGoto hworker =>
      exact h.goto rfl rfl (by rw [hworker]; rfl) StopLast.nil (.inl rfl)
  | recvClosed hworker =>
      exact h.goto rfl rfl (by rw [hworker]; rfl) List.not_mem_nil (.inl rfl)
  | drainEmpty hworker =>
      rw [hworker] at htidy
      exact h.goto rfl rfl (by rw [hworker]; rfl) (StopLast.of_not_mem htidy) (.inl rfl)
  | drainClosed hworker =>
      rw [hworker] at htidy
      exact h.goto rfl rfl (by rw [hworker]; rfl) htidy (.inl rfl)
  | nextBatch hworker =>
      exact h.goto rfl rfl (by rw [hworker]; rfl) StopLast.nil (.inl rfl)
  | sentinel hworker =>
      rw [hworker] at htidy
      refine h.goto rfl rfl ?_ trivial (.inl rfl)
      rw [hworker]
      exact congrArg (Msg.stop :: ·) (StopLast.stop_cons htidy).symm
  | execute hworker =>
      rename_i c future rest
      rw [hworker] at htidy hconserved
      refine ⟨?_, ?_, StopLast.tail htidy, fun msg hmsg => ?_⟩
      · show _ = (s.executed ++ [Msg.call c future]) ++ rest
        rw [List.append_assoc]
        exact hconserved
      · show Msg.stop ∉ s.executed ++ [Msg.call c future]
        simp [h.executed]
      · cases hmsg
        exact ⟨s.executed, rfl⟩
  | completed hworker =>
      rw [hworker] at htidy
      exact h.goto rfl rfl (by rw [hworker]; rfl) htidy (.inl rfl)
  | uncompleted hworker =>
      rw [hworker] at htidy
      exact h.goto rfl rfl (by rw [hworker]; rfl) htidy (.inr (by rw [hworker]; rfl))
  | completedErr hworker =>
      rw [hworker] at htidy
      exact h.goto rfl rfl (by rw [hworker]; rfl) htidy (.inl rfl)
  | escaped hworker =>
      rw [hworker] at htidy
      exact h.goto rfl rfl (by rw [hworker]; rfl) htidy (.inl rfl)

theorem Ledger.user [DecidableEq C] (h : Ledger s) (hstep : UserStep s t) : Ledger t := by
  have htidy := h.tidy
  cases hstep with
  | onStart hworker =>
      exact h.goto rfl rfl (by rw [hworker]; rfl) StopLast.nil (.inl rfl)
  | ready hworker =>
      refine h.goto rfl rfl ?_ StopLast.nil (.inl rfl)
      rcases hworker with hworker | hworker <;> rw [hworker] <;> rfl
  | returned hworker =>
      rename_i c future rest v
      rw [hworker] at htidy
      cases future with
      | false => exact h.goto rfl rfl (by rw [hworker]; rfl) htidy (.inl rfl)
      | true => exact h.goto rfl rfl (by rw [hworker]; rfl) htidy (.inr (by rw [hworker]; rfl))
  | raised hworker =>
      rw [hworker] at htidy
      exact h.goto rfl rfl (by rw [hworker]; rfl) htidy (.inr (by rw [hworker]; rfl))
  | answered hworker =>
      rename_i c future rest e answer
      rw [hworker] at htidy
      cases future with
      | false => exact h.goto rfl rfl (by rw [hworker]; rfl) htidy (.inl rfl)
      | true => exact h.goto rfl rfl (by rw [hworker]; rfl) htidy (.inr (by rw [hworker]; rfl))
  | onStop hworker =>
      rename_i why
      rw [hworker] at htidy
      refine h.goto rfl rfl (by rw [hworker]; rfl) ?_ (.inl rfl)
      cases why <;> exact htidy

theorem Ledger.next [DecidableEq C] (h : Ledger s) (hn : next s a = some t) : Ledger t := by
  cases next_cases hn with
  | invoke => exact h.aside rfl rfl rfl
  | call hcall hstep =>
      rcases hstep.worker with hworker | ⟨-, habsent, hstart⟩
      · exact h.aside hstep.delivered hstep.executed hworker
      · refine h.goto hstep.delivered hstep.executed ?_ ?_ (.inl ?_)
        · rw [State.worker_setCall, hstart, habsent]
          rfl
        · rw [State.worker_setCall, hstart]
          exact StopLast.nil
        · exact congrArg Worker.current hstart
  | work hstep => exact h.work hstep
  | user ha hstep => exact h.user hstep
  | handoff hcall hmsg hoffer htakes hcap hpass =>
      exact h.take htakes (Fifo.pass_eq_some.mp hpass).2.2.2.2 rfl rfl
  | cancel => exact h.aside rfl rfl rfl

theorem ledger_run [DecidableEq C] {capacity : Option ℕ} {P : State C E V → Act C E V → Prop}
    {as : List (Act C E V)} (h : RunWith next P (State.init capacity) as s) : Ledger s := by
  have hinit : Ledger (State.init capacity : State C E V) :=
    ⟨rfl, List.not_mem_nil, StopLast.nil, fun _ h => (by cases h)⟩
  exact h.invariant hinit fun _ _ _ hs _ hn => hs.next hn

/-- Everything accepted is executed, held by the worker, or waiting in the mailbox. -/
theorem Ledger.accepted (h : Ledger s) : s.mailbox.fifo.accepted.map Prod.snd =
    s.executed ++ s.worker.holding ++ s.mailbox.fifo.queue := by
  rw [s.mailbox.fifo.conserved, h.conserved]

/-- A worker that takes messages has taken no sentinel yet. -/
theorem Ledger.not_sent_stop (h : Ledger s) (hqueue : s.mailbox.fifo.queue = [])
    (hworker : (∃ pc, s.worker = .recv pc) ∨ ∃ batch, s.worker = .drain batch) :
    Msg.stop ∉ s.sent := by
  have hacc := h.accepted
  have htidy := h.tidy
  have hexecuted := h.executed
  rw [State.sent, hacc, hqueue]
  rcases hworker with ⟨pc, hw⟩ | ⟨batch, hw⟩
  · simp [hw, Worker.holding, hexecuted]
  · rw [hw] at htidy
    have hbatch : Msg.stop ∉ batch := htidy
    simp [hw, Worker.holding, hexecuted, hbatch]

theorem Takes.takes {w w' : Worker C E V} (h : Takes w msg w') :
    (∃ pc, w = .recv pc) ∨ ∃ batch, w = .drain batch := by
  cases h <;> simp

end Pysync.Actor
