import Pysync.ActorFutures

/-!
The mailbox of an actor is closed once and for all, by `stop`: what the two halves of `close` and the
clones of the sender say about each other, in every run.
-/

namespace Pysync.Actor
open Queue Channel Transition

variable {C E V : Type} {s t s' : State C E V} {a : Act C E V} {c d : C}
variable {m m' : Method C} {arm : Arm} {pc : Pc} {k : Call C} {msg : Msg C}

theorem Takes.ne_recv {w w' : Worker C E V} (h : Takes w msg w') (pc : RecvPc) :
    w' ≠ .recv pc := by
  cases h <;> simp

/-- What is known about a mailbox that is being closed. -/
structure Closing (s : State C E V) : Prop where
  sender : s.mailbox.closeTx = false → s.mailbox.sender = false
  dropped : ∀ c m, s.calls c = .run m .closeTx → s.mailbox.sender = false
  recheck : s.worker = .recv .recheck → s.mailbox.closeTx = false
  closedAt : s.closedAt = none ↔ s.mailbox.sender = true
  bound : ∀ n, s.closedAt = some n → n ≤ s.mailbox.fifo.accepted.length

theorem Closing.aside (h : Closing s) (hsender : t.mailbox.sender = s.mailbox.sender)
    (hcloseTx : t.mailbox.closeTx = s.mailbox.closeTx) (hclosedAt : t.closedAt = s.closedAt)
    (hacc : s.mailbox.fifo.accepted.length ≤ t.mailbox.fifo.accepted.length)
    (hcalls : ∀ c m, t.calls c = .run m .closeTx → s.calls c = .run m .closeTx)
    (hworker : t.worker = .recv .recheck → s.worker = .recv .recheck ∨ s.mailbox.closeTx = false) :
    Closing t := by
  obtain ⟨hs, hdropped, hrecheck, hclosed, hbound⟩ := h
  refine ⟨by rwa [hcloseTx, hsender], fun c m hc => ?_, fun hw => ?_, by rwa [hclosedAt, hsender],
    fun n hn => ?_⟩
  · rw [hsender]
    exact hdropped c m (hcalls c m hc)
  · rw [hcloseTx]
    exact (hworker hw).elim hrecheck id
  · exact (hbound n (hclosedAt ▸ hn)).trans hacc

variable [DecidableEq C]

theorem Closing.call (h : Closing s) (hcall : s.calls c = .run m pc)
    (hstep : CallStep s c m arm pc s' k) : Closing (s'.setCall c k) := by
  have hcloseTx : pc ≠ .close → ∀ d m', (s'.setCall c k).calls d = .run m' .closeTx →
      s.calls d = .run m' .closeTx := by
    intro hpc d m' hd
    by_cases hdc : d = c
    · rw [hdc, State.calls_setCall_self] at hd
      exact (hpc (hstep.to_closeTx hd)).elim
    · rwa [State.calls_setCall_ne _ _ hdc, hstep.calls] at hd
  have hlength := hstep.accepted_length
  have hrecheck : (s'.setCall c k).worker = .recv .recheck →
      s.worker = .recv .recheck ∨ s.mailbox.closeTx = false := fun hw => .inl (hstep.to_recheck hw)
  cases hstep with
  | dropSender =>
      refine ⟨fun _ => rfl, fun _ _ _ => rfl, fun hw => h.recheck hw, ?_, fun n hn => ?_⟩
      · show s.closedAt.or _ = none ↔ false = true
        cases s.closedAt <;> simp
      · change s.closedAt.or _ = some n at hn
        cases hclosed : s.closedAt with
        | none =>
            rw [hclosed] at hn
            cases hn
            exact le_refl _
        | some n' =>
            rw [hclosed] at hn
            cases hn
            exact h.bound _ hclosed
  | dropCloseTx =>
      have hsender := h.dropped c m hcall
      exact ⟨fun _ => hsender, fun _ _ _ => hsender, fun _ => rfl, h.closedAt, h.bound⟩
  | _ => exact h.aside rfl rfl rfl hlength (hcloseTx (by simp)) hrecheck

theorem Closing.next (h : Closing s) (hn : next s a = some t) : Closing t := by
  cases next_cases hn with
  | invoke hcall hmay =>
      rename_i c m onWorker
      refine h.aside rfl rfl rfl le_rfl (fun d m' hd => ?_) .inl
      by_cases hdc : d = c
      · rw [hdc, State.calls_setCall_self] at hd
        cases m <;> cases hd
      · rwa [State.calls_setCall_ne _ _ hdc] at hd
  | call hcall hstep => exact h.call hcall hstep
  | work hstep =>
      have hlength := (congrArg List.length hstep.accepted).ge
      have hcalls := hstep.calls
      cases hstep with
      | take htakes =>
          exact h.aside rfl rfl rfl hlength (fun _ _ => id) fun hw => (htakes.ne_recv _ hw).elim
      | recvGoto hworker hpc =>
          refine h.aside rfl rfl rfl hlength (fun _ _ => id) fun hw => .inr (hpc ?_)
          cases hw
          rfl
      | _ => exact h.aside rfl rfl rfl hlength (fun _ _ => id) fun hw => (by cases hw)
  | user ha hstep =>
      have hmailbox := hstep.mailbox
      have hcalls := hstep.calls
      refine h.aside (by rw [hmailbox]) (by rw [hmailbox]) (by cases hstep <;> rfl) (by rw [hmailbox])
        (fun c m hc => hcalls ▸ hc) fun hw => ?_
      cases hstep with
      | returned hworker =>
          rename_i c future rest v
          cases future <;> simp [State.setWorker] at hw
      | answered hworker =>
          rename_i c future rest e answer
          cases future <;> simp [State.setWorker] at hw
      | _ => cases hw
  | handoff hcall hmsg hoffer htakes hcap hpass =>
      rename_i c arm arm' m pc msg f w
      refine h.aside rfl rfl rfl ?_ (fun d m' hd => ?_) fun hw => (htakes.ne_recv _ hw).elim
      · show _ ≤ f.accepted.length
        rw [(Fifo.pass_eq_some.mp hpass).2.2.2.1, List.length_append]
        exact Nat.le_add_right _ _
      · by_cases hdc : d = c
        · rw [hdc, State.calls_setCall_self] at hd
          cases hd
        · rwa [State.calls_setCall_ne _ _ hdc] at hd
  | cancel => exact h.aside rfl rfl rfl le_rfl (fun _ _ => id) .inl

theorem closing_run {capacity : Option ℕ} {P : State C E V → Act C E V → Prop}
    {as : List (Act C E V)} (h : RunWith next P (State.init capacity) as s) : Closing s := by
  have hinit : Closing (State.init capacity : State C E V) :=
    ⟨fun h => (by cases h), fun _ _ h => (by cases h), fun h => (by cases h),
      ⟨fun _ => rfl, fun _ => rfl⟩, fun _ h => (by cases h)⟩
  exact h.invariant hinit fun _ _ _ hs _ hn => hs.next hn

/-- A closed mailbox stays closed. -/
theorem sender_next (hn : next s a = some t) (hsender : s.mailbox.sender = false) :
    t.mailbox.sender = false := by
  cases next_cases hn with
  | call hcall hstep =>
      cases hstep with
      | dropSender => rfl
      | _ => exact hsender
  | work hstep => cases hstep <;> exact hsender
  | user ha hstep => rwa [hstep.mailbox]
  | _ => exact hsender

/-- A send that has cloned the sender holds its clone. -/
def Clones (s : State C E V) : Prop :=
  ∀ c m pc, s.calls c = .run m (.send pc) → pc ≠ .clone → c ∈ s.mailbox.senders

/-- Another call's clone is left alone. -/
theorem CallStep.senders (h : CallStep s c m arm pc s' k) (hdc : d ≠ c)
    (hd : d ∈ s.mailbox.senders) : d ∈ s'.mailbox.senders := by
  cases h with
  | cloned => exact Finset.mem_insert_of_mem hd
  | sent => exact Finset.mem_erase.mpr ⟨hdc, hd⟩
  | _ => exact hd

theorem Clones.next (h : Clones s) (hn : next s a = some t) : Clones t := by
  intro d m' pc' hd hpc'
  cases next_cases hn with
  | invoke hcall hmay =>
      rename_i c m onWorker
      by_cases hdc : d = c
      · rw [hdc, State.calls_setCall_self] at hd
        cases m <;> cases hd
        exact (hpc' rfl).elim
      · rw [State.calls_setCall_ne _ _ hdc] at hd
        exact h d m' pc' hd hpc'
  | call hcall hstep =>
      rename_i c m pc arm s' k
      by_cases hdc : d = c
      · subst hdc
        rw [State.calls_setCall_self] at hd
        rcases hstep.to_send hd hpc' with ⟨-, hmailbox⟩ | ⟨pc₀, rfl, hpc₀, hsenders⟩
        · rw [State.mailbox_setCall, hmailbox]
          exact Finset.mem_insert_self _ _
        · rw [State.mailbox_setCall, hsenders]
          exact h d m pc₀ hcall hpc₀
      · rw [State.calls_setCall_ne _ _ hdc, hstep.calls] at hd
        exact hstep.senders hdc (h d m' pc' hd hpc')
  | work hstep =>
      have hcalls := hstep.calls
      rw [hcalls] at hd
      cases hstep <;> exact h d m' pc' hd hpc'
  | user ha hstep =>
      rw [hstep.calls] at hd
      rw [hstep.mailbox]
      exact h d m' pc' hd hpc'
  | handoff hcall hmsg hoffer =>
      rename_i c arm arm' m pc msg f w htakes hcap hpass
      by_cases hdc : d = c
      · subst hdc
        refine h d m pc hcall ?_
        rintro rfl
        cases hoffer
      · rw [State.calls_setCall_ne _ _ hdc] at hd
        exact h d m' pc' hd hpc'
  | cancel => exact h d m' pc' hd hpc'

theorem clones_run {capacity : Option ℕ} {P : State C E V → Act C E V → Prop}
    {as : List (Act C E V)} (h : RunWith next P (State.init capacity) as s) : Clones s :=
  h.invariant (fun _ _ _ h => (by cases h)) fun _ _ _ hs _ hn => hs.next hn

end Pysync.Actor
