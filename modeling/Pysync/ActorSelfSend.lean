import Pysync.ActorStop

/-!
When the worker of an actor blocks on its own mailbox: code of the user that it runs sends there like
anybody else, while nobody but the worker takes messages out.
-/

namespace Pysync.Actor
open Queue Channel Transition

variable {C E V : Type} {s t s' : State C E V} {a : Act C E V} {c d : C}
variable {m m' : Method C} {arm : Arm} {pc pc' : Pc} {pc₀ : SendPc} {k : Call C} {msg : Msg C}
variable {capacity : Option ℕ} {as : List (Act C E V)} {P : State C E V → Act C E V → Prop}

/-- The mailbox is open and has no room. -/
def State.mailboxFull (s : State C E V) : Prop :=
  s.mailbox.fifo.hasRoom = false ∧ s.mailbox.closeTx = true

/-- The worker thread waits in a send for room in its own mailbox. -/
def Blocked (s : State C E V) : Prop :=
  ∃ c m, s.nested = some c ∧ s.calls c = .run m (.send .select) ∧ s.mailboxFull

/-- A send of the worker thread comes upon a mailbox with room, or a closed one; and while a timed
one waits although there is room, nobody else takes the last place. -/
def LeavesRoom (s : State C E V) : Act C E V → Prop
  | .step c arm => ∀ d m pc, s.nested = some d → s.calls d = .run m (.send pc) →
      (c = d → (pc = .trySend ∨ pc = .arm ∧ ∃ q, checkTimeout m.timeout = .ok q) →
        ¬ s.mailboxFull) ∧
      (c ≠ d → pc = .select → s.mailbox.closeTx = true → ∀ m' pc',
        s.calls c = .run m' (.send pc') → (pc'.offer arm).isSome = true →
          ∀ n, s.mailbox.fifo.capacity = some n → s.mailbox.fifo.queue.length + 1 < n)
  | _ => True

/-- A call of the worker thread is in progress while code of the user runs there. -/
def NestedInUser (s : State C E V) : Prop :=
  ∀ c, s.nested = some c → s.worker.inUser = true ∧ ∃ m pc, s.calls c = .run m pc

theorem Takes.not_inUser {w w' : Worker C E V} (h : Takes w msg w') : w.inUser = false := by
  cases h <;> rfl

variable [DecidableEq C]

theorem WorkStep.not_inUser (h : WorkStep s t) : s.worker.inUser = false := by
  cases h with
  | take htakes => exact htakes.not_inUser
  | _ hworker => rw [hworker]; rfl

theorem WorkStep.nested (h : WorkStep s t) : t.nested = s.nested := by
  cases h <;> rfl

theorem UserStep.nested (h : UserStep s t) : t.nested = s.nested := by
  cases h <;> rfl

/-- Code of the user ends only after the call that it makes. -/
theorem user_nested (ha : a.ofUser = true) (hn : next s a = some t) : s.nested = none := by
  cases a <;> try cases ha
  all_goals
    unfold next at hn
    dsimp only at hn
    split at hn
  all_goals first | assumption | cases hn

theorem nested_setCall (s : State C E V) (c : C) (k : Call C) (h : (s.setCall c k).nested = some d) :
    s.nested = some d ∧ (d = c → k.returned = false) := by
  unfold State.setCall at h
  dsimp only at h
  split at h
  · cases h
  · rename_i hkeep
    refine ⟨h, ?_⟩
    rintro rfl
    by_contra hret
    exact hkeep ⟨by simpa using hret, h⟩

theorem NestedInUser.next (h : NestedInUser s) (hn : next s a = some t) : NestedInUser t := by
  intro d hd
  cases next_cases hn with
  | invoke hcall hmay =>
      rename_i c m onWorker
      obtain ⟨hd', -⟩ := nested_setCall _ _ _ hd
      dsimp only at hd'
      split at hd'
      · rename_i hon
        cases hd'
        refine ⟨?_, m, m.first, State.calls_setCall_self _ _ _⟩
        show s.worker.inUser = true
        subst hon
        simp [State.mayInvoke] at hmay
        exact hmay.2.1
      · obtain ⟨huser, m', pc, hrun⟩ := h d hd'
        have hdc : d ≠ c := by
          rintro rfl
          rw [hcall] at hrun
          cases hrun
        exact ⟨huser, m', pc, (State.calls_setCall_ne _ _ hdc).trans hrun⟩
  | call hcall hstep =>
      rename_i c m pc arm s' k
      obtain ⟨hd', hk⟩ := nested_setCall _ _ _ hd
      rw [hstep.nested] at hd'
      obtain ⟨huser, m', pc', hrun⟩ := h d hd'
      constructor
      · rcases hstep.worker with hworker | ⟨-, habsent, -⟩
        · rwa [State.worker_setCall, hworker]
        · rw [habsent] at huser
          cases huser
      · by_cases hdc : d = c
        · subst hdc
          rcases hstep.goes with ⟨pc'', rfl⟩ | ⟨r, rfl⟩
          · exact ⟨m, pc'', State.calls_setCall_self _ _ _⟩
          · cases hk rfl
        · exact ⟨m', pc', (State.calls_setCall_ne _ _ hdc).trans (hstep.calls ▸ hrun)⟩
  | work hstep =>
      rw [hstep.nested] at hd
      have huser := (h d hd).1
      rw [hstep.not_inUser] at huser
      cases huser
  | user ha hstep =>
      rw [hstep.nested, user_nested ha hn] at hd
      cases hd
  | handoff hcall hmsg hoffer htakes =>
      obtain ⟨hd', -⟩ := nested_setCall _ _ _ hd
      have huser := (h d hd').1
      rw [htakes.not_inUser] at huser
      cases huser
  | cancel => exact h d hd

theorem nestedInUser_run (h : RunWith next P (State.init capacity) as s) : NestedInUser s :=
  h.invariant (fun _ h => (by cases h)) fun _ _ _ hs _ hn => hs.next hn

/-- A send comes to wait from its first look at the queue, or when its deadline is set. -/
theorem CallStep.to_select (h : CallStep s c m arm pc s' (.run m' (.send .select))) :
    m' = m ∧ s' = s ∧ (pc = .send .trySend ∨ pc = .send .arm) := by
  generalize hk : Call.run m' (.send .select) = k at h
  cases h with
  | waits hpc =>
      cases hk
      exact ⟨rfl, rfl, hpc.imp (congrArg Pc.send) (congrArg Pc.send)⟩
  | cloned => split at hk <;> cases hk
  | ensured | started => rcases afterEnsure_eq m with ⟨-, hm⟩ | hm <;> rw [hm] at hk <;> cases hk
  | unsent =>
      rcases afterSend_eq m (.error closedErr) with ⟨-, hm⟩ | ⟨-, _, hm⟩ | hm <;> rw [hm] at hk <;>
        cases hk
  | sent =>
      rename_i r
      rcases afterSend_eq m r with ⟨-, hm⟩ | ⟨-, _, hm⟩ | hm <;> rw [hm] at hk <;> cases hk
  | _ => cases hk

/-- A send with a timeout comes to wait only if the timeout is valid. -/
theorem checkTimeout_of_select (hcall : s.calls c = .run m (.send .arm))
    (hn : next s (.step c arm) = some t) (ht : t.calls c = .run m' (.send .select)) :
    ∃ q, checkTimeout m.timeout = .ok q := by
  cases hcheck : checkTimeout m.timeout with
  | ok q => exact ⟨q, rfl⟩
  | error e =>
      simp only [Actor.next, hcall, stepCall] at hn
      split at hn
      · cases hn
      · cases arm <;> simp [Chan.sendStep, hcheck] at hn
        subst hn
        rw [State.calls_setCall_self] at ht
        cases ht

/-- Where a send that finds no room goes. -/
theorem select_of_full (hcall : s.calls c = .run m (.send pc₀))
    (hpc : pc₀ = .trySend ∧ s.mailbox.fifo.hasRoom = false ∨
      pc₀ = .arm ∧ ∃ q, checkTimeout m.timeout = .ok q)
    (hn : next s (.step c arm) = some t) : t = s.setCall c (.run m (.send .select)) := by
  simp only [Actor.next, hcall, stepCall] at hn
  split at hn
  · cases hn
  · rename_i msg hmsg
    rcases hpc with ⟨rfl, hroom⟩ | ⟨rfl, q, hcheck⟩
    · cases arm <;> simp [Chan.sendStep, Fifo.push_eq_none.mpr hroom] at hn
      exact hn.symm
    · cases arm <;> simp [Chan.sendStep, hcheck] at hn
      exact hn.symm

/-- A closed mailbox is not opened again, and keeps its capacity. -/
theorem mailbox_next (hn : next s a = some t) :
    (t.mailbox.closeTx = true → s.mailbox.closeTx = true) ∧
      t.mailbox.fifo.capacity = s.mailbox.fifo.capacity := by
  cases next_cases hn with
  | invoke => exact ⟨id, rfl⟩
  | call hcall hstep =>
      constructor
      · rw [State.mailbox_setCall]
        cases hstep with
        | dropCloseTx => exact fun h => (by cases h)
        | _ => exact id
      · rw [State.mailbox_setCall]
        rcases hstep.mailbox with hfifo | ⟨_, _, _, _, _, hpush, _⟩
        · rw [hfifo]
        · exact (Fifo.push_eq_some.mp hpush).2.1
  | work hstep =>
      cases hstep with
      | take htakes hpop => exact ⟨id, (Fifo.pop_eq_some.mp hpop).1⟩
      | _ => exact ⟨id, rfl⟩
  | user ha hstep => exact ⟨by rw [hstep.mailbox]; exact id, by rw [hstep.mailbox]⟩
  | handoff hcall hmsg hoffer htakes hcap hpass =>
      exact ⟨id, (Fifo.pass_eq_some.mp hpass).2.1⟩
  | cancel => exact ⟨id, rfl⟩

/-- While code of the user runs on the worker thread, the queue changes by sends only. -/
theorem queue_next (huser : s.worker.inUser = true) (hn : next s a = some t) :
    t.mailbox.fifo.queue = s.mailbox.fifo.queue ∨
      ∃ c m pc arm msg, a = .step c arm ∧ s.calls c = .run m (.send pc) ∧
        (pc.offer arm).isSome = true ∧ t.calls c = .run m (.send (.drop (.ok ()))) ∧
        t.mailbox.fifo.queue = s.mailbox.fifo.queue ++ [msg] := by
  cases next_cases hn with
  | invoke => exact .inl rfl
  | call hcall hstep =>
      rename_i c m pc arm s' k
      rcases hstep.mailbox with hfifo | ⟨pc₀, msg, rfl, hmsg, hoffer, hpush, rfl⟩
      · exact .inl (by rw [State.mailbox_setCall, hfifo])
      · exact .inr ⟨c, m, pc₀, arm, msg, rfl, hcall, hoffer, State.calls_setCall_self _ _ _,
          (Fifo.push_eq_some.mp hpush).2.2.1⟩
  | work hstep =>
      rw [hstep.not_inUser] at huser
      cases huser
  | user ha hstep => exact .inl (by rw [hstep.mailbox])
  | handoff hcall hmsg hoffer htakes =>
      rw [htakes.not_inUser] at huser
      cases huser
  | cancel => exact .inl rfl

theorem State.nested_run (s : State C E V) (c : C) (m : Method C) (pc : Pc) :
    (s.setCall c (.run m pc)).nested = s.nested := by
  simp [State.setCall, Call.returned]

/-- A call of the worker thread that is in progress has been before, or has just begun. -/
theorem nested_next (hn : next s a = some t) (hd : t.nested = some d)
    (hrun : s.calls d ≠ .idle) : s.nested = some d := by
  cases next_cases hn with
  | invoke hcall hmay =>
      obtain ⟨hd', -⟩ := nested_setCall _ _ _ hd
      dsimp only at hd'
      split at hd'
      · cases hd'
        exact (hrun hcall).elim
      · exact hd'
  | call hcall hstep =>
      obtain ⟨hd', -⟩ := nested_setCall _ _ _ hd
      rwa [hstep.nested] at hd'
  | work hstep => rwa [hstep.nested] at hd
  | user ha hstep => rwa [hstep.nested] at hd
  | handoff => exact (nested_setCall _ _ _ hd).1
  | cancel => exact hd

/-- A step that leaves room brings no block. -/
theorem not_blocked_of_room (hi : NestedInUser s) (h : ¬ Blocked s) (hroom : LeavesRoom s a)
    (hn : next s a = some t) : ¬ Blocked t := by
  rintro ⟨d, m, hd, hcall, hfull, hopen⟩
  obtain ⟨hopen', hcap⟩ := mailbox_next hn
  cases calls_next hn hcall with
  | begun hact hfirst => cases m <;> cases hfirst
  | met hsend => cases hsend
  | stepped hact hcall' hstep ht =>
      obtain ⟨rfl, hsame, hpc⟩ := hstep.to_select
      have hnested := nested_next hn hd (by simp [hcall'])
      have hfull' : s.mailboxFull := by
        rw [ht, hsame] at hfull hopen
        exact ⟨hfull, hopen⟩
      subst hact
      rcases hpc with rfl | rfl
      · exact (hroom d _ _ hnested hcall').1 rfl (.inl rfl) hfull'
      · exact (hroom d _ _ hnested hcall').1 rfl
          (.inr ⟨rfl, checkTimeout_of_select hcall' hn hcall⟩) hfull'
  | same hs =>
      have hnested := nested_next hn hd (by simp [hs])
      obtain ⟨n, hn', hle⟩ := Fifo.hasRoom_eq_false.mp hfull
      rw [hcap] at hn'
      rcases queue_next (hi d hnested).1 hn with
        hqueue | ⟨c, m', pc, arm, msg, rfl, hc, hoffer, ht, hqueue⟩
      · rw [hqueue] at hle
        exact h ⟨d, m, hnested, hs, Fifo.hasRoom_eq_false.mpr ⟨n, hn', hle⟩, hopen' hopen⟩
      · have hcd : c ≠ d := by
          rintro rfl
          rw [hcall] at ht
          cases ht
        have hlt := (hroom d m .select hnested hs).2 hcd rfl (hopen' hopen) m' pc hc hoffer n hn'
        rw [hqueue, List.length_append, List.length_singleton] at hle
        omega

/-- A step that takes the last room from the worker thread brings a block. -/
theorem room_of_not_blocked (h : ¬ Blocked s) (ht : ¬ Blocked t) (hn : next s a = some t) :
    LeavesRoom s a := by
  cases a with
  | step c arm =>
      intro d m pc hnested hcall
      refine ⟨?_, ?_⟩
      · rintro rfl hpc hfull
        refine ht ?_
        obtain rfl := select_of_full hcall (hpc.imp (fun hp => ⟨hp, hfull.1⟩) id) hn
        exact ⟨c, m, (State.nested_run _ _ _ _).trans hnested, State.calls_setCall_self _ _ _, hfull⟩
      · rintro hcd rfl hopen m' pc' hc hoffer n hcap
        by_contra hlast
        have hroom : s.mailbox.fifo.hasRoom = true := by
          by_contra hfull
          exact h ⟨d, m, hnested, hcall, by simpa using hfull, hopen⟩
        cases hmsg : m'.msg c with
        | none =>
            simp only [Actor.next, hc, stepCall, hmsg] at hn
            cases hn
        | some msg =>
            cases hpush : s.mailbox.fifo.push c msg with
            | none =>
                rw [Fifo.push_eq_none.mp hpush] at hroom
                cases hroom
            | some f =>
                rw [next_send hc hmsg hoffer hpush] at hn
                cases hn
                obtain ⟨-, hcapf, hqueue, -, -⟩ := Fifo.push_eq_some.mp hpush
                refine ht ⟨d, m, (State.nested_run _ _ _ _).trans hnested,
                  (State.calls_setCall_ne _ _ hcd.symm).trans hcall, ?_, hopen⟩
                show f.hasRoom = false
                refine Fifo.hasRoom_eq_false.mpr ⟨n, hcapf.trans hcap, ?_⟩
                rw [hqueue, List.length_append, List.length_singleton]
                omega
  | _ => trivial

/-- Under any mailbox, any clients, and any calls that code of the user makes on the worker thread:
the worker never blocks on its own mailbox, if and only if its sends find room there. -/
theorem not_blocked_iff (capacity : Option ℕ) (as : List (Act C E V)) (s : State C E V)
    (hrun : Run next (State.init capacity) as s) :
    (∀ u, Visits next (State.init capacity) as u → ¬ Blocked u) ↔
      RunWith next LeavesRoom (State.init capacity) as s := by
  have hinit : ¬ Blocked (State.init capacity : State C E V) := by
    rintro ⟨c, m, hc, -⟩
    cases hc
  have hiff := always_iff_runWith (P := LeavesRoom) (Q := fun u => ¬ Blocked u) hinit
    (fun as s a t hr hs _ hn => ⟨fun hroom => not_blocked_of_room (nestedInUser_run hr) hs hroom hn,
      fun ht => room_of_not_blocked hs ht hn⟩) hrun
  exact hiff.trans ⟨fun h => h.mono fun _ _ h => h.2, fun h => h.mono fun _ _ h => ⟨trivial, h⟩⟩

/-- A mailbox for one message. While the first call runs a second one is queued, and the method body
stops its own actor. -/
def suicideTrace : List (Act ℕ Unit ℕ) :=
  [.invoke 0 .call false, .step 0 .go, .step 0 .go, .step 0 .go, .step 0 .go, .step 0 .go,
   .step 0 .go, .onStart false, .work .go, .work .go, .work .go,
   .invoke 1 .call false, .step 1 .go, .step 1 .go, .step 1 .go, .step 1 .go, .step 1 .go,
   .invoke 2 (.stop none) true, .step 2 .go, .step 2 .go, .step 2 .go, .step 2 .go]

theorem suicideTrace_exec :
    (exec next (fun _ _ => True) (State.init (some 1)) suicideTrace).map (fun s => decide
      (s.worker = .body 0 true [] ∧ s.nested = some 2 ∧ s.mailbox.fifo.hasRoom = false ∧
        s.mailbox.closeTx = true ∧ s.calls 2 = .run (.stop none) (.send .select))) = some true := by
  decide +kernel

theorem not_blocked_iff_suicideTrace :
    ∃ s, Run next (State.init (some 1)) suicideTrace s ∧
      ((∀ u, Visits next (State.init (some 1)) suicideTrace u → ¬ Blocked u) ↔
        RunWith next LeavesRoom (State.init (some 1)) suicideTrace s) := by
  obtain ⟨s, hrun, -⟩ := exists_runWith_of_exec suicideTrace_exec
  exact ⟨s, hrun, not_blocked_iff (some 1) suicideTrace s hrun⟩

/-- A method that stops its own actor can block the worker for ever. -/
theorem not_never_blocked :
    ¬ ∀ (C E V : Type) [DecidableEq C] (capacity : Option ℕ) (as : List (Act C E V))
      (s : State C E V), Run next (State.init capacity) as s → ¬ Blocked s := by
  intro h
  obtain ⟨s, hrun, hs⟩ := exists_runWith_of_exec suicideTrace_exec
  obtain ⟨-, hnested, hroom, hopen, hcall⟩ := of_decide_eq_true hs
  exact h ℕ Unit ℕ (some 1) _ s hrun ⟨2, _, hnested, hcall, hroom, hopen⟩

end Pysync.Actor
