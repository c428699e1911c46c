import Pysync.ChannelClose

/-!
Draining a closed channel. `send` clones the sender and lets go of the lock, so a send that began
before `close` may put its item in after a receiver has taken its last look and reported the channel
closed and empty. A report is final when no such send is left at that look.
-/

namespace Pysync.Channel
open Queue Transition

variable {Ch C T : Type} [DecidableEq Ch]
variable {s t : State Ch C T} {a : Act Ch C T} {c d : C} {x y : Ch} {chan chan' : Ch → Chan C C T}
variable {k k' : Call Ch C T}

/-- No clone of the sender of `x` is held by anyone who can still use it to send. -/
def NoSenderLeft (s : State Ch C T) (x : Ch) : Prop :=
  ∀ c ∈ (s.chan x).senders, ¬ (s.calls c).CanSend x

/-- A receive looks at the empty queue for the last time, after it has seen the close signal. -/
def LastLook (s : State Ch C T) (x : Ch) : Act Ch C T → Prop
  | .step c _ => (s.calls c).Rechecks x ∧ (s.chan x).fifo.queue = []
  | _ => False

instance [DecidableEq T] (x : Ch) (k : Call Ch C T) : Decidable (k.CanSend x) := by
  unfold Call.CanSend
  split
  · split <;> infer_instance
  all_goals infer_instance

instance [DecidableEq T] (x : Ch) (k : Call Ch C T) : Decidable (k.Rechecks x) := by
  unfold Call.Rechecks
  split <;> infer_instance

instance [DecidableEq T] (s : State Ch C T) (x : Ch) : Decidable (NoSenderLeft s x) := by
  unfold NoSenderLeft
  infer_instance

instance [DecidableEq T] (s : State Ch C T) (x : Ch) (a : Act Ch C T) : Decidable (LastLook s x a) := by
  unfold LastLook
  split <;> infer_instance

/-- Closed, empty, and nobody left to send. -/
structure Dead (s : State Ch C T) (x : Ch) : Prop where
  sender : (s.chan x).sender = false
  queue : (s.chan x).fifo.queue = []
  noSenderLeft : NoSenderLeft s x

/-- A call that can send holds the clone it sends with. -/
theorem Call.Knows.mem (h : k.Knows chan c) (hk : k.CanSend x) :
    c ∈ (chan x).senders ∨ ∃ item r, k = .done (.sendOp x item) (.ok r) := by
  unfold Call.CanSend at hk
  split at hk
  · refine .inl (h.holds x ⟨hk.1, ?_⟩)
    rintro rfl
    exact hk.2
  · exact .inl (h.holds x hk)
  · subst hk
    exact .inr ⟨_, _, rfl⟩
  · exact hk.elim

theorem Dead.not_canSend (h : Dead s x) (hknows : (s.calls c).Knows s.chan c)
    (hop : ∀ item r, s.calls c ≠ .done (.sendOp x item) (.ok r)) : ¬ (s.calls c).CanSend x := by
  intro hk
  rcases hknows.mem hk with hmem | ⟨item, r, hc⟩
  · exact h.noSenderLeft c hmem hk
  · exact hop item r hc

variable [DecidableEq C] [DecidableEq T]

/-- A `select` that begins holds clones of `SendOp`s that are alive. -/
theorem sendsTo_usable {ops : List (Operand Ch C T)} {timeout : Option PyFloat}
    {parsed : List (OpType Ch T)} (hparsed : parseOps ops = some parsed)
    (husable : s.usable (.select ops timeout) = true) (hx : sendsTo parsed x = true) :
    ¬ NoSenderLeft s x := by
  intro hnone
  obtain ⟨op, hop, hsend⟩ := List.any_eq_true.mp hx
  obtain ⟨i, hi⟩ := List.mem_iff_getElem?.mp hop
  cases op with
  | recv y => simp [OpType.isSend] at hsend
  | send y item =>
      obtain ⟨operand, hoi, hp⟩ := parseOps_getElem hparsed hi
      cases operand with
      | recv => cases hp
      | other => cases hp
      | send o z v =>
          cases hp
          obtain rfl : y = x := of_decide_eq_true hsend
          have hlive := List.all_eq_true.mp husable _ (List.mem_of_getElem? hoi)
          obtain ⟨hdone, hmem⟩ := of_decide_eq_true hlive
          exact hnone o hmem (by rw [hdone]; exact Eq.refl y)

/-- A step of a call that cannot send leaves the items of a closed and empty channel alone. -/
theorem OneStep.fifo_eq (hqueue : (s.chan x).fifo.queue = []) (hsender : (s.chan x).sender = false)
    (hk : ¬ (s.calls c).CanSend x) (hcoh : (s.calls c).Coherent) (h : OneStep s c chan' k) :
    (chan' x).fifo = (s.chan x).fifo := by
  cases h.effect hcoh with
  | quiet hfifo => exact hfifo x
  | settled hfifo => exact hfifo x
  | deliver hpop hchan hold hout hmoves hsent hreceived =>
      rename_i y item f m r
      by_cases hxy : x = y
      · subst hxy
        rw [Fifo.pop_eq_none.mpr hqueue] at hpop
        cases hpop
      · rw [hchan, Function.update_of_ne hxy]
  | accept hpush hchan hcan hold hout hmoves hsent hreceived =>
      rename_i y item f m r
      by_cases hxy : x = y
      · subst hxy
        rcases hcan with hopen | hcan
        · rw [hsender] at hopen
          cases hopen
        · exact (hk hcan).elim
      · rw [hchan, Function.update_of_ne hxy]

/-- A call does not become able to send into a channel that is dead. -/
theorem OneStep.not_canSend (hdead : Dead s x) (hk : ¬ (s.calls c).CanSend x)
    (h : OneStep s c chan' k) : ¬ k.CanSend x := by
  have hopen : ∀ {y : Ch}, (s.chan y).sender = true → y ≠ x := by
    rintro y hy rfl
    rw [hdead.sender] at hy
    cases hy
  cases h with
  | start hc husable hstart =>
      rename_i m
      cases hstart with
      | send => exact fun h => h.2
      | once => cases m <;> exact id
      | select hparsed => exact fun h => sendsTo_usable hparsed husable h hdead.noSenderLeft
      | _ => exact id
  | step hc hstep =>
      rw [hc] at hk
      cases hstep with
      | sendGoto hstep =>
          cases hstep with
          | cloned hsender => exact fun h => hopen hsender h.1
          | armed htimeout =>
              refine fun h => hk ⟨h.1, ?_⟩
              rw [htimeout]
              rfl
          | full => exact fun h => hk ⟨h.1, trivial⟩
          | _ => exact fun h => h.2
      | sendOp hsender => exact fun h => hopen hsender h
      | selectGoto hstep =>
          cases hstep with
          | missed => exact hk
          | _ => exact id
      | selectRet hstep => exact id
      | _ => exact id

omit [DecidableEq C] [DecidableEq T] in
theorem Call.Offers.not_canSend {item : T} {b : Bool} {k₀ : Call Ch C T}
    (h : k₀.Offers chan y item b k) (x : Ch) : ¬ k.CanSend x := by
  cases h with
  | send => exact fun h => h.2
  | _ => exact id

omit [DecidableEq C] [DecidableEq T] in
theorem Call.Wants.not_canSend {b : Bool} {k₀ : Call Ch C T} {k' : T → Call Ch C T}
    (h : k₀.Wants y b k') (item : T) (x : Ch) : ¬ (k' item).CanSend x := by
  cases h <;> exact id

/-- A dead channel stays dead, and its histories stay what they are. -/
theorem Dead.next (hdead : Dead s x) (hclosed : ClosedInOrder s)
    (hcoh : ∀ c, (s.calls c).Coherent) (hn : next s a = some t) :
    Dead t x ∧ (t.chan x).fifo = (s.chan x).fifo := by
  have hidle : ∀ {c}, (∀ m r, s.calls c ≠ .done m r) → ¬ (s.calls c).CanSend x := fun hc =>
    hdead.not_canSend (hclosed.knows _) fun _ _ hdone => hc _ _ hdone
  rcases next_cases hn with ⟨c, chan', k, hstep, rfl⟩ |
    ⟨c, d, y, item, b, b', k, k', f, hne, hoffer, hwant, hpass, rfl⟩ | ⟨o, y, item, r, ho, rfl⟩
  · have hk : ¬ (s.calls c).CanSend x := by
      cases hstep with
      | start hc => exact hidle (by simp [hc])
      | step hc => exact hidle (by simp [hc])
    have hfifo := hstep.fifo_eq hdead.queue hdead.sender hk (hcoh c)
    refine ⟨⟨(hstep.follows x).sender hdead.sender, ?_, fun d hd => ?_⟩, hfifo⟩
    · rw [State.chan_setCall, hfifo, hdead.queue]
    · by_cases hdc : d = c
      · subst hdc
        rw [State.calls_setCall_self]
        exact hstep.not_canSend hdead hk
      · rw [State.calls_setCall_ne _ _ hdc]
        exact hdead.noSenderLeft d (((hstep.follows x).senders d hdc).mp hd)
  · have hxy : x ≠ y := by
      rintro rfl
      rcases (hoffer.effect (hcoh c)).1 with hopen | hcan
      · rw [hdead.sender] at hopen
        cases hopen
      · refine hdead.not_canSend (hclosed.knows c) (fun item r hc => ?_) hcan
        rw [hc] at hoffer
        cases hoffer
    have hsame : (((s.setChan y ((s.chan y).setFifo f)).setCall c k).setCall d (k' item)).chan x
        = s.chan x := State.chan_setChan_ne _ _ hxy
    refine ⟨⟨?_, ?_, fun e he => ?_⟩, by rw [hsame]⟩
    · rw [hsame, hdead.sender]
    · rw [hsame, hdead.queue]
    · rw [hsame] at he
      by_cases hed : e = d
      · subst hed
        rw [State.calls_setCall_self]
        exact hwant.not_canSend item x
      · rw [State.calls_setCall_ne _ _ hed]
        by_cases hec : e = c
        · subst hec
          rw [State.calls_setCall_self]
          exact hoffer.not_canSend x
        · rw [State.calls_setCall_ne _ _ hec]
          exact hdead.noSenderLeft e he
  · by_cases hxy : x = y
    · subst hxy
      have hrelease : (s.setChan x ((s.chan x).release o)).chan x = (s.chan x).release o :=
        State.chan_setChan_self _ _ _
      refine ⟨⟨?_, ?_, fun e he => ?_⟩, by rw [hrelease]; rfl⟩
      · rw [hrelease]
        exact hdead.sender
      · rw [hrelease]
        exact hdead.queue
      · rw [hrelease] at he
        exact hdead.noSenderLeft e (Finset.mem_of_mem_erase he)
    · have hsame : (s.setChan y ((s.chan y).release o)).chan x = s.chan x :=
        State.chan_setChan_ne _ _ hxy
      refine ⟨⟨?_, ?_, fun e he => ?_⟩, by rw [hsame]⟩
      · rw [hsame, hdead.sender]
      · rw [hsame, hdead.queue]
      · rw [hsame] at he
        exact hdead.noSenderLeft e he

omit [DecidableEq T] in
/-- A receive concludes that `x` is closed and empty only when the queue is empty and either no clone
is left or it has seen the close signal. -/
theorem CallStep.told {m : Method Ch C T} {pc : Pc Ch T} (h : CallStep s c m pc chan' k)
    (hx : (chan' x).told = true) : (s.chan x).told = true ∨ (s.chan x).fifo.queue = [] ∧
      ((s.chan x).disconnected ∨ (Call.run m pc : Call Ch C T).Rechecks x) := by
  have hkept : (chan' x).told = (s.chan x).told → (s.chan x).told = true ∨
      (s.chan x).fifo.queue = [] ∧
        ((s.chan x).disconnected ∨ (Call.run m pc : Call Ch C T).Rechecks x) :=
    fun hsame => .inl (hsame.symm.trans hx)
  have hconclude : ∀ (y : Ch), (Function.update s.chan y (s.chan y).conclude x).told = true →
      x = y ∨ (s.chan x).told = true := by
    intro y hy
    by_cases hxy : x = y
    · exact .inl hxy
    · right
      rwa [Function.update_of_ne hxy] at hy
  cases h with
  | sendGoto hstep => exact hkept (field_update Chan.told (by cases hstep <;> rfl) x)
  | sendRet hstep => exact hkept (field_update Chan.told (by cases hstep <;> rfl) x)
  | recvGoto hstep => exact hkept (field_update Chan.told (by cases hstep <;> rfl) x)
  | recvRet hstep =>
      cases hstep with
      | disconnected hqueue hdisc =>
          rcases hconclude _ hx with rfl | htold
          · exact .inr ⟨hqueue, .inl hdisc⟩
          · exact .inl htold
      | drained hqueue =>
          rcases hconclude _ hx with rfl | htold
          · exact .inr ⟨hqueue, .inr ⟨rfl, rfl⟩⟩
          · exact .inl htold
      | _ => exact hkept (field_update Chan.told (by rfl) x)
  | trySend hstep => exact hkept (field_update Chan.told (by cases hstep <;> rfl) x)
  | tryRecv hstep =>
      cases hstep with
      | disconnected hqueue hdisc =>
          rcases hconclude _ hx with rfl | htold
          · exact .inr ⟨hqueue, .inl hdisc⟩
          · exact .inl htold
      | _ => exact hkept (field_update Chan.told (by rfl) x)
  | nextGoto hstep => exact hkept (field_update Chan.told (by cases hstep <;> rfl) x)
  | nextItem hstep => exact hkept (field_update Chan.told (by cases hstep; rfl) x)
  | nextErr hstep =>
      cases hstep with
      | disconnected hqueue hdisc =>
          rcases hconclude _ hx with rfl | htold
          · exact .inr ⟨hqueue, .inl hdisc⟩
          · exact .inl htold
      | drained hqueue =>
          rcases hconclude _ hx with rfl | htold
          · exact .inr ⟨hqueue, .inr ⟨rfl, rfl⟩⟩
          · exact .inl htold
      | _ => exact hkept (field_update Chan.told (by rfl) x)
  | nextSender => exact .inl hx
  | nextRaise => exact .inl hx
  | dropSender => exact hkept (field_update Chan.told (by rfl) x)
  | dropCloseTx => exact hkept (field_update Chan.told (by rfl) x)
  | sendOp => exact hkept (field_update Chan.told (by rfl) x)
  | sendOpClosed => exact .inl hx
  | selectGoto hstep =>
      cases hstep with
      | received => exact hkept (field_update Chan.told (by rfl) x)
      | disconnected hop hqueue hdisc =>
          rcases hconclude _ hx with rfl | htold
          · exact .inr ⟨hqueue, .inl hdisc⟩
          · exact .inl htold
      | drained hop hqueue =>
          rcases hconclude _ hx with rfl | htold
          · exact .inr ⟨hqueue, .inr hop⟩
          · exact .inl htold
      | sent => exact hkept (field_update Chan.told (by rfl) x)
      | _ => exact .inl hx
  | selectRet hstep =>
      cases hstep with
      | dropped =>
          left
          unfold releaseAll at hx
          split at hx <;> exact hx

/-- The channel has been found closed and empty for the first time: there is nothing in it, and the
one who found it so either saw no clone left or took a last look. -/
theorem next_told (hn : next s a = some t) (hx : (t.chan x).told = true)
    (hs : (s.chan x).told = false) :
    (s.chan x).fifo.queue = [] ∧ ((s.chan x).disconnected ∨ LastLook s x a) := by
  have hold : (s.chan x).told ≠ true := by simp [hs]
  cases a with
  | invoke c m =>
      obtain ⟨-, -, chan', k, hstart, rfl⟩ := next_invoke hn
      refine (hold ?_).elim
      cases hstart with
      | select =>
          rw [State.chan_setCall] at hx
          dsimp only [holdAll] at hx
          split at hx <;> exact hx
      | _ => exact hx
  | step c arm =>
      obtain ⟨m, pc, chan', k, hc, hstep, rfl⟩ := next_step hn
      rcases hstep.told hx with htold | ⟨hqueue, hwhy⟩
      · exact (hold htold).elim
      · refine ⟨hqueue, hwhy.imp id fun hk => ⟨?_, hqueue⟩⟩
        rwa [hc]
  | handoff c arm d arm' =>
      obtain ⟨y, item, b, b', k, k', f, -, -, -, -, rfl⟩ := next_handoff hn
      refine (hold ?_).elim
      by_cases hxy : x = y
      · subst hxy
        simpa [Chan.setFifo] using hx
      · simpa [State.chan_setChan_ne _ _ hxy] using hx
  | dropOp o =>
      obtain ⟨y, item, r, -, rfl⟩ := next_dropOp hn
      refine (hold ?_).elim
      by_cases hxy : x = y
      · subst hxy
        simpa [Chan.release] using hx
      · simpa [State.chan_setChan_ne _ _ hxy] using hx

omit [DecidableEq C] [DecidableEq T] in
theorem LastLook.signal (hclosed : ClosedInOrder s) (h : LastLook s x a) :
    (s.chan x).closeTx = false := by
  cases a with
  | step c arm => exact (hclosed.knows c).rechecks x h.1
  | _ => exact h.elim

/-- When every last look is taken after the last sender has gone, a channel found closed and empty is
dead. -/
theorem dead_of_told {capacity : Ch → Option ℕ} {as : List (Act Ch C T)}
    (h : RunWith next (fun s a => LastLook s x a → NoSenderLeft s x) (State.init capacity) as s)
    (htold : (s.chan x).told = true) : Dead s x := by
  induction h with
  | nil => cases htold
  | snoc hr hp hn ih =>
      rename_i as s a t
      have hclosed := closedInOrder_run hr.run
      have hcoh := (accounted_run hr.run).coherent
      cases hs : (s.chan x).told with
      | true => exact ((ih hs).next hclosed hcoh hn).1
      | false =>
          obtain ⟨hqueue, hdisc | hlook⟩ := next_told hn htold hs
          · have hnone : NoSenderLeft s x := fun c hc => by
              rw [hdisc.2] at hc
              exact absurd hc (Finset.notMem_empty c)
            exact (Dead.next ⟨hdisc.1, hqueue, hnone⟩ hclosed hcoh hn).1
          · have hsender := hclosed.signal x (hlook.signal hclosed)
            exact (Dead.next ⟨hsender, hqueue, hp hlook⟩ hclosed hcoh hn).1

theorem dead_run {capacity : Ch → Option ℕ} {as bs : List (Act Ch C T)}
    (hrun : Run next (State.init capacity) as s) (hdead : Dead s x) (h : Run next s bs t) :
    Dead t x ∧ (t.chan x).fifo = (s.chan x).fifo := by
  induction h with
  | nil => exact ⟨hdead, rfl⟩
  | snoc hr _ hn ih =>
      have hall := hrun.append hr
      obtain ⟨hdead', hfifo⟩ :=
        ih.1.next (closedInOrder_run hall) (accounted_run hall).coherent hn
      exact ⟨hdead', hfifo.trans ih.2⟩

/-- In every run in which each receiver that takes a last look, after the close signal, at the empty
queue of `x` does so when no call can still send into it: once a receiver has been told that `x` is
closed and empty, `x` never accepts an item again, and every item it has ever accepted has been taken
out. -/
theorem drained_of_noSenderLeft (capacity : Ch → Option ℕ) (x : Ch) (as : List (Act Ch C T))
    (s : State Ch C T)
    (hrun : RunWith next (fun s a => LastLook s x a → NoSenderLeft s x) (State.init capacity) as s)
    (c : C) (hc : (s.calls c).Reports x) (bs : List (Act Ch C T)) (t : State Ch C T)
    (hbs : Run next s bs t) :
    (t.chan x).fifo.accepted = (s.chan x).fifo.accepted ∧
      (s.chan x).fifo.delivered.map Prod.snd = (s.chan x).fifo.accepted.map Prod.snd := by
  have hdead := dead_of_told hrun (((closedInOrder_run hrun.run).knows c).reports x hc)
  obtain ⟨-, hfifo⟩ := dead_run hrun.run hdead hbs
  exact ⟨by rw [hfifo], Fifo.delivered_eq hdead.queue⟩

/-- A send, a close, and two receives, the second of which is told. -/
def drainTrace : List (Act Unit ℕ ℕ) :=
  [.invoke 0 (.send () 7 none), .step 0 .go, .step 0 .go, .step 0 .go,
   .invoke 1 (.close ()), .step 1 .go, .step 1 .go,
   .invoke 2 (.recv () none), .step 2 .go,
   .invoke 3 (.next ()), .step 3 .go, .step 3 .close, .step 3 .go, .step 3 .go, .step 3 .go]

theorem drainTrace_exec :
    (exec next (fun s a => LastLook s () a → NoSenderLeft s ()) (State.init fun _ => none)
      drainTrace).map (fun s => decide (s.calls 3 = .done (.next ()) (.error .stopIteration)))
      = some true := by
  decide +kernel

theorem drained_drainTrace :
    ∃ s : State Unit ℕ ℕ,
      RunWith next (fun s a => LastLook s () a → NoSenderLeft s ()) (State.init fun _ => none)
        drainTrace s ∧
      (∀ bs t, Run next s bs t → (t.chan ()).fifo.accepted = (s.chan ()).fifo.accepted) ∧
      (s.chan ()).fifo.delivered.map Prod.snd = (s.chan ()).fifo.accepted.map Prod.snd := by
  obtain ⟨s, hrun, hs⟩ := exists_runWith_of_exec drainTrace_exec
  have hc : (s.calls 3).Reports () := by
    rw [of_decide_eq_true hs]
    exact Eq.refl ()
  have h := drained_of_noSenderLeft (fun _ => none) () drainTrace s hrun 3 hc
  exact ⟨s, hrun, fun bs t hbs => (h bs t hbs).1, (h [] s .nil).2⟩

/-- A send clones the sender; `close` and a receive that is told that the channel is closed and empty
come before its `try_send`. -/
def lateSendTrace : List (Act Unit ℕ ℕ) :=
  [.invoke 0 (.send () 7 none), .step 0 .go,
   .invoke 1 (.close ()), .step 1 .go, .step 1 .go,
   .invoke 2 (.recv () none), .step 2 .go, .step 2 .close, .step 2 .go]

theorem lateSendTrace_exec :
    (exec next (fun _ _ => True) (State.init fun _ => none) lateSendTrace).map (fun s => decide
      (s.calls 2 = .done (.recv () none) (.error closedAndEmptyErr) ∧
        ((exec next (fun _ _ => True) s [.step 0 .go]).map fun t =>
          decide ((t.chan ()).fifo.accepted ≠ (s.chan ()).fifo.accepted)) = some true))
      = some true := by
  decide +kernel

/-- A report that a channel is closed and empty need not be final. -/
theorem not_always_drained :
    ¬ ∀ (Ch C T : Type) [DecidableEq Ch] [DecidableEq C] [DecidableEq T]
      (capacity : Ch → Option ℕ) (x : Ch) (as : List (Act Ch C T)) (s : State Ch C T),
      Run next (State.init capacity) as s → ∀ c, (s.calls c).Reports x →
      ∀ (bs : List (Act Ch C T)) (t : State Ch C T), Run next s bs t →
        (t.chan x).fifo.accepted = (s.chan x).fifo.accepted := by
  intro h
  obtain ⟨s, hrun, hs⟩ := exists_runWith_of_exec lateSendTrace_exec
  obtain ⟨hc, hlate⟩ := of_decide_eq_true hs
  obtain ⟨t, hrun', ht⟩ := exists_runWith_of_exec hlate
  have htold : (s.calls 2).Reports () := by
    rw [hc]
    exact ⟨rfl, rfl⟩
  exact of_decide_eq_true ht (h _ _ _ _ () _ _ hrun 2 htold _ _ hrun')

end Pysync.Channel
