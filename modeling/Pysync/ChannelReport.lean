import Pysync.ChannelSelect
import Pysync.ChannelClose

/-!
What a call that raises has seen. Whatever a call reports was decided at one of its own steps, and the
channel was then what the report says: empty and without its sender when a receive finds it closed and
empty, in the course of being closed when a send finds it closed.
-/

namespace Pysync.Channel
open Queue Transition

variable {Ch C T : Type} [DecidableEq Ch] [DecidableEq C]
variable {s t : State Ch C T} {a : Act Ch C T} {c d : C} {x y : Ch} {chan chan' : Ch → Chan C C T}
variable {k k' : Call Ch C T} {m m' : Method Ch C T} {e e' : PyErr}

def Call.method : Call Ch C T → Option (Method Ch C T)
  | .idle => none
  | .run m _ => some m
  | .done m _ => some m

theorem StartStep.method (h : StartStep s c m chan' k) : k.method = some m := by
  cases h <;> rfl

theorem CallStep.method {pc : Pc Ch T} (h : CallStep s c m pc chan' k) : k.method = some m := by
  cases h <;> rfl

omit [DecidableEq Ch] [DecidableEq C] in
theorem Call.Offers.method {item : T} {b : Bool} (h : k.Offers chan x item b k') :
    k'.method = k.method := by
  cases h <;> rfl

omit [DecidableEq Ch] [DecidableEq C] in
theorem Call.Wants.method {b : Bool} {k' : T → Call Ch C T} (h : k.Wants x b k') (item : T) :
    (k' item).method = k.method := by
  cases h <;> rfl

/-- A call that has begun has been invoked, with the method it runs. -/
theorem invoked_run [DecidableEq T] {P : State Ch C T → Act Ch C T → Prop} {capacity : Ch → Option ℕ}
    {as : List (Act Ch C T)} (h : RunWith next P (State.init capacity) as s)
    (hm : (s.calls c).method = some m) : .invoke c m ∈ as := by
  induction h with
  | nil => cases hm
  | snoc _ _ hn ih =>
      rw [List.mem_append]
      cases next_moves hn c with
      | stays hc => exact .inl (ih (hc ▸ hm))
      | begins h₀ ht hstart hc =>
          rw [hc, hstart.method] at hm
          cases hm
          exact .inr (List.mem_singleton_self _)
      | steps h₀ hstep hchan hc =>
          rw [hc, hstep.method] at hm
          exact .inl (ih (by rw [h₀]; exact hm))
      | offers h₀ hoffer hc =>
          rw [hc, hoffer.method] at hm
          exact .inl (ih (by rw [h₀]; exact hm))
      | wants h₀ hwant hc =>
          rw [hc, hwant.method] at hm
          exact .inl (ih (by rw [h₀]; exact hm))

/-- The error a call has settled on. -/
def Call.failure : Call Ch C T → Option (Method Ch C T × PyErr)
  | .done m (.error e) => some (m, e)
  | .run m (.send (.drop (.error e))) => some (m, e)
  | .run m (.next e _) => some (m, e)
  | .run m (.select (.drop _ r)) => match r.toPy with
      | .error e => some (m, e)
      | .ok _ => none
  | _ => none

/-- A call settles on an error. -/
inductive Fails (s : State Ch C T) (c : C) : Method Ch C T → Pc Ch T → PyErr → Prop
  | send {x : Ch} {item : T} {timeout : Option PyFloat} {pc : SendPc} {e : PyErr}
      {ch : Chan C C T} (hstep : Chan.SendStep (s.chan x) c item timeout pc ch
        (.goto (.drop (.error e)))) : Fails s c (.send x item timeout) (.send pc) e
  | refused {x : Ch} {item : T} {timeout : Option PyFloat} (hsender : (s.chan x).sender = false) :
      Fails s c (.send x item timeout) (.send .clone) closedErr
  | recv {x : Ch} {timeout : Option PyFloat} {pc : RecvPc} {e : PyErr} {ch : Chan C C T}
      (hstep : Chan.RecvStep (s.chan x) c timeout pc ch (.ret (.error e))) :
      Fails s c (.recv x timeout) (.recv pc) e
  | next {x : Ch} {pc : RecvPc} {e : PyErr} {ch : Chan C C T}
      (hstep : Chan.RecvStep (s.chan x) c none pc ch (.ret (.error e))) :
      Fails s c (.next x) (.recv pc) e
  | trySend {x : Ch} {item : T} {e : PyErr} {ch : Chan C C T}
      (hstep : Chan.TrySendStep (s.chan x) c item (ch, .error e)) :
      Fails s c (.trySend x item) .once e
  | tryRecv {x : Ch} {e : PyErr} {ch : Chan C C T}
      (hstep : Chan.TryRecvStep (s.chan x) c (ch, .error e)) : Fails s c (.tryRecv x) .once e
  | sendOp {x : Ch} {item : T} (hsender : (s.chan x).sender = false) :
      Fails s c (.sendOp x item) .once closedErr
  | select {ops : List (Operand Ch C T)} {timeout : Option PyFloat} {pc : SelectPc Ch T}
      {parsed : List (OpType Ch T)} {r : SelectResult T} {e : PyErr} {chan' : Ch → Chan C C T}
      (hstep : SelectStep s.chan c pc chan' (.goto (.drop parsed r))) (hr : r.toPy = .error e) :
      Fails s c (.select ops timeout) (.select pc) e

theorem CallStep.fails {pc : Pc Ch T} (h : CallStep s c m pc chan' k)
    (hk : k.failure = some (m', e)) :
    m' = m ∧ (Fails s c m pc e ∨ (Call.run m pc).failure = some (m, e) ∨
      ∃ x e', m = .next x ∧ e = .stopIteration ∧ (Call.run m pc).failure = some (m, e')) := by
  cases h with
  | sendGoto hstep =>
      rename_i pc' ch
      cases pc' with
      | drop r =>
          cases r with
          | ok => cases hk
          | error e =>
              cases hk
              exact ⟨rfl, .inl (.send hstep)⟩
      | _ => cases hk
  | sendRet hstep =>
      rename_i pc ch r
      cases r with
      | ok => cases hk
      | error e =>
          cases hk
          cases hstep with
          | refused hsender => exact ⟨rfl, .inl (.refused hsender)⟩
          | dropped => exact ⟨rfl, .inr (.inl rfl)⟩
  | recvGoto => cases hk
  | recvRet hstep =>
      rename_i pc ch r
      cases r with
      | ok => cases hk
      | error e =>
          cases hk
          exact ⟨rfl, .inl (.recv hstep)⟩
  | trySend hstep =>
      rename_i ch r
      cases r with
      | ok => cases hk
      | error e =>
          cases hk
          exact ⟨rfl, .inl (.trySend hstep)⟩
  | tryRecv hstep =>
      rename_i ch r
      cases r with
      | ok => cases hk
      | error e =>
          cases hk
          exact ⟨rfl, .inl (.tryRecv hstep)⟩
  | nextGoto => cases hk
  | nextItem => cases hk
  | nextErr hstep =>
      cases hk
      exact ⟨rfl, .inl (.next hstep)⟩
  | nextSender =>
      cases hk
      exact ⟨rfl, .inr (.inl rfl)⟩
  | nextRaise he =>
      cases hk
      rcases he with rfl | rfl
      · exact ⟨rfl, .inr (.inr ⟨_, _, rfl, rfl, rfl⟩)⟩
      · exact ⟨rfl, .inr (.inl rfl)⟩
  | dropSender => cases hk
  | dropCloseTx => cases hk
  | sendOp => cases hk
  | sendOpClosed hsender =>
      cases hk
      exact ⟨rfl, .inl (.sendOp hsender)⟩
  | selectGoto hstep =>
      rename_i ops timeout pc pc'
      cases pc' with
      | drop parsed r =>
          cases hr : r.toPy with
          | ok v =>
              rw [Call.failure, hr] at hk
              cases hk
          | error e =>
              rw [Call.failure, hr] at hk
              cases hk
              exact ⟨rfl, .inl (.select hstep hr)⟩
      | _ => cases hk
  | selectRet hstep =>
      cases hstep with
      | dropped =>
          rename_i parsed r
          cases hr : r.toPy with
          | ok v =>
              rw [hr] at hk
              cases hk
          | error e =>
              rw [hr] at hk
              cases hk
              refine ⟨rfl, .inr (.inl ?_)⟩
              rw [Call.failure, hr]

/-- What a call reports is backed by the run, provided that it is backed whenever a call settles on that
report, and that longer runs back no less. -/
theorem reported_run [DecidableEq T] {P : State Ch C T → Act Ch C T → Prop} {capacity : Ch → Option ℕ}
    {as : List (Act Ch C T)} (Tells : Method Ch C T → PyErr → Prop)
    (Backed : List (Act Ch C T) → Method Ch C T → Prop)
    (hmore : ∀ as a m, Backed as m → Backed (as ++ [a]) m)
    (hparse : ∀ ops timeout e, e ∈ selectParseErrs → ¬ Tells (.select ops timeout) e)
    (hnext : ∀ x e e', Tells (.next x) e → Tells (.next x) e')
    (hfails : ∀ as s t arm m pc e, RunWith next P (State.init capacity) as s →
      P s (.step c arm) → next s (.step c arm) = some t → s.calls c = .run m pc →
      (t.calls c).failure = some (m, e) → Fails s c m pc e → Tells m e → Backed as m)
    (h : RunWith next P (State.init capacity) as s) (hc : (s.calls c).failure = some (m, e))
    (htells : Tells m e) : Backed as m := by
  induction h generalizing e with
  | nil => cases hc
  | snoc hr hp hn ih =>
      apply hmore
      cases next_moves hn c with
      | stays hsame =>
          rw [hsame] at hc
          exact ih hc htells
      | begins h₀ ht hstart hk =>
          rw [hk] at hc
          cases hstart with
          | selectErr =>
              cases hc
              rw [ht] at hk
              exact (hparse _ _ _ (start_select_error hk) htells).elim
          | _ => cases hc
      | steps h₀ hstep hchan hk =>
          have hk' := hc
          rw [hk] at hk'
          obtain ⟨rfl, hfail | hold | ⟨x, e', rfl, -, hold⟩⟩ := hstep.fails hk'
          · exact hfails _ _ _ _ _ _ _ hr hp hn h₀ hc hfail htells
          · exact ih (by rw [h₀, hold]) htells
          · exact ih (by rw [h₀, hold]) (hnext _ _ _ htells)
      | offers h₀ hoffer hk =>
          rw [hk] at hc
          cases hoffer <;> cases hc
      | wants h₀ hwant hk =>
          rw [hk] at hc
          cases hwant <;> cases hc

/-- What a call reports has been so at some moment of the call, provided that it is so whenever a call
settles on that report. -/
theorem reported_since [DecidableEq T] {P : State Ch C T → Act Ch C T → Prop} {capacity : Ch → Option ℕ}
    {as : List (Act Ch C T)} (Tells : Method Ch C T → PyErr → Prop)
    (W : State Ch C T → Method Ch C T → Prop)
    (hparse : ∀ ops timeout e, e ∈ selectParseErrs → ¬ Tells (.select ops timeout) e)
    (hnext : ∀ x e e', Tells (.next x) e → Tells (.next x) e')
    (hfails : ∀ as s t arm m pc e, RunWith next P (State.init capacity) as s →
      P s (.step c arm) → next s (.step c arm) = some t → s.calls c = .run m pc →
      (t.calls c).failure = some (m, e) → Fails s c m pc e → Tells m e → W s m)
    (h : RunWith next P (State.init capacity) as s) (hc : (s.calls c).failure = some (m, e))
    (htells : Tells m e) :
    Since next (State.init capacity) as (.invoke c m)
      fun u => (∃ pc, u.calls c = .run m pc) ∧ W u m := by
  refine reported_run Tells (fun as m => Since next (State.init capacity) as (.invoke c m)
    fun u => (∃ pc, u.calls c = .run m pc) ∧ W u m) ?_ hparse hnext ?_ h hc htells
  · exact fun as a m hsince => hsince.snoc a
  · intro as s t arm m pc e hr hp hn h₀ hfailure hfail htells
    have hstart : .invoke c m ∈ as := invoked_run hr (by rw [h₀]; rfl)
    exact Since.now hstart hr ⟨⟨pc, h₀⟩, hfails _ _ _ _ _ _ _ hr hp hn h₀ hfailure hfail htells⟩

/-- A `close` of `x` has begun: it has dropped the sender. -/
def CloseBegun (s : State Ch C T) (x : Ch) : Prop :=
  ∃ c, s.calls c = .run (.close x) .closeTx ∨ ∃ r, s.calls c = .done (.close x) r

/-- A `close` that has begun stays so. -/
theorem CloseBegun.next [DecidableEq T] (h : CloseBegun s x) (hn : next s a = some t) : CloseBegun t x := by
  obtain ⟨c, hc⟩ := h
  refine ⟨c, ?_⟩
  cases next_moves hn c with
  | stays hsame => rwa [hsame]
  | begins h₀ => simp [h₀] at hc
  | steps h₀ hstep hchan hk =>
      rcases hc with hc | ⟨r, hc⟩
      · rw [hc] at h₀
        cases h₀
        cases hstep with
        | dropCloseTx => exact .inr ⟨_, hk⟩
      · rw [hc] at h₀
        cases h₀
  | offers h₀ hoffer hk =>
      rcases hc with hc | ⟨r, hc⟩ <;> rw [hc] at h₀ <;> subst h₀ <;> cases hoffer
  | wants h₀ hwant hk =>
      rcases hc with hc | ⟨r, hc⟩ <;> rw [hc] at h₀ <;> subst h₀ <;> cases hwant

theorem closeBegun_next [DecidableEq T] (h : (s.chan x).sender = false → CloseBegun s x)
    (hn : next s a = some t) (hx : (t.chan x).sender = false) : CloseBegun t x := by
  cases hs : (s.chan x).sender with
  | false => exact (h hs).next hn
  | true =>
      rcases next_cases hn with ⟨c, chan', k, hstep, rfl⟩ |
        ⟨c, d, y, item, b, b', k, k', f, -, -, -, -, rfl⟩ | ⟨o, y, item, r, -, rfl⟩
      · rcases hstep.sender x with hsame | rfl
        · rw [State.chan_setCall] at hx
          simp [hsame, hs] at hx
        · exact ⟨c, .inl (State.calls_setCall_self _ _ _)⟩
      · have hsame : (Function.update s.chan y ((s.chan y).setFifo f) x).sender
            = (s.chan x).sender := field_update Chan.sender (by rfl) x
        simp [State.setChan, hsame, hs] at hx
      · have hsame : (Function.update s.chan y ((s.chan y).release o) x).sender
            = (s.chan x).sender := field_update Chan.sender (by rfl) x
        simp [State.setChan, hsame, hs] at hx

/-- The sender is gone only when a `close` has begun. -/
theorem closeBegun_run [DecidableEq T] {P : State Ch C T → Act Ch C T → Prop} {capacity : Ch → Option ℕ}
    {as : List (Act Ch C T)} (h : RunWith next P (State.init capacity) as s)
    (hx : (s.chan x).sender = false) : CloseBegun s x := by
  induction h with
  | nil => cases hx
  | snoc _ _ hn ih => exact closeBegun_next ih hn hx

/-- The call takes from `x`, or would. -/
def Method.ReceivesFrom (x : Ch) : Method Ch C T → Prop
  | .recv y _ | .tryRecv y | .next y => y = x
  | .select ops _ => .recv x ∈ ops
  | _ => False

/-- The call puts into `x`, or would. -/
def Method.SendsVia (x : Ch) : Method Ch C T → Prop
  | .send y _ _ | .trySend y _ | .sendOp y _ => y = x
  | .select ops _ => ∃ o item, .send o x item ∈ ops
  | _ => False

/-- The error says that a channel is closed and empty; iteration raises nothing else. -/
def Method.TellsEmpty : Method Ch C T → PyErr → Prop
  | .recv _ _, e | .tryRecv _, e => e = closedAndEmptyErr
  | .next _, _ => True
  | .select _ _, e => .error e = (SelectResult.recvClosed : SelectResult T).toPy
  | _, _ => False

/-- The error says that a channel to send into is closed. -/
def Method.TellsClosed : Method Ch C T → PyErr → Prop
  | .send _ _ _, e | .trySend _ _, e | .sendOp _ _, e => e = closedErr
  | .select _ _, e => .error e = (SelectResult.sendClosed : SelectResult T).toPy
  | _, _ => False

/-- A receive that concludes finds nothing, and either no clone of the sender is left or it has seen
the close signal. -/
theorem Chan.RecvStep.concludes {ch ch' : Chan C C T} {timeout : Option PyFloat} {pc : RecvPc}
    (h : Chan.RecvStep ch c timeout pc ch' (.ret (.error e))) (he : e = closedAndEmptyErr) :
    ch.fifo.queue = [] ∧ (ch.disconnected ∨ pc = .recheck) := by
  cases h with
  | rejected htimeout => exact (checkTimeout_ne htimeout he).elim
  | disconnected hqueue hdisc => exact ⟨hqueue, .inl hdisc⟩
  | timedOut => exact absurd he (by decide)
  | drained hqueue => exact ⟨hqueue, .inr rfl⟩

theorem Chan.RecvStep.error_none {ch ch' : Chan C C T} {pc : RecvPc}
    (h : Chan.RecvStep ch c none pc ch' (.ret (.error e))) : e = closedAndEmptyErr := by
  cases h with
  | rejected htimeout => cases htimeout
  | disconnected => rfl
  | timedOut htimeout => cases htimeout
  | drained => rfl

/-- How a `send` that waits, or is about to, comes to raise. -/
inductive SendFails (ch : Chan C C T) (timeout : Option PyFloat) : SendPc → PyErr → Prop
  | rejected {e : PyErr} (htimeout : checkTimeout timeout = .error e) : SendFails ch timeout .arm e
  | closed (hclose : ch.closeTx = false) : SendFails ch timeout .select closedErr
  | timedOut (htimeout : timeout.isSome = true) : SendFails ch timeout .select sendTimeoutErr

theorem Chan.SendStep.fails {ch ch' : Chan C C T} {item : T} {timeout : Option PyFloat}
    {pc : SendPc} (h : Chan.SendStep ch c item timeout pc ch' (.goto (.drop (.error e)))) :
    SendFails ch timeout pc e := by
  generalize hout : (.goto (.drop (.error e)) : Out SendPc Unit) = out at h
  cases h with
  | cloned => split at hout <;> cases hout
  | rejected htimeout =>
      cases hout
      exact .rejected htimeout
  | closed hclose =>
      cases hout
      exact .closed hclose
  | timedOut htimeout =>
      cases hout
      exact .timedOut htimeout
  | _ => cases hout

theorem toPy_sendClosed {r : SelectResult T}
    (h : r.toPy = (SelectResult.sendClosed : SelectResult T).toPy) : r = .sendClosed := by
  cases r <;> simp_all [SelectResult.toPy]

/-- The moment a receive concludes that its channel is closed and empty, the sender is gone and the
buffer is empty. -/
theorem Fails.empty {pc : Pc Ch T} (hclosed : ClosedInOrder s) (hcoh : (s.calls c).Coherent)
    (h₀ : s.calls c = .run m pc) (h : Fails s c m pc e) (htells : m.TellsEmpty e) :
    ∃ x, m.ReceivesFrom x ∧ (s.chan x).sender = false ∧ (s.chan x).fifo.queue = [] := by
  have hknows := hclosed.knows c
  rw [h₀] at hcoh hknows
  cases h with
  | recv hstep =>
      obtain ⟨hqueue, hdisc | rfl⟩ := hstep.concludes htells
      · exact ⟨_, rfl, hdisc.1, hqueue⟩
      · exact ⟨_, rfl, hclosed.signal _ (hknows.rechecks _ ⟨rfl, rfl⟩), hqueue⟩
  | next hstep =>
      obtain ⟨hqueue, hdisc | rfl⟩ := hstep.concludes hstep.error_none
      · exact ⟨_, rfl, hdisc.1, hqueue⟩
      · exact ⟨_, rfl, hclosed.signal _ (hknows.rechecks _ ⟨rfl, rfl⟩), hqueue⟩
  | tryRecv hstep =>
      replace htells : e = closedAndEmptyErr := htells
      cases hstep with
      | disconnected hqueue hdisc => exact ⟨_, rfl, hdisc.1, hqueue⟩
      | empty => exact absurd htells (by decide)
  | select hstep hr =>
      have hparse := hcoh.1 _ _ _ rfl
      obtain rfl := toPy_recvClosed (hr.trans htells)
      cases hstep with
      | disconnected hop hqueue hdisc =>
          exact ⟨_, List.mem_of_getElem? (recv_operand hparse hop), hdisc.1, hqueue⟩
      | drained hop hqueue =>
          exact ⟨_, List.mem_of_getElem? (recv_operand hparse hop),
            hclosed.signal _ (hknows.rechecks _ hop), hqueue⟩
      | gaveUp hr => simp at hr
  | _ => exact htells.elim

/-- The moment a send finds its channel closed, the sender is gone. -/
theorem Fails.closed {pc : Pc Ch T} (hclosed : ClosedInOrder s) (hcoh : (s.calls c).Coherent)
    (h₀ : s.calls c = .run m pc) (h : Fails s c m pc e) (htells : m.TellsClosed e) :
    ∃ x, m.SendsVia x ∧ (s.chan x).sender = false := by
  rw [h₀] at hcoh
  cases h with
  | send hstep =>
      replace htells : e = closedErr := htells
      cases hstep.fails with
      | rejected htimeout =>
          rcases checkTimeout_error htimeout with rfl | rfl <;> exact absurd htells (by decide)
      | closed hclose => exact ⟨_, rfl, hclosed.signal _ hclose⟩
      | timedOut => exact absurd htells (by decide)
  | refused hsender => exact ⟨_, rfl, hsender⟩
  | trySend hstep =>
      replace htells : e = closedErr := htells
      cases hstep with
      | full => exact absurd htells (by decide)
      | refused hsender => exact ⟨_, rfl, hsender⟩
  | sendOp hsender => exact ⟨_, rfl, hsender⟩
  | select hstep hr =>
      have hparse := hcoh.1 _ _ _ rfl
      obtain rfl := toPy_sendClosed (hr.trans htells)
      cases hstep with
      | sendClosed hop hclose =>
          rename_i missed i x item
          obtain ⟨operand, hi, hp⟩ := parseOps_getElem hparse hop
          cases operand with
          | send o y v =>
              cases hp
              exact ⟨_, ⟨o, v, List.mem_of_getElem? hi⟩, hclosed.signal _ hclose⟩
          | recv => cases hp
          | other => cases hp
      | gaveUp hr => simp at hr
  | _ => exact htells.elim

variable [DecidableEq T]

/-- In every run of senders, receivers, selects and closes: when `recv`, with a timeout or without,
`try_recv`, iteration or `select` has reported one of its channels closed and empty, there was a moment
of the call at which `close` had dropped that channel's sender and its buffer was empty; and when a call
that sends has reported one of its channels closed, a `close` of it had begun. -/
theorem closed_reports_sound (capacity : Ch → Option ℕ) (as : List (Act Ch C T))
    (s : State Ch C T) (hrun : Run next (State.init capacity) as s) (c : C) (m : Method Ch C T)
    (e : PyErr) (hc : s.calls c = .done m (.error e)) :
    (m.TellsEmpty e → Since next (State.init capacity) as (.invoke c m) fun u =>
      (∃ pc, u.calls c = .run m pc) ∧ ∃ x, m.ReceivesFrom x ∧ CloseBegun u x ∧
        (u.chan x).sender = false ∧ (u.chan x).fifo.queue = []) ∧
    (m.TellsClosed e → Since next (State.init capacity) as (.invoke c m) fun u =>
      (∃ pc, u.calls c = .run m pc) ∧ ∃ x, m.SendsVia x ∧ CloseBegun u x ∧
        (u.chan x).sender = false) := by
  have hfailure : (s.calls c).failure = some (m, e) := by rw [hc]; rfl
  constructor
  · intro htells
    refine reported_since Method.TellsEmpty (fun u m => ∃ x, m.ReceivesFrom x ∧ CloseBegun u x ∧
      (u.chan x).sender = false ∧ (u.chan x).fifo.queue = []) ?_ ?_ ?_ hrun hfailure htells
    · intro ops timeout e he htells
      simp only [selectParseErrs, List.mem_cons, List.not_mem_nil, or_false] at he
      rcases he with rfl | rfl | rfl <;> simp [Method.TellsEmpty, SelectResult.toPy] at htells
    · exact fun _ _ _ _ => trivial
    · intro as s t arm m pc e hr _ _ h₀ _ hfails htells
      obtain ⟨x, hm, hsender, hqueue⟩ :=
        hfails.empty (closedInOrder_run hr) ((accounted_run hr).coherent c) h₀ htells
      exact ⟨x, hm, closeBegun_run hr hsender, hsender, hqueue⟩
  · intro htells
    refine reported_since Method.TellsClosed (fun u m => ∃ x, m.SendsVia x ∧ CloseBegun u x ∧
      (u.chan x).sender = false) ?_ ?_ ?_ hrun hfailure htells
    · intro ops timeout e he htells
      simp only [selectParseErrs, List.mem_cons, List.not_mem_nil, or_false] at he
      rcases he with rfl | rfl | rfl <;> simp [Method.TellsClosed, SelectResult.toPy] at htells
    · exact fun _ _ _ htells => htells
    · intro as s t arm m pc e hr _ _ h₀ _ hfails htells
      obtain ⟨x, hm, hsender⟩ :=
        hfails.closed (closedInOrder_run hr) ((accounted_run hr).coherent c) h₀ htells
      exact ⟨x, hm, closeBegun_run hr hsender, hsender⟩

/-- A `recv` finds the close signal ready while an item is queued; another `recv` takes the item
before its second look. -/
def racedTrace : List (Act Unit ℕ ℕ) :=
  [.invoke 0 (.recv () (some (.fin 1))), .step 0 .go,
   .invoke 1 (.trySend () 7), .step 1 .go,
   .invoke 2 (.close ()), .step 2 .go, .step 2 .go, .step 0 .close,
   .invoke 3 (.recv () none), .step 3 .go, .step 0 .go]

theorem racedTrace_exec :
    (exec next (fun _ _ => True) (State.init fun _ => none) racedTrace).map (fun s => decide
      (s.calls 0 = .done (.recv () (some (.fin 1))) (.error closedAndEmptyErr)))
      = some true := by
  decide +kernel

theorem closed_reports_sound_racedTrace :
    Since next (State.init fun _ => none) racedTrace (.invoke 0 (.recv () (some (.fin 1))))
      fun u => (∃ pc, u.calls 0 = .run (.recv () (some (.fin 1))) pc) ∧ ∃ x,
        (Method.recv () (some (.fin 1)) : Method Unit ℕ ℕ).ReceivesFrom x ∧ CloseBegun u x ∧
          (u.chan x).sender = false ∧ (u.chan x).fifo.queue = [] := by
  obtain ⟨s, hrun, hs⟩ := exists_runWith_of_exec racedTrace_exec
  exact (closed_reports_sound (fun _ => none) racedTrace s hrun 0 _ _ (of_decide_eq_true hs)).1 rfl

end Pysync.Channel
