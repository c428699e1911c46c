import Pysync.ChannelDelivery

/-!
What closing a channel guarantees at every moment of every run: the sender goes before the close
signal, neither comes back, and whoever can still send holds a clone that keeps the queue connected.
-/

namespace Pysync.Channel
open Queue Transition

variable {Ch C T : Type} [DecidableEq Ch]
variable {s t : State Ch C T} {a : Act Ch C T} {c d : C} {x y : Ch} {chan chan' : Ch → Chan C C T}
variable {k k' : Call Ch C T}

/-- A step of call `c` reopens nothing and touches no clone but its own. -/
structure Follows (c : C) (ch ch' : Chan C C T) : Prop where
  sender : ch.sender = false → ch'.sender = false
  closeTx : ch.closeTx = false → ch'.closeTx = false
  senders : ∀ d, d ≠ c → (d ∈ ch'.senders ↔ d ∈ ch.senders)
  told : ch.told = true → ch'.told = true

theorem Follows.refl (ch : Chan C C T) : Follows c ch ch :=
  ⟨id, id, fun _ _ => Iff.rfl, id⟩

theorem follows_setFifo (ch : Chan C C T) (f : Fifo C C T) : Follows c ch (ch.setFifo f) :=
  ⟨id, id, fun _ _ => Iff.rfl, id⟩

theorem follows_conclude (ch : Chan C C T) : Follows c ch ch.conclude :=
  ⟨id, id, fun _ _ => Iff.rfl, fun _ => rfl⟩

theorem follows_dropSender (ch : Chan C C T) : Follows c ch ch.dropSender :=
  ⟨fun _ => rfl, id, fun _ _ => Iff.rfl, id⟩

theorem follows_dropCloseTx (ch : Chan C C T) : Follows c ch ch.dropCloseTx :=
  ⟨id, fun _ => rfl, fun _ _ => Iff.rfl, id⟩

variable [DecidableEq C]

theorem follows_hold (ch : Chan C C T) : Follows c ch (ch.hold c) :=
  ⟨id, id, fun d hd => by simp [Chan.hold, hd], id⟩

theorem follows_release (ch : Chan C C T) : Follows c ch (ch.release c) :=
  ⟨id, id, fun d hd => by simp [Chan.release, hd], id⟩

omit [DecidableEq C] in
theorem follows_update {ch : Chan C C T} (h : Follows c (chan x) ch) (y : Ch) :
    Follows c (chan y) (Function.update chan x ch y) := by
  by_cases hy : y = x
  · subst hy
    rwa [Function.update_self]
  · rw [Function.update_of_ne hy]
    exact .refl _

theorem Chan.SendStep.follows {ch ch' : Chan C C T} {item : T} {timeout : Option PyFloat}
    {pc : SendPc} {out : Out SendPc Unit} (h : Chan.SendStep ch c item timeout pc ch' out) :
    Follows c ch ch' := by
  cases h with
  | cloned => exact follows_hold ch
  | accepted => exact follows_setFifo ch _
  | dropped => exact follows_release ch
  | _ => exact .refl ch

theorem Chan.RecvStep.follows {ch ch' : Chan C C T} {timeout : Option PyFloat} {pc : RecvPc}
    {out : Out RecvPc T} (h : Chan.RecvStep ch c timeout pc ch' out) : Follows c ch ch' := by
  cases h with
  | received => exact follows_setFifo ch _
  | disconnected => exact follows_conclude ch
  | drained => exact follows_conclude ch
  | _ => exact .refl ch

theorem SelectStep.follows {pc : SelectPc Ch T} {out : Out (SelectPc Ch T) (Ret T)}
    (h : SelectStep chan c pc chan' out) (x : Ch) : Follows c (chan x) (chan' x) := by
  cases h with
  | received => exact follows_update (follows_setFifo _ _) x
  | disconnected => exact follows_update (follows_conclude _) x
  | drained => exact follows_update (follows_conclude _) x
  | sent => exact follows_update (follows_setFifo _ _) x
  | dropped =>
      unfold releaseAll
      split
      · exact follows_release _
      · exact .refl _
  | _ => exact .refl _

theorem CallStep.follows [DecidableEq T] {m : Method Ch C T} {pc : Pc Ch T} (h : CallStep s c m pc chan' k)
    (x : Ch) : Follows c (s.chan x) (chan' x) := by
  cases h with
  | sendGoto hstep => exact follows_update hstep.follows x
  | sendRet hstep => exact follows_update hstep.follows x
  | recvGoto hstep => exact follows_update hstep.follows x
  | recvRet hstep => exact follows_update hstep.follows x
  | trySend hstep =>
      cases hstep with
      | accepted => exact follows_update (follows_setFifo _ _) x
      | _ => exact follows_update (.refl _) x
  | tryRecv hstep =>
      cases hstep with
      | received => exact follows_update (follows_setFifo _ _) x
      | disconnected => exact follows_update (follows_conclude _) x
      | empty => exact follows_update (.refl _) x
  | nextGoto hstep => exact follows_update hstep.follows x
  | nextItem hstep => exact follows_update hstep.follows x
  | nextErr hstep => exact follows_update hstep.follows x
  | nextSender => exact .refl _
  | nextRaise => exact .refl _
  | dropSender => exact follows_update (follows_dropSender _) x
  | dropCloseTx => exact follows_update (follows_dropCloseTx _) x
  | sendOp => exact follows_update (follows_hold _) x
  | sendOpClosed => exact .refl _
  | selectGoto hstep => exact hstep.follows x
  | selectRet hstep => exact hstep.follows x

theorem OneStep.follows [DecidableEq T] (h : OneStep s c chan' k) (x : Ch) :
    Follows c (s.chan x) (chan' x) := by
  cases h with
  | start _ _ hstart =>
      cases hstart with
      | select =>
          unfold holdAll
          split
          · exact follows_hold _
          · exact .refl _
      | _ => exact .refl _
  | step _ hstep => exact hstep.follows x

/-- The call holds a clone of the sender of `x`. -/
def Call.Holds (x : Ch) : Call Ch C T → Prop
  | .run (.send y _ _) (.send pc) => y = x ∧ pc ≠ .clone
  | .run (.select _ _) (.select pc) => sendsTo pc.parsed x = true
  | _ => False

/-- The call has taken the close arm of a receive on `x`. -/
def Call.Rechecks (x : Ch) : Call Ch C T → Prop
  | .run (.recv y _) (.recv pc) => y = x ∧ pc = .recheck
  | .run (.next y) (.recv pc) => y = x ∧ pc = .recheck
  | .run (.select _ _) (.select (.recheck parsed i)) => parsed[i]? = some (.recv x)
  | _ => False

/-- The call has learnt that `x` is closed and empty; a `select` that raises does not say for which of
its operations. -/
def Call.Reports (x : Ch) : Call Ch C T → Prop
  | .done (.recv y _) (.error e) => y = x ∧ e = closedAndEmptyErr
  | .done (.tryRecv y) (.error e) => y = x ∧ e = closedAndEmptyErr
  | .run (.next y) (.next _ _) => y = x
  | .done (.next y) (.error _) => y = x
  | .run (.select ops _) (.select (.drop _ r)) =>
      r = .recvClosed ∧ ∀ y, .recv y ∈ ops → y = x
  | .done (.select ops _) (.error e) =>
      .error e = (SelectResult.recvClosed : SelectResult T).toPy ∧ ∀ y, .recv y ∈ ops → y = x
  | _ => False

/-- The call is a `close` that has dropped the sender of `x`. -/
def Call.Closing (x : Ch) : Call Ch C T → Prop
  | .run (.close y) .closeTx => y = x
  | _ => False

/-- The call is a `close` of `x` that has returned. -/
def Call.Closed (x : Ch) : Call Ch C T → Prop
  | .done (.close y) (.ok _) => y = x
  | _ => False

/-- What the progress of call `c` says about the channels. -/
structure Call.Knows (chan : Ch → Chan C C T) (c : C) (k : Call Ch C T) : Prop where
  holds : ∀ x, k.Holds x → c ∈ (chan x).senders
  rechecks : ∀ x, k.Rechecks x → (chan x).closeTx = false
  reports : ∀ x, k.Reports x → (chan x).told = true
  closing : ∀ x, k.Closing x → (chan x).sender = false
  closed : ∀ x, k.Closed x → (chan x).closeTx = false

omit [DecidableEq C] in
theorem Call.Knows.follow (h : k.Knows chan d) (hd : d ≠ c)
    (hf : ∀ x, Follows c (chan x) (chan' x)) : k.Knows chan' d where
  holds x hk := ((hf x).senders d hd).mpr (h.holds x hk)
  rechecks x hk := (hf x).closeTx (h.rechecks x hk)
  reports x hk := (hf x).told (h.reports x hk)
  closing x hk := (hf x).sender (h.closing x hk)
  closed x hk := (hf x).closeTx (h.closed x hk)

theorem checkTimeout_error {timeout : Option PyFloat} {e : PyErr}
    (h : checkTimeout timeout = .error e) :
    e = .valueError "Timeout must be non-negative" ∨ e = .panic := by
  cases timeout with
  | none => cases h
  | some t =>
      simp only [checkTimeout, PyFloat.check] at h
      split at h
      · cases h
        exact .inl rfl
      · cases hsecs : t.fromSecs with
        | ok q => simp [hsecs, Except.map] at h
        | error e' =>
            rw [hsecs, PyFloat.fromSecs_error hsecs] at h
            cases h
            exact .inr rfl

theorem checkTimeout_ne {timeout : Option PyFloat} {e : PyErr}
    (h : checkTimeout timeout = .error e) : e ≠ closedAndEmptyErr := by
  rcases checkTimeout_error h with rfl | rfl <;> decide

theorem Chan.SendStep.holds {ch ch' : Chan C C T} {item : T} {timeout : Option PyFloat}
    {pc pc' : SendPc} (h : Chan.SendStep ch c item timeout pc ch' (.goto pc'))
    (hpc : pc ≠ .clone → c ∈ ch.senders) : c ∈ ch'.senders := by
  cases h with
  | cloned => exact Finset.mem_insert_self _ _
  | accepted hsend => rcases hsend with rfl | rfl <;> exact hpc (by simp)
  | _ => exact hpc (by simp)

theorem Chan.RecvStep.recheck {ch ch' : Chan C C T} {timeout : Option PyFloat} {pc : RecvPc}
    (h : Chan.RecvStep ch c timeout pc ch' (.goto .recheck)) : ch'.closeTx = false := by
  cases h with
  | closed hclose => exact hclose

theorem Chan.RecvStep.told {ch ch' : Chan C C T} {timeout : Option PyFloat} {pc : RecvPc}
    {e : PyErr} (h : Chan.RecvStep ch c timeout pc ch' (.ret (.error e)))
    (he : e = closedAndEmptyErr) : ch'.told = true := by
  cases h with
  | rejected htimeout => exact (checkTimeout_ne htimeout he).elim
  | disconnected => rfl
  | timedOut => simp [recvTimeoutErr, closedAndEmptyErr] at he
  | drained => rfl

/-- Without a timeout, `recv` raises for no other reason. -/
theorem Chan.RecvStep.told_none {ch ch' : Chan C C T} {pc : RecvPc} {e : PyErr}
    (h : Chan.RecvStep ch c none pc ch' (.ret (.error e))) : ch'.told = true := by
  cases h with
  | rejected htimeout => cases htimeout
  | disconnected => rfl
  | timedOut htimeout => cases htimeout
  | drained => rfl

theorem SelectStep.senders_eq {pc pc' : SelectPc Ch T}
    (h : SelectStep chan c pc chan' (.goto pc')) (x : Ch) :
    (chan' x).senders = (chan x).senders := by
  cases h with
  | received => exact field_update Chan.senders (by rfl) x
  | disconnected => exact field_update Chan.senders (by rfl) x
  | drained => exact field_update Chan.senders (by rfl) x
  | sent => exact field_update Chan.senders (by rfl) x
  | _ => rfl

theorem toPy_recvClosed {r : SelectResult T}
    (h : r.toPy = (SelectResult.recvClosed : SelectResult T).toPy) : r = .recvClosed := by
  cases r <;> simp_all [SelectResult.toPy]

omit [DecidableEq C] in
theorem knows_recv {timeout : Option PyFloat} {pc : RecvPc}
    (h : pc = .recheck → (chan x).closeTx = false) :
    (Call.run (.recv x timeout) (.recv pc)).Knows chan c where
  holds _ hk := hk.elim
  rechecks y hk := by
    obtain ⟨rfl, hpc⟩ := hk
    exact h hpc
  reports _ hk := hk.elim
  closing _ hk := hk.elim
  closed _ hk := hk.elim

omit [DecidableEq C] in
theorem knows_next {pc : RecvPc} (h : pc = .recheck → (chan x).closeTx = false) :
    (Call.run (.next x) (.recv pc)).Knows chan c where
  holds _ hk := hk.elim
  rechecks y hk := by
    obtain ⟨rfl, hpc⟩ := hk
    exact h hpc
  reports _ hk := hk.elim
  closing _ hk := hk.elim
  closed _ hk := hk.elim

omit [DecidableEq C] in
theorem knows_start {m : Method Ch C T} : (Call.run m .once).Knows chan c where
  holds _ hk := by cases m <;> exact hk.elim
  rechecks _ hk := by cases m <;> exact hk.elim
  reports _ hk := by cases m <;> exact hk.elim
  closing _ hk := by cases m <;> exact hk.elim
  closed _ hk := hk.elim

omit [DecidableEq C] in
/-- What is known when a call has returned is what it says. -/
theorem knows_done {m : Method Ch C T} {r : PyResult (Ret T)}
    (hreports : ∀ x, (Call.done m r : Call Ch C T).Reports x → (chan x).told = true)
    (hclosed : ∀ x, (Call.done m r : Call Ch C T).Closed x → (chan x).closeTx = false) :
    (Call.done m r).Knows chan c where
  holds _ hk := hk.elim
  rechecks _ hk := hk.elim
  reports := hreports
  closing _ hk := hk.elim
  closed := hclosed

theorem StartStep.knows {m : Method Ch C T} (h : StartStep s c m chan' k) : k.Knows chan' c := by
  cases h with
  | send =>
      exact ⟨fun _ hk => hk.2.elim rfl, fun _ => False.elim, fun _ => False.elim,
        fun _ => False.elim, fun _ => False.elim⟩
  | recv =>
      refine knows_recv fun hpc => ?_
      unfold RecvPc.start at hpc
      split at hpc <;> cases hpc
  | next => exact knows_next fun hpc => by cases hpc
  | once => exact knows_start
  | selectErr he =>
      exact knows_done (fun _ hk => (he hk.1).elim) fun _ => False.elim
  | select hparsed =>
      refine ⟨fun x hk => ?_, fun _ => False.elim, fun _ => False.elim, fun _ => False.elim,
        fun _ => False.elim⟩
      rename_i parsed
      replace hk : sendsTo parsed x = true := hk
      rw [holdAll, if_pos hk]
      exact Finset.mem_insert_self _ _

theorem knows_selectGoto {ops : List (Operand Ch C T)} {timeout : Option PyFloat}
    {pc pc' : SelectPc Ch T} (hparse : parseOps ops = some pc.parsed)
    (hknows : (Call.run (.select ops timeout) (.select pc)).Knows chan c)
    (h : SelectStep chan c pc chan' (.goto pc')) :
    (Call.run (.select ops timeout) (.select pc')).Knows chan' c where
  holds x hk := by
    rw [Call.Holds, h.parsed_eq (s := ⟨chan, fun _ => .idle⟩)] at hk
    rw [h.senders_eq]
    exact hknows.holds x hk
  rechecks x hk := by
    cases h with
    | recvClosed hop hclose =>
        cases hop.symm.trans hk
        exact hclose
    | _ => exact hk.elim
  reports x hk := by
    have hone : ∀ (parsed : List (OpType Ch T)) (i : ℕ) (y : Ch), pc.parsed = parsed →
        parsed[i]? = some (.recv y) → (∀ z, .recv z ∈ ops → z = x) →
        (Function.update chan y (chan y).conclude x).told = true := by
      rintro parsed i y rfl hop hops
      rw [← hops y (List.mem_of_getElem? (recv_operand hparse hop)), Function.update_self]
      rfl
    cases h with
    | disconnected hop => exact hone _ _ _ rfl hop hk.2
    | drained hop => exact hone _ _ _ rfl hop hk.2
    | gaveUp hr => rcases hr with rfl | rfl <;> cases hk.1
    | received => cases hk.1
    | sent => cases hk.1
    | sendClosed => cases hk.1
    | _ => exact hk.elim
  closing _ hk := hk.elim
  closed _ hk := hk.elim

theorem CallStep.knows [DecidableEq T] {m : Method Ch C T} {pc : Pc Ch T}
    (hparse : ∀ ops timeout pc', m = .select ops timeout → pc = .select pc' →
      parseOps ops = some pc'.parsed)
    (hknows : (Call.run m pc).Knows s.chan c) (h : CallStep s c m pc chan' k) :
    k.Knows chan' c := by
  cases h with
  | sendGoto hstep =>
      refine ⟨fun x hk => ?_, fun _ => False.elim, fun _ => False.elim, fun _ => False.elim,
        fun _ => False.elim⟩
      obtain ⟨rfl, -⟩ := hk
      rw [Function.update_self]
      exact hstep.holds fun hpc => hknows.holds _ ⟨rfl, hpc⟩
  | sendRet hstep =>
      exact knows_done (fun _ => False.elim) fun _ => False.elim
  | recvGoto hstep =>
      refine knows_recv fun hpc => ?_
      subst hpc
      rw [Function.update_self]
      exact hstep.recheck
  | recvRet hstep =>
      refine knows_done (fun x hk => ?_) fun _ => False.elim
      rename_i r
      cases r with
      | ok v => exact hk.elim
      | error e =>
          obtain ⟨rfl, he⟩ := hk
          rw [Function.update_self]
          exact hstep.told he
  | trySend hstep =>
      exact knows_done (fun _ => False.elim) fun _ => False.elim
  | tryRecv hstep =>
      refine knows_done (fun x hk => ?_) fun _ => False.elim
      cases hstep with
      | received => exact hk.elim
      | disconnected =>
          obtain ⟨rfl, -⟩ := hk
          rw [Function.update_self]
          rfl
      | empty => exact absurd hk.2 (by decide)
  | nextGoto hstep =>
      refine knows_next fun hpc => ?_
      subst hpc
      rw [Function.update_self]
      exact hstep.recheck
  | nextItem hstep =>
      exact knows_done (fun _ => False.elim) fun _ => False.elim
  | nextErr hstep =>
      refine ⟨fun _ => False.elim, fun _ => False.elim, fun x hk => ?_, fun _ => False.elim,
        fun _ => False.elim⟩
      obtain rfl : _ = x := hk
      rw [Function.update_self]
      exact hstep.told_none
  | nextSender =>
      exact ⟨fun _ => False.elim, fun _ => False.elim, fun x hk => hknows.reports x hk,
        fun _ => False.elim, fun _ => False.elim⟩
  | nextRaise =>
      exact knows_done (fun x hk => hknows.reports x hk) fun _ => False.elim
  | dropSender =>
      refine ⟨fun _ => False.elim, fun _ => False.elim, fun _ => False.elim, fun x hk => ?_,
        fun _ => False.elim⟩
      obtain rfl : _ = x := hk
      rw [Function.update_self]
      rfl
  | dropCloseTx =>
      refine knows_done (fun _ => False.elim) fun x hk => ?_
      obtain rfl : _ = x := hk
      rw [Function.update_self]
      rfl
  | sendOp =>
      exact knows_done (fun _ => False.elim) fun _ => False.elim
  | sendOpClosed =>
      exact knows_done (fun _ => False.elim) fun _ => False.elim
  | selectGoto hstep => exact knows_selectGoto (hparse _ _ _ rfl rfl) hknows hstep
  | selectRet hstep =>
      refine knows_done (fun x hk => ?_) fun _ => False.elim
      have htold : ((Call.run (.select _ _) (.select _)) : Call Ch C T).Reports x →
          (chan' x).told = true := fun hrun => (hstep.follows x).told (hknows.reports x hrun)
      cases hstep with
      | dropped =>
          rename_i parsed r
          refine htold ?_
          cases hr : r.toPy with
          | ok v =>
              rw [hr] at hk
              exact hk.elim
          | error e =>
              rw [hr] at hk
              exact ⟨toPy_recvClosed (hr.trans hk.1), hk.2⟩

theorem OneStep.knows [DecidableEq T] (hcoh : (s.calls c).Coherent) (hknows : (s.calls c).Knows s.chan c)
    (h : OneStep s c chan' k) : k.Knows chan' c := by
  cases h with
  | start _ _ hstart => exact hstart.knows
  | step hc hstep =>
      rw [hc] at hknows
      refine hstep.knows (fun ops timeout pc' hm hpc => ?_) hknows
      subst hm hpc
      exact hcoh.1 _ _ _ hc

omit [DecidableEq C] in
theorem Call.Offers.knows {item : T} {b : Bool} (hknows : (s.calls c).Knows s.chan c)
    (h : (s.calls c).Offers s.chan x item b k) : k.Knows s.chan c := by
  generalize s.calls c = k₀ at h hknows
  cases h with
  | send hpc =>
      refine ⟨fun y hk => hknows.holds y ⟨hk.1, ?_⟩, fun _ => False.elim, fun _ => False.elim,
        fun _ => False.elim, fun _ => False.elim⟩
      rcases hpc with rfl | rfl <;> simp
  | trySend =>
      exact knows_done (fun _ => False.elim) fun _ => False.elim
  | select =>
      exact ⟨fun y hk => hknows.holds y hk, fun _ => False.elim, fun _ hk => (by cases hk.1),
        fun _ => False.elim, fun _ => False.elim⟩

omit [DecidableEq C] in
theorem Call.Wants.knows {b : Bool} {k' : T → Call Ch C T} (hknows : (s.calls c).Knows s.chan c)
    (h : (s.calls c).Wants x b k') (item : T) : (k' item).Knows s.chan c := by
  generalize s.calls c = k₀ at h hknows
  cases h with
  | select hpc =>
      refine ⟨fun y hk => hknows.holds y ?_, fun _ => False.elim, fun _ hk => (by cases hk.1),
        fun _ => False.elim, fun _ => False.elim⟩
      rcases hpc with ⟨missed, rfl⟩ | rfl <;> exact hk
  | _ =>
      exact knows_done (fun _ => False.elim) fun _ => False.elim

/-- Whether the sender and the close signal are still there. -/
def Chan.signals (ch : Chan C C T) : Bool × Bool := (ch.sender, ch.closeTx)

theorem Chan.SendStep.signals {ch ch' : Chan C C T} {item : T} {timeout : Option PyFloat}
    {pc : SendPc} {out : Out SendPc Unit} (h : Chan.SendStep ch c item timeout pc ch' out) :
    ch'.signals = ch.signals := by
  cases h <;> rfl

theorem Chan.RecvStep.signals {ch ch' : Chan C C T} {timeout : Option PyFloat} {pc : RecvPc}
    {out : Out RecvPc T} (h : Chan.RecvStep ch c timeout pc ch' out) :
    ch'.signals = ch.signals := by
  cases h <;> rfl

theorem SelectStep.signals {pc : SelectPc Ch T} {out : Out (SelectPc Ch T) (Ret T)}
    (h : SelectStep chan c pc chan' out) (x : Ch) : (chan' x).signals = (chan x).signals := by
  cases h with
  | received => exact field_update Chan.signals (by rfl) x
  | disconnected => exact field_update Chan.signals (by rfl) x
  | drained => exact field_update Chan.signals (by rfl) x
  | sent => exact field_update Chan.signals (by rfl) x
  | dropped =>
      unfold releaseAll
      split <;> rfl
  | _ => rfl

variable [DecidableEq T]

/-- Only `close` drops the sender and the close signal, each at a step of its own. -/
theorem OneStep.signals (h : OneStep s c chan' k) (x : Ch) :
    (chan' x).signals = (s.chan x).signals ∨
      (k = .run (.close x) .closeTx ∧ (chan' x).closeTx = (s.chan x).closeTx) ∨
      ((s.calls c).Closing x ∧ (chan' x).sender = (s.chan x).sender) := by
  cases h with
  | start _ _ hstart =>
      left
      cases hstart with
      | select =>
          unfold holdAll
          split <;> rfl
      | _ => rfl
  | step hc hstep =>
      cases hstep with
      | dropSender =>
          rename_i y
          by_cases hxy : x = y
          · subst hxy
            exact .inr (.inl ⟨rfl, field_update Chan.closeTx (by rfl) x⟩)
          · exact .inl (by rw [Function.update_of_ne hxy])
      | dropCloseTx =>
          rename_i y
          by_cases hxy : x = y
          · subst hxy
            refine .inr (.inr ⟨?_, field_update Chan.sender (by rfl) x⟩)
            rw [hc]
            exact Eq.refl x
          · exact .inl (by rw [Function.update_of_ne hxy])
      | sendGoto hstep => exact .inl (field_update Chan.signals hstep.signals x)
      | sendRet hstep => exact .inl (field_update Chan.signals hstep.signals x)
      | recvGoto hstep => exact .inl (field_update Chan.signals hstep.signals x)
      | recvRet hstep => exact .inl (field_update Chan.signals hstep.signals x)
      | trySend hstep => exact .inl (field_update Chan.signals (by cases hstep <;> rfl) x)
      | tryRecv hstep => exact .inl (field_update Chan.signals (by cases hstep <;> rfl) x)
      | nextGoto hstep => exact .inl (field_update Chan.signals hstep.signals x)
      | nextItem hstep => exact .inl (field_update Chan.signals hstep.signals x)
      | nextErr hstep => exact .inl (field_update Chan.signals hstep.signals x)
      | sendOp => exact .inl (field_update Chan.signals (by rfl) x)
      | selectGoto hstep => exact .inl (hstep.signals x)
      | selectRet hstep => exact .inl (hstep.signals x)
      | _ => exact .inl rfl

/-- Only the last step of `close` raises the close signal. -/
theorem OneStep.closeTx (h : OneStep s c chan' k) (hx : (chan' x).closeTx = false) :
    (s.chan x).closeTx = false ∨ (s.calls c).Closing x := by
  rcases h.signals x with hsame | ⟨-, hsame⟩ | ⟨hclosing, -⟩
  · exact .inl ((congrArg Prod.snd hsame).symm.trans hx)
  · exact .inl (hsame.symm.trans hx)
  · exact .inr hclosing

/-- Only the first step of `close` drops the sender. -/
theorem OneStep.sender (h : OneStep s c chan' k) (x : Ch) :
    (chan' x).sender = (s.chan x).sender ∨ k = .run (.close x) .closeTx := by
  rcases h.signals x with hsame | ⟨hk, -⟩ | ⟨-, hsame⟩
  · exact .inl (congrArg Prod.fst hsame)
  · exact .inr hk
  · exact .inl hsame

/-- The standing facts about closing. -/
structure ClosedInOrder (s : State Ch C T) : Prop where
  signal : ∀ x, (s.chan x).closeTx = false → (s.chan x).sender = false
  knows : ∀ c, (s.calls c).Knows s.chan c

omit [DecidableEq C] [DecidableEq T] in
theorem closedInOrder_init (capacity : Ch → Option ℕ) :
    ClosedInOrder (State.init capacity : State Ch C T) where
  signal _ h := by cases h
  knows _ := ⟨fun _ => False.elim, fun _ => False.elim, fun _ => False.elim, fun _ => False.elim,
    fun _ => False.elim⟩

theorem ClosedInOrder.next (h : ClosedInOrder s) (hcoh : ∀ c, (s.calls c).Coherent)
    (hn : next s a = some t) : ClosedInOrder t := by
  rcases next_cases hn with ⟨c, chan', k, hstep, rfl⟩ |
    ⟨c, d, x, item, b, b', k, k', f, hne, hoffer, hwant, hpass, rfl⟩ | ⟨o, x, item, r, ho, rfl⟩
  · refine ⟨fun x hx => ?_, fun d => ?_⟩
    · rcases hstep.closeTx hx with hclose | hclosing
      · exact (hstep.follows x).sender (h.signal x hclose)
      · exact (hstep.follows x).sender ((h.knows c).closing x hclosing)
    · by_cases hd : d = c
      · subst hd
        rw [State.calls_setCall_self]
        exact hstep.knows (hcoh d) (h.knows d)
      · rw [State.calls_setCall_ne _ _ hd]
        exact (h.knows d).follow hd hstep.follows
  · have hfollow : ∀ e y, Follows e (s.chan y)
        ((s.setChan x ((s.chan x).setFifo f)).chan y) :=
      fun e => follows_update (follows_setFifo _ _)
    have hself : ∀ {k : Call Ch C T} {e : C}, k.Knows s.chan e →
        k.Knows (s.setChan x ((s.chan x).setFifo f)).chan e := by
      intro k e hk
      refine ⟨fun y hy => ?_, fun y hy => (hfollow e y).closeTx (hk.rechecks y hy),
        fun y hy => (hfollow e y).told (hk.reports y hy),
        fun y hy => (hfollow e y).sender (hk.closing y hy),
        fun y hy => (hfollow e y).closeTx (hk.closed y hy)⟩
      have hmem := hk.holds y hy
      by_cases hyx : y = x
      · subst hyx
        rwa [State.chan_setChan_self]
      · rwa [State.chan_setChan_ne _ _ hyx]
    refine ⟨fun y hy => (hfollow c y).sender (h.signal y ?_), fun e => ?_⟩
    · by_cases hyx : y = x
      · subst hyx
        simpa [Chan.setFifo] using hy
      · simpa [State.chan_setChan_ne _ _ hyx] using hy
    · by_cases hed : e = d
      · subst hed
        rw [State.calls_setCall_self]
        exact hself (hwant.knows (h.knows e) item)
      · rw [State.calls_setCall_ne _ _ hed]
        by_cases hec : e = c
        · subst hec
          rw [State.calls_setCall_self]
          exact hself (hoffer.knows (h.knows e))
        · rw [State.calls_setCall_ne _ _ hec]
          exact hself (h.knows e)
  · have hfollow : ∀ y, Follows o (s.chan y) ((s.setChan x ((s.chan x).release o)).chan y) :=
      follows_update (follows_release _)
    refine ⟨fun y hy => (hfollow y).sender (h.signal y ?_), fun e => ?_⟩
    · by_cases hyx : y = x
      · subst hyx
        simpa [Chan.release] using hy
      · rwa [State.chan_setChan_ne _ _ hyx] at hy
    · rw [State.calls_setChan]
      by_cases heo : e = o
      · subst heo
        rw [ho]
        exact knows_done (fun _ => False.elim) fun _ => False.elim
      · exact (h.knows e).follow heo hfollow

theorem closedInOrder_run {capacity : Ch → Option ℕ} {as : List (Act Ch C T)}
    (h : Run next (State.init capacity) as s) : ClosedInOrder s :=
  h.invariant_run (closedInOrder_init capacity)
    fun _ _ _ _ hr hs _ hn => hs.next (accounted_run hr).coherent hn

end Pysync.Channel
