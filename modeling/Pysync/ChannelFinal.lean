import Pysync.ChannelClose

/-!
After `close`. A `send`, `try_send` or `send_op` that begins later raises. A `select` need not: it
watches the send and the close signal of each of its operations, and a `SendOp` made before the close
keeps the queue connected, so that both are ready and either may be performed.
-/

namespace Pysync.Channel
open Queue Transition

variable {Ch C T : Type} [DecidableEq Ch] [DecidableEq C]
variable {s t u : State Ch C T} {a : Act Ch C T} {c d : C} {x y : Ch} {chan chan' : Ch → Chan C C T}
variable {k k' : Call Ch C T}

/-- The methods that send into `x` or make an operation that will. -/
def Method.SendsInto (x : Ch) : Method Ch C T → Prop
  | .send y _ _ | .trySend y _ | .sendOp y _ => y = x
  | _ => False

/-- A `close` of `x` has returned. -/
def CloseReturned (s : State Ch C T) (x : Ch) : Prop := ∃ c, (s.calls c).Closed x

/-- `x` can take the item of the call `c`: there is room or, without a buffer, a receive of `x`. -/
def CanTake (s : State Ch C T) (x : Ch) (c : C) : Prop :=
  (s.chan x).fifo.hasRoom = true ∨ (s.chan x).fifo.capacity = some 0 ∧
    ∃ d b k', c ≠ d ∧ (s.calls d).Wants x b k'

/-- A `select` that had not begun in `u` waits with a `SendOp` of `x` while `x` can take its item. -/
def LateSelectReady (u s : State Ch C T) (x : Ch) : Prop :=
  ∃ c ops timeout parsed missed, u.calls c = .idle ∧
    s.calls c = .run (.select ops timeout) (.select (.choose parsed missed)) ∧
    sendsTo parsed x = true ∧ CanTake s x c

/-- No call that had not begun in `u` has put anything into `x`. -/
def NoLateItem (u s : State Ch C T) (x : Ch) : Prop :=
  ∀ c, u.calls c = .idle → tagged c (s.chan x).fifo.accepted = []

/-- What a call that begins after the close can get to: no `send` gets past its clone. -/
def Call.Barred (x : Ch) : Call Ch C T → Prop
  | .run (.send y _ _) (.send pc) => y = x → pc = .clone
  | .done m r => m.SendsInto x → r = .error closedErr
  | _ => True

theorem OneStep.barred [DecidableEq T] (hsender : (s.chan x).sender = false) (hk : (s.calls c).Barred x)
    (h : OneStep s c chan' k) : k.Barred x := by
  have hopen : ∀ {y : Ch}, (s.chan y).sender = true → y ≠ x := by
    rintro y hy rfl
    rw [hsender] at hy
    cases hy
  cases h with
  | start hc husable hstart =>
      rename_i m
      cases hstart with
      | send => exact fun _ => rfl
      | once => cases m <;> exact trivial
      | selectErr => exact False.elim
      | _ => exact trivial
  | step hc hstep =>
      rw [hc] at hk
      cases hstep with
      | sendGoto hstep =>
          intro hy
          obtain rfl := hk hy
          cases hstep with
          | cloned hsender' => exact (hopen hsender' hy).elim
          | accepted hpc => rcases hpc with hpc | hpc <;> cases hpc
      | sendRet hstep =>
          intro hy
          obtain rfl := hk hy
          cases hstep with
          | refused => rfl
      | trySend hstep =>
          intro hy
          cases hstep with
          | accepted hsender' => exact (hopen hsender' hy).elim
          | full hsender' => exact (hopen hsender' hy).elim
          | refused => rfl
      | sendOp hsender' => exact fun hy => (hopen hsender' hy).elim
      | sendOpClosed => exact fun _ => rfl
      | selectRet => exact False.elim
      | recvRet => exact False.elim
      | tryRecv => exact False.elim
      | nextItem => exact False.elim
      | nextRaise => exact False.elim
      | dropCloseTx => exact False.elim
      | _ => exact trivial

omit [DecidableEq C] in
theorem Call.Offers.barred {item : T} {b : Bool} (hsender : (chan x).sender = false)
    (hk : k.Barred x) (h : k.Offers chan y item b k') :
    k'.Barred x ∧ (y = x → ∃ ops timeout parsed missed,
      k = .run (.select ops timeout) (.select (.choose parsed missed)) ∧
        sendsTo parsed x = true) := by
  cases h with
  | send hpc =>
      have hne : y ≠ x := by
        intro hy
        obtain rfl := hk hy
        rcases hpc with hpc | hpc <;> cases hpc
      exact ⟨fun hy => (hne hy).elim, fun hy => (hne hy).elim⟩
  | trySend hopen =>
      have hne : y ≠ x := by
        rintro rfl
        rw [hsender] at hopen
        cases hopen
      exact ⟨fun hy => (hne hy).elim, fun hy => (hne hy).elim⟩
  | select hop =>
      refine ⟨trivial, ?_⟩
      rintro rfl
      exact ⟨_, _, _, _, rfl, sendsTo_getElem hop⟩

omit [DecidableEq Ch] [DecidableEq C] in
theorem Call.Wants.barred {b : Bool} {k' : T → Call Ch C T} (h : k.Wants y b k') (item : T) :
    (k' item).Barred x := by
  cases h with
  | select => exact trivial
  | _ => exact False.elim

/-- Once the sender is gone, calls that begin afterwards stay barred. -/
theorem barred_run [DecidableEq T] {bs : List (Act Ch C T)} (h : Run next u bs t)
    (hsender : (u.chan x).sender = false) :
    (t.chan x).sender = false ∧ ∀ c, u.calls c = .idle → (t.calls c).Barred x := by
  induction h with
  | nil =>
      refine ⟨hsender, fun c hc => ?_⟩
      rw [hc]
      exact trivial
  | snoc hr _ hn ih =>
      obtain ⟨hsender', hbarred⟩ := ih
      rcases next_cases hn with ⟨c, chan', k, hstep, rfl⟩ |
        ⟨c, d, y, item, b, b', k, k', f, hne, hoffer, hwant, hpass, rfl⟩ | ⟨o, y, item, r, ho, rfl⟩
      · refine ⟨(hstep.follows x).sender hsender', fun d hd => ?_⟩
        by_cases hdc : d = c
        · subst hdc
          rw [State.calls_setCall_self]
          exact hstep.barred hsender' (hbarred d hd)
        · rw [State.calls_setCall_ne _ _ hdc]
          exact hbarred d hd
      · refine ⟨(follows_update (c := c) (follows_setFifo _ f) x).sender hsender', fun e he => ?_⟩
        by_cases hed : e = d
        · subst hed
          rw [State.calls_setCall_self]
          exact hwant.barred item
        · rw [State.calls_setCall_ne _ _ hed]
          by_cases hec : e = c
          · subst hec
            rw [State.calls_setCall_self]
            exact (hoffer.barred hsender' (hbarred e he)).1
          · rw [State.calls_setCall_ne _ _ hec]
            exact hbarred e he
      · exact ⟨(follows_update (c := o) (follows_release _) x).sender hsender', hbarred⟩

/-- A barred call that puts an item into `x` is a `select` that waits with a `SendOp` of `x`. -/
theorem OneStep.accept_barred [DecidableEq T] (hsender : (s.chan x).sender = false)
    (hk : d = c → (s.calls c).Barred x) (hcoh : (s.calls c).Coherent) (h : OneStep s c chan' k) :
    tagged d (chan' x).fifo.accepted = tagged d (s.chan x).fifo.accepted ∨
      d = c ∧ (s.chan x).fifo.hasRoom = true ∧ ∃ ops timeout parsed missed,
        s.calls c = .run (.select ops timeout) (.select (.choose parsed missed)) ∧
          sendsTo parsed x = true := by
  by_cases hdc : d = c
  swap
  · exact .inl ((h.fifo x).accepted hdc)
  cases h.effect hcoh with
  | quiet hfifo => exact .inl (by rw [hfifo])
  | settled hfifo => exact .inl (by rw [hfifo])
  | deliver hpop hchan hold hout hmoves hsent hreceived =>
      left
      rw [hchan, same_update (Fifo.pop_eq_some.mp hpop).2.2.1]
  | accept hpush hchan hcan hold hout hmoves hsent hreceived =>
      rename_i y item f m r
      obtain ⟨hroom, -⟩ := Fifo.push_eq_some.mp hpush
      by_cases hyx : y = x
      swap
      · left
        rw [hchan, Function.update_of_ne (Ne.symm hyx)]
      subst hyx
      refine .inr ⟨hdc, hroom, ?_⟩
      replace hk := hk hdc
      rcases hcan with hopen | hcan
      · rw [hsender] at hopen
        cases hopen
      generalize s.calls c = k₀ at hk hcan hold
      unfold Call.CanSend at hcan
      split at hcan
      · obtain ⟨rfl, hpc⟩ := hcan
        obtain rfl := hk rfl
        exact hpc.elim
      · exact ⟨_, _, _, _, rfl, hcan⟩
      · cases hold
      · exact hcan.elim

/-- One step puts no late item into `x` unless a late `select` is ready to. -/
theorem noLateItem_next [DecidableEq T] (hcoh : ∀ c, (s.calls c).Coherent)
    (hsender : (s.chan x).sender = false)
    (hbarred : ∀ c, u.calls c = .idle → (s.calls c).Barred x) (hnone : NoLateItem u s x)
    (hready : ¬ LateSelectReady u s x) (hn : next s a = some t) : NoLateItem u t x := by
  intro e he
  rcases next_cases hn with ⟨c, chan', k, hstep, rfl⟩ |
    ⟨c, d, y, item, b, b', k, k', f, hne, hoffer, hwant, ⟨hcap, hpass⟩, rfl⟩ |
    ⟨o, y, item, r, ho, rfl⟩
  · rcases hstep.accept_barred hsender (fun hec => hec ▸ hbarred e he) (hcoh c) with
      hsame | ⟨rfl, hroom, ops, timeout, parsed, missed, hc, hsend⟩
    · exact hsame.trans (hnone e he)
    · exact (hready ⟨e, ops, timeout, parsed, missed, he, hc, hsend, .inl hroom⟩).elim
  · obtain ⟨-, -, -, hacc, -⟩ := Fifo.pass_eq_some.mp hpass
    by_cases hyx : y = x
    swap
    · rw [State.chan_setCall, State.chan_setCall, State.chan_setChan_ne _ _ (Ne.symm hyx)]
      exact hnone e he
    subst hyx
    rw [State.chan_setCall, State.chan_setCall, State.chan_setChan_self, Chan.setFifo, hacc,
      tagged_append, hnone e he, List.nil_append]
    by_cases hec : e = c
    · subst hec
      obtain ⟨ops, timeout, parsed, missed, hc, hsend⟩ :=
        (hoffer.barred hsender (hbarred e he)).2 rfl
      exact (hready ⟨e, ops, timeout, parsed, missed, he, hc, hsend,
        .inr ⟨hcap, d, b', k', hne, hwant⟩⟩).elim
    · simp [tagged, Ne.symm hec]
  · have hfifo : ∀ z, ((s.setChan y ((s.chan y).release o)).chan z).fifo = (s.chan z).fifo :=
      fifo_update rfl
    rw [hfifo]
    exact hnone e he

omit [DecidableEq Ch] [DecidableEq C] in
/-- A call that can take an item has an arm to do it with. -/
theorem Call.Wants.exists_arm {b : Bool} {k' : T → Call Ch C T} (h : k.Wants x b k') :
    ∃ arm b' k'', k.want arm = some (x, b', k'') := by
  have hrecv : ∀ pc : RecvPc, pc ≠ .arm → ∃ arm b', pc.want arm = some b' := by
    intro pc hpc
    cases pc with
    | tryRecv => exact ⟨.go, _, rfl⟩
    | arm => exact (hpc rfl).elim
    | select => exact ⟨.data, _, rfl⟩
    | recheck => exact ⟨.go, _, rfl⟩
  cases h with
  | recv hpc =>
      obtain ⟨arm, b', hb⟩ := hrecv _ hpc
      exact ⟨arm, _, _, by rw [Call.want, hb]; rfl⟩
  | next hpc =>
      obtain ⟨arm, b', hb⟩ := hrecv _ hpc
      exact ⟨arm, _, _, by rw [Call.want, hb]; rfl⟩
  | tryRecv => exact ⟨.go, _, _, rfl⟩
  | select hpc hop =>
      rename_i ops timeout parsed pc i
      rcases hpc with ⟨missed, rfl⟩ | rfl
      · have hi := mainOpMap_double (List.getElem?_eq_some_iff.mp hop).1
        exact ⟨.op (2 * i), _, _, by simp only [Call.want, hi, hop]; rfl⟩
      · exact ⟨.go, _, _, by simp only [Call.want, hop]; rfl⟩

/-- A send operation of a `select` is performed when there is room. -/
theorem selectArm_send {parsed : List (OpType Ch T)} {i : ℕ} {item : T} {f : Fifo C C T}
    (hop : parsed[i]? = some (.send x (some item))) (hpush : (chan x).fifo.push c item = some f) :
    selectArm chan c parsed (2 * i) = some
      (Function.update chan x ((chan x).setFifo f), .drop parsed (.sendSuccess i)) := by
  have hlt := (List.getElem?_eq_some_iff.mp hop).1
  simp only [selectArm, (register_spec parsed).1, closeOpMap_double, mainOpMap_double hlt, hop,
    hpush]
  rw [if_neg (by omega)]
  rfl

omit [DecidableEq Ch] [DecidableEq C] in
theorem offer_select {ops : List (Operand Ch C T)} {timeout : Option PyFloat}
    {parsed : List (OpType Ch T)} {missed : Finset ℕ} {i : ℕ} {item : T}
    (hop : parsed[i]? = some (.send x (some item))) :
    (Call.run (.select ops timeout) (.select (.choose parsed missed))).offer chan (.op (2 * i))
      = some (x, item, true,
          .run (.select ops timeout) (.select (.drop parsed (.sendSuccess i)))) := by
  simp only [Call.offer, mainOpMap_double (List.getElem?_eq_some_iff.mp hop).1, hop]

omit [DecidableEq C] in
/-- A `select` that holds a clone for `x` has a send operation with an item for it. -/
theorem exists_sendOp {ops : List (Operand Ch C T)} {parsed : List (OpType Ch T)}
    (hparse : parseOps ops = some parsed) (hsend : sendsTo parsed x = true) :
    ∃ (i : ℕ) (item : T), parsed[i]? = some (.send x (some item)) := by
  obtain ⟨op, hop, hx⟩ := List.any_eq_true.mp hsend
  obtain ⟨i, hi⟩ := List.mem_iff_getElem?.mp hop
  obtain ⟨operand, -, hp⟩ := parseOps_getElem hparse hi
  cases operand with
  | recv y =>
      cases hp
      simp [OpType.isSend] at hx
  | other => cases hp
  | send o y v =>
      cases hp
      obtain rfl : y = x := of_decide_eq_true hx
      exact ⟨i, v, hi⟩

/-- A late `select` that is ready to send may be the one that takes the next step. -/
theorem exists_lateItem [DecidableEq T] (hcoh : ∀ c, (s.calls c).Coherent) (h : LateSelectReady u s x) :
    ∃ a t, next s a = some t ∧ ¬ NoLateItem u t x := by
  obtain ⟨c, ops, timeout, parsed, missed, hlate, hc, hsend, htake⟩ := h
  have hparse : parseOps ops = some parsed := (hcoh c).1 ops timeout _ hc
  obtain ⟨i, item, hi⟩ := exists_sendOp hparse hsend
  rcases htake with hroom | ⟨hcap, d, b, k', hne, hwant⟩
  · obtain ⟨f, hf⟩ : ∃ f, (s.chan x).fifo.push c item = some f :=
      Option.ne_none_iff_exists'.mp fun hnone => by simp [Fifo.push_eq_none.mp hnone] at hroom
    have hn : next s (.step c (.op (2 * i))) = some
        (State.setCall { s with chan := Function.update s.chan x ((s.chan x).setFifo f) } c
          (.run (.select ops timeout) (.select (.drop parsed (.sendSuccess i))))) := by
      simp only [next, hc, stepCall, selectStep, selectArm_send hi hf]
      rfl
    refine ⟨_, _, hn, fun hnone => ?_⟩
    have hempty := hnone c hlate
    obtain ⟨-, -, -, hacc, -⟩ := Fifo.push_eq_some.mp hf
    rw [State.chan_setCall] at hempty
    dsimp only at hempty
    rw [Function.update_self, Chan.setFifo, hacc, tagged_append] at hempty
    simp [tagged] at hempty
  · obtain ⟨arm, b', k'', harm⟩ := hwant.exists_arm
    have hqueue : (s.chan x).fifo.queue = [] :=
      List.length_eq_zero_iff.mp (Nat.le_zero.mp ((s.chan x).fifo.bounded 0 hcap))
    obtain ⟨f, hf⟩ : ∃ f, (s.chan x).fifo.pass c d item = some f := by
      simp [Fifo.pass, hqueue]
    have hn : next s (.handoff c (.op (2 * i)) d arm) = some
        (((s.setChan x ((s.chan x).setFifo f)).setCall c
          (.run (.select ops timeout) (.select (.drop parsed (.sendSuccess i))))).setCall d
            (k'' item)) := by
      simp only [next, hc, offer_select hi, harm]
      rw [if_pos ⟨hne, trivial, by simp⟩, Chan.handoff, if_pos hcap, hf]
      rfl
    refine ⟨_, _, hn, fun hnone => ?_⟩
    have hempty := hnone c hlate
    obtain ⟨-, -, -, hacc, -⟩ := Fifo.pass_eq_some.mp hf
    rw [State.chan_setCall, State.chan_setCall, State.chan_setChan_self, Chan.setFifo, hacc,
      tagged_append] at hempty
    simp [tagged] at hempty

theorem noLateItem_refl (h : ∀ x c, tagged c (u.chan x).fifo.accepted = tagged x (u.calls c).sent) :
    NoLateItem u u x := by
  intro c hc
  rw [h, hc]
  rfl

omit [DecidableEq C] in
theorem CloseReturned.sender (hclosed : ClosedInOrder u) (h : CloseReturned u x) :
    (u.chan x).sender = false := by
  obtain ⟨c, hc⟩ := h
  exact hclosed.signal x ((hclosed.knows c).closed x hc)

variable [DecidableEq T]

/-- Take a state in which a `close` of `x` has returned, and any run from it. What begins after it
and sends directly, or asks for a `SendOp`, raises; as long as no `select` that began after it waits
with a `SendOp` of `x` while `x` can take the item, nothing that began after it has been accepted; and
the next step may accept such an item if and only if there is such a `select`. -/
theorem close_final_iff (capacity : Ch → Option ℕ) (x : Ch) (as : List (Act Ch C T))
    (u : State Ch C T) (hu : Run next (State.init capacity) as u) (hclose : CloseReturned u x)
    (bs : List (Act Ch C T)) (t : State Ch C T) (ht : Run next u bs t) :
    (∀ c m r, u.calls c = .idle → t.calls c = .done m r → m.SendsInto x →
      r = .error closedErr) ∧
    (RunWith next (fun s _ => ¬ LateSelectReady u s x) u bs t → NoLateItem u t x) ∧
    (NoLateItem u t x →
      ((∀ a t', next t a = some t' → NoLateItem u t' x) ↔ ¬ LateSelectReady u t x)) := by
  have hsender := hclose.sender (closedInOrder_run hu)
  obtain ⟨hsender', hbarred⟩ := barred_run ht hsender
  refine ⟨fun c m r hc hdone hm => ?_, fun hwith => ?_, fun hnone => ⟨fun hall hready => ?_,
    fun hready a t' hn => ?_⟩⟩
  · have h := hbarred c hc
    rw [hdone] at h
    exact h hm
  · clear ht hbarred hsender'
    induction hwith with
    | nil => exact noLateItem_refl (accounted_run hu).accepted
    | snoc hr hp hn ih =>
        obtain ⟨hs, hb⟩ := barred_run hr.run hsender
        exact noLateItem_next (accounted_run (hu.append hr.run)).coherent hs hb ih hp hn
  · obtain ⟨a, t', hn, hlate⟩ := exists_lateItem (accounted_run (hu.append ht)).coherent hready
    exact hlate (hall a t' hn)
  · exact noLateItem_next (accounted_run (hu.append ht)).coherent hsender' hbarred hnone hready hn

/-- A `SendOp` is made, and then the channel is closed. -/
def closedWithOpTrace : List (Act Unit ℕ ℕ) :=
  [.invoke 0 (.sendOp () 7), .step 0 .go, .invoke 1 (.close ()), .step 1 .go, .step 1 .go]

theorem closedWithOpTrace_exec :
    (exec next (fun _ _ => True) (State.init fun _ => none) closedWithOpTrace).map (fun u => decide
      (u.calls 1 = .done (.close ()) (.ok .unit) ∧ u.calls 2 = .idle ∧
        ((exec next (fun _ _ => True) u
          [.invoke 2 (.select [.send 0 () 7] none), .step 2 (.op 0)]).map fun t =>
            decide (tagged 2 (t.chan ()).fifo.accepted ≠ [])) = some true ∧
        ((exec next (fun _ _ => True) u [.invoke 2 (.trySend () 9), .step 2 .go]).map fun t =>
          decide (t.calls 2 = .done (.trySend () 9) (.error closedErr))) = some true))
      = some true := by
  decide +kernel

theorem close_final_closedWithOpTrace :
    ∃ u t : State Unit ℕ ℕ, Run next (State.init fun _ => none) closedWithOpTrace u ∧
      CloseReturned u () ∧ Run next u [.invoke 2 (.trySend () 9), .step 2 .go] t ∧
      (∀ c m r, u.calls c = .idle → t.calls c = .done m r → m.SendsInto () →
        r = .error closedErr) ∧
      (NoLateItem u t () →
        ((∀ a t', next t a = some t' → NoLateItem u t' ()) ↔ ¬ LateSelectReady u t ())) := by
  obtain ⟨u, hu, hs⟩ := exists_runWith_of_exec closedWithOpTrace_exec
  obtain ⟨hclosed, -, -, htry⟩ := of_decide_eq_true hs
  obtain ⟨t, ht, -⟩ := exists_runWith_of_exec htry
  have hclose : CloseReturned u () := ⟨1, by rw [hclosed]; exact Eq.refl ()⟩
  obtain ⟨hraise, -, hiff⟩ := close_final_iff (fun _ => none) () closedWithOpTrace u hu hclose _ t ht
  exact ⟨u, t, hu, hclose, ht, hraise, hiff⟩

/-- A `select` that begins after `close` has returned may still put an item in. -/
theorem not_always_close_final :
    ¬ ∀ (Ch C T : Type) [DecidableEq Ch] [DecidableEq C] [DecidableEq T]
      (capacity : Ch → Option ℕ) (x : Ch) (as : List (Act Ch C T)) (u : State Ch C T),
      Run next (State.init capacity) as u → CloseReturned u x →
      ∀ (bs : List (Act Ch C T)) (t : State Ch C T), Run next u bs t → NoLateItem u t x := by
  intro h
  obtain ⟨u, hu, hs⟩ := exists_runWith_of_exec closedWithOpTrace_exec
  obtain ⟨hclosed, hidle, hselect, -⟩ := of_decide_eq_true hs
  obtain ⟨t, ht, hlate⟩ := exists_runWith_of_exec hselect
  have hclose : CloseReturned u () := ⟨1, by rw [hclosed]; exact Eq.refl ()⟩
  exact of_decide_eq_true hlate (h _ _ _ _ () _ u hu hclose _ t ht 2 hidle)

end Pysync.Channel
