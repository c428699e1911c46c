import Pysync.ChannelStep

/-!
Exactly once, in order and within capacity. Every step of a call moves one item or none; what a call
has moved is a function of how far it has got, and of nothing else.
-/

namespace Pysync.Channel
open Queue Transition

section Moved

variable {Ch C T : Type}

/-- What a call that returns `r` has put into which channel. -/
def Method.sent (m : Method Ch C T) (r : Ret T) : List (Ch × T) :=
  match m, r with
  | .send x item _, .unit => [(x, item)]
  | .trySend x item, .unit => [(x, item)]
  | .select ops _, .selected i none => match ops[i]? with
      | some (.send _ x item) => [(x, item)]
      | _ => []
  | _, _ => []

/-- What a call that returns `r` has taken from which channel: the item it returns. -/
def Method.received (m : Method Ch C T) (r : Ret T) : List (Ch × T) :=
  match m, r with
  | .recv x _, .item v => [(x, v)]
  | .tryRecv x, .item v => [(x, v)]
  | .next x, .item v => [(x, v)]
  | .select ops _, .selected i (some v) => match ops[i]? with
      | some (.recv x) => [(x, v)]
      | _ => []
  | _, _ => []

/-- `close` and `send_op` move nothing; every other method moves one item when it returns. -/
def Method.moves : Method Ch C T → ℕ
  | .close _ | .sendOp _ _ => 0
  | _ => 1

/-- The result a call has settled on, if it is a success. -/
def Call.outcome : Call Ch C T → Option (Method Ch C T × Ret T)
  | .done m (.ok r) => some (m, r)
  | .run m (.send (.drop (.ok ()))) => some (m, .unit)
  | .run m (.select (.drop _ r)) => match r.toPy with
      | .ok r => some (m, r)
      | .error _ => none
  | _ => none

/-- What a call has put in by now. -/
def Call.sent (k : Call Ch C T) : List (Ch × T) :=
  match k.outcome with
  | some (m, r) => m.sent r
  | none => []

/-- What a call has taken out by now. -/
def Call.received (k : Call Ch C T) : List (Ch × T) :=
  match k.outcome with
  | some (m, r) => m.received r
  | none => []

def SelectPc.parsed : SelectPc Ch T → List (OpType Ch T)
  | .choose parsed _ | .recheck parsed _ | .drop parsed _ => parsed

/-- A `select` works on the operations it was given, and a call that has settled on success has moved
as many items as its method does. -/
def Call.Coherent (k : Call Ch C T) : Prop :=
  (∀ ops timeout pc, k = .run (.select ops timeout) (.select pc) → parseOps ops = some pc.parsed) ∧
  ∀ m r, k.outcome = some (m, r) → (m.sent r).length + (m.received r).length = m.moves

end Moved

variable {Ch C T : Type} [DecidableEq Ch]
variable {s₀ s t : State Ch C T} {a : Act Ch C T} {c d : C} {x y : Ch} {chan' : Ch → Chan C C T}
variable {k k' : Call Ch C T}

/-- The call may still put an item into `x` with the clone it holds, or is a `SendOp` of `x`. -/
def Call.CanSend (x : Ch) : Call Ch C T → Prop
  | .run (.send y _ timeout) (.send pc) => y = x ∧ match pc with
      | .trySend | .select => True
      | .arm => (checkTimeout timeout).toOption.isSome
      | .clone | .drop _ => False
  | .run (.select _ _) (.select (.choose parsed _)) => sendsTo parsed x = true
  | .done (.sendOp y _) (.ok _) => y = x
  | _ => False

/-- What a step of one call does to the items: nothing, or it puts one in, or takes one out, and then
it is the only item the call ever moves. -/
inductive Effect (s : State Ch C T) (c : C) (chan' : Ch → Chan C C T) (k : Call Ch C T) : Prop
  | quiet (hfifo : ∀ x, (chan' x).fifo = (s.chan x).fifo)
      (hout : k.outcome = (s.calls c).outcome)
  | settled {m : Method Ch C T} {r : Ret T} (hfifo : ∀ x, (chan' x).fifo = (s.chan x).fifo)
      (hold : (s.calls c).outcome = none) (hout : k.outcome = some (m, r)) (hmoves : m.moves = 0)
  | accept {x : Ch} {item : T} {f : Fifo C C T} {m : Method Ch C T} {r : Ret T}
      (hpush : (s.chan x).fifo.push c item = some f)
      (hchan : chan' = Function.update s.chan x ((s.chan x).setFifo f))
      (hcan : (s.chan x).sender = true ∨ (s.calls c).CanSend x)
      (hold : (s.calls c).outcome = none) (hout : k.outcome = some (m, r)) (hmoves : m.moves = 1)
      (hsent : m.sent r = [(x, item)]) (hreceived : m.received r = [])
  | deliver {x : Ch} {item : T} {f : Fifo C C T} {m : Method Ch C T} {r : Ret T}
      (hpop : (s.chan x).fifo.pop c = some (item, f))
      (hchan : chan' = Function.update s.chan x ((s.chan x).setFifo f))
      (hold : (s.calls c).outcome = none) (hout : k.outcome = some (m, r)) (hmoves : m.moves = 1)
      (hsent : m.sent r = []) (hreceived : m.received r = [(x, item)])

/-- What is the same of the one channel that has changed is the same of every channel. -/
theorem field_update {β : Type} (g : Chan C C T → β) {chan : Ch → Chan C C T} {ch : Chan C C T}
    (h : g ch = g (chan x)) (y : Ch) : g (Function.update chan x ch y) = g (chan y) := by
  by_cases hy : y = x
  · subst hy
    rw [Function.update_self, h]
  · rw [Function.update_of_ne hy]

theorem fifo_update {chan : Ch → Chan C C T} {ch : Chan C C T} (h : ch.fifo = (chan x).fifo)
    (y : Ch) : (Function.update chan x ch y).fifo = (chan y).fifo :=
  field_update Chan.fifo h y

theorem fifo_holdAll [DecidableEq C] (chan : Ch → Chan C C T) (c : C) (parsed : List (OpType Ch T)) (x : Ch) :
    (holdAll chan c parsed x).fifo = (chan x).fifo := by
  unfold holdAll
  split <;> rfl

theorem fifo_releaseAll [DecidableEq C] (chan : Ch → Chan C C T) (c : C) (parsed : List (OpType Ch T))
    (x : Ch) : (releaseAll chan c parsed x).fifo = (chan x).fifo := by
  unfold releaseAll
  split <;> rfl

/-- A step after which the call still has not settled on success. -/
theorem Effect.of_none (hfifo : ∀ x, (chan' x).fifo = (s.chan x).fifo)
    (hold : (s.calls c).outcome = none) (hk : k.outcome = none) : Effect s c chan' k :=
  .quiet hfifo (hk.trans hold.symm)

theorem StartStep.effect [DecidableEq C] {m : Method Ch C T} (hc : s.calls c = .idle)
    (h : StartStep s c m chan' k) : Effect s c chan' k := by
  have hold : (s.calls c).outcome = none := by rw [hc]; rfl
  cases h with
  | select => exact .of_none (fifo_holdAll _ _ _) hold rfl
  | _ => exact .of_none (fun _ => rfl) hold rfl

omit [DecidableEq Ch] in
theorem recv_operand {ops : List (Operand Ch C T)} {parsed : List (OpType Ch T)} {i : ℕ}
    (hparse : parseOps ops = some parsed) (hop : parsed[i]? = some (.recv x)) :
    ops[i]? = some (.recv x) := by
  obtain ⟨operand, hi, hp⟩ := parseOps_getElem hparse hop
  cases operand with
  | recv y =>
      cases hp
      exact hi
  | send => cases hp
  | other => cases hp

omit [DecidableEq Ch] in
theorem send_operand {ops : List (Operand Ch C T)} {parsed : List (OpType Ch T)} {i : ℕ} {v : T}
    (hparse : parseOps ops = some parsed) (hop : parsed[i]? = some (.send x (some v))) :
    ∃ o, ops[i]? = some (.send o x v) := by
  obtain ⟨operand, hi, hp⟩ := parseOps_getElem hparse hop
  cases operand with
  | recv => cases hp
  | send o y w =>
      cases hp
      exact ⟨o, hi⟩
  | other => cases hp

section Select

variable {ops : List (Operand Ch C T)} {timeout : Option PyFloat} {parsed : List (OpType Ch T)}
variable {i : ℕ} {v : T}

omit [DecidableEq Ch] in
theorem sent_select (hparse : parseOps ops = some parsed)
    (hop : parsed[i]? = some (.send x (some v))) :
    (Method.select ops timeout).sent (.selected i none) = [(x, v)] := by
  obtain ⟨o, ho⟩ := send_operand hparse hop
  simp only [Method.sent, ho]

omit [DecidableEq Ch] in
theorem received_select (hparse : parseOps ops = some parsed)
    (hop : parsed[i]? = some (.recv x)) :
    (Method.select ops timeout).received (.selected i (some v)) = [(x, v)] := by
  simp only [Method.received, recv_operand hparse hop]

end Select

theorem sendsTo_getElem {parsed : List (OpType Ch T)} {i : ℕ} {item : Option T}
    (hop : parsed[i]? = some (.send x item)) : sendsTo parsed x = true :=
  List.any_eq_true.mpr ⟨_, List.mem_of_getElem? hop, by simp [OpType.isSend, OpType.chan]⟩

/-- A step of a `select` keeps its list of operations. -/
theorem SelectStep.parsed_eq [DecidableEq C] {pc pc' : SelectPc Ch T}
    (h : SelectStep s.chan c pc chan' (.goto pc')) : pc'.parsed = pc.parsed := by
  cases h with
  | received hpc =>
      rcases hpc with ⟨missed, rfl⟩ | rfl <;> rfl
  | _ => rfl

theorem SelectStep.effect [DecidableEq C] {ops : List (Operand Ch C T)} {timeout : Option PyFloat}
    {pc : SelectPc Ch T} {out : Out (SelectPc Ch T) (Ret T)}
    (hc : s.calls c = .run (.select ops timeout) (.select pc)) (hparse : parseOps ops = some pc.parsed)
    (h : SelectStep s.chan c pc chan' out) :
    Effect s c chan' (match out with
      | .goto pc' => .run (.select ops timeout) (.select pc')
      | .ret r => .done (.select ops timeout) r) := by
  have hold : (∀ parsed r, pc ≠ .drop parsed r) → (s.calls c).outcome = none := by
    intro hdrop
    rw [hc]
    cases pc with
    | drop parsed r => exact (hdrop parsed r rfl).elim
    | _ => rfl
  cases h with
  | received hpc hop hpop =>
      rcases hpc with ⟨missed, rfl⟩ | rfl <;>
        exact .deliver hpop rfl (hold (by simp)) rfl rfl rfl (received_select hparse hop)
  | disconnected => exact .of_none (fifo_update rfl) (hold (by simp)) rfl
  | drained => exact .of_none (fifo_update rfl) (hold (by simp)) rfl
  | sent hop hpush =>
      refine .accept hpush rfl (.inr ?_) (hold (by simp)) rfl rfl (sent_select hparse hop) rfl
      rw [hc]
      exact sendsTo_getElem hop
  | sendClosed => exact .of_none (fun _ => rfl) (hold (by simp)) rfl
  | recvClosed => exact .of_none (fun _ => rfl) (hold (by simp)) rfl
  | missed => exact .of_none (fun _ => rfl) (hold (by simp)) rfl
  | gaveUp hr =>
      refine .of_none (fun _ => rfl) (hold (by simp)) ?_
      rcases hr with rfl | rfl <;> rfl
  | dropped =>
      rename_i parsed r
      refine .quiet (fifo_releaseAll _ _ _) ?_
      rw [hc]
      simp only [Call.outcome]
      cases r.toPy <;> rfl

theorem CallStep.effect [DecidableEq C] [DecidableEq T] {m : Method Ch C T} {pc : Pc Ch T}
    (hc : s.calls c = .run m pc)
    (hcoh : (s.calls c).Coherent) (h : CallStep s c m pc chan' k) : Effect s c chan' k := by
  cases h with
  | sendGoto hstep =>
      cases hstep with
      | cloned => exact .of_none (fifo_update rfl) (by rw [hc]; rfl) (by split <;> rfl)
      | accepted hpc hpush =>
          rcases hpc with rfl | rfl <;>
            exact .accept hpush rfl (.inr (by rw [hc]; exact ⟨rfl, trivial⟩)) (by rw [hc]; rfl)
              rfl rfl rfl rfl
      | _ => exact .of_none (fifo_update rfl) (by rw [hc]; rfl) rfl
  | sendRet hstep =>
      cases hstep with
      | refused => exact .of_none (fifo_update rfl) (by rw [hc]; rfl) rfl
      | dropped =>
          rename_i r
          refine .quiet (fifo_update rfl) ?_
          rw [hc]
          cases r <;> rfl
  | recvGoto hstep => cases hstep <;> exact .of_none (fifo_update rfl) (by rw [hc]; rfl) rfl
  | recvRet hstep =>
      cases hstep with
      | received hpc hpop => exact .deliver hpop rfl (by rw [hc]; rfl) rfl rfl rfl rfl
      | _ => exact .of_none (fifo_update rfl) (by rw [hc]; rfl) rfl
  | trySend hstep =>
      cases hstep with
      | accepted hsender hpush =>
          exact .accept hpush rfl (.inl hsender) (by rw [hc]; rfl) rfl rfl rfl rfl
      | _ => exact .of_none (fifo_update rfl) (by rw [hc]; rfl) rfl
  | tryRecv hstep =>
      cases hstep with
      | received hpop => exact .deliver hpop rfl (by rw [hc]; rfl) rfl rfl rfl rfl
      | _ => exact .of_none (fifo_update rfl) (by rw [hc]; rfl) rfl
  | nextGoto hstep => cases hstep <;> exact .of_none (fifo_update rfl) (by rw [hc]; rfl) rfl
  | nextItem hstep =>
      cases hstep with
      | received hpc hpop => exact .deliver hpop rfl (by rw [hc]; rfl) rfl rfl rfl rfl
  | nextErr hstep => cases hstep <;> exact .of_none (fifo_update rfl) (by rw [hc]; rfl) rfl
  | nextSender => exact .of_none (fun _ => rfl) (by rw [hc]; rfl) rfl
  | nextRaise => exact .of_none (fun _ => rfl) (by rw [hc]; rfl) rfl
  | dropSender => exact .of_none (fifo_update rfl) (by rw [hc]; rfl) rfl
  | dropCloseTx => exact .settled (fifo_update rfl) (by rw [hc]; rfl) rfl rfl
  | sendOp => exact .settled (fifo_update rfl) (by rw [hc]; rfl) rfl rfl
  | sendOpClosed => exact .of_none (fun _ => rfl) (by rw [hc]; rfl) rfl
  | selectGoto hstep => exact hstep.effect hc (hcoh.1 _ _ _ hc)
  | selectRet hstep => exact hstep.effect hc (hcoh.1 _ _ _ hc)

theorem OneStep.effect [DecidableEq C] [DecidableEq T] (hcoh : (s.calls c).Coherent)
    (h : OneStep s c chan' k) : Effect s c chan' k := by
  cases h with
  | start hc _ hstart => exact hstart.effect hc
  | step hc hstep => exact hstep.effect hc hcoh

omit [DecidableEq Ch] in
theorem moved_of_moves_zero {m : Method Ch C T} {r : Ret T} (h : m.moves = 0) :
    m.sent r = [] ∧ m.received r = [] := by
  cases m with
  | close x => exact ⟨rfl, rfl⟩
  | sendOp x item => exact ⟨rfl, rfl⟩
  | _ => cases h

omit [DecidableEq Ch] in
theorem sent_of_outcome {m : Method Ch C T} {r : Ret T} (h : k.outcome = some (m, r)) :
    k.sent = m.sent r ∧ k.received = m.received r := by
  rw [Call.sent, Call.received, h]
  exact ⟨rfl, rfl⟩

omit [DecidableEq Ch] in
theorem sent_of_outcome_none (h : k.outcome = none) : k.sent = [] ∧ k.received = [] := by
  rw [Call.sent, Call.received, h]
  exact ⟨rfl, rfl⟩

omit [DecidableEq Ch] in
theorem sent_congr (h : k.outcome = k'.outcome) : k.sent = k'.sent ∧ k.received = k'.received := by
  rw [Call.sent, Call.received, Call.sent, Call.received, h]
  exact ⟨rfl, rfl⟩

variable [DecidableEq C]

theorem OneStep.parsed [DecidableEq T] (hcoh : (s.calls c).Coherent) (h : OneStep s c chan' k)
    {ops : List (Operand Ch C T)} {timeout : Option PyFloat} {pc : SelectPc Ch T}
    (hk : k = .run (.select ops timeout) (.select pc)) : parseOps ops = some pc.parsed := by
  cases h with
  | start hc _ hstart =>
      cases hstart with
      | select hparsed =>
          cases hk
          exact hparsed
      | _ => cases hk
  | step hc hstep =>
      cases hstep with
      | selectGoto hstep =>
          cases hk
          rw [hstep.parsed_eq]
          exact hcoh.1 _ _ _ hc
      | _ => cases hk

theorem OneStep.coherent [DecidableEq T] (hcoh : (s.calls c).Coherent) (h : OneStep s c chan' k) :
    k.Coherent := by
  refine ⟨fun ops timeout pc => h.parsed hcoh, fun m r hout => ?_⟩
  cases h.effect hcoh with
  | quiet _ hsame => exact hcoh.2 m r (hsame ▸ hout)
  | settled _ _ hk hmoves =>
      cases hk.symm.trans hout
      obtain ⟨hsent, hreceived⟩ := moved_of_moves_zero (r := r) hmoves
      rw [hsent, hreceived, hmoves]
      rfl
  | accept _ _ _ _ hk hmoves hsent hreceived =>
      cases hk.symm.trans hout
      rw [hsent, hreceived, hmoves]
      rfl
  | deliver _ _ _ hk hmoves hsent hreceived =>
      cases hk.symm.trans hout
      rw [hsent, hreceived, hmoves]
      rfl

omit [DecidableEq C] in
theorem step_update {ch : Chan C C T} {chan : Ch → Chan C C T}
    (h : (chan x).fifo.Step c c ch.fifo) (y : Ch) :
    (chan y).fifo.Step c c (Function.update chan x ch y).fifo := by
  by_cases hy : y = x
  · subst hy
    rwa [Function.update_self]
  · rw [Function.update_of_ne hy]
    exact .same

theorem Chan.SendStep.fifo {ch ch' : Chan C C T} {item : T} {timeout : Option PyFloat}
    {pc : SendPc} {out : Out SendPc Unit} (h : Chan.SendStep ch c item timeout pc ch' out) :
    ch.fifo.Step c c ch'.fifo := by
  cases h with
  | accepted _ hpush => exact .push hpush
  | _ => exact .same

theorem Chan.RecvStep.fifo {ch ch' : Chan C C T} {timeout : Option PyFloat} {pc : RecvPc}
    {out : Out RecvPc T} (h : Chan.RecvStep ch c timeout pc ch' out) :
    ch.fifo.Step c c ch'.fifo := by
  cases h with
  | received _ hpop => exact .pop hpop
  | _ => exact .same

theorem SelectStep.fifo {chan : Ch → Chan C C T} {pc : SelectPc Ch T}
    {out : Out (SelectPc Ch T) (Ret T)} (h : SelectStep chan c pc chan' out) (x : Ch) :
    (chan x).fifo.Step c c (chan' x).fifo := by
  cases h with
  | received _ _ hpop => exact step_update (.pop hpop) x
  | disconnected => exact .of_eq (fifo_update (by rfl) x)
  | drained => exact .of_eq (fifo_update (by rfl) x)
  | sent _ hpush => exact step_update (.push hpush) x
  | dropped => exact .of_eq (fifo_releaseAll _ _ _ x)
  | _ => exact .same

/-- A step of call `c` does one thing to a queue, in the name of `c`, or none. -/
theorem OneStep.fifo [DecidableEq T] (h : OneStep s c chan' k) (x : Ch) :
    (s.chan x).fifo.Step c c (chan' x).fifo := by
  cases h with
  | start _ _ hstart =>
      cases hstart with
      | select => exact .of_eq (fifo_holdAll _ _ _ x)
      | _ => exact .same
  | step _ hstep =>
      cases hstep with
      | sendGoto hstep => exact step_update hstep.fifo x
      | sendRet hstep => exact step_update hstep.fifo x
      | recvGoto hstep => exact step_update hstep.fifo x
      | recvRet hstep => exact step_update hstep.fifo x
      | trySend hstep =>
          cases hstep with
          | accepted _ hpush => exact step_update (.push hpush) x
          | _ => exact .of_eq (fifo_update (by rfl) x)
      | tryRecv hstep =>
          cases hstep with
          | received hpop => exact step_update (.pop hpop) x
          | _ => exact .of_eq (fifo_update (by rfl) x)
      | nextGoto hstep => exact step_update hstep.fifo x
      | nextItem hstep => exact step_update hstep.fifo x
      | nextErr hstep => exact step_update hstep.fifo x
      | dropSender => exact .of_eq (fifo_update (by rfl) x)
      | dropCloseTx => exact .of_eq (fifo_update (by rfl) x)
      | sendOp => exact .of_eq (fifo_update (by rfl) x)
      | selectGoto hstep => exact hstep.fifo x
      | selectRet hstep => exact hstep.fifo x
      | _ => exact .same

/-- One entry of the history of `x`, seen from channel `y` and call `d`. -/
theorem tagged_entry (c d : C) (x y : Ch) (item : T) :
    tagged y (if d = c then [(x, item)] else []) = if y = x then tagged d [(c, item)] else [] := by
  by_cases hd : d = c <;> by_cases hy : y = x
  · subst hd hy
    simp [tagged]
  · simp [tagged, hd, hy, Ne.symm hy]
  · simp [tagged, hd, hy, Ne.symm hd]
  · simp [tagged, hd, hy]

/-- A history that grows by one entry at `x`. -/
theorem tagged_update {g : Fifo C C T → List (C × T)} {f : Fifo C C T} {item : T} (c : C)
    (hg : g f = g (s.chan x).fifo ++ [(c, item)]) (y : Ch) (d : C) :
    tagged d (g (Function.update s.chan x ((s.chan x).setFifo f) y).fifo)
      = tagged d (g (s.chan y).fifo) ++ tagged y (if d = c then [(x, item)] else []) := by
  rw [tagged_entry]
  by_cases hy : y = x
  · subst hy
    rw [Function.update_self, if_pos rfl, Chan.setFifo, hg, tagged_append]
  · rw [Function.update_of_ne hy, if_neg hy, List.append_nil]

omit [DecidableEq C] in
theorem same_update {α : Type} {g : Fifo C C T → α} {f : Fifo C C T}
    (hg : g f = g (s.chan x).fifo) (y : Ch) :
    g (Function.update s.chan x ((s.chan x).setFifo f) y).fifo = g (s.chan y).fifo :=
  field_update (fun ch => g ch.fifo) hg y

omit [DecidableEq C] in
/-- Handing an item over is the one move of the call that offers it. -/
theorem Call.Offers.effect {item : T} {b : Bool} (hcoh : (s.calls c).Coherent)
    (h : (s.calls c).Offers s.chan x item b k) :
    ((s.chan x).sender = true ∨ (s.calls c).CanSend x) ∧ (s.calls c).outcome = none ∧
      (∀ ops timeout pc, k = .run (.select ops timeout) (.select pc) →
        parseOps ops = some pc.parsed) ∧
      ∃ m r, k.outcome = some (m, r) ∧ m.moves = 1 ∧ m.sent r = [(x, item)] ∧
        m.received r = [] := by
  generalize hc : s.calls c = k₀ at h hcoh
  cases h with
  | send hpc =>
      rcases hpc with rfl | rfl <;>
        exact ⟨.inr ⟨rfl, trivial⟩, rfl, fun _ _ _ hk => (by cases hk), _, _, rfl, rfl, rfl, rfl⟩
  | trySend hsender =>
      exact ⟨.inl hsender, rfl, fun _ _ _ hk => (by cases hk), _, _, rfl, rfl, rfl, rfl⟩
  | select hop =>
      have hparse := hcoh.1 _ _ _ rfl
      refine ⟨.inr (sendsTo_getElem hop), rfl, fun _ _ _ hk => ?_, _, _, rfl, rfl,
        sent_select hparse hop, rfl⟩
      cases hk
      exact hparse

omit [DecidableEq Ch] [DecidableEq C] in
/-- Taking the item is the one move of the call that wants it. -/
theorem Call.Wants.effect {b : Bool} {k : T → Call Ch C T} (hcoh : (s.calls c).Coherent)
    (h : (s.calls c).Wants x b k) (item : T) : (s.calls c).outcome = none ∧
      (∀ ops timeout pc, k item = .run (.select ops timeout) (.select pc) →
        parseOps ops = some pc.parsed) ∧
      ∃ m r, (k item).outcome = some (m, r) ∧ m.moves = 1 ∧ m.sent r = [] ∧
        m.received r = [(x, item)] := by
  generalize hc : s.calls c = k₀ at h hcoh
  cases h with
  | recv => exact ⟨rfl, fun _ _ _ hk => (by cases hk), _, _, rfl, rfl, rfl, rfl⟩
  | next => exact ⟨rfl, fun _ _ _ hk => (by cases hk), _, _, rfl, rfl, rfl, rfl⟩
  | tryRecv => exact ⟨rfl, fun _ _ _ hk => (by cases hk), _, _, rfl, rfl, rfl, rfl⟩
  | select hpc hop =>
      have hparse := hcoh.1 _ _ _ rfl
      rcases hpc with ⟨missed, rfl⟩ | rfl <;>
        exact ⟨rfl, fun _ _ _ hk => (by cases hk; exact hparse), _, _, rfl, rfl, rfl,
          received_select hparse hop⟩

omit [DecidableEq Ch] [DecidableEq C] in
theorem coherent_of_moves {m : Method Ch C T} {r : Ret T}
    (hparse : ∀ ops timeout pc, k = .run (.select ops timeout) (.select pc) →
      parseOps ops = some pc.parsed)
    (hout : k.outcome = some (m, r))
    (hmoves : (m.sent r).length + (m.received r).length = m.moves) : k.Coherent := by
  refine ⟨hparse, fun m' r' hout' => ?_⟩
  cases hout.symm.trans hout'
  exact hmoves

/-- What the histories of the channels have gained from call `c` since `s₀`: each channel what is
listed for it. -/
structure Gained (s₀ s : State Ch C T) (c : C) (put got : List (Ch × T)) : Prop where
  accepted : ∀ x, tagged c (s.chan x).fifo.accepted
    = tagged c (s₀.chan x).fifo.accepted ++ tagged x put
  delivered : ∀ x, tagged c (s.chan x).fifo.delivered
    = tagged c (s₀.chan x).fifo.delivered ++ tagged x got

theorem Gained.refl (s : State Ch C T) (c : C) : Gained s s c [] [] where
  accepted _ := (List.append_nil _).symm
  delivered _ := (List.append_nil _).symm

theorem Gained.untouched {put got : List (Ch × T)} (h : Gained s₀ s c put got)
    (hacc : ∀ x, tagged c (t.chan x).fifo.accepted = tagged c (s.chan x).fifo.accepted)
    (hdel : ∀ x, tagged c (t.chan x).fifo.delivered = tagged c (s.chan x).fifo.delivered) :
    Gained s₀ t c put got where
  accepted x := (hacc x).trans (h.accepted x)
  delivered x := (hdel x).trans (h.delivered x)

theorem Gained.of_fifo {put got : List (Ch × T)} (h : Gained s₀ s c put got)
    (hfifo : ∀ x, (t.chan x).fifo = (s.chan x).fifo) : Gained s₀ t c put got :=
  h.untouched (fun x => by rw [hfifo]) fun x => by rw [hfifo]

theorem Gained.grow {put got put' got' : List (Ch × T)} (h : Gained s₀ s c put got)
    (hacc : ∀ x, tagged c (t.chan x).fifo.accepted
      = tagged c (s.chan x).fifo.accepted ++ tagged x put')
    (hdel : ∀ x, tagged c (t.chan x).fifo.delivered
      = tagged c (s.chan x).fifo.delivered ++ tagged x got') :
    Gained s₀ t c (put ++ put') (got ++ got') where
  accepted x := by rw [hacc, h.accepted, tagged_append, List.append_assoc]
  delivered x := by rw [hdel, h.delivered, tagged_append, List.append_assoc]

/-- The history of a queue has one new entry, of this call. -/
theorem tagged_own {g : Fifo C C T → List (C × T)} {f : Fifo C C T} {item : T}
    (hg : g f = g (s.chan x).fifo ++ [(c, item)]) (y : Ch) :
    tagged c (g (Function.update s.chan x ((s.chan x).setFifo f) y).fifo)
      = tagged c (g (s.chan y).fifo) ++ tagged y [(x, item)] := by
  rw [tagged_update c hg, if_pos rfl]

/-- The history of a queue has one new entry, of another call. -/
theorem tagged_other {g : Fifo C C T → List (C × T)} {f : Fifo C C T} {item : T} (hd : d ≠ c)
    (hg : g f = g (s.chan x).fifo ++ [(c, item)]) (y : Ch) :
    tagged d (g (Function.update s.chan x ((s.chan x).setFifo f) y).fifo)
      = tagged d (g (s.chan y).fifo) ++ tagged y ([] : List (Ch × T)) := by
  rw [tagged_update c hg, if_neg hd]

/-- The history of a queue has no new entry. -/
theorem tagged_still {g : Fifo C C T → List (C × T)} {f : Fifo C C T}
    (hg : g f = g (s.chan x).fifo) (y : Ch) :
    tagged d (g (Function.update s.chan x ((s.chan x).setFifo f) y).fifo)
      = tagged d (g (s.chan y).fifo) ++ tagged y ([] : List (Ch × T)) := by
  rw [same_update hg, tagged_nil, List.append_nil]

/-- Call `c` since `s₀`: it has moved what its progress says. -/
structure Tracked (s₀ s : State Ch C T) (c : C) : Prop where
  coherent : (s.calls c).Coherent
  gained : Gained s₀ s c (s.calls c).sent (s.calls c).received

theorem tracked_idle (hidle : s₀.calls c = .idle) : Tracked s₀ s₀ c where
  coherent := by
    rw [hidle]
    exact ⟨fun _ _ _ hk => (by cases hk), fun _ _ hout => (by cases hout)⟩
  gained := by
    rw [hidle]
    exact .refl s₀ c

/-- Before it has settled on success a call has moved nothing. -/
theorem Tracked.none (h : Tracked s₀ s c) (hnone : (s.calls c).outcome = none) :
    Gained s₀ s c [] [] := by
  have hgained := h.gained
  rwa [(sent_of_outcome_none hnone).1, (sent_of_outcome_none hnone).2] at hgained

variable [DecidableEq T]

theorem Tracked.call (h : Tracked s₀ s c) (hstep : OneStep s c chan' k) :
    Tracked s₀ (State.setCall { s with chan := chan' } c k) c := by
  refine ⟨?_, ?_⟩
  · rw [State.calls_setCall_self]
    exact hstep.coherent h.coherent
  rw [State.calls_setCall_self]
  cases hstep.effect h.coherent with
  | quiet hfifo hout =>
      rw [(sent_congr hout).1, (sent_congr hout).2]
      exact h.gained.of_fifo hfifo
  | settled hfifo hold hout hmoves =>
      rw [(sent_of_outcome hout).1, (sent_of_outcome hout).2, (moved_of_moves_zero hmoves).1,
        (moved_of_moves_zero hmoves).2]
      exact (h.none hold).of_fifo hfifo
  | accept hpush hchan hcan hold hout hmoves hsent hreceived =>
      obtain ⟨-, -, -, hacc, hdel⟩ := Fifo.push_eq_some.mp hpush
      subst hchan
      rw [(sent_of_outcome hout).1, (sent_of_outcome hout).2, hsent, hreceived]
      exact (h.none hold).grow (tagged_own hacc) (tagged_still hdel)
  | deliver hpop hchan hold hout hmoves hsent hreceived =>
      obtain ⟨-, -, hacc, hdel⟩ := Fifo.pop_eq_some.mp hpop
      subst hchan
      rw [(sent_of_outcome hout).1, (sent_of_outcome hout).2, hsent, hreceived]
      exact (h.none hold).grow (tagged_still hacc) (tagged_own hdel)

omit [DecidableEq T] in
theorem Tracked.handoff {e : C} {item : T} {b b' : Bool} {k' : T → Call Ch C T} {f : Fifo C C T}
    (h : Tracked s₀ s e) (hne : c ≠ d) (hoffer : (s.calls c).Offers s.chan x item b k)
    (hwant : (s.calls d).Wants x b' k') (hpass : (s.chan x).fifo.pass c d item = some f) :
    Tracked s₀ (((s.setChan x ((s.chan x).setFifo f)).setCall c k).setCall d (k' item)) e := by
  obtain ⟨-, -, -, hacc, hdel⟩ := Fifo.pass_eq_some.mp hpass
  by_cases hed : e = d
  · subst hed
    obtain ⟨hold, hparse, m, r, hout, hmoves, hsent, hreceived⟩ := hwant.effect h.coherent item
    refine ⟨?_, ?_⟩ <;> rw [State.calls_setCall_self]
    · exact coherent_of_moves hparse hout (by rw [hsent, hreceived, hmoves]; rfl)
    · rw [(sent_of_outcome hout).1, (sent_of_outcome hout).2, hsent, hreceived]
      exact (h.none hold).grow (tagged_other hne.symm hacc) (tagged_own hdel)
  by_cases hec : e = c
  · subst hec
    obtain ⟨-, hold, hparse, m, r, hout, hmoves, hsent, hreceived⟩ := hoffer.effect h.coherent
    refine ⟨?_, ?_⟩ <;> rw [State.calls_setCall_ne _ _ hed, State.calls_setCall_self]
    · exact coherent_of_moves hparse hout (by rw [hsent, hreceived, hmoves]; rfl)
    · rw [(sent_of_outcome hout).1, (sent_of_outcome hout).2, hsent, hreceived]
      exact (h.none hold).grow (tagged_own hacc) (tagged_other hed hdel)
  · refine ⟨?_, ?_⟩ <;> rw [State.calls_setCall_ne _ _ hed, State.calls_setCall_ne _ _ hec]
    · exact h.coherent
    · exact h.gained.untouched (fun y => (tagged_other hec hacc y).trans (List.append_nil _))
        fun y => (tagged_other hed hdel y).trans (List.append_nil _)

theorem Tracked.next (h : Tracked s₀ s c) (hn : next s a = some t) : Tracked s₀ t c := by
  rcases next_cases hn with ⟨d, chan', k, hstep, rfl⟩ |
    ⟨d, e, x, item, b, b', k, k', f, hne, hoffer, hwant, hpass, rfl⟩ | ⟨o, x, item, r, -, rfl⟩
  · by_cases hcd : c = d
    · subst hcd
      exact h.call hstep
    · refine ⟨?_, ?_⟩ <;> rw [State.calls_setCall_ne _ _ hcd]
      · exact h.coherent
      · exact h.gained.untouched (fun x => (hstep.fifo x).accepted hcd)
          fun x => (hstep.fifo x).delivered hcd
  · exact h.handoff hne hoffer hwant hpass.2
  · exact ⟨h.coherent, h.gained.of_fifo (fifo_update (by rfl))⟩

theorem tracked_run {as : List (Act Ch C T)} (hidle : s₀.calls c = .idle)
    (h : Run next s₀ as s) : Tracked s₀ s c := by
  induction h with
  | nil => exact tracked_idle hidle
  | snoc _ _ hn ih => exact ih.next hn

/-- The histories of the channels are the moves of the calls. -/
structure Accounted (capacity : Ch → Option ℕ) (s : State Ch C T) : Prop where
  coherent : ∀ c, (s.calls c).Coherent
  capacity_eq : ∀ x, (s.chan x).fifo.capacity = capacity x
  accepted : ∀ x c, tagged c (s.chan x).fifo.accepted = tagged x (s.calls c).sent
  delivered : ∀ x c, tagged c (s.chan x).fifo.delivered = tagged x (s.calls c).received

theorem capacity_next (hn : next s a = some t) (x : Ch) :
    (t.chan x).fifo.capacity = (s.chan x).fifo.capacity := by
  rcases next_cases hn with ⟨c, chan', k, hstep, rfl⟩ |
    ⟨c, d, y, item, b, b', k, k', f, -, -, -, ⟨-, hpass⟩, rfl⟩ | ⟨o, y, item, r, -, rfl⟩
  · exact (hstep.fifo x).capacity
  · exact same_update (Fifo.pass_eq_some.mp hpass).2.1 x
  · exact field_update (fun ch => ch.fifo.capacity) (by rfl) x

theorem accounted_run {capacity : Ch → Option ℕ} {as : List (Act Ch C T)}
    (h : Run next (State.init capacity) as s) : Accounted capacity s where
  coherent c := (tracked_run rfl h).coherent
  capacity_eq x := by
    induction h with
    | nil => rfl
    | snoc _ _ hn ih => exact (capacity_next hn x).trans ih
  accepted x c := (tracked_run (c := c) rfl h).gained.accepted x
  delivered x c := (tracked_run (c := c) rfl h).gained.delivered x

/-- In every run of every system of channels, items come out of a channel in the order in which they
went in, the buffer never exceeds the capacity, and what a finished call has put in and taken out is
given by its result: nothing if it raised, exactly its one item if it returned. -/
theorem delivery_exact (capacity : Ch → Option ℕ) (as : List (Act Ch C T)) (s : State Ch C T)
    (hrun : Run next (State.init capacity) as s) :
    (∀ x, (s.chan x).fifo.delivered.map Prod.snd <+: (s.chan x).fifo.accepted.map Prod.snd ∧
      (s.chan x).fifo.accepted.map Prod.snd
        = (s.chan x).fifo.delivered.map Prod.snd ++ (s.chan x).fifo.queue ∧
      ∀ n, capacity x = some n → (s.chan x).fifo.queue.length ≤ n) ∧
    (∀ c m r, s.calls c = .done m (.ok r) →
      (m.sent r).length + (m.received r).length = m.moves ∧
      ∀ x, tagged c (s.chan x).fifo.accepted = tagged x (m.sent r) ∧
        tagged c (s.chan x).fifo.delivered = tagged x (m.received r)) ∧
    ∀ c m e, s.calls c = .done m (.error e) →
      ∀ x, tagged c (s.chan x).fifo.accepted = [] ∧ tagged c (s.chan x).fifo.delivered = [] := by
  have h := accounted_run hrun
  refine ⟨fun x => ⟨Fifo.delivered_prefix _, (s.chan x).fifo.conserved, fun n hn => ?_⟩,
    fun c m r hc => ⟨(h.coherent c).2 m r (by rw [hc]; rfl), fun x => ?_⟩, fun c m e hc x => ?_⟩
  · exact (s.chan x).fifo.bounded n ((h.capacity_eq x).trans hn)
  · rw [h.accepted, h.delivered, hc]
    exact ⟨rfl, rfl⟩
  · rw [h.accepted, h.delivered, hc]
    exact ⟨rfl, rfl⟩

/-- A send that finds the channel full and waits, and two receives. -/
def waitingSendTrace : List (Act Unit ℕ ℕ) :=
  [.invoke 0 (.send () 7 none), .step 0 .go, .step 0 .go, .step 0 .go,
   .invoke 1 (.send () 8 none), .step 1 .go, .step 1 .go,
   .invoke 2 (.recv () none), .step 2 .go, .step 1 .data, .step 1 .go,
   .invoke 3 (.recv () (some (.fin 1))), .step 3 .go, .step 3 .data]

theorem waitingSendTrace_exec :
    (exec next (fun _ _ => True) (State.init fun _ => some 1) waitingSendTrace).map (fun s =>
      decide (s.calls 1 = .done (.send () 8 none) (.ok .unit) ∧
        s.calls 3 = .done (.recv () (some (.fin 1))) (.ok (.item 8)))) = some true := by
  decide +kernel

theorem delivery_exact_waitingSendTrace :
    ∃ s : State Unit ℕ ℕ, Run next (State.init fun _ => some 1) waitingSendTrace s ∧
      (s.chan ()).fifo.queue.length ≤ 1 ∧ tagged 1 (s.chan ()).fifo.accepted = [8] ∧
      tagged 3 (s.chan ()).fifo.delivered = [8] := by
  obtain ⟨s, hrun, hs⟩ := exists_runWith_of_exec waitingSendTrace_exec
  obtain ⟨hsend, hrecv⟩ := of_decide_eq_true hs
  obtain ⟨hchan, hok, -⟩ := delivery_exact (fun _ => some 1) waitingSendTrace s hrun
  exact ⟨s, hrun, (hchan ()).2.2 1 rfl, ((hok 1 _ _ hsend).2 ()).1, ((hok 3 _ _ hrecv).2 ()).2⟩

end Pysync.Channel
