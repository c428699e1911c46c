import Pysync.ChannelModel

/-!
What a step of the channels can do, said once: the outcomes of `select`, of a call on its own, and of
the whole system. Everything about runs is derived from these.
-/

namespace Pysync.Channel
open Queue

section Register

variable {Ch T : Type} {parsed : List (OpType Ch T)}

theorem register_append (op : OpType Ch T) :
    register (parsed ++ [op]) = (register parsed).add (op, parsed.length) := by
  simp [register, List.zipIdx_append, List.foldl_append]

/-- The handle of operation `i` has index `2 * i`, its close signal `2 * i + 1`. -/
theorem register_spec (parsed : List (OpType Ch T)) :
    (register parsed).count = 2 * parsed.length ∧
    (∀ j, (register parsed).mainOpMap j =
      if j % 2 = 0 ∧ j / 2 < parsed.length then some (j / 2) else none) ∧
    ∀ j, (register parsed).closeOpMap j =
      if j % 2 = 1 then (parsed[j / 2]?).map fun op => (j / 2, op.isSend) else none := by
  induction parsed using List.reverseRecOn with
  | nil => simp [register]
  | append_singleton parsed op ih =>
      obtain ⟨hcount, hmain, hclose⟩ := ih
      rw [register_append]
      refine ⟨?_, fun j => ?_, fun j => ?_⟩
      · simp only [Registry.add, hcount, List.length_append, List.length_singleton]
        omega
      · simp only [Registry.add, Function.update_apply, hcount, hmain, List.length_append,
          List.length_singleton]
        by_cases hj : j = 2 * parsed.length
        · subst hj
          simp
        · rw [if_neg hj]
          congr 1
          ext
          constructor <;> intro h <;> omega
      · simp only [Registry.add, Function.update_apply, hcount, hclose]
        by_cases hj : j = 2 * parsed.length + 1
        · subst hj
          have hdiv : (2 * parsed.length + 1) / 2 = parsed.length := by omega
          simp [hdiv]
        · rw [if_neg hj]
          by_cases hodd : j % 2 = 1
          · rw [if_pos hodd, if_pos hodd]
            by_cases hlt : j / 2 < parsed.length
            · rw [List.getElem?_append_left hlt]
            · have hout : parsed.length + 1 ≤ j / 2 := by omega
              rw [List.getElem?_eq_none (by omega), List.getElem?_eq_none (by simpa using hout)]
          · rw [if_neg hodd, if_neg hodd]

theorem mainOpMap_double {i : ℕ} (hi : i < parsed.length) :
    (register parsed).mainOpMap (2 * i) = some i := by
  obtain ⟨-, hmain, -⟩ := register_spec parsed
  rw [hmain, if_pos (by omega)]
  congr 1
  omega

theorem closeOpMap_double (parsed : List (OpType Ch T)) (i : ℕ) :
    (register parsed).closeOpMap (2 * i) = none := by
  obtain ⟨-, -, hclose⟩ := register_spec parsed
  rw [hclose, if_neg (by omega)]

end Register

section Select

variable {Ch C T : Type} [DecidableEq Ch] [DecidableEq C]
variable {chan chan' : Ch → Chan C C T} {c : C} {timeout : Option PyFloat}

/-- What one step of a `select` that waits or has waited can do. -/
inductive SelectStep (chan : Ch → Chan C C T) (c : C) :
    SelectPc Ch T → (Ch → Chan C C T) → Out (SelectPc Ch T) (Ret T) → Prop
  | received {parsed : List (OpType Ch T)} {pc : SelectPc Ch T} {i : ℕ} {x : Ch} {item : T}
      {f : Fifo C C T} (hpc : (∃ missed, pc = .choose parsed missed) ∨ pc = .recheck parsed i)
      (hop : parsed[i]? = some (.recv x)) (hpop : (chan x).fifo.pop c = some (item, f)) :
      SelectStep chan c pc (Function.update chan x ((chan x).setFifo f))
        (.goto (.drop parsed (.recvSuccess i item)))
  | disconnected {parsed : List (OpType Ch T)} {missed : Finset ℕ} {i : ℕ} {x : Ch}
      (hop : parsed[i]? = some (.recv x)) (hqueue : (chan x).fifo.queue = [])
      (hdisc : (chan x).disconnected) :
      SelectStep chan c (.choose parsed missed) (Function.update chan x (chan x).conclude)
        (.goto (.drop parsed .recvClosed))
  | drained {parsed : List (OpType Ch T)} {i : ℕ} {x : Ch}
      (hop : parsed[i]? = some (.recv x)) (hqueue : (chan x).fifo.queue = []) :
      SelectStep chan c (.recheck parsed i) (Function.update chan x (chan x).conclude)
        (.goto (.drop parsed .recvClosed))
  | sent {parsed : List (OpType Ch T)} {missed : Finset ℕ} {i : ℕ} {x : Ch} {item : T}
      {f : Fifo C C T} (hop : parsed[i]? = some (.send x (some item)))
      (hpush : (chan x).fifo.push c item = some f) :
      SelectStep chan c (.choose parsed missed) (Function.update chan x ((chan x).setFifo f))
        (.goto (.drop parsed (.sendSuccess i)))
  | sendClosed {parsed : List (OpType Ch T)} {missed : Finset ℕ} {i : ℕ} {x : Ch}
      {item : Option T} (hop : parsed[i]? = some (.send x item))
      (hclose : (chan x).closeTx = false) :
      SelectStep chan c (.choose parsed missed) chan (.goto (.drop parsed .sendClosed))
  | recvClosed {parsed : List (OpType Ch T)} {missed : Finset ℕ} {i : ℕ} {x : Ch}
      (hop : parsed[i]? = some (.recv x)) (hclose : (chan x).closeTx = false) :
      SelectStep chan c (.choose parsed missed) chan (.goto (.recheck parsed i))
  | missed {parsed : List (OpType Ch T)} {missed missed' : Finset ℕ} :
      SelectStep chan c (.choose parsed missed) chan (.goto (.choose parsed missed'))
  | gaveUp {parsed : List (OpType Ch T)} {missed : Finset ℕ} {r : SelectResult T}
      (hr : r = .timeout ∨ r = .itemConsumed) :
      SelectStep chan c (.choose parsed missed) chan (.goto (.drop parsed r))
  | dropped {parsed : List (OpType Ch T)} {r : SelectResult T} :
      SelectStep chan c (.drop parsed r) (releaseAll chan c parsed) (.ret r.toPy)

theorem selectArm_cases {parsed : List (OpType Ch T)} {missed : Finset ℕ} {j : ℕ}
    {pc : SelectPc Ch T} (h : selectArm chan c parsed j = some (chan', pc)) :
    SelectStep chan c (.choose parsed missed) chan' (.goto pc) := by
  obtain ⟨hcount, hmain, hclose⟩ := register_spec parsed
  unfold selectArm at h
  simp only [hcount, hmain, hclose] at h
  split at h
  · cases h
  split at h
  · rename_i hj i isSend hsome
    split at hsome
    · obtain ⟨op, hop, hpair⟩ := Option.map_eq_some_iff.mp hsome
      obtain ⟨rfl, rfl⟩ := Prod.mk.inj hpair
      rw [hop] at h
      dsimp only at h
      split at h
      · cases h
      · rename_i hopen
        have hclosed : (chan op.chan).closeTx = false := by simpa using hopen
        cases h
        cases op with
        | recv x => exact .recvClosed hop hclosed
        | send x item => exact .sendClosed hop hclosed
    · cases hsome
  · split at h
    · cases h
      exact .gaveUp (.inl rfl)
    · rename_i i hi
      split at h
      · cases h
      · rename_i x hop
        split at h
        · cases h
        · rename_i hready
          unfold selectRecv at h
          split at h
          · rename_i hpop
            cases h
            exact .received (.inl ⟨_, rfl⟩) hop hpop
          · rename_i hpop
            have hqueue := Fifo.pop_eq_none.mp hpop
            cases h
            exact .disconnected hop hqueue (by simpa [hqueue] using hready)
      · cases h
        exact .gaveUp (.inr rfl)
      · rename_i x item hop
        obtain ⟨f, hpush, hf⟩ := Option.map_eq_some_iff.mp h
        cases hf
        exact .sent hop hpush

theorem select_cases {pc : SelectPc Ch T} {arm : Arm} {out : Out (SelectPc Ch T) (Ret T)}
    (h : selectStep chan c timeout pc arm = some (chan', out)) :
    SelectStep chan c pc chan' out := by
  unfold selectStep at h
  split at h
  · obtain ⟨⟨chan₁, pc'⟩, harm, hr⟩ := Option.map_eq_some_iff.mp h
    cases hr
    exact selectArm_cases harm
  · split at h
    · cases h
      exact .missed
    · cases h
  · split at h
    · cases h
      exact .gaveUp (.inl rfl)
    · cases h
  · split at h
    · rename_i x hop
      unfold selectRecv at h
      split at h
      · rename_i hpop
        cases h
        exact .received (.inr rfl) hop hpop
      · rename_i hpop
        cases h
        exact .drained hop (Fifo.pop_eq_none.mp hpop)
    · cases h
  · cases h
    exact .dropped
  · cases h

theorem PyFloat.fromSecs_error {t : PyFloat} {e : PyErr} (h : t.fromSecs = .error e) :
    e = .panic := by
  cases t with
  | fin q =>
      unfold PyFloat.fromSecs at h
      dsimp only at h
      split at h <;> cases h
      rfl
  | _ =>
      cases h
      rfl

/-- How a `select` begins: it raises at once, or it waits, holding a clone for each of its sends. -/
theorem selectParse_cases (chan : Ch → Chan C C T) (c : C) (ops : List (Operand Ch C T))
    (timeout : Option PyFloat) :
    (∃ e, .error e ≠ (SelectResult.recvClosed : SelectResult T).toPy ∧
      selectParse chan c ops timeout = (chan, .ret (.error e))) ∨
    ∃ parsed, parseOps ops = some parsed ∧
      selectParse chan c ops timeout = (holdAll chan c parsed, .goto (.choose parsed ∅)) := by
  unfold selectParse
  split
  · exact .inl ⟨_, by simp [SelectResult.toPy], rfl⟩
  split
  · exact .inl ⟨_, by simp [SelectResult.toPy], rfl⟩
  · rename_i parsed hparsed
    split
    · rename_i e he
      obtain ⟨t, -, ht⟩ := Option.map_eq_some_iff.mp he
      exact .inl ⟨e, by rw [PyFloat.fromSecs_error ht]; simp [SelectResult.toPy], rfl⟩
    · exact .inr ⟨parsed, hparsed, rfl⟩

omit [DecidableEq Ch] [DecidableEq C] in
/-- Each parsed operation is the operand at its index. -/
theorem parseOps_getElem {ops : List (Operand Ch C T)} {parsed : List (OpType Ch T)}
    (h : parseOps ops = some parsed) {i : ℕ} {op : OpType Ch T} (hop : parsed[i]? = some op) :
    ∃ operand, ops[i]? = some operand ∧ operand.parse = some op := by
  induction ops generalizing parsed i with
  | nil =>
      cases h
      simp at hop
  | cons operand ops ih =>
      obtain ⟨p, hp, hmap⟩ := Option.bind_eq_some_iff.mp h
      obtain ⟨rest, hrest, rfl⟩ := Option.map_eq_some_iff.mp hmap
      cases i with
      | zero =>
          cases hop
          exact ⟨operand, rfl, hp⟩
      | succ i => exact ih hrest hop

omit [DecidableEq Ch] [DecidableEq C] in
/-- Each operand is parsed. -/
theorem getElem_parseOps {ops : List (Operand Ch C T)} {parsed : List (OpType Ch T)}
    (h : parseOps ops = some parsed) {i : ℕ} {op : Operand Ch C T} (hop : ops[i]? = some op) :
    ∃ p, op.parse = some p ∧ parsed[i]? = some p := by
  induction ops generalizing parsed i with
  | nil => simp at hop
  | cons operand ops ih =>
      obtain ⟨p, hp, hmap⟩ := Option.bind_eq_some_iff.mp h
      obtain ⟨rest, hrest, rfl⟩ := Option.map_eq_some_iff.mp hmap
      cases i with
      | zero =>
          cases hop
          exact ⟨p, hp, rfl⟩
      | succ i => exact ih hrest hop

end Select

section Step

variable {Ch C T : Type}
variable {s t : State Ch C T} {a : Act Ch C T} {c d : C} {x y : Ch}

namespace State

@[simp] theorem chan_setCall [DecidableEq C] (s : State Ch C T) (c : C) (k : Call Ch C T) :
    (s.setCall c k).chan = s.chan := rfl

@[simp] theorem calls_setChan [DecidableEq Ch] (s : State Ch C T) (x : Ch) (ch : Chan C C T) :
    (s.setChan x ch).calls = s.calls := rfl

@[simp] theorem calls_setCall_self [DecidableEq C] (s : State Ch C T) (c : C) (k : Call Ch C T) :
    (s.setCall c k).calls c = k := Function.update_self _ _ _

theorem calls_setCall_ne [DecidableEq C] (s : State Ch C T) (k : Call Ch C T) (h : d ≠ c) :
    (s.setCall c k).calls d = s.calls d := Function.update_of_ne h _ _

@[simp] theorem chan_setChan_self [DecidableEq Ch] (s : State Ch C T) (x : Ch) (ch : Chan C C T) :
    (s.setChan x ch).chan x = ch := Function.update_self _ _ _

theorem chan_setChan_ne [DecidableEq Ch] (s : State Ch C T) (ch : Chan C C T) (h : y ≠ x) :
    (s.setChan x ch).chan y = s.chan y := Function.update_of_ne h _ _

end State

variable [DecidableEq Ch] [DecidableEq C]

/-- What a step of a running call on its own can do. -/
inductive CallStep (s : State Ch C T) (c : C) :
    Method Ch C T → Pc Ch T → (Ch → Chan C C T) → Call Ch C T → Prop
  | sendGoto {x : Ch} {item : T} {timeout : Option PyFloat} {pc pc' : SendPc} {ch : Chan C C T}
      (hstep : Chan.SendStep (s.chan x) c item timeout pc ch (.goto pc')) :
      CallStep s c (.send x item timeout) (.send pc) (Function.update s.chan x ch)
        (.run (.send x item timeout) (.send pc'))
  | sendRet {x : Ch} {item : T} {timeout : Option PyFloat} {pc : SendPc} {ch : Chan C C T}
      {r : PyResult Unit} (hstep : Chan.SendStep (s.chan x) c item timeout pc ch (.ret r)) :
      CallStep s c (.send x item timeout) (.send pc) (Function.update s.chan x ch)
        (.done (.send x item timeout) (r.map fun _ => .unit))
  | recvGoto {x : Ch} {timeout : Option PyFloat} {pc pc' : RecvPc} {ch : Chan C C T}
      (hstep : Chan.RecvStep (s.chan x) c timeout pc ch (.goto pc')) :
      CallStep s c (.recv x timeout) (.recv pc) (Function.update s.chan x ch)
        (.run (.recv x timeout) (.recv pc'))
  | recvRet {x : Ch} {timeout : Option PyFloat} {pc : RecvPc} {ch : Chan C C T}
      {r : PyResult T} (hstep : Chan.RecvStep (s.chan x) c timeout pc ch (.ret r)) :
      CallStep s c (.recv x timeout) (.recv pc) (Function.update s.chan x ch)
        (.done (.recv x timeout) (r.map .item))
  | trySend {x : Ch} {item : T} {ch : Chan C C T} {r : PyResult Unit}
      (hstep : Chan.TrySendStep (s.chan x) c item (ch, r)) :
      CallStep s c (.trySend x item) .once (Function.update s.chan x ch)
        (.done (.trySend x item) (r.map fun _ => .unit))
  | tryRecv {x : Ch} {ch : Chan C C T} {r : PyResult T}
      (hstep : Chan.TryRecvStep (s.chan x) c (ch, r)) :
      CallStep s c (.tryRecv x) .once (Function.update s.chan x ch)
        (.done (.tryRecv x) (r.map .item))
  | nextGoto {x : Ch} {pc pc' : RecvPc} {ch : Chan C C T}
      (hstep : Chan.RecvStep (s.chan x) c none pc ch (.goto pc')) :
      CallStep s c (.next x) (.recv pc) (Function.update s.chan x ch)
        (.run (.next x) (.recv pc'))
  | nextItem {x : Ch} {pc : RecvPc} {ch : Chan C C T} {item : T}
      (hstep : Chan.RecvStep (s.chan x) c none pc ch (.ret (.ok item))) :
      CallStep s c (.next x) (.recv pc) (Function.update s.chan x ch)
        (.done (.next x) (.ok (.item item)))
  | nextErr {x : Ch} {pc : RecvPc} {ch : Chan C C T} {e : PyErr}
      (hstep : Chan.RecvStep (s.chan x) c none pc ch (.ret (.error e))) :
      CallStep s c (.next x) (.recv pc) (Function.update s.chan x ch)
        (.run (.next x) (.next e none))
  | nextSender {x : Ch} {e : PyErr} :
      CallStep s c (.next x) (.next e none) s.chan
        (.run (.next x) (.next e (some !(s.chan x).sender)))
  | nextRaise {x : Ch} {e e' : PyErr} {isClosed : Bool} (he : e' = .stopIteration ∨ e' = e) :
      CallStep s c (.next x) (.next e (some isClosed)) s.chan (.done (.next x) (.error e'))
  | dropSender {x : Ch} :
      CallStep s c (.close x) .once (Function.update s.chan x (s.chan x).dropSender)
        (.run (.close x) .closeTx)
  | dropCloseTx {x : Ch} :
      CallStep s c (.close x) .closeTx (Function.update s.chan x (s.chan x).dropCloseTx)
        (.done (.close x) (.ok .unit))
  | sendOp {x : Ch} {item : T} (hsender : (s.chan x).sender = true) :
      CallStep s c (.sendOp x item) .once (Function.update s.chan x ((s.chan x).hold c))
        (.done (.sendOp x item) (.ok .op))
  | sendOpClosed {x : Ch} {item : T} (hsender : (s.chan x).sender = false) :
      CallStep s c (.sendOp x item) .once s.chan (.done (.sendOp x item) (.error closedErr))
  | selectGoto {ops : List (Operand Ch C T)} {timeout : Option PyFloat} {pc pc' : SelectPc Ch T}
      {chan' : Ch → Chan C C T} (hstep : SelectStep s.chan c pc chan' (.goto pc')) :
      CallStep s c (.select ops timeout) (.select pc) chan' (.run (.select ops timeout) (.select pc'))
  | selectRet {ops : List (Operand Ch C T)} {timeout : Option PyFloat} {pc : SelectPc Ch T}
      {chan' : Ch → Chan C C T} {r : PyResult (Ret T)}
      (hstep : SelectStep s.chan c pc chan' (.ret r)) :
      CallStep s c (.select ops timeout) (.select pc) chan' (.done (.select ops timeout) r)

theorem next_step [DecidableEq T] {arm : Arm} (hn : next s (.step c arm) = some t) :
    ∃ m pc chan' k, s.calls c = .run m pc ∧ CallStep s c m pc chan' k ∧
      t = State.setCall { s with chan := chan' } c k := by
  unfold next at hn
  dsimp only at hn
  split at hn
  swap
  · cases hn
  rename_i m pc hc
  refine ⟨m, pc, ?_⟩
  unfold stepCall at hn
  split at hn
  · obtain ⟨⟨ch, out⟩, hstep, rfl⟩ := Option.map_eq_some_iff.mp hn
    cases out with
    | goto pc' => exact ⟨_, _, hc, .sendGoto (Chan.send_cases hstep), rfl⟩
    | ret r => exact ⟨_, _, hc, .sendRet (Chan.send_cases hstep), rfl⟩
  · obtain ⟨⟨ch, out⟩, hstep, rfl⟩ := Option.map_eq_some_iff.mp hn
    cases out with
    | goto pc' => exact ⟨_, _, hc, .recvGoto (Chan.recv_cases hstep), rfl⟩
    | ret r => exact ⟨_, _, hc, .recvRet (Chan.recv_cases hstep), rfl⟩
  · cases hn
    exact ⟨_, _, hc, .trySend (Chan.trySend_cases _ _ _), rfl⟩
  · cases hn
    exact ⟨_, _, hc, .tryRecv (Chan.tryRecv_cases _ _), rfl⟩
  · obtain ⟨⟨ch, out⟩, hstep, rfl⟩ := Option.map_eq_some_iff.mp hn
    cases out with
    | goto pc' => exact ⟨_, _, hc, .nextGoto (Chan.recv_cases hstep), rfl⟩
    | ret r =>
        cases r with
        | ok item => exact ⟨_, _, hc, .nextItem (Chan.recv_cases hstep), rfl⟩
        | error e => exact ⟨_, _, hc, .nextErr (Chan.recv_cases hstep), rfl⟩
  · cases hn
    exact ⟨_, _, hc, .nextSender, rfl⟩
  · cases hn
    refine ⟨_, _, hc, .nextRaise ?_, rfl⟩
    split
    · exact .inl rfl
    · exact .inr rfl
  · cases hn
    exact ⟨_, _, hc, .dropSender, rfl⟩
  · cases hn
    exact ⟨_, _, hc, .dropCloseTx, rfl⟩
  · cases hn
    unfold Chan.sendOp
    split
    · rename_i hsender
      exact ⟨_, _, hc, .sendOp hsender, rfl⟩
    · rename_i hsender
      refine ⟨_, _, hc, .sendOpClosed (by simpa using hsender), ?_⟩
      simp [State.setChan, Except.map]
  · obtain ⟨⟨chan', out⟩, hstep, rfl⟩ := Option.map_eq_some_iff.mp hn
    cases out with
    | goto pc' => exact ⟨_, _, hc, .selectGoto (select_cases hstep), rfl⟩
    | ret r =>
        refine ⟨_, .done _ r, hc, .selectRet (select_cases hstep), ?_⟩
        cases r <;> rfl
  · cases hn

/-- How a call begins. -/
inductive StartStep (s : State Ch C T) (c : C) : Method Ch C T → (Ch → Chan C C T) →
    Call Ch C T → Prop
  | send {x : Ch} {item : T} {timeout : Option PyFloat} :
      StartStep s c (.send x item timeout) s.chan (.run (.send x item timeout) (.send .clone))
  | recv {x : Ch} {timeout : Option PyFloat} :
      StartStep s c (.recv x timeout) s.chan (.run (.recv x timeout) (.recv (.start timeout)))
  | next {x : Ch} : StartStep s c (.next x) s.chan (.run (.next x) (.recv (.start none)))
  | once {m : Method Ch C T} : StartStep s c m s.chan (.run m .once)
  | selectErr {ops : List (Operand Ch C T)} {timeout : Option PyFloat} {e : PyErr}
      (he : .error e ≠ (SelectResult.recvClosed : SelectResult T).toPy) :
      StartStep s c (.select ops timeout) s.chan (.done (.select ops timeout) (.error e))
  | select {ops : List (Operand Ch C T)} {timeout : Option PyFloat}
      {parsed : List (OpType Ch T)} (hparsed : parseOps ops = some parsed) :
      StartStep s c (.select ops timeout) (holdAll s.chan c parsed)
        (.run (.select ops timeout) (.select (.choose parsed ∅)))

theorem next_invoke [DecidableEq T] {m : Method Ch C T} (hn : next s (.invoke c m) = some t) :
    s.calls c = .idle ∧ s.usable m = true ∧ ∃ chan' k, StartStep s c m chan' k ∧
      t = State.setCall { s with chan := chan' } c k := by
  unfold next at hn
  dsimp only at hn
  split at hn
  swap
  · cases hn
  rename_i hc
  split at hn
  swap
  · cases hn
  rename_i husable
  cases hn
  refine ⟨hc, husable, ?_⟩
  cases m with
  | send x item timeout => exact ⟨_, _, .send, rfl⟩
  | recv x timeout => exact ⟨_, _, .recv, rfl⟩
  | next x => exact ⟨_, _, .next, rfl⟩
  | trySend x item => exact ⟨_, _, .once, rfl⟩
  | tryRecv x => exact ⟨_, _, .once, rfl⟩
  | close x => exact ⟨_, _, .once, rfl⟩
  | sendOp x item => exact ⟨_, _, .once, rfl⟩
  | select ops timeout =>
      unfold State.start
      dsimp only
      obtain ⟨e, hne, he⟩ | ⟨parsed, hparsed, hgo⟩ := selectParse_cases s.chan c ops timeout
      · rw [he]
        exact ⟨_, _, .selectErr hne, rfl⟩
      · rw [hgo]
        exact ⟨_, _, .select hparsed, rfl⟩

/-- A call with an item for a waiting receiver, the item's channel, whether the call waits itself, and
the call after it has handed the item over. -/
inductive Call.Offers (chan : Ch → Chan C C T) : Call Ch C T → Ch → T → Bool → Call Ch C T → Prop
  | send {x : Ch} {item : T} {timeout : Option PyFloat} {pc : SendPc} {b : Bool}
      (hpc : pc = .trySend ∨ pc = .select) :
      Offers chan (.run (.send x item timeout) (.send pc)) x item b
        (.run (.send x item timeout) (.send (.drop (.ok ()))))
  | trySend {x : Ch} {item : T} (hsender : (chan x).sender = true) :
      Offers chan (.run (.trySend x item) .once) x item false (.done (.trySend x item) (.ok .unit))
  | select {ops : List (Operand Ch C T)} {timeout : Option PyFloat}
      {parsed : List (OpType Ch T)} {missed : Finset ℕ} {i : ℕ} {x : Ch} {item : T}
      (hop : parsed[i]? = some (.send x (some item))) :
      Offers chan (.run (.select ops timeout) (.select (.choose parsed missed))) x item true
        (.run (.select ops timeout) (.select (.drop parsed (.sendSuccess i))))

/-- A call that can take the item of a waiting sender. -/
inductive Call.Wants : Call Ch C T → Ch → Bool → (T → Call Ch C T) → Prop
  | recv {x : Ch} {timeout : Option PyFloat} {pc : RecvPc} {b : Bool} (hpc : pc ≠ .arm) :
      Wants (.run (.recv x timeout) (.recv pc)) x b
        (fun v => .done (.recv x timeout) (.ok (.item v)))
  | next {x : Ch} {pc : RecvPc} {b : Bool} (hpc : pc ≠ .arm) :
      Wants (.run (.next x) (.recv pc)) x b (fun v => .done (.next x) (.ok (.item v)))
  | tryRecv {x : Ch} :
      Wants (.run (.tryRecv x) .once) x false (fun v => .done (.tryRecv x) (.ok (.item v)))
  | select {ops : List (Operand Ch C T)} {timeout : Option PyFloat}
      {parsed : List (OpType Ch T)} {pc : SelectPc Ch T} {i : ℕ} {x : Ch} {b : Bool}
      (hpc : (∃ missed, pc = .choose parsed missed) ∨ pc = .recheck parsed i)
      (hop : parsed[i]? = some (.recv x)) :
      Wants (.run (.select ops timeout) (.select pc)) x b
        (fun v => .run (.select ops timeout) (.select (.drop parsed (.recvSuccess i v))))

theorem SendPc.offer_cases {pc : SendPc} {arm : Arm} {b : Bool} (h : pc.offer arm = some b) :
    pc = .trySend ∨ pc = .select := by
  cases pc <;> cases arm <;> simp_all [SendPc.offer]

theorem RecvPc.want_cases {pc : RecvPc} {arm : Arm} {b : Bool} (h : pc.want arm = some b) :
    pc ≠ .arm := by
  rintro rfl
  cases arm <;> cases h

omit [DecidableEq Ch] [DecidableEq C] in
theorem offer_cases {chan : Ch → Chan C C T} {k k' : Call Ch C T} {arm : Arm} {item : T} {b : Bool}
    (h : k.offer chan arm = some (x, item, b, k')) : k.Offers chan x item b k' := by
  unfold Call.offer at h
  split at h
  · obtain ⟨b, hb, hk⟩ := Option.map_eq_some_iff.mp h
    cases hk
    exact .send (SendPc.offer_cases hb)
  · split at h
    · rename_i hgo
      cases h
      exact .trySend hgo.2
    · cases h
  · split at h
    · split at h
      · split at h
        · rename_i hop
          cases h
          exact .select hop
        · cases h
      · cases h
    · cases h
  · cases h

omit [DecidableEq Ch] [DecidableEq C] in
theorem want_cases {k : Call Ch C T} {arm : Arm} {b : Bool} {k' : T → Call Ch C T}
    (h : k.want arm = some (x, b, k')) : k.Wants x b k' := by
  unfold Call.want at h
  split at h
  · obtain ⟨b, hb, hk⟩ := Option.map_eq_some_iff.mp h
    cases hk
    exact .recv (RecvPc.want_cases hb)
  · obtain ⟨b, hb, hk⟩ := Option.map_eq_some_iff.mp h
    cases hk
    exact .next (RecvPc.want_cases hb)
  · split at h
    · cases h
      exact .tryRecv
    · cases h
  · split at h
    · split at h
      · split at h
        · rename_i hop
          cases h
          exact .select (.inl ⟨_, rfl⟩) hop
        · cases h
      · cases h
    · cases h
  · split at h
    · rename_i hop
      cases h
      exact .select (.inr rfl) hop
    · cases h
  · cases h

variable [DecidableEq T]

/-- Two calls meet on a channel without a buffer. -/
theorem next_handoff {arm arm' : Arm} (hn : next s (.handoff c arm d arm') = some t) :
    ∃ x item b b' k k' f, c ≠ d ∧ (s.calls c).Offers s.chan x item b k ∧
      (s.calls d).Wants x b' k' ∧
      ((s.chan x).fifo.capacity = some 0 ∧ (s.chan x).fifo.pass c d item = some f) ∧
      t = ((s.setChan x ((s.chan x).setFifo f)).setCall c k).setCall d (k' item) := by
  unfold next at hn
  dsimp only at hn
  split at hn
  swap
  · cases hn
  rename_i x item b k y b' k' hoffer hwant
  split at hn
  swap
  · cases hn
  rename_i hmeet
  obtain ⟨hne, rfl, -⟩ := hmeet
  obtain ⟨ch, hch, rfl⟩ := Option.map_eq_some_iff.mp hn
  obtain ⟨hcap, f, hf, rfl⟩ := Chan.handoff_eq_some.mp hch
  exact ⟨x, item, b, b', k, k', f, hne, offer_cases hoffer, want_cases hwant, ⟨hcap, hf⟩, rfl⟩

theorem next_dropOp (hn : next s (.dropOp c) = some t) :
    ∃ x item r, s.calls c = .done (.sendOp x item) (.ok r) ∧
      t = s.setChan x ((s.chan x).release c) := by
  unfold next at hn
  dsimp only at hn
  split at hn
  · rename_i x item r hc
    split at hn
    · cases hn
      exact ⟨x, item, r, hc, rfl⟩
    · cases hn
  · cases hn

/-- A step of one call: its first, or a later one. -/
inductive OneStep (s : State Ch C T) (c : C) (chan' : Ch → Chan C C T) (k : Call Ch C T) : Prop
  | start {m : Method Ch C T} (hc : s.calls c = .idle) (husable : s.usable m = true)
      (hstart : StartStep s c m chan' k)
  | step {m : Method Ch C T} {pc : Pc Ch T} (hc : s.calls c = .run m pc)
      (hstep : CallStep s c m pc chan' k)

/-- Every step is one of these: one call moves, two calls meet, or a `SendOp` is dropped. -/
theorem next_cases (hn : next s a = some t) :
    (∃ c chan' k, OneStep s c chan' k ∧ t = State.setCall { s with chan := chan' } c k) ∨
    (∃ c d x item b b' k k' f, c ≠ d ∧ (s.calls c).Offers s.chan x item b k ∧
      (s.calls d).Wants x b' k' ∧
      ((s.chan x).fifo.capacity = some 0 ∧ (s.chan x).fifo.pass c d item = some f) ∧
      t = ((s.setChan x ((s.chan x).setFifo f)).setCall c k).setCall d (k' item)) ∨
    ∃ o x item r, s.calls o = .done (.sendOp x item) (.ok r) ∧
      t = s.setChan x ((s.chan x).release o) := by
  cases a with
  | invoke c m =>
      obtain ⟨hc, husable, chan', k, hstart, rfl⟩ := next_invoke hn
      exact .inl ⟨c, chan', k, .start hc husable hstart, rfl⟩
  | step c arm =>
      obtain ⟨m, pc, chan', k, hc, hstep, rfl⟩ := next_step hn
      exact .inl ⟨c, chan', k, .step hc hstep, rfl⟩
  | handoff c arm d arm' => exact .inr (.inl ⟨c, d, next_handoff hn⟩)
  | dropOp o => exact .inr (.inr ⟨o, next_dropOp hn⟩)

/-- What a step of the system means for one call. -/
inductive Moves (s t : State Ch C T) (c : C) : Act Ch C T → Prop
  | stays {a : Act Ch C T} (hc : t.calls c = s.calls c) : Moves s t c a
  | begins {m : Method Ch C T} {chan' : Ch → Chan C C T} {k : Call Ch C T}
      (h₀ : s.calls c = .idle) (ht : t = s.start c m) (hstart : StartStep s c m chan' k)
      (hc : t.calls c = k) : Moves s t c (.invoke c m)
  | steps {arm : Arm} {m : Method Ch C T} {pc : Pc Ch T} {chan' : Ch → Chan C C T}
      {k : Call Ch C T} (h₀ : s.calls c = .run m pc) (hstep : CallStep s c m pc chan' k)
      (hchan : t.chan = chan') (hc : t.calls c = k) : Moves s t c (.step c arm)
  | offers {a : Act Ch C T} {k₀ k : Call Ch C T} {x : Ch} {item : T} {b : Bool}
      (h₀ : s.calls c = k₀) (hoffer : k₀.Offers s.chan x item b k) (hc : t.calls c = k) :
      Moves s t c a
  | wants {a : Act Ch C T} {k₀ : Call Ch C T} {x : Ch} {item : T} {b : Bool}
      {k : T → Call Ch C T} (h₀ : s.calls c = k₀) (hwant : k₀.Wants x b k)
      (hc : t.calls c = k item) : Moves s t c a

theorem next_moves (hn : next s a = some t) (c : C) : Moves s t c a := by
  cases a with
  | invoke d m =>
      obtain ⟨h₀, husable, chan', k, hstart, ht⟩ := next_invoke hn
      by_cases hcd : c = d
      · subst hcd
        refine .begins h₀ ?_ hstart (by rw [ht, State.calls_setCall_self])
        simp only [next, h₀, husable, if_pos] at hn
        exact (Option.some.inj hn).symm
      · exact .stays (by rw [ht, State.calls_setCall_ne _ _ hcd])
  | step d arm =>
      obtain ⟨m, pc, chan', k, h₀, hstep, rfl⟩ := next_step hn
      by_cases hcd : c = d
      · subst hcd
        exact .steps h₀ hstep rfl (State.calls_setCall_self _ _ _)
      · exact .stays (State.calls_setCall_ne _ _ hcd)
  | handoff d arm e arm' =>
      obtain ⟨x, item, b, b', k, k', f, hne, hoffer, hwant, -, rfl⟩ := next_handoff hn
      by_cases hce : c = e
      · subst hce
        exact .wants rfl hwant (State.calls_setCall_self _ _ _)
      by_cases hcd : c = d
      · subst hcd
        refine .offers rfl hoffer ?_
        rw [State.calls_setCall_ne _ _ hce, State.calls_setCall_self]
      · exact .stays (by rw [State.calls_setCall_ne _ _ hce, State.calls_setCall_ne _ _ hcd]; rfl)
  | dropOp o =>
      obtain ⟨x, item, r, -, rfl⟩ := next_dropOp hn
      exact .stays rfl

end Step

end Pysync.Channel
