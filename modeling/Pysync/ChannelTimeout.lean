import Pysync.ChannelReport

/-!
Timeouts. `send` and `recv` hand their timer to the same `select!` as the data, which performs any arm
that is ready; `select` tries every operation before it gives up.
-/

namespace Pysync.Channel
open Queue Transition

variable {Ch C T : Type} [DecidableEq Ch] [DecidableEq C] [DecidableEq T]
variable {s t : State Ch C T} {a : Act Ch C T} {c d : C} {x y : Ch} {chan chan' : Ch → Chan C C T}
variable {k k' : Call Ch C T} {m m' : Method Ch C T} {e e' : PyErr} {arm : Arm}
variable {ops : List (Operand Ch C T)} {timeout : Option PyFloat} {parsed parsed' : List (OpType Ch T)}
variable {missed missed' : Finset ℕ} {capacity : Ch → Option ℕ}

/-- A `recv`, or a `send` into a bounded channel, takes its timer while the channel has what it waits
for. -/
def timerFirst (s : State Ch C T) : Act Ch C T → Bool
  | .step c .timer => match s.calls c with
      | .run (.recv x _) (.recv .select) => !(s.chan x).fifo.queue.isEmpty
      | .run (.send x _ _) (.send .select) =>
          (s.chan x).fifo.capacity.isSome && (s.chan x).fifo.hasRoom
      | _ => false
  | _ => false

/-- What `select` waits for with an operation is not there. -/
def Operand.NotReady (s : State Ch C T) : Operand Ch C T → Prop
  | .recv x => (s.chan x).fifo.queue = []
  | .send _ x _ => (s.chan x).fifo.hasRoom = false
  | .other => True

/-- At some moment of the call `c` of `m`, `Q` held. -/
def During (capacity : Ch → Option ℕ) (as : List (Act Ch C T)) (c : C) (m : Method Ch C T)
    (Q : State Ch C T → Prop) : Prop :=
  Since next (State.init capacity) as (.invoke c m) fun u => (∃ pc, u.calls c = .run m pc) ∧ Q u

/-- A call that has raised a timeout has missed what it waited for, not overlooked it. -/
structure PrefersData (capacity : Ch → Option ℕ) (as : List (Act Ch C T)) (s : State Ch C T)
    (c : C) : Prop where
  recv : ∀ x timeout, s.calls c = .done (.recv x timeout) (.error recvTimeoutErr) →
    During capacity as c (.recv x timeout) fun u => (u.chan x).fifo.queue = []
  send : ∀ x item timeout n, capacity x = some n →
    s.calls c = .done (.send x item timeout) (.error sendTimeoutErr) →
    During capacity as c (.send x item timeout) fun u => (u.chan x).fifo.hasRoom = false
  select : ∀ ops timeout, s.calls c
      = .done (.select ops timeout) (SelectResult.timeout : SelectResult T).toPy →
    ∀ op ∈ ops, During capacity as c (.select ops timeout) op.NotReady

omit [DecidableEq T] in
theorem recvStep_timer {ch ch' : Chan C C T}
    (h : ch.recvStep c timeout .select arm = some (ch', .ret (.error recvTimeoutErr))) :
    arm = .timer := by
  cases arm with
  | timer => rfl
  | data =>
      simp only [Chan.recvStep] at h
      split at h
      · cases h
      · split at h
        · simp [closedAndEmptyErr, recvTimeoutErr] at h
        · cases h
  | close =>
      simp only [Chan.recvStep] at h
      split at h <;> cases h
  | _ => cases h

omit [DecidableEq T] in
theorem sendStep_timer {ch ch' : Chan C C T} {item : T}
    (h : ch.sendStep c item timeout .select arm
      = some (ch', .goto (.drop (.error sendTimeoutErr)))) : arm = .timer := by
  cases arm with
  | timer => rfl
  | data =>
      obtain ⟨f, -, hf⟩ := Option.map_eq_some_iff.mp h
      cases hf
  | close =>
      simp only [Chan.sendStep] at h
      split at h
      · cases h
      · simp [closedErr, sendTimeoutErr] at h
  | _ => cases h

/-- A `recv` that settles on a timeout takes its timer. -/
theorem next_recv_timer {pc : Pc Ch T} (hn : next s (.step c arm) = some t)
    (h₀ : s.calls c = .run (.recv x timeout) pc)
    (hc : (t.calls c).failure = some (.recv x timeout, recvTimeoutErr))
    (hfail : Fails s c (.recv x timeout) pc recvTimeoutErr) :
    pc = .recv .select ∧ arm = .timer := by
  generalize he : recvTimeoutErr = e at hfail
  cases hfail with
  | recv hstep =>
      rename_i pc ch
      obtain rfl : pc = .select := by
        cases hstep with
        | rejected htimeout =>
            rcases checkTimeout_error htimeout with rfl | rfl <;> exact absurd he (by decide)
        | timedOut => rfl
        | disconnected => rfl
        | drained => exact absurd he (by decide)
      refine ⟨rfl, ?_⟩
      simp only [next, h₀, stepCall] at hn
      obtain ⟨⟨ch, out⟩, hstep', rfl⟩ := Option.map_eq_some_iff.mp hn
      rcases out with pc' | e' | v
      all_goals
        rw [State.resume, State.calls_setCall_self] at hc
        cases hc
      exact recvStep_timer hstep'

/-- A `send` that settles on a timeout takes its timer. -/
theorem next_send_timer {pc : Pc Ch T} {item : T} (hn : next s (.step c arm) = some t)
    (h₀ : s.calls c = .run (.send x item timeout) pc)
    (hc : (t.calls c).failure = some (.send x item timeout, sendTimeoutErr))
    (hfail : Fails s c (.send x item timeout) pc sendTimeoutErr) :
    pc = .send .select ∧ arm = .timer := by
  generalize he : sendTimeoutErr = e at hfail
  cases hfail with
  | refused => exact absurd he (by decide)
  | send hstep =>
      rename_i pc ch
      obtain rfl : pc = .select := by
        cases hstep.fails with
        | rejected htimeout =>
            rcases checkTimeout_error htimeout with rfl | rfl <;> exact absurd he (by decide)
        | closed => rfl
        | timedOut => rfl
      refine ⟨rfl, ?_⟩
      simp only [next, h₀, stepCall] at hn
      obtain ⟨⟨ch, out⟩, hstep', rfl⟩ := Option.map_eq_some_iff.mp hn
      rcases out with pc' | r
      · rw [State.resume, State.calls_setCall_self] at hc
        rcases pc' with _ | _ | _ | _ | e' | v
        all_goals cases hc
        exact sendStep_timer hstep'
      · cases Chan.send_cases hstep'

/-- Under the condition, what a timed call reports is what it found when it took its timer. -/
theorem recv_timeout_during {as : List (Act Ch C T)}
    (hrun : RunWith next (fun s a => timerFirst s a = false) (State.init capacity) as s)
    (hc : s.calls c = .done (.recv x timeout) (.error recvTimeoutErr)) :
    During capacity as c (.recv x timeout) fun u => (u.chan x).fifo.queue = [] := by
  refine reported_since (fun m e => m = .recv x timeout ∧ e = recvTimeoutErr)
    (fun u _ => (u.chan x).fifo.queue = []) ?_ ?_ ?_ hrun (by rw [hc]; rfl) ⟨rfl, rfl⟩
  · rintro ops timeout e - ⟨hm, -⟩
    cases hm
  · rintro y e e' ⟨hm, -⟩
    cases hm
  · rintro as s t arm m pc e hr hp hn h₀ hfailure hfail ⟨rfl, rfl⟩
    obtain ⟨rfl, rfl⟩ := next_recv_timer hn h₀ hfailure hfail
    simpa [timerFirst, h₀] using hp

theorem send_timeout_during {as : List (Act Ch C T)} {item : T} {n : ℕ} (hn : capacity x = some n)
    (hrun : RunWith next (fun s a => timerFirst s a = false) (State.init capacity) as s)
    (hc : s.calls c = .done (.send x item timeout) (.error sendTimeoutErr)) :
    During capacity as c (.send x item timeout) fun u => (u.chan x).fifo.hasRoom = false := by
  refine reported_since (fun m e => m = .send x item timeout ∧ e = sendTimeoutErr)
    (fun u _ => (u.chan x).fifo.hasRoom = false) ?_ ?_ ?_ hrun (by rw [hc]; rfl) ⟨rfl, rfl⟩
  · rintro ops timeout e - ⟨hm, -⟩
    cases hm
  · rintro y e e' ⟨hm, -⟩
    cases hm
  · rintro as s t arm m pc e hr hp hn' h₀ hfailure hfail ⟨rfl, rfl⟩
    obtain ⟨rfl, rfl⟩ := next_send_timer hn' h₀ hfailure hfail
    have hcap : (s.chan x).fifo.capacity = some n :=
      ((accounted_run hr.run).capacity_eq x).trans hn
    simpa [timerFirst, h₀, hcap] using hp

omit [DecidableEq T] in
theorem selectArm_ne_choose {j : ℕ} {pc : SelectPc Ch T}
    (h : selectArm chan c parsed j = some (chan', pc)) : pc ≠ .choose parsed' missed := by
  unfold selectArm at h
  dsimp only at h
  rintro rfl
  split at h
  · cases h
  split at h
  · rename_i i isSend hsome
    split at h
    · cases h
    split at h
    · cases h
    · cases isSend <;> cases h
  · split at h
    · cases h
    · split at h
      · cases h
      · split at h <;> cases h
      · cases h
      · obtain ⟨f, -, hf⟩ := Option.map_eq_some_iff.mp h
        cases hf

/-- A `select` that goes on waiting has found one more operation not ready. -/
theorem next_missed (hn : next s (.step c arm) = some t)
    (h₀ : s.calls c = .run (.select ops timeout) (.select (.choose parsed missed)))
    (hc : t.calls c = .run (.select ops timeout) (.select (.choose parsed' missed'))) :
    parsed' = parsed ∧ ∃ j, missed' = insert j missed ∧ notReady s.chan parsed j = true := by
  obtain ⟨chan', out, hsel, hout⟩ := next_select hn h₀
  rw [hc] at hout
  cases out with
  | ret r => cases hout
  | goto pc =>
      cases hout
      cases arm with
      | op j =>
          obtain ⟨⟨chan₁, pc⟩, harm, hpc⟩ := Option.map_eq_some_iff.mp hsel
          cases hpc
          exact (selectArm_ne_choose harm rfl).elim
      | miss j =>
          simp only [selectStep] at hsel
          split at hsel
          · rename_i hready
            cases hsel
            exact ⟨rfl, j, rfl, hready⟩
          · cases hsel
      | timer =>
          simp only [selectStep] at hsel
          split at hsel <;> cases hsel
      | _ => cases hsel

/-- Each operation that a waiting `select` counts as missed was not ready at some moment of the call. -/
theorem missed_during {P : State Ch C T → Act Ch C T → Prop} {as : List (Act Ch C T)}
    (hrun : RunWith next P (State.init capacity) as s)
    (hc : s.calls c = .run (.select ops timeout) (.select (.choose parsed missed))) {j : ℕ}
    (hj : j ∈ missed) :
    During capacity as c (.select ops timeout) fun u => notReady u.chan parsed j = true := by
  induction hrun generalizing parsed missed with
  | nil => cases hc
  | snoc hr hp hn ih =>
      cases next_moves hn c with
      | stays hsame => exact (ih (hsame ▸ hc) hj).snoc _
      | begins h₀ ht hstart hk =>
          rw [hc] at hk
          cases hstart <;> cases hk
          exact absurd hj (Finset.notMem_empty j)
      | steps h₀ hstep hchan hk =>
          rw [hc] at hk
          subst hk
          cases hstep with
          | selectGoto hstep =>
              cases hstep with
              | missed =>
                  obtain ⟨-, i, rfl, hready⟩ := next_missed hn h₀ hc
                  have hstart := invoked_run hr (c := c) (by rw [h₀]; rfl)
                  rcases Finset.mem_insert.mp hj with rfl | hj
                  · exact (Since.now hstart hr ⟨⟨_, h₀⟩, hready⟩).snoc _
                  · exact (ih h₀ hj).snoc _
      | offers h₀ hoffer hk =>
          rw [hc] at hk
          subst hk
          cases hoffer
      | wants h₀ hwant hk =>
          rw [hc] at hk
          cases hwant <;> cases hk

omit [DecidableEq T] in
theorem toPy_timeout {r : SelectResult T}
    (h : r.toPy = (SelectResult.timeout : SelectResult T).toPy) : r = .timeout := by
  cases r <;> simp_all [SelectResult.toPy]

omit [DecidableEq Ch] [DecidableEq T] in
/-- An operation that is not ready has nothing to give or no room. -/
theorem notReady_operand {op : Operand Ch C T} {p : OpType Ch T} {i : ℕ}
    (hp : op.parse = some p) (hi : parsed[i]? = some p)
    (h : notReady s.chan parsed (2 * i) = true) : op.NotReady s := by
  have hmain := mainOpMap_double (List.getElem?_eq_some_iff.mp hi).1
  simp only [notReady, closeOpMap_double, hmain, hi] at h
  cases op with
  | recv x =>
      cases hp
      exact (of_decide_eq_true h).1
  | send o x v =>
      cases hp
      simpa [Operand.NotReady] using h
  | other => cases hp

/-- A `select` that settles on a timeout has found every operation not ready. -/
theorem next_select_timer {pc : Pc Ch T} (hn : next s (.step c arm) = some t)
    (h₀ : s.calls c = .run (.select ops timeout) pc) (hcoh : (s.calls c).Coherent)
    (hc : (t.calls c).failure = some (.select ops timeout, e))
    (hfail : Fails s c (.select ops timeout) pc e)
    (he : .error e = (SelectResult.timeout : SelectResult T).toPy) :
    ∃ parsed missed, pc = .select (.choose parsed missed) ∧ parseOps ops = some parsed ∧
      ∀ j < (register parsed).count, j ∈ missed := by
  cases hfail with
  | select hstep hr =>
      obtain rfl := toPy_timeout (hr.trans he)
      cases hstep with
      | gaveUp =>
          have hparse := hcoh.1 _ _ _ h₀
          refine ⟨_, _, rfl, hparse, ?_⟩
          obtain ⟨chan', out, hsel, hout⟩ := next_select hn h₀
          rw [hout] at hc
          cases out with
          | ret r => cases (select_cases hsel)
          | goto pc' =>
              cases pc' with
              | drop parsed' r =>
                  have hr : r.toPy = .error e := by
                    cases hr : r.toPy with
                    | ok v => simp [Call.failure, hr] at hc
                    | error e' =>
                        simp only [Call.failure, hr, Option.some.injEq, Prod.mk.injEq] at hc
                        rw [hc.2]
                  obtain rfl := toPy_timeout (hr.trans he)
                  exact (selectStep_gaveUp (item_ne_none hparse) (.inl rfl) hsel).2
              | _ => cases hc

/-- A `select` that has timed out found each of its operations not ready at some moment of the call. -/
theorem select_timeout_during {P : State Ch C T → Act Ch C T → Prop} {as : List (Act Ch C T)}
    (hrun : RunWith next P (State.init capacity) as s)
    (hc : s.calls c = .done (.select ops timeout) (SelectResult.timeout : SelectResult T).toPy)
    {op : Operand Ch C T} (hop : op ∈ ops) :
    During capacity as c (.select ops timeout) op.NotReady := by
  have hall := reported_run (fun m e => m = .select ops timeout ∧
      .error e = (SelectResult.timeout : SelectResult T).toPy)
    (fun as m => ∃ parsed, parseOps ops = some parsed ∧ ∀ j < (register parsed).count,
      During capacity as c (.select ops timeout) fun u => notReady u.chan parsed j = true)
    ?_ ?_ ?_ ?_ hrun (by rw [hc]; rfl) ⟨rfl, rfl⟩
  · obtain ⟨parsed, hparse, hmissed⟩ := hall
    obtain ⟨i, hi⟩ := List.mem_iff_getElem?.mp hop
    obtain ⟨p, hp, hpi⟩ := getElem_parseOps hparse hi
    have hlt := (List.getElem?_eq_some_iff.mp hpi).1
    have hcount : 2 * i < (register parsed).count := by
      rw [(register_spec parsed).1]
      omega
    exact (hmissed _ hcount).mono fun u hu => ⟨hu.1, notReady_operand hp hpi hu.2⟩
  · rintro as a m ⟨parsed, hparse, hmissed⟩
    exact ⟨parsed, hparse, fun j hj => (hmissed j hj).snoc a⟩
  · rintro ops' timeout' e he ⟨-, htimeout⟩
    simp only [selectParseErrs, List.mem_cons, List.not_mem_nil, or_false] at he
    rcases he with rfl | rfl | rfl <;> simp [SelectResult.toPy] at htimeout
  · rintro y e e' ⟨hm, -⟩
    cases hm
  · rintro as s t arm m pc e hr hp hn h₀ hfailure hfail ⟨rfl, he⟩
    obtain ⟨parsed, missed, rfl, hparse, hmissed⟩ :=
      next_select_timer hn h₀ ((accounted_run hr.run).coherent c) hfailure hfail he
    exact ⟨parsed, hparse, fun j hj => missed_during hr h₀ (hmissed j hj)⟩

/-- In every run in which no `recv`, and no `send` into a bounded channel, takes its timer while the
channel has what it waits for: a `recv` that has timed out found the channel without an item, and a
`send` that has timed out found it full, at some moment of the call. A `select` that has timed out
found each of its operations not ready, in every run. -/
theorem prefersData_of_timerFirst_false (capacity : Ch → Option ℕ) (as : List (Act Ch C T))
    (s : State Ch C T)
    (hrun : RunWith next (fun s a => timerFirst s a = false) (State.init capacity) as s) (c : C) :
    PrefersData capacity as s c where
  recv _ _ hc := recv_timeout_during hrun hc
  send _ _ _ _ hn hc := send_timeout_during hn hrun hc
  select _ _ hc _ hop := select_timeout_during hrun hc hop

/-- A `recv` whose timer is ready at once finds no item. -/
def idleTimerTrace : List (Act Unit ℕ ℕ) :=
  [.invoke 0 (.recv () (some (.fin 0))), .step 0 .go, .step 0 .timer]

theorem idleTimerTrace_exec :
    (exec next (fun s a => timerFirst s a = false) (State.init fun _ => none) idleTimerTrace).map
      (fun s => decide (s.calls 0 = .done (.recv () (some (.fin 0))) (.error recvTimeoutErr)))
      = some true := by
  decide +kernel

theorem prefersData_idleTimerTrace :
    ∃ s : State Unit ℕ ℕ, RunWith next (fun s a => timerFirst s a = false) (State.init fun _ => none)
        idleTimerTrace s ∧
      s.calls 0 = .done (.recv () (some (.fin 0))) (.error recvTimeoutErr) ∧
      PrefersData (fun _ => none) idleTimerTrace s 0 := by
  obtain ⟨s, hrun, hs⟩ := exists_runWith_of_exec idleTimerTrace_exec
  exact ⟨s, hrun, of_decide_eq_true hs,
    prefersData_of_timerFirst_false (fun _ => none) idleTimerTrace s hrun 0⟩

/-- An item is queued; a `recv` whose timer is ready at once takes the timer. -/
def timerFirstTrace : List (Act Unit ℕ ℕ) :=
  [.invoke 0 (.trySend () 7), .step 0 .go,
   .invoke 1 (.recv () (some (.fin 0))), .step 1 .go, .step 1 .timer]

/-- While call `1` runs there is an item. -/
def Stocked (s : State Unit ℕ ℕ) : Prop :=
  match s.calls 1 with
  | .run _ _ => (s.chan ()).fifo.queue ≠ []
  | _ => True

instance (s : State Unit ℕ ℕ) : Decidable (Stocked s) := by
  unfold Stocked
  split <;> infer_instance

theorem timerFirstTrace_exec :
    (exec next (fun s _ => Stocked s) (State.init fun _ => none) timerFirstTrace).map
      (fun s => decide (s.calls 1 = .done (.recv () (some (.fin 0))) (.error recvTimeoutErr)))
      = some true := by
  decide +kernel

/-- A `recv` may time out although the channel held an item all along. -/
theorem not_always_prefersData :
    ¬ ∀ (Ch C T : Type) [DecidableEq Ch] [DecidableEq C] [DecidableEq T]
      (capacity : Ch → Option ℕ) (as : List (Act Ch C T)) (s : State Ch C T),
      Run next (State.init capacity) as s → ∀ c, PrefersData capacity as s c := by
  intro h
  obtain ⟨s, hrun, hs⟩ := exists_runWith_of_exec timerFirstTrace_exec
  have hdone := of_decide_eq_true hs
  have hprefers := h Unit ℕ ℕ (fun _ => none) timerFirstTrace s hrun.run 1
  obtain ⟨u, hu, ⟨pc, hpc⟩, hqueue⟩ := Since.visits (hprefers.recv _ _ hdone)
  have hlast : Stocked s := by
    unfold Stocked
    rw [hdone]
    trivial
  have hstocked := hrun.visits_of hlast hu
  unfold Stocked at hstocked
  rw [hpc] at hstocked
  exact hstocked hqueue

end Pysync.Channel
