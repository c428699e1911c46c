import Pysync.PoolRuns
import Pysync.TransitionProgress
import Mathlib.Algebra.BigOperators.Fin
import Mathlib.Algebra.Order.BigOperators.Group.Finset

/-!
A pool without its sender comes to rest, provided the callables end. No task is accepted any more, so
that each step of a worker brings the workers nearer to their end; as long as one has not exited it can
take a step. Then all tasks are done but those that panics have cost their workers, and nobody waits in
a join.
-/

namespace Pysync.Pool
open Queue Transition

variable {n : ℕ} {C E V : Type}
variable {s t : State n C E V} {a : Act n C E V} {as : List (Act n C E V)} {c : C} {w : Fin n}

/-- A step of a worker, the end of a callable and a panic included. -/
def Act.isWork : Act n C E V → Bool
  | .work _ | .finish _ _ | .panic _ => true
  | _ => false

/-- How many steps a worker is from its end when the queue is empty. -/
def WorkerPc.left : WorkerPc C E V → ℕ
  | exited | panicked => 0
  | recv => 1
  | cancel _ | complete _ _ => 2
  | run _ => 3
  | got _ => 4

/-- How many steps the workers can take: a queued task is worth four, the taking of it included. -/
def State.effort (s : State n C E V) : ℕ :=
  4 * s.queue.queue.length + ∑ w, (s.worker w).left

theorem sum_left_setWorker (f : Fin n → WorkerPc C E V) (w : Fin n) (pc : WorkerPc C E V) :
    ∑ v, (Function.update f w pc v).left + (f w).left = ∑ v, (f v).left + pc.left := by
  have hsum := sum_update_add (fun v => (f v).left) (Finset.mem_univ w) pc.left
  have hcomp : ∀ v, (Function.update f w pc v).left = Function.update (fun v => (f v).left) w pc.left v :=
    Function.apply_update (fun _ => WorkerPc.left) f w pc
  simpa only [hcomp] using hsum

/-- A worker goes from `pc` to `pc'` and the queue stays. -/
theorem effort_lt {pc pc' : WorkerPc C E V} (hw : s.worker w = pc)
    (hworker : t.worker = Function.update s.worker w pc') (hqueue : t.queue = s.queue)
    (hlt : pc'.left < pc.left) : t.effort < s.effort := by
  have hsum := sum_left_setWorker s.worker w pc'
  rw [hw] at hsum
  rw [State.effort, State.effort, hworker, hqueue]
  omega

variable [DecidableEq C]

/-- Without a sender the effort left never grows, and the step of a worker lowers it. -/
theorem PoolStep.effort (hb : Borrowed s) (hsender : s.sender = false) (h : PoolStep s a t) :
    t.effort < s.effort ∨ t.worker = s.worker ∧ t.effort ≤ s.effort := by
  cases h with
  | refused | submit | shutdown | submitGoto | submitRet | shutdownGoto | dropSender | shutdownRet
  | drop => exact .inr ⟨rfl, le_rfl⟩
  | accept hc =>
      rw [hb.send _ hc] at hsender
      cases hsender
  | @take w c q hw hpop =>
      refine .inl ?_
      have hsum := sum_left_setWorker s.worker w (.got c)
      have hqueue := congrArg List.length (Fifo.pop_eq_some.mp hpop).2.1
      rw [hw] at hsum
      rw [List.length_cons] at hqueue
      show 4 * q.queue.length + ∑ v, (Function.update s.worker w (.got c) v).left < _
      rw [State.effort, hqueue]
      simp only [WorkerPc.left] at hsum ⊢
      omega
  | exit hw | decline hw | start hw | finish hw =>
      exact .inl (effort_lt hw rfl rfl (by simp [WorkerPc.left]))
  | panic ha hw => exact .inl (effort_lt hw rfl rfl (by simp [WorkerPc.left]))
  | cancel hw hpc | complete hw hpc =>
      refine .inl (effort_lt hw rfl rfl ?_)
      rcases hpc with rfl | ⟨-, rfl, -⟩ <;> simp [WorkerPc.left]

/-- A worker that takes a step is not where it was. -/
theorem worker_ne_of_isWork (hn : next s a = some t) (ha : a.isWork = true) : t.worker ≠ s.worker := by
  have hne : ∀ {v : Fin n} {pc pc' : WorkerPc C E V}, s.worker v = pc → pc' ≠ pc →
      Function.update s.worker v pc' ≠ s.worker := by
    intro v pc pc' hv hpc h
    have hself := congrFun h v
    rw [Function.update_self, hv] at hself
    exact hpc hself
  cases a with
  | work w =>
      replace hn : workStep s w (s.worker w) = some t := hn
      generalize hw : s.worker w = pc at hn
      unfold workStep at hn
      split at hn
      · split at hn
        · cases hn
          exact hne hw (by simp)
        · split at hn <;> cases hn
          exact hne hw (by simp)
      · split at hn <;> cases hn <;> exact hne hw (by simp)
      · cases hn
        exact hne hw (by simp)
      · cases hn
        exact hne hw (by simp)
      · cases hn
      · cases hn
      · cases hn
  | finish w o =>
      rw [next] at hn
      split at hn
      · rename_i hw
        cases hn
        exact hne hw (by simp)
      · cases hn
  | panic w =>
      replace hn : panicStep s w (s.worker w) = some t := hn
      generalize hw : s.worker w = pc at hn
      unfold panicStep at hn
      split at hn
      · cases hn
        exact hne hw (by simp)
      · split at hn <;> cases hn
        exact hne hw (by simp)
      · split at hn <;> cases hn
        exact hne hw (by simp)
      · cases hn
      · cases hn
      · cases hn
      · cases hn
  | _ => cases ha

/-- The sender does not come back. -/
theorem sender_stays (hn : next s a = some t) (hsender : s.sender = false) : t.sender = false := by
  rcases next_or_cancel hn with hstep | ⟨c, rfl, rfl⟩
  · cases hstep with
    | drop _ _ hs => exact hs.elim id fun h => h.trans hsender
    | dropSender => rfl
    | _ => exact hsender
  · exact hsender

/-- A step without a sender. -/
theorem effort_next (hb : Borrowed s) (hsender : s.sender = false) (hn : next s a = some t) :
    t.effort + a.isWork.toNat ≤ s.effort := by
  have hlower : t.effort < s.effort ∨ t.worker = s.worker ∧ t.effort ≤ s.effort := by
    rcases next_or_cancel hn with hstep | ⟨c, rfl, rfl⟩
    · exact hstep.effort hb hsender
    · exact .inr ⟨rfl, le_rfl⟩
  cases ha : a.isWork with
  | false =>
      rcases hlower with hlt | ⟨-, hle⟩
      · exact hlt.le
      · exact hle
  | true =>
      rcases hlower with hlt | ⟨hsame, -⟩
      · exact hlt
      · exact (worker_ne_of_isWork hn ha hsame).elim

/-- A worker that has not exited can take a step, be it that its callable ends. -/
theorem able_of_not_exited (o : Except E V) (hsender : s.sender = false)
    (hw : ¬ (s.worker w).Ended) : Able next (fun _ _ => True) (fun _ a => a.isWork) s := by
  cases hpc : s.worker w with
  | exited | panicked =>
      rw [hpc] at hw
      exact (hw trivial).elim
  | recv =>
      cases hpop : s.queue.pop w with
      | some x => exact ⟨.work w, _, trivial, rfl, by rw [next, hpc, workStep, hpop]⟩
      | none =>
          refine ⟨.work w, s.setWorker w .exited, trivial, rfl, ?_⟩
          rw [next, hpc, workStep, hpop, hsender]
          rfl
  | got c =>
      cases hcancel : s.cancelPending with
      | true =>
          refine ⟨.work w, s.setWorker w (.cancel c), trivial, rfl, ?_⟩
          rw [next, hpc, workStep, hcancel]
          rfl
      | false =>
          refine ⟨.work w, (s.log c .started).setWorker w (.run c), trivial, rfl, ?_⟩
          rw [next, hpc, workStep, hcancel]
          rfl
  | cancel c => exact ⟨.work w, _, trivial, rfl, by rw [next, hpc, workStep]⟩
  | run c => exact ⟨.finish w o, _, trivial, rfl, by rw [next, hpc]⟩
  | complete c o => exact ⟨.work w, _, trivial, rfl, by rw [next, hpc, workStep]⟩

/-- Nothing is left to do: the workers have exited; no task is queued, unless all of them died of a
panic; every future that a `submit` has returned is done, or a panic has cost the task its worker; and
neither a `shutdown(wait=True)` nor the drop of the pool has to wait. -/
structure Rested (s : State n C E V) : Prop where
  exited : s.allExited
  queue : (∃ w, s.worker w = .exited) → s.queue.queue = []
  done : ∀ c, s.calls c = .done .submit (.ok ()) → (s.future c).done = true ∨ Abandoned s c
  joined : ∀ c cancelFutures, s.calls c = .run (.shutdown true cancelFutures) .join →
    (next s (.step c)).isSome = true
  dropped : s.drop = .join → (next s .drop).isSome = true

theorem Orderly.rested (h : Orderly s) (hall : s.allExited) : Rested s where
  exited := hall
  queue := fun ⟨w, hw⟩ => (h.exited w hw).2
  done _ := h.done_or_abandoned hall
  joined c cancelFutures hc := by
    simp [next, hc, shutdownStep, hall]
  dropped hdrop := by
    simp [next, dropStep, hdrop, hall]

/-- Once a `shutdown` or the drop of the pool has dropped the sender, the workers take only so many
steps more, whatever the callers do meanwhile, and as long as one has not exited one of them can go on,
be it that a callable ends, as by `o`; when all have exited, every task is done but those that panics
have cost their workers, and nobody waits for the workers any more. -/
theorem drains (o : Except E V) (as : List (Act n C E V)) (s : State n C E V)
    (h : Run next State.init as s) (hsender : s.sender = false) :
    Settles next (fun _ _ => True) (fun _ a => a.isWork) s.effort Rested s := by
  have hrested : ∀ {bs t}, Run next s bs t → t.allExited → Rested t := fun hr hall =>
    (Orderly.run (h.append hr)).rested hall
  have hsettles : Settles next (fun _ _ => True) (fun _ a => a.isWork) s.effort State.allExited s := by
    let Inv : State n C E V → Prop := fun u => (∃ bs, Run next State.init bs u) ∧ u.sender = false
    have h0 : Inv s := ⟨⟨as, h⟩, hsender⟩
    refine settles_of_measure State.effort h0 (fun u a t hu _ hnext => ?_) fun u hu => ?_
    · obtain ⟨⟨bs, hbs⟩, husender⟩ := hu
      exact ⟨⟨⟨bs ++ [a], .snoc hbs trivial hnext⟩, sender_stays hnext husender⟩,
        effort_next (Orderly.run hbs).borrowed husender hnext⟩
    · by_cases hall : u.allExited
      · exact .inl hall
      · obtain ⟨w, hw⟩ := not_forall.mp hall
        exact .inr (able_of_not_exited o hu.2 hw)
  exact hsettles.imp fun bs t hr hall => hrested hr hall

/-- A task is queued, and a `shutdown(wait=True)` has just dropped the sender. -/
def backlogTrace : List (Act 1 ℕ Unit ℕ) :=
  [.invoke 0 .submit, .step 0, .step 0, .step 0, .step 0, .invoke 1 (.shutdown true false), .step 1,
    .step 1, .step 1]

theorem backlogTrace_exec :
    (exec next (fun _ _ => True) State.init backlogTrace).map
      (fun s => decide (s.sender = false ∧ s.queue.queue = [0] ∧ s.worker only = .recv ∧
        s.calls 1 = .run (.shutdown true false) .join)) = some true := by
  decide +kernel

/-- The worker runs the task and exits in at most five steps. -/
theorem drains_backlogTrace :
    ∃ s : State 1 ℕ Unit ℕ, Run next State.init backlogTrace s ∧ ¬ s.allExited ∧
      ∃ bs t, RunWith next (fun _ a => True ∧ a.isWork = true) s bs t ∧ bs.length ≤ s.effort ∧
        s.effort = 5 ∧ Rested t := by
  obtain ⟨s, hrun, hs⟩ := exists_runWith_of_exec backlogTrace_exec
  obtain ⟨hsender, hqueue, hworker, -⟩ := of_decide_eq_true hs
  obtain ⟨bs, t, ht, hlen, hrested⟩ :=
    (drains (.ok 7) backlogTrace s hrun hsender).reaches
  refine ⟨s, hrun, fun hall => ?_, bs, t, ht, hlen, ?_, hrested⟩
  · have hended := hall only
    rw [hworker] at hended
    exact hended
  · rw [State.effort, hqueue, Fin.sum_univ_one, show (0 : Fin 1) = only from rfl, hworker]
    rfl

end Pysync.Pool
