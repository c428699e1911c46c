import Pysync.PoolTasks

/-!
The pool under clients that may cancel its futures. A cancel changes nothing but the future, so that
what holds of tasks and borrows without cancels holds in every run.
-/

namespace Pysync.Pool
open Queue Transition

variable {n : ℕ} {C E V : Type} [DecidableEq C]
variable {s t : State n C E V} {a : Act n C E V} {c d : C} {w v : Fin n}
variable {f g : C → Future E V} {as : List (Act n C E V)} {P : State n C E V → Act n C E V → Prop}

/-- A step of the pool, or a client's `cancel()`. -/
theorem next_or_cancel (hn : next s a = some t) :
    PoolStep s a t ∨ ∃ c, a = .clientCancel c ∧ t = s.setFuture c (s.future c).cancel.1 := by
  cases a with
  | clientCancel c =>
      cases hn
      exact .inr ⟨c, rfl, rfl⟩
  | _ => exact .inl (next_cases (by trivial) hn)

/-- The same state with other futures. -/
def State.withFuture (s : State n C E V) (f : C → Future E V) : State n C E V :=
  { s with future := f }

/-- The futures `g` are the futures `f` but for some that have been cancelled. -/
def CancelledFrom (f g : C → Future E V) : Prop := ∀ c, g c = f c ∨ g c = .cancelled

theorem CancelledFrom.update (h : CancelledFrom f g) {x y : Future E V}
    (hxy : y = x ∨ y = .cancelled) :
    CancelledFrom (Function.update f c x) (Function.update g c y) := by
  intro d
  by_cases hdc : d = c
  · subst hdc
    rwa [Function.update_self, Function.update_self]
  · rw [Function.update_of_ne hdc, Function.update_of_ne hdc]
    exact h d

/-- A client's `cancel()` changes no future that is done. -/
theorem CancelledFrom.cancel (h : CancelledFrom f g) (c : C) :
    CancelledFrom f (Function.update g c (g c).cancel.1) := by
  intro d
  by_cases hdc : d = c
  · subst hdc
    rw [Function.update_self]
    have hd := h d
    cases hg : g d with
    | pending | cancelled => exact .inr rfl
    | result | exception =>
        rw [hg] at hd
        exact hd
  · rw [Function.update_of_ne hdc]
    exact h d

omit [DecidableEq C] in
theorem CancelledFrom.done (h : CancelledFrom f g) (hf : (f c).done = true) : (g c).done = true := by
  rcases h c with hg | hg <;> rw [hg]
  · exact hf
  · rfl

omit [DecidableEq C] in
theorem CancelledFrom.pending (h : CancelledFrom f g) (hg : (g c).done = false) :
    (f c).done = false := by
  cases hf : (f c).done with
  | false => rfl
  | true => exact (h.done hf).symm.trans hg

/-- What cancels or completes both futures leaves them equal, or one cancelled. -/
theorem cancel_or {x y : Future E V} (h : y = x ∨ y = .cancelled) :
    y.cancel.1 = x.cancel.1 ∨ y.cancel.1 = .cancelled := by
  rcases h with rfl | rfl
  · exact .inl rfl
  · exact .inr rfl

theorem complete_or {x y : Future E V} (o : Except E V) (h : y = x ∨ y = .cancelled) :
    (y.complete o).getD y = (x.complete o).getD x ∨ (y.complete o).getD y = .cancelled := by
  rcases h with rfl | rfl
  · exact .inl rfl
  · exact .inr rfl

/-- No step but the end of a task looks at a future. -/
theorem PoolStep.withFuture (h : PoolStep s a t) (hf : CancelledFrom f s.future) :
    ∃ g, PoolStep (s.withFuture f) a (t.withFuture g) ∧ CancelledFrom g t.future := by
  cases h with
  | refused hc => exact ⟨f, .refused (s := s.withFuture f) hc, hf⟩
  | submit hc halive hexclusive =>
      exact ⟨f, .submit (s := s.withFuture f) hc halive hexclusive, hf⟩
  | shutdown hc halive hexclusive hshared =>
      exact ⟨f, .shutdown (s := s.withFuture f) hc halive hexclusive hshared, hf⟩
  | submitGoto hc hpc hpc' => exact ⟨f, .submitGoto (s := s.withFuture f) hc hpc hpc', hf⟩
  | accept hc hlive hpush => exact ⟨f, .accept (s := s.withFuture f) hc hlive hpush, hf⟩
  | submitRet hc => exact ⟨f, .submitRet (s := s.withFuture f) hc, hf⟩
  | shutdownGoto hc hcancel hasked hret =>
      exact ⟨f, .shutdownGoto (s := s.withFuture f) hc hcancel hasked hret, hf⟩
  | dropSender hc => exact ⟨f, .dropSender (s := s.withFuture f) hc, hf⟩
  | shutdownRet hc => exact ⟨f, .shutdownRet (s := s.withFuture f) hc, hf⟩
  | take hw hpop => exact ⟨f, .take (s := s.withFuture f) hw hpop, hf⟩
  | exit hw hqueue hsender => exact ⟨f, .exit (s := s.withFuture f) hw hqueue hsender, hf⟩
  | decline hw hcancel => exact ⟨f, .decline (s := s.withFuture f) hw hcancel, hf⟩
  | start hw hcancel => exact ⟨f, .start (s := s.withFuture f) hw hcancel, hf⟩
  | cancel hw hpc =>
      exact ⟨_, .cancel (s := s.withFuture f) hw (hpc.imp id (.imp id (.imp id hf.pending))),
        hf.update (cancel_or (hf _))⟩
  | finish hw => exact ⟨f, .finish (s := s.withFuture f) hw, hf⟩
  | panic ha hw => exact ⟨f, .panic (s := s.withFuture f) ha hw, hf⟩
  | complete hw hpc =>
      exact ⟨_, .complete (s := s.withFuture f) hw (hpc.imp id (.imp id (.imp id hf.pending))),
        hf.update (complete_or _ (hf _))⟩
  | drop hpc hdrop hsender => exact ⟨f, .drop (s := s.withFuture f) hpc hdrop hsender, hf⟩

/-- The pool is in order but for futures that clients may have cancelled. -/
def OrderlyBut (s : State n C E V) (f : C → Future E V) : Prop :=
  InOrder (s.withFuture f) ∧ CancelledFrom f s.future

theorem orderly_run (h : RunWith next P State.init as s) : ∃ f, OrderlyBut s f := by
  induction h with
  | nil => exact ⟨_, inOrder_init, fun _ => .inl rfl⟩
  | snoc _ _ hn ih =>
      obtain ⟨f, hf, hfrom⟩ := ih
      rcases next_or_cancel hn with hstep | ⟨c, rfl, rfl⟩
      · obtain ⟨g, hstep', hg⟩ := hstep.withFuture hfrom
        exact ⟨g, ⟨hf.borrowed.next hstep', hf.sentOnce.next hstep',
          hf.partitioned.next hf.sentOnce hf.borrowed hstep'⟩, hg⟩
      · exact ⟨f, hf, hfrom.cancel c⟩

/-- Nobody will set the future of the task once all workers have exited: it is still queued, or its
callable has ended in a panic. -/
def Abandoned (s : State n C E V) (c : C) : Prop :=
  c ∈ s.queue.queue ∨ s.events c = [.started, .panicked]

theorem Partitioned.abandoned (h : Partitioned s) (hs : SentOnce s) (hc : Abandoned s c) :
    c ∈ s.queue.accepted.map Prod.snd ∧ s.future c = .pending := by
  rw [s.queue.conserved]
  rcases hc with hqueue | hevents
  · exact ⟨List.mem_append_right _ hqueue, (h.fresh c (hs.not_delivered hqueue)).2⟩
  · have htaken := h.taken (c := c) (by simp [hevents])
    refine ⟨List.mem_append_left _ htaken, ?_⟩
    obtain ⟨⟨w, c⟩, hmem, rfl⟩ := List.mem_map.mp htaken
    rcases h.outcome w c hmem fun htask => (h.phase w).not_panicked htask hevents with hfin | hlost
    · exact (hfin.not_panicked hevents).elim
    · exact hlost.2

/-- What holds of a pool in every run. -/
structure Orderly (s : State n C E V) : Prop where
  borrowed : Borrowed s
  sentOnce : SentOnce s
  held : ∀ w c, (s.worker w).task = some c → (w, c) ∈ s.queue.delivered
  exited : ∀ w, s.worker w = .exited → s.sender = false ∧ s.queue.queue = []
  /-- The callable has not been begun before the worker has looked at the flag, and has been after. -/
  unbegun : ∀ w c, s.worker w = .got c ∨ s.worker w = .cancel c → s.events c = []
  begun : ∀ w c, s.worker w = .run c → s.events c ≠ []
  /-- A task that has been taken and that no worker holds is done with, or lost. -/
  settled : ∀ c ∈ s.queue.delivered.map Prod.snd, (∀ w, (s.worker w).task ≠ some c) →
    (s.future c).done = true ∨ s.events c = [.started, .panicked]
  /-- Only a client sets the future of a task that is queued or lost. -/
  abandoned : ∀ c, Abandoned s c →
    c ∈ s.queue.accepted.map Prod.snd ∧ (s.future c = .pending ∨ s.future c = .cancelled)

theorem OrderlyBut.orderly (h : OrderlyBut s f) : Orderly s where
  borrowed := h.1.borrowed.congr rfl rfl rfl rfl rfl
  sentOnce := ⟨h.1.sentOnce.nodup, h.1.sentOnce.sent⟩
  held := h.1.partitioned.held
  exited := h.1.partitioned.exited
  unbegun w c hw := by
    have hphase := h.1.partitioned.phase w
    rw [show (s.withFuture f).worker w = s.worker w from rfl] at hphase
    rcases hw with hw | hw <;> rw [hw] at hphase <;> exact hphase.1
  begun w c hw := by
    have hphase := h.1.partitioned.phase w
    rw [show (s.withFuture f).worker w = s.worker w from rfl, hw] at hphase
    rw [show s.events c = _ from hphase.1]
    simp
  settled c hc hw := by
    obtain ⟨⟨w, c⟩, hmem, rfl⟩ := List.mem_map.mp hc
    exact (h.1.partitioned.outcome w c hmem (hw w)).imp (fun hfin => h.2.done hfin.done) And.left
  abandoned c hc := by
    obtain ⟨hacc, hpending⟩ := h.1.partitioned.abandoned h.1.sentOnce hc
    refine ⟨hacc, (h.2 c).imp (fun hf => hf.trans hpending) id⟩

theorem Orderly.run (h : RunWith next P State.init as s) : Orderly s := by
  obtain ⟨f, hf⟩ := orderly_run h
  exact hf.orderly

omit [DecidableEq C] in
/-- Once all workers have exited, every future that was returned is done or its task abandoned. -/
theorem Orderly.done_or_abandoned (h : Orderly s) (hall : s.allExited)
    (hc : s.calls c = .done .submit (.ok ())) : (s.future c).done = true ∨ Abandoned s c := by
  have hsent : c ∈ s.queue.accepted.map Prod.snd := by
    rw [h.sentOnce.sent, hc]
    trivial
  rw [s.queue.conserved, List.mem_append] at hsent
  rcases hsent with hdel | hqueue
  · refine (h.settled c hdel fun w => ?_).imp id .inr
    rw [(hall w).task_eq]
    simp
  · exact .inr (.inl hqueue)

end Pysync.Pool
