import Pysync.TeardownModel
import Mathlib.Data.Finset.Basic

/-!
When the end of a pool deadlocks on itself. `shutdown` and the drop do not ask on which thread they
run, and the drop joins the workers without detaching from the interpreter.
-/

namespace Pysync.Teardown
open Transition
open Pool (Method DropPc only)

variable {n : ℕ} {T : Type} {hasGil : Bool} {s s' : State n T} {a : Act n T}
variable {t d : Thread n T} {w : Fin n} {m : Method} {pc pc' : Pc n} {as : List (Act n T)}

/-- The thread `t` waits for the end of the worker `w`, in `shutdown` or in the drop. -/
def State.Joins (s : State n T) (t : Thread n T) (w : Fin n) : Prop :=
  ((∃ m rest, s.pc t = .join m (w :: rest)) ∨ ∃ rest, s.pc t = .dropJoin (w :: rest)) ∧
    s.pc (.worker w) ≠ .exited

/-- The worker `w` has a task in hand. -/
def State.HasTask (s : State n T) (w : Fin n) : Prop :=
  s.pc (.worker w) ≠ .recv ∧ s.pc (.worker w) ≠ .exited

/-- Nobody waits for himself, nor, attached, for a worker that cannot end its task without the GIL. -/
def NoSelfDeadlock (hasGil : Bool) (s : State n T) : Prop :=
  ∀ t w, s.Joins t w → t ≠ .worker w ∧ ¬ (hasGil = true ∧ s.attach t = .attached ∧ s.HasTask w)

def Thread.IsOther (t : Thread n T) : Prop := ∀ w, t ≠ .worker w

/-- No task is left. -/
def State.Calm (s : State n T) : Prop := s.queue = 0 ∧ ∀ w, ¬ s.HasTask w

/-- The thread `t` may drop the pool: there is nobody to join, or it is not a worker and does not keep
the GIL from a worker with a task. -/
def MayDrop (hasGil : Bool) (s : State n T) (t : Thread n T) : Prop :=
  s.workers = true → t.IsOther ∧ (hasGil = true → s.Calm)

/-- No worker calls `shutdown(wait=True)` on the active pool, and nobody gives back the last reference
to the pool who may not drop it. -/
def Careful [DecidableEq T] (hasGil : Bool) (s : State n T) : Act n T → Prop
  | .step t => match s.pc t with
      | .call (.shutdown true _) .active => s.active = true → t.IsOther
      | .call _ (.ret _) => s.refs = 0 → s.callers.erase t = ∅ → MayDrop hasGil s t
      | _ => True
  | .release t => s.refs = 1 → s.callers = ∅ → MayDrop hasGil s t
  | _ => True

section Decidable

variable [DecidableEq T]

instance (s : State n T) (w : Fin n) : Decidable (s.HasTask w) :=
  inferInstanceAs (Decidable (_ ∧ _))

instance (t : Thread n T) : Decidable t.IsOther := inferInstanceAs (Decidable (∀ w, t ≠ .worker w))

instance (s : State n T) : Decidable s.Calm :=
  inferInstanceAs (Decidable (s.queue = 0 ∧ ∀ w, ¬ s.HasTask w))

instance (s : State n T) (t : Thread n T) : Decidable (MayDrop hasGil s t) :=
  inferInstanceAs (Decidable (_ → _ ∧ (_ → _)))

instance (s : State n T) (a : Act n T) : Decidable (Careful hasGil s a) := by
  unfold Careful
  split
  · split <;> infer_instance
  · infer_instance
  · infer_instance

end Decidable

/-- What a step can do. -/
inductive OneStep [DecidableEq T] (hasGil : Bool) (s : State n T) : Act n T → State n T → Prop
  | refused {t : Thread n T} {m : Method} : OneStep hasGil s (.invoke t m) s
  | enter {t : Thread n T} {m : Method} {x : Bool} (hpython : s.inPython t) (hrefs : 0 < s.refs) :
      OneStep hasGil s (.invoke t m)
        (State.setPc { s with callers := insert t s.callers, exclusive := x } t (.call m .active))
  | submit {t : Thread n T} {pc pc' : Pool.Pc} {q : ℕ} (hpc : s.pc t = .call .submit pc) :
      OneStep hasGil s (.step t) (State.setPc { s with queue := q } t (.call .submit pc'))
  | finish {t : Thread n T} {m : Method} {r : PyResult Unit} {x : Bool}
      (hpc : s.pc t = .call m (.ret r)) :
      OneStep hasGil s (.step t)
        (State.afterRelease { s with callers := s.callers.erase t, exclusive := x } t)
  | first {t : Thread n T} {wait cancelFutures : Bool} (hactive : s.active = true)
      (hpc : s.pc t = .call (.shutdown wait cancelFutures) .active) :
      OneStep hasGil s (.step t) (State.setPc { s with active := false } t
        (.call (.shutdown wait cancelFutures) .cancelFlag))
  | cancelFlag {t : Thread n T} {wait cancelFutures : Bool}
      (hpc : s.pc t = .call (.shutdown wait cancelFutures) .cancelFlag) :
      OneStep hasGil s (.step t) (s.setPc t (.call (.shutdown wait cancelFutures) .dropSender))
  | dropSender {t : Thread n T} {wait cancelFutures : Bool}
      (hpc : s.pc t = .call (.shutdown wait cancelFutures) .dropSender) :
      OneStep hasGil s (.step t)
        (State.setPc { s with sender := false } t (.call (.shutdown wait cancelFutures) .join))
  | detach {t : Thread n T} {cancelFutures : Bool}
      (hpc : s.pc t = .call (.shutdown true cancelFutures) .join) :
      OneStep hasGil s (.step t) ((State.leave { s with workers := false } t .detached).setPc t
        (.join (.shutdown true cancelFutures) s.handles))
  | noJoin {t : Thread n T} {wait cancelFutures x : Bool} {pc : Pool.Pc}
      (hpc : s.pc t = .call (.shutdown wait cancelFutures) pc)
      (hworkers : x = true → s.workers = true) :
      OneStep hasGil s (.step t) (State.setPc { s with workers := x } t
        (.call (.shutdown wait cancelFutures) (.ret (.ok ()))))
  | joined {t : Thread n T} {m : Method} {w : Fin n} {rest : List (Fin n)}
      (hpc : s.pc t = .join m (w :: rest)) : OneStep hasGil s (.step t) (s.setPc t (.join m rest))
  | reattach {t : Thread n T} {m : Method} (hpc : s.pc t = .join m []) :
      OneStep hasGil s (.step t) ((s.leave t .attaching).setPc t (.call m (.ret (.ok ()))))
  | drop {t : Thread n T} {pc pc' : DropPc} {x y : Bool} (hpc : s.pc t = .drop pc) :
      OneStep hasGil s (.step t)
        (State.setPc { s with active := x, sender := y } t (.drop pc'))
  | dropTake {t : Thread n T} {pc : DropPc} (hpc : s.pc t = .drop pc) :
      OneStep hasGil s (.step t) (State.setPc { s with workers := false } t (.dropJoin s.handles))
  | dropJoined {t : Thread n T} {w : Fin n} {rest : List (Fin n)}
      (hpc : s.pc t = .dropJoin (w :: rest)) :
      OneStep hasGil s (.step t) (s.setPc t (.dropJoin rest))
  | dropEnd {t : Thread n T} (hpc : s.pc t = .dropJoin []) :
      OneStep hasGil s (.step t) (s.setPc t .python)
  | take {t : Thread n T} (hpc : s.pc t = .recv) (hqueue : 0 < s.queue) :
      OneStep hasGil s (.step t)
        ((State.leave { s with queue := s.queue - 1 } t .attaching).setPc t .python)
  | exit {t : Thread n T} (hpc : s.pc t = .recv) : OneStep hasGil s (.step t) (s.setPc t .exited)
  | endTask {w : Fin n} (hpython : s.inPython (.worker w)) :
      OneStep hasGil s (.endTask w) ((s.leave (.worker w) .detached).setPc (.worker w) .recv)
  | copy {t : Thread n T} (hrefs : 0 < s.refs) :
      OneStep hasGil s (.copy t) { s with refs := s.refs + 1 }
  | release {t : Thread n T} (hpython : s.inPython t) (hrefs : 0 < s.refs) :
      OneStep hasGil s (.release t) (State.afterRelease { s with refs := s.refs - 1 } t)
  | leave {t : Thread n T} {x : Attach} {a : Act n T} (hpc : (s.pc t).switches = true) :
      OneStep hasGil s a (s.leave t x)
  | attach {t : Thread n T} {g : Option (Thread n T)} (hattach : s.attach t = .attaching) :
      OneStep hasGil s (.attach t)
        { s with attach := Function.update s.attach t .attached, gil := g }

theorem submitStep_cases [DecidableEq T] {pc : Pool.Pc} (hpc : s.pc t = .call .submit pc)
    (h : submitStep s t pc = some s') : OneStep hasGil s (.step t) s' := by
  cases pc with
  | active =>
      cases h
      exact .submit (q := s.queue) hpc
  | sender =>
      cases h
      exact .submit (q := s.queue) hpc
  | send =>
      unfold submitStep at h
      dsimp only at h
      split at h
      · cases h
        exact .submit (q := s.queue) hpc
      · cases h
        exact .submit hpc
  | ret r =>
      cases h
      exact .finish (x := s.exclusive) hpc
  | _ => cases h

theorem shutdownStep_cases [DecidableEq T] {wait cancelFutures : Bool} {pc : Pool.Pc}
    (hpc : s.pc t = .call (.shutdown wait cancelFutures) pc)
    (h : shutdownStep s t wait cancelFutures pc = some s') : OneStep hasGil s (.step t) s' := by
  cases pc with
  | active =>
      unfold shutdownStep at h
      dsimp only at h
      split at h
      · rename_i hactive
        cases h
        exact .first hactive hpc
      · cases h
        exact .noJoin (x := s.workers) hpc id
  | cancelFlag =>
      cases h
      exact .cancelFlag hpc
  | dropSender =>
      cases h
      exact .dropSender hpc
  | join =>
      unfold shutdownStep at h
      dsimp only at h
      split at h
      · rename_i hjoin
        obtain ⟨rfl, -⟩ := hjoin
        cases h
        exact .detach hpc
      · cases h
        exact .noJoin hpc (by simp)
  | ret r =>
      cases h
      exact .finish hpc
  | _ => cases h

theorem step_cases [DecidableEq T] (h : step s t (s.pc t) = some s') : OneStep hasGil s (.step t) s' := by
  cases hpc : s.pc t with
  | recv =>
      rw [hpc, step] at h
      split at h
      · rename_i hqueue
        cases h
        exact .take hpc hqueue
      · split at h
        · cases h
        · cases h
          exact .exit hpc
  | call m pc =>
      rw [hpc] at h
      unfold step at h
      dsimp only at h
      split at h
      · cases m with
        | submit => exact submitStep_cases hpc h
        | shutdown wait cancelFutures => exact shutdownStep_cases hpc h
      · cases h
  | join m workers =>
      cases workers with
      | nil =>
          rw [hpc] at h
          cases h
          exact .reattach hpc
      | cons w rest =>
          rw [hpc, step] at h
          split at h
          · cases h
            exact .joined hpc
          · cases h
  | drop pc =>
      rw [hpc] at h
      cases pc with
      | active =>
          cases h
          exact .drop (x := false) (y := s.sender) hpc
      | sender =>
          cases h
          exact .drop (x := s.active) (y := false) hpc
      | join =>
          cases h
          exact .dropTake hpc
      | _ => cases h
  | dropJoin workers =>
      cases workers with
      | nil =>
          rw [hpc] at h
          cases h
          exact .dropEnd hpc
      | cons w rest =>
          rw [hpc, step] at h
          split at h
          · cases h
            exact .dropJoined hpc
          · cases h
  | _ =>
      rw [hpc] at h
      cases h

theorem next_cases [DecidableEq T] (hn : next hasGil s a = some s') : OneStep hasGil s a s' := by
  cases a with
  | invoke t m =>
      unfold next at hn
      dsimp only at hn
      split at hn
      · rename_i hgo
        cases m with
        | submit =>
            dsimp only at hn
            split at hn
            · cases hn
              exact .refused
            · cases hn
              exact .enter (x := s.exclusive) hgo.1 hgo.2
        | shutdown wait cancelFutures =>
            dsimp only at hn
            split at hn
            · cases hn
              exact .refused
            · cases hn
              exact .enter hgo.1 hgo.2
      · cases hn
  | step t => exact step_cases hn
  | endTask w =>
      unfold next at hn
      dsimp only at hn
      split at hn
      · rename_i hgo
        cases hn
        exact .endTask hgo
      · cases hn
  | copy t =>
      unfold next at hn
      dsimp only at hn
      split at hn
      · rename_i hgo
        cases hn
        exact .copy hgo.2
      · cases hn
  | release t =>
      unfold next at hn
      dsimp only at hn
      split at hn
      · rename_i hgo
        cases hn
        exact .release hgo.1 hgo.2
      · cases hn
  | pause t =>
      unfold next at hn
      dsimp only at hn
      split at hn
      · rename_i hgo
        cases hn
        exact .leave (by rw [hgo.1]; rfl)
      · cases hn
  | resume t =>
      unfold next at hn
      dsimp only at hn
      split at hn
      · rename_i hgo
        cases hn
        exact .leave (by rw [hgo.1]; rfl)
      · cases hn
  | attach t =>
      unfold next at hn
      dsimp only at hn
      split at hn
      · rename_i hgo
        cases hn
        exact .attach hgo.1
      · cases hn
  | yield t =>
      unfold next at hn
      dsimp only at hn
      split at hn
      · rename_i hgo
        cases hn
        exact .leave hgo.1
      · cases hn

/-- What is known of a thread by where it stands. -/
def Fine (hasGil : Bool) (s : State n T) (t : Thread n T) : Pc n → Prop
  | .call (.shutdown true _) .cancelFlag | .call (.shutdown true _) .dropSender
  | .call (.shutdown true _) .join => t ∈ s.callers ∧ t.IsOther
  | .call _ _ => t ∈ s.callers
  | .join _ _ => t ∈ s.callers ∧ t.IsOther ∧ s.attach t = .detached
  | .drop _ => s.refs = 0 ∧ s.callers = ∅ ∧ MayDrop hasGil s t
  | .dropJoin workers =>
      s.refs = 0 ∧ s.callers = ∅ ∧ (workers ≠ [] → t.IsOther ∧ (hasGil = true → s.Calm))
  | _ => True

theorem State.pc_setPc_self [DecidableEq T] (s : State n T) (t : Thread n T) (pc : Pc n) :
    (s.setPc t pc).pc t = pc :=
  Function.update_self ..

theorem State.pc_setPc_ne [DecidableEq T] (s : State n T) (pc : Pc n) (h : d ≠ t) :
    (s.setPc t pc).pc d = s.pc d :=
  Function.update_of_ne h ..

theorem State.attach_leave_ne [DecidableEq T] (s : State n T) (x : Attach) (h : d ≠ t) :
    (s.leave t x).attach d = s.attach d := Function.update_of_ne h ..

theorem Fine.caller {pc : Pool.Pc} (h : Fine hasGil s t (.call m pc)) : t ∈ s.callers := by
  cases m with
  | submit => exact h
  | shutdown wait cancelFutures =>
      cases wait <;> cases pc
      all_goals first | exact h | exact h.1

/-- Nobody refers to the pool any more. -/
def State.Dead (s : State n T) : Prop := s.refs = 0 ∧ s.callers = ∅

/-- A step by `t` leaves what is known of another thread. -/
structure Frame (s s' : State n T) (d : Thread n T) : Prop where
  caller : d ∈ s.callers → d ∈ s'.callers
  attach : s.attach d = .detached → (∃ m workers, s.pc d = .join m workers) → s'.attach d = .detached
  dead : s.Dead → s'.Dead
  workers : s'.workers = true → s.workers = true
  calm : s.Dead → s.Calm → s'.Calm

theorem Fine.frame (hf : Frame s s' d) (h : Fine hasGil s d (s.pc d)) : Fine hasGil s' d (s.pc d) := by
  cases hpc : s.pc d with
  | call m pc =>
      rw [hpc] at h
      cases m with
      | submit => exact hf.caller h
      | shutdown wait cancelFutures =>
          cases wait <;> cases pc
          all_goals first | exact hf.caller h | exact ⟨hf.caller h.1, h.2⟩
  | join m workers =>
      rw [hpc] at h
      exact ⟨hf.caller h.1, h.2.1, hf.attach h.2.2 ⟨m, workers, hpc⟩⟩
  | drop pc =>
      rw [hpc] at h
      obtain ⟨hrefs, hcallers, hmay⟩ := h
      obtain ⟨hrefs', hcallers'⟩ := hf.dead ⟨hrefs, hcallers⟩
      refine ⟨hrefs', hcallers', fun hw => ?_⟩
      obtain ⟨hother, hcalm⟩ := hmay (hf.workers hw)
      exact ⟨hother, fun hgil => hf.calm ⟨hrefs, hcallers⟩ (hcalm hgil)⟩
  | dropJoin workers =>
      rw [hpc] at h
      obtain ⟨hrefs, hcallers, hmay⟩ := h
      obtain ⟨hrefs', hcallers'⟩ := hf.dead ⟨hrefs, hcallers⟩
      refine ⟨hrefs', hcallers', fun hw => ?_⟩
      obtain ⟨hother, hcalm⟩ := hmay hw
      exact ⟨hother, fun hgil => hf.calm ⟨hrefs, hcallers⟩ (hcalm hgil)⟩
  | _ => trivial

theorem State.Calm.next [DecidableEq T] (h : s.Calm) (hqueue : s'.queue = s.queue)
    (hpc : ∀ d, d ≠ t → s'.pc d = s.pc d)
    (hidle : s.pc t = .recv ∨ s.pc t = .exited → s'.pc t = .recv ∨ s'.pc t = .exited) : s'.Calm := by
  refine ⟨hqueue.trans h.1, fun w hw => ?_⟩
  by_cases hwt : Thread.worker w = t
  · subst hwt
    have hbefore : s.pc (.worker w) = .recv ∨ s.pc (.worker w) = .exited := by
      by_contra hno
      exact h.2 w (not_or.mp hno)
    exact not_or.mpr hw (hidle hbefore)
  · unfold State.HasTask at hw
    rw [hpc _ hwt] at hw
    exact h.2 w hw

/-- A step by a thread that is not a worker has no influence on the tasks. -/
theorem State.Calm.other (h : s.Calm) (hother : t.IsOther) (hqueue : s'.queue = s.queue)
    (hpc : ∀ d, d ≠ t → s'.pc d = s.pc d) : s'.Calm := by
  refine ⟨hqueue.trans h.1, fun w hw => h.2 w ?_⟩
  unfold State.HasTask at hw
  rwa [hpc _ (hother w).symm] at hw

theorem MayDrop.next (h : MayDrop hasGil s t) (hworkers : s'.workers = true → s.workers = true)
    (hqueue : s'.queue = s.queue) (hpc : ∀ d, d ≠ t → s'.pc d = s.pc d) : MayDrop hasGil s' t :=
  fun hw => ⟨(h (hworkers hw)).1, fun hgil => ((h (hworkers hw)).2 hgil).other (h (hworkers hw)).1 hqueue hpc⟩

theorem Frame.alive (hdead : ¬ s.Dead) (hcaller : d ∈ s.callers → d ∈ s'.callers)
    (hattach : s'.attach d = s.attach d) (hworkers : s'.workers = true → s.workers = true) :
    Frame s s' d where
  caller := hcaller
  attach h _ := hattach.trans h
  dead h := absurd h hdead
  workers := hworkers
  calm h := absurd h hdead

theorem Frame.keep (hcallers : s'.callers = s.callers) (hrefs : s'.refs = s.refs)
    (hattach : s.attach d = .detached → (∃ m workers, s.pc d = .join m workers) →
      s'.attach d = .detached)
    (hworkers : s'.workers = true → s.workers = true) (hcalm : s.Calm → s'.Calm) : Frame s s' d where
  caller h := hcallers ▸ h
  attach := hattach
  dead h := ⟨hrefs.trans h.1, hcallers.trans h.2⟩
  workers := hworkers
  calm _ := hcalm

theorem not_dead_of_caller (h : t ∈ s.callers) : ¬ s.Dead := by
  rintro ⟨-, hempty⟩
  rw [hempty] at h
  exact Finset.notMem_empty _ h

theorem not_dead_of_refs (h : 0 < s.refs) : ¬ s.Dead := fun hdead => h.ne' hdead.1

theorem Fine.first (h : t ∈ s.callers) : Fine hasGil s t (.call m .active) := by
  cases m with
  | submit => exact h
  | shutdown wait cancelFutures => cases wait <;> exact h

theorem Fine.ret {r : PyResult Unit} (h : t ∈ s.callers) : Fine hasGil s t (.call m (.ret r)) := by
  cases m with
  | submit => exact h
  | shutdown wait cancelFutures => cases wait <;> exact h

variable [DecidableEq T]

theorem Fine.afterRelease (hdrop : s.refs = 0 → s.callers = ∅ → MayDrop hasGil s t) :
    Fine hasGil (s.afterRelease t) t ((s.afterRelease t).pc t) := by
  unfold State.afterRelease
  rw [State.pc_setPc_self]
  split
  · rename_i hdead
    exact ⟨hdead.1, hdead.2, (hdrop hdead.1 hdead.2).next id rfl fun d hd =>
      State.pc_setPc_ne _ _ hd⟩
  · trivial

/-- All threads are where they may be. -/
def Inv (hasGil : Bool) (s : State n T) : Prop := ∀ t, Fine hasGil s t (s.pc t)

/-- It is enough to look at the thread that makes the step. -/
theorem Inv.of_step (h : Inv hasGil s) (hpc : ∀ d, d ≠ t → s'.pc d = s.pc d)
    (hframe : ∀ d, d ≠ t → Frame s s' d) (hfine : Fine hasGil s' t (s'.pc t)) : Inv hasGil s' := by
  intro d
  by_cases hd : d = t
  · rwa [hd]
  · rw [hpc d hd]
    exact (h d).frame (hframe d hd)

omit [DecidableEq T] in
/-- A step after which every thread stands where it stood. -/
theorem Inv.of_frame (h : Inv hasGil s) (hpc : s'.pc = s.pc) (hframe : ∀ d, Frame s s' d) :
    Inv hasGil s' := by
  intro d
  rw [hpc]
  exact (h d).frame (hframe d)

theorem careful_ret {r : PyResult Unit} (h : Careful hasGil s (.step t))
    (hpc : s.pc t = .call m (.ret r)) (hrefs : s.refs = 0) (hempty : s.callers.erase t = ∅) :
    MayDrop hasGil s t := by
  unfold Careful at h
  dsimp only at h
  rw [hpc] at h
  cases m with
  | submit => exact h hrefs hempty
  | shutdown wait cancelFutures => cases wait <;> exact h hrefs hempty

theorem careful_shutdown {cancelFutures : Bool} (h : Careful hasGil s (.step t))
    (hpc : s.pc t = .call (.shutdown true cancelFutures) .active) (hactive : s.active = true) :
    t.IsOther := by
  unfold Careful at h
  dsimp only at h
  rw [hpc] at h
  exact h hactive

omit [DecidableEq T] in
theorem Inv.init : Inv hasGil (State.init : State n T) := by
  intro t
  cases t <;> trivial

/-- The thread `t` goes to `pc`. -/
theorem Inv.goto (h : Inv hasGil s) (hpc : s'.pc = s.pc)
    (hframe : ∀ d, d ≠ t → Frame s (s'.setPc t pc) d) (hfine : Fine hasGil (s'.setPc t pc) t pc) :
    Inv hasGil (s'.setPc t pc) := by
  refine h.of_step (fun d hd => ?_) hframe ?_
  · rw [State.pc_setPc_ne _ _ hd, hpc]
  · rwa [State.pc_setPc_self]

/-- A thread that holds a borrow of the pool goes to `pc`. -/
theorem Inv.gotoCaller (h : Inv hasGil s) (hcaller : t ∈ s.callers) (hpc : s'.pc = s.pc)
    (hcallers : s'.callers = s.callers) (hattach : ∀ d, d ≠ t → s'.attach d = s.attach d)
    (hworkers : s'.workers = true → s.workers = true) (hfine : Fine hasGil (s'.setPc t pc) t pc) :
    Inv hasGil (s'.setPc t pc) := by
  refine h.goto hpc (fun d hd => ?_) hfine
  refine .alive (not_dead_of_caller hcaller) (fun hd' => ?_) (hattach d hd) hworkers
  exact hcallers.symm ▸ hd'

/-- A thread that neither takes a task nor begins one goes to `pc`. -/
theorem Inv.gotoIdle (h : Inv hasGil s) (hpc : s'.pc = s.pc) (hcallers : s'.callers = s.callers)
    (hrefs : s'.refs = s.refs) (hqueue : s'.queue = s.queue)
    (hattach : ∀ d, d ≠ t → s'.attach d = s.attach d) (hworkers : s'.workers = true → s.workers = true)
    (hidle : s.pc t = .recv ∨ s.pc t = .exited → pc = .recv ∨ pc = .exited)
    (hfine : Fine hasGil (s'.setPc t pc) t pc) : Inv hasGil (s'.setPc t pc) := by
  refine h.goto hpc (fun d hd => ?_) hfine
  refine .keep hcallers hrefs (fun hat _ => (hattach d hd).trans hat) hworkers fun hcalm => ?_
  refine hcalm.next (t := t) hqueue (fun d hd => ?_) fun hbefore => ?_
  · rw [State.pc_setPc_ne _ _ hd, hpc]
  · rw [State.pc_setPc_self]
    exact hidle hbefore

theorem Inv.next (h : Inv hasGil s) (hcareful : Careful hasGil s a)
    (hn : next hasGil s a = some s') : Inv hasGil s' := by
  have hne : ∀ {u : State n T} {t d : Thread n T} {pc : Pc n}, d ≠ t →
      (u.setPc t pc).pc d = u.pc d := fun hd => State.pc_setPc_ne _ _ hd
  cases next_cases hn with
  | refused => exact h
  | @enter t m ex hpython hrefs =>
      refine h.goto rfl (fun d hd => ?_) (Fine.first (Finset.mem_insert_self ..))
      exact .alive (not_dead_of_refs hrefs) Finset.mem_insert_of_mem rfl id
  | @submit t pc pc' q hpc =>
      have hcaller : t ∈ s.callers := (hpc ▸ h t).caller
      exact h.gotoCaller hcaller rfl rfl (fun _ _ => rfl) id hcaller
  | @finish t m r ex hpc =>
      have hcaller : t ∈ s.callers := (hpc ▸ h t).caller
      refine h.of_step (fun d hd => hne hd) (fun d hd => .alive (not_dead_of_caller hcaller)
        (fun hd' => Finset.mem_erase.mpr ⟨hd, hd'⟩) rfl id) (Fine.afterRelease fun hrefs hempty => ?_)
      have hmay : MayDrop hasGil s t := careful_ret hcareful hpc hrefs hempty
      exact hmay
  | @first t wait cancelFutures hactive hpc =>
      have hcaller : t ∈ s.callers := (hpc ▸ h t).caller
      refine h.gotoCaller hcaller rfl rfl (fun _ _ => rfl) id ?_
      cases wait with
      | false => exact hcaller
      | true => exact ⟨hcaller, careful_shutdown hcareful hpc hactive⟩
  | @cancelFlag t wait cancelFutures hpc =>
      have hfine := hpc ▸ h t
      refine h.gotoCaller hfine.caller rfl rfl (fun _ _ => rfl) id ?_
      cases wait <;> exact hfine
  | @dropSender t wait cancelFutures hpc =>
      have hfine := hpc ▸ h t
      refine h.gotoCaller hfine.caller rfl rfl (fun _ _ => rfl) id ?_
      cases wait <;> exact hfine
  | @detach t cancelFutures hpc =>
      have hfine := hpc ▸ h t
      refine h.gotoCaller hfine.caller rfl rfl (fun d hd => State.attach_leave_ne _ _ hd)
        (by simp [State.leave]) ?_
      exact ⟨hfine.1, hfine.2, Function.update_self ..⟩
  | @noJoin t wait cancelFutures workers pc hpc hworkers =>
      have hcaller : t ∈ s.callers := (hpc ▸ h t).caller
      exact h.gotoCaller hcaller rfl rfl (fun _ _ => rfl) hworkers (Fine.ret hcaller)
  | @joined t m w rest hpc =>
      have hfine := hpc ▸ h t
      exact h.gotoCaller hfine.1 rfl rfl (fun _ _ => rfl) id hfine
  | @reattach t m hpc =>
      have hfine := hpc ▸ h t
      exact h.gotoCaller hfine.1 rfl rfl (fun d hd => State.attach_leave_ne _ _ hd) id
        (Fine.ret hfine.1)
  | @drop t pc pc' active sender hpc =>
      obtain ⟨hrefs, hcallers, hmay⟩ := hpc ▸ h t
      refine h.gotoIdle rfl rfl rfl rfl (fun _ _ => rfl) id (by simp [hpc]) ?_
      exact ⟨hrefs, hcallers, hmay.next id rfl fun d hd => hne hd⟩
  | @dropTake t pc hpc =>
      obtain ⟨hrefs, hcallers, hmay⟩ := hpc ▸ h t
      refine h.gotoIdle rfl rfl rfl rfl (fun _ _ => rfl) (by simp) (by simp [hpc]) ?_
      refine ⟨hrefs, hcallers, fun hhandles => ?_⟩
      have hworkers : s.workers = true := by
        by_contra hno
        exact hhandles (if_neg hno)
      obtain ⟨hother, hcalm⟩ := hmay hworkers
      exact ⟨hother, fun hgil => (hcalm hgil).other hother rfl fun d hd => hne hd⟩
  | @dropJoined t w rest hpc =>
      obtain ⟨hrefs, hcallers, hmay⟩ := hpc ▸ h t
      refine h.gotoIdle rfl rfl rfl rfl (fun _ _ => rfl) id (by simp [hpc]) ?_
      obtain ⟨hother, hcalm⟩ := hmay (by simp)
      exact ⟨hrefs, hcallers, fun _ => ⟨hother, fun hgil =>
        (hcalm hgil).other hother rfl fun d hd => hne hd⟩⟩
  | @dropEnd t hpc =>
      exact h.gotoIdle rfl rfl rfl rfl (fun _ _ => rfl) id (by simp [hpc]) trivial
  | @take t hpc hqueue =>
      refine h.goto rfl (fun d hd => ?_) trivial
      exact .keep rfl rfl (fun hat _ => (State.attach_leave_ne _ _ hd).trans hat) id
        fun hcalm => absurd hcalm.1 hqueue.ne'
  | @exit t hpc =>
      exact h.gotoIdle rfl rfl rfl rfl (fun _ _ => rfl) id (fun _ => .inr rfl) trivial
  | @endTask w hpython =>
      exact h.gotoIdle rfl rfl rfl rfl (fun d hd => State.attach_leave_ne _ _ hd) id
        (fun _ => .inl rfl) trivial
  | @copy t hrefs =>
      exact h.of_frame rfl fun d => .alive (not_dead_of_refs hrefs) id rfl id
  | @release t hpython hrefs =>
      refine h.of_step (fun d hd => hne hd)
        (fun d hd => .alive (not_dead_of_refs hrefs) id rfl id)
        (Fine.afterRelease fun hlast hempty => ?_)
      exact hcareful (by dsimp only at hlast; omega) hempty
  | @leave t x a hpc =>
      refine h.of_frame rfl fun d => .keep rfl rfl (fun hat hjoin => ?_) id fun hcalm => hcalm
      have hd : d ≠ t := by
        rintro rfl
        obtain ⟨m, workers, hjoin⟩ := hjoin
        rw [hjoin] at hpc
        cases hpc
      exact (State.attach_leave_ne _ _ hd).trans hat
  | @attach t g hattach =>
      refine h.of_frame rfl fun d => .keep rfl rfl (fun hat _ => ?_) id fun hcalm => hcalm
      have hd : d ≠ t := by
        rintro rfl
        rw [hattach] at hat
        cases hat
      exact (Function.update_of_ne hd ..).trans hat

omit [DecidableEq T] in
/-- Where all threads are where they may be, nobody waits for himself. -/
theorem Inv.noSelfDeadlock (h : Inv hasGil s) : NoSelfDeadlock hasGil s := by
  rintro t w ⟨⟨m, rest, hpc⟩ | ⟨rest, hpc⟩, -⟩
  · obtain ⟨-, hother, hdetached⟩ := hpc ▸ h t
    refine ⟨hother w, ?_⟩
    rintro ⟨-, hattached, -⟩
    rw [hdetached] at hattached
    cases hattached
  · obtain ⟨-, -, hmay⟩ := hpc ▸ h t
    obtain ⟨hother, hcalm⟩ := hmay (by simp)
    exact ⟨hother w, fun hstuck => (hcalm hstuck.1).2 w hstuck.2.2⟩

theorem inv_of_run (h : RunWith (next hasGil) (Careful hasGil) .init as s) : Inv hasGil s :=
  h.invariant .init fun _ _ _ hs hcareful hn => hs.next hcareful hn

/-- In a run whose steps are careful the end of the pool never deadlocks on itself. -/
theorem noSelfDeadlock_of_careful (h : RunWith (next hasGil) (Careful hasGil) .init as s) :
    ∀ u, Visits (next hasGil) .init as u → NoSelfDeadlock hasGil u := by
  intro u hu
  obtain ⟨pre, post, -, hpre, -⟩ := h.visits_split hu
  exact (inv_of_run hpre).noSelfDeadlock

section Traces

/-- The thread `other 0` attaches and submits a task, which the worker takes. -/
def submitTrace : List (Act 1 ℕ) :=
  [.resume (.other 0), .attach (.other 0), .invoke (.other 0) .submit, .step (.other 0),
    .step (.other 0), .step (.other 0), .step (.other 0), .step (.worker only)]

/-- The task calls `shutdown(wait=True)`. -/
def shutdownTrace : List (Act 1 ℕ) :=
  submitTrace ++ [.attach (.worker only), .invoke (.worker only) (.shutdown true false),
    .step (.worker only), .step (.worker only), .step (.worker only), .step (.worker only)]

/-- The task holds the last reference to the pool. -/
def dropTrace : List (Act 1 ℕ) :=
  submitTrace ++ [.attach (.worker only), .release (.worker only), .step (.worker only), .step (.worker only),
    .step (.worker only)]

/-- The last reference is released by a thread that is attached, while the worker has a task. -/
def gilTrace : List (Act 1 ℕ) :=
  submitTrace ++ [.release (.other 0), .step (.other 0), .step (.other 0), .step (.other 0)]

theorem shutdownTrace_exec : (exec (next false) (fun _ _ => True) .init shutdownTrace).map (fun s =>
    decide (s.pc (.worker 0) = .join (.shutdown true false) [0])) = some true := by
  decide +kernel

theorem dropTrace_exec : (exec (next false) (fun _ _ => True) .init dropTrace).map (fun s =>
    decide (s.pc (.worker 0) = .dropJoin [0])) = some true := by
  decide +kernel

theorem gilTrace_exec : (exec (next true) (fun _ _ => True) .init gilTrace).map (fun s =>
    decide (s.pc (.other 0) = .dropJoin [0] ∧ s.attach (.other 0) = .attached ∧
      s.pc (.worker 0) = .python)) = some true := by
  decide +kernel

/-- Without the care each of the three things happens: a worker joins itself in `shutdown`, a worker
joins itself in the drop, and the drop keeps the GIL from a worker with a task. -/
theorem not_always_noSelfDeadlock :
    (∃ s : State 1 ℕ, Run (next false) .init shutdownTrace s ∧ s.Joins (.worker 0) 0 ∧
      ¬ NoSelfDeadlock false s) ∧
    (∃ s : State 1 ℕ, Run (next false) .init dropTrace s ∧ s.Joins (.worker 0) 0 ∧
      ¬ NoSelfDeadlock false s) ∧
    ∃ s : State 1 ℕ, Run (next true) .init gilTrace s ∧ s.Joins (.other 0) 0 ∧
      ¬ NoSelfDeadlock true s := by
  refine ⟨?_, ?_, ?_⟩
  · obtain ⟨s, hs, hp⟩ := exists_runWith_of_exec shutdownTrace_exec
    have hpc := of_decide_eq_true hp
    have hjoins : s.Joins (.worker 0) 0 := ⟨.inl ⟨_, _, hpc⟩, by simp [hpc]⟩
    exact ⟨s, hs, hjoins, fun h => (h _ _ hjoins).1 rfl⟩
  · obtain ⟨s, hs, hp⟩ := exists_runWith_of_exec dropTrace_exec
    have hpc := of_decide_eq_true hp
    have hjoins : s.Joins (.worker 0) 0 := ⟨.inr ⟨_, hpc⟩, by simp [hpc]⟩
    exact ⟨s, hs, hjoins, fun h => (h _ _ hjoins).1 rfl⟩
  · obtain ⟨s, hs, hp⟩ := exists_runWith_of_exec gilTrace_exec
    obtain ⟨hpc, hattached, hworker⟩ := of_decide_eq_true hp
    have hjoins : s.Joins (.other 0) 0 := ⟨.inr ⟨_, hpc⟩, by simp [hworker]⟩
    exact ⟨s, hs, hjoins, fun h => (h _ _ hjoins).2
      ⟨rfl, hattached, by simp [State.HasTask, hworker]⟩⟩

/-- The thread `other 0` shuts the pool down and waits for the worker, which has its task in hand. -/
def carefulTrace : List (Act 1 ℕ) :=
  submitTrace ++ [.invoke (.other 0) (.shutdown true false), .step (.other 0), .step (.other 0),
    .step (.other 0), .step (.other 0), .attach (.worker only)]

theorem carefulTrace_exec : (exec (next true) (Careful true) .init carefulTrace).map (fun s =>
    decide (s.pc (.other 0) = .join (.shutdown true false) [0] ∧ s.pc (.worker 0) = .python)) =
      some true := by
  decide +kernel

theorem noSelfDeadlock_of_careful_carefulTrace :
    ∃ s : State 1 ℕ, RunWith (next true) (Careful true) .init carefulTrace s ∧
      s.Joins (.other 0) 0 ∧ NoSelfDeadlock true s := by
  obtain ⟨s, hs, hp⟩ := exists_runWith_of_exec carefulTrace_exec
  obtain ⟨hpc, hworker⟩ := of_decide_eq_true hp
  exact ⟨s, hs, ⟨.inl ⟨_, _, hpc⟩, by simp [hworker]⟩,
    noSelfDeadlock_of_careful hs s hs.visits_self⟩

end Traces

end Pysync.Teardown
