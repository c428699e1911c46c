import Pysync.PoolRuns

/-!
When the futures of the pool honour `cancel()`: no worker tells a future that its callable runs, nor
looks whether it has been cancelled, so that the client has to be early and the pool has to decline
the task for another reason.
-/

namespace Pysync.Pool
open Queue Transition

variable {n : ℕ} {C E V : Type} [DecidableEq C]
variable {s t : State n C E V} {a : Act n C E V} {c d : C} {w v : Fin n}
variable {as : List (Act n C E V)} {P : State n C E V → Act n C E V → Prop}

/-- Every `cancel()` that returned `True` is of a future whose callable has not been begun, then or
since. -/
def Honoured (as : List (Act n C E V)) (s : State n C E V) : Prop :=
  ∀ pre c post u, as = pre ++ .clientCancel c :: post → Run next State.init pre u →
    (u.future c).cancel.2 = true → s.events c = []

/-- No client cancels the pending future of a callable that has been begun, and no worker that may
run tasks is about to begin the callable of a cancelled future. -/
def CancelsInTime (s : State n C E V) : Act n C E V → Prop
  | .clientCancel c => s.future c = .pending → s.events c = []
  | .work w => ∀ c, s.worker w = .got c → s.cancelPending = false → s.future c ≠ .cancelled
  | _ => True

/-- The callable of a cancelled future has not been begun. -/
def CancelledUnbegun (s : State n C E V) : Prop := ∀ c, s.future c = .cancelled → s.events c = []

theorem cancel_eq_cancelled (f : Future E V) :
    f.cancel.1 = .cancelled ↔ f = .pending ∨ f = .cancelled := by
  cases f <;> simp [Future.cancel]

theorem cancel_true (f : Future E V) : f.cancel.2 = true ↔ f = .pending ∨ f = .cancelled := by
  cases f <;> simp [Future.cancel]

theorem getD_complete_cancelled (f : Future E V) (o : Except E V) :
    (f.complete o).getD f = .cancelled ↔ f = .cancelled := by
  cases f <;> cases o <;> simp [Future.complete]

/-- A cancelled future stays cancelled, and what has been begun stays begun. -/
theorem cancelled_stays (hn : next s a = some t) :
    (s.future c = .cancelled → t.future c = .cancelled) ∧ (t.events c = [] → s.events c = []) := by
  have hset : ∀ {d : C} {x : Future E V}, (s.future d = .cancelled → x = .cancelled) →
      s.future c = .cancelled → Function.update s.future d x c = .cancelled := by
    intro d x hx hc
    by_cases hcd : c = d
    · subst hcd
      rw [Function.update_self]
      exact hx hc
    · rwa [Function.update_of_ne hcd]
  have hlog : ∀ {d : C} {e : Event E V},
      Function.update s.events d (s.events d ++ [e]) c = [] → s.events c = [] := by
    intro d e hc
    by_cases hcd : c = d
    · subst hcd
      simp at hc
    · rwa [Function.update_of_ne hcd] at hc
  rcases next_or_cancel hn with hstep | ⟨d, rfl, rfl⟩
  · cases hstep with
    | start => exact ⟨id, hlog⟩
    | finish => exact ⟨id, hlog⟩
    | panic => exact ⟨id, hlog⟩
    | cancel => exact ⟨hset fun h => (cancel_eq_cancelled _).mpr (.inr h), id⟩
    | complete => exact ⟨hset (getD_complete_cancelled _ _).mpr, id⟩
    | _ => exact ⟨id, id⟩
  · exact ⟨hset fun h => (cancel_eq_cancelled _).mpr (.inr h), id⟩

theorem CancelledUnbegun.lost (hn : next s a = some t) (h : CancelledUnbegun t) :
    CancelledUnbegun s := fun c hc =>
  (cancelled_stays hn).2 (h c ((cancelled_stays hn).1 hc))

omit [DecidableEq C] in
/-- A step that changes neither futures nor callables for the worse. -/
theorem CancelledUnbegun.aside (h : CancelledUnbegun s) (hevents : t.events = s.events)
    (hfuture : ∀ c, t.future c = .cancelled → s.future c = .cancelled ∨ s.events c = []) :
    CancelledUnbegun t := by
  intro c hc
  rw [hevents]
  exact (hfuture c hc).elim (h c) id

/-- A step in the callable of a future that has not been cancelled. -/
theorem CancelledUnbegun.begin {es : List (Event E V)} {u : State n C E V} (h : CancelledUnbegun s)
    (hc : s.future c ≠ .cancelled) (hevents : u.events = Function.update s.events c es)
    (hfuture : u.future = s.future) : CancelledUnbegun u := by
  intro d hd
  rw [hfuture] at hd
  have hdc : d ≠ c := by
    rintro rfl
    exact hc hd
  rw [hevents, Function.update_of_ne hdc]
  exact h d hd

theorem invoke_tasks {m : Method} (h : invoke s c m = some t) :
    t.events = s.events ∧ t.future = s.future := by
  unfold invoke at h
  split at h
  · cases h
  · split at h <;> split at h <;> cases h <;> exact ⟨rfl, rfl⟩

theorem dropStep_tasks (h : dropStep s = some t) :
    t.events = s.events ∧ t.future = s.future := by
  unfold dropStep at h
  split at h
  · split at h <;> cases h
    exact ⟨rfl, rfl⟩
  · cases h
    exact ⟨rfl, rfl⟩
  · cases h
    exact ⟨rfl, rfl⟩
  · split at h <;> cases h
    exact ⟨rfl, rfl⟩
  · cases h

/-- A step of a call leaves the tasks to the workers. -/
theorem step_tasks (hn : next s (.step c) = some t) :
    t.events = s.events ∧ t.future = s.future := by
  unfold next at hn
  dsimp only at hn
  split at hn
  · unfold submitStep at hn
    split at hn
    · cases hn
      exact ⟨rfl, rfl⟩
    · cases hn
      exact ⟨rfl, rfl⟩
    · split at hn
      · cases hn
        exact ⟨rfl, rfl⟩
      · obtain ⟨q, -, rfl⟩ := Option.map_eq_some_iff.mp hn
        exact ⟨rfl, rfl⟩
    · cases hn
      exact ⟨rfl, rfl⟩
    · cases hn
  · unfold shutdownStep at hn
    split at hn
    · split at hn <;> cases hn <;> exact ⟨rfl, rfl⟩
    · cases hn
      exact ⟨rfl, rfl⟩
    · cases hn
      exact ⟨rfl, rfl⟩
    · split at hn <;> cases hn
      exact ⟨rfl, rfl⟩
    · cases hn
      exact ⟨rfl, rfl⟩
    · cases hn
  · cases hn

/-- A client's cancel in time leaves the callables of cancelled futures unbegun. -/
theorem cancelledUnbegun_cancel (h : CancelledUnbegun s) :
    CancelsInTime s (.clientCancel c) ↔
      CancelledUnbegun (s.setFuture c (s.future c).cancel.1) := by
  constructor
  · intro htime d hd
    show s.events d = []
    by_cases hdc : d = c
    · subst hdc
      replace hd : Function.update s.future d (s.future d).cancel.1 d = .cancelled := hd
      rw [Function.update_self, cancel_eq_cancelled] at hd
      exact hd.elim htime (h d)
    · exact h d ((Function.update_of_ne hdc _ _).symm.trans hd)
  · intro ht hpending
    refine ht c ?_
    show Function.update s.future c _ c = _
    rw [Function.update_self, cancel_eq_cancelled]
    exact .inl hpending

/-- A worker cancels no future of a callable that has been begun. -/
theorem CancelledUnbegun.decline {pc : WorkerPc C E V} (h : CancelledUnbegun s) (ho : Orderly s)
    (hw : s.worker w = .cancel c) :
    CancelledUnbegun ((s.setFuture c (s.future c).cancel.1).setWorker w pc) := by
  refine h.aside rfl fun d hd => ?_
  by_cases hdc : d = c
  · exact .inr (ho.unbegun w d (.inr (hdc ▸ hw)))
  · exact .inl ((Function.update_of_ne hdc _ _).symm.trans hd)

theorem CancelledUnbegun.complete {pc : WorkerPc C E V} {o : Except E V} (h : CancelledUnbegun s) :
    CancelledUnbegun
      ((s.setFuture c (((s.future c).complete o).getD (s.future c))).setWorker w pc) := by
  refine h.aside rfl fun d hd => .inl ?_
  by_cases hdc : d = c
  · subst hdc
    replace hd : Function.update s.future d (((s.future d).complete o).getD (s.future d)) d =
      .cancelled := hd
    rwa [Function.update_self, getD_complete_cancelled] at hd
  · exact (Function.update_of_ne hdc _ _).symm.trans hd

/-- A worker that begins a callable whose future has been cancelled meanwhile is what is not in time. -/
theorem cancelledUnbegun_work {w : Fin n} (ho : Orderly s) (h : CancelledUnbegun s)
    (hn : workStep s w (s.worker w) = some t) : CancelsInTime s (.work w) ↔ CancelledUnbegun t := by
  -- a worker that holds no task to begin
  have hidle : (∀ c, s.worker w ≠ .got c) → CancelsInTime s (.work w) := fun hgot c hc =>
    (hgot c hc).elim
  generalize hw : s.worker w = pc at hn
  unfold workStep at hn
  split at hn
  · refine ⟨fun _ => ?_, fun _ => hidle (by simp [hw])⟩
    split at hn
    · cases hn
      exact h.aside rfl fun _ => .inl
    · split at hn <;> cases hn
      exact h.aside rfl fun _ => .inl
  · rename_i c
    split at hn
    · rename_i hcancel
      cases hn
      refine ⟨fun _ => h.aside rfl fun _ => .inl, fun _ d _ hflag => ?_⟩
      rw [hcancel] at hflag
      cases hflag
    · rename_i hcancel
      cases hn
      constructor
      · intro htime
        exact h.begin (fun hc => htime c hw (by simpa using hcancel) hc) rfl rfl
      · intro ht d hd _ hcancelled
        obtain rfl : c = d := by
          rw [hw] at hd
          cases hd
          rfl
        have hbegun := ht c hcancelled
        replace hbegun : Function.update s.events c (s.events c ++ [.started]) c = [] := hbegun
        simp at hbegun
  · cases hn
    exact ⟨fun _ => h.decline ho hw, fun _ => hidle (by simp [hw])⟩
  · cases hn
    exact ⟨fun _ => h.complete, fun _ => hidle (by simp [hw])⟩
  · cases hn
  · cases hn
  · cases hn

theorem CancelledUnbegun.panic {pc : WorkerPc C E V} (h : CancelledUnbegun s) (ho : Orderly s)
    (hw : s.worker w = pc) (hn : panicStep s w pc = some t) : CancelledUnbegun t := by
  unfold panicStep at hn
  split at hn
  · rename_i c
    cases hn
    exact h.begin (fun hc => ho.begun w c hw (h c hc)) rfl rfl
  · split at hn <;> cases hn
    exact h.decline ho hw
  · split at hn <;> cases hn
    exact h.complete
  · cases hn
  · cases hn
  · cases hn
  · cases hn

/-- A step leaves the callables of cancelled futures unbegun if and only if it is in time. -/
theorem cancelledUnbegun_next (ho : Orderly s) (h : CancelledUnbegun s)
    (hn : next s a = some t) : CancelsInTime s a ↔ CancelledUnbegun t := by
  cases a with
  | clientCancel c =>
      cases hn
      exact cancelledUnbegun_cancel h
  | work w => exact cancelledUnbegun_work ho h hn
  | finish w o =>
      refine ⟨fun _ => ?_, fun _ => trivial⟩
      unfold next at hn
      dsimp only at hn
      split at hn
      · rename_i c hw
        cases hn
        exact h.begin (fun hc => ho.begun w c hw (h c hc)) rfl rfl
      · cases hn
  | panic w => exact ⟨fun _ => h.panic ho rfl hn, fun _ => trivial⟩
  | invoke c m =>
      obtain ⟨hevents, hfuture⟩ := invoke_tasks hn
      exact ⟨fun _ => h.aside hevents fun d hd => .inl (hfuture ▸ hd), fun _ => trivial⟩
  | step c =>
      obtain ⟨hevents, hfuture⟩ := step_tasks hn
      exact ⟨fun _ => h.aside hevents fun d hd => .inl (hfuture ▸ hd), fun _ => trivial⟩
  | drop =>
      obtain ⟨hevents, hfuture⟩ := dropStep_tasks hn
      exact ⟨fun _ => h.aside hevents fun d hd => .inl (hfuture ▸ hd), fun _ => trivial⟩

theorem cancelledUnbegun_iff (hrun : Run next State.init as s) :
    CancelledUnbegun s ↔ RunWith next CancelsInTime State.init as s := by
  have hinit : CancelledUnbegun (State.init : State n C E V) := fun _ _ => rfl
  have hiff := last_iff_runWith (P := CancelsInTime) hinit
    (fun as s a t hr hs _ hn => cancelledUnbegun_next (Orderly.run hr) hs hn)
    (fun as s a t _ _ hn ht => ht.lost hn) hrun
  exact hiff.trans ⟨fun h => h.mono fun _ _ h => h.2, fun h => h.mono fun _ _ h => ⟨trivial, h⟩⟩

theorem cancelled_run (h : RunWith next P s as t) (hc : s.future c = .cancelled) :
    t.future c = .cancelled := by
  induction h with
  | nil => exact hc
  | snoc _ _ hn ih => exact (cancelled_stays hn).1 ih

/-- A worker has cancelled the future of `c` without beginning the callable. -/
structure Declined (s : State n C E V) (c : C) : Prop where
  events : s.events c = []
  taken : c ∈ s.queue.delivered.map Prod.snd
  notHeld : ∀ w, (s.worker w).task ≠ some c

/-- What has been declined is not begun. -/
theorem Declined.next (h : Declined s c) (ho : Orderly s) (hn : next s a = some t) :
    Declined t c := by
  have hset : ∀ {w pc}, pc.task ≠ some c → ∀ v,
      (Function.update s.worker w pc v).task ≠ some c := by
    intro w pc hpc v
    by_cases hvw : v = w
    · subst hvw
      rwa [Function.update_self]
    · rw [Function.update_of_ne hvw]
      exact h.notHeld v
  have hother : ∀ {w : Fin n} {d : C}, (s.worker w).task = some d → d ≠ c := by
    rintro w d hw rfl
    exact h.notHeld w hw
  rcases next_or_cancel hn with hstep | ⟨d, rfl, rfl⟩
  · cases hstep with
    | accept hc hlive hpush =>
        refine ⟨h.events, ?_, h.notHeld⟩
        show c ∈ List.map Prod.snd _
        rw [State.setCall, (Fifo.push_eq_some.mp hpush).2.2.2.2]
        exact h.taken
    | take hw hpop =>
        rename_i w d q
        obtain ⟨-, hqueue, -, hdel⟩ := Fifo.pop_eq_some.mp hpop
        have hdc : d ≠ c := by
          rintro rfl
          have hnodup := ho.sentOnce.nodup
          rw [s.queue.conserved, hqueue] at hnodup
          exact (List.nodup_append.mp hnodup).2.2 d h.taken d List.mem_cons_self rfl
        refine ⟨h.events, ?_, hset (by simpa [WorkerPc.task] using hdc)⟩
        show c ∈ q.delivered.map Prod.snd
        rw [hdel, List.map_append]
        exact List.mem_append_left _ h.taken
    | exit => exact ⟨h.events, h.taken, hset (by simp [WorkerPc.task])⟩
    | decline hw =>
        have hdc := hother (by rw [hw]; rfl)
        exact ⟨h.events, h.taken, hset (by simpa [WorkerPc.task] using hdc)⟩
    | start hw =>
        have hdc := hother (by rw [hw]; rfl)
        exact ⟨(Function.update_of_ne hdc.symm _ _).trans h.events, h.taken,
          hset (by simpa [WorkerPc.task] using hdc)⟩
    | cancel hw hpc => exact ⟨h.events, h.taken, hset (by rw [task_eq_none hpc]; simp)⟩
    | finish hw =>
        have hdc := hother (by rw [hw]; rfl)
        exact ⟨(Function.update_of_ne hdc.symm _ _).trans h.events, h.taken,
          hset (by simpa [WorkerPc.task] using hdc)⟩
    | panic ha hw =>
        have hdc := hother (by rw [hw]; rfl)
        exact ⟨(Function.update_of_ne hdc.symm _ _).trans h.events, h.taken,
          hset (by simp [WorkerPc.task])⟩
    | complete hw hpc => exact ⟨h.events, h.taken, hset (by rw [task_eq_none hpc]; simp)⟩
    | _ => exact ⟨h.events, h.taken, h.notHeld⟩
  · exact ⟨h.events, h.taken, h.notHeld⟩

theorem Orderly.declined {pc : WorkerPc C E V} (h : Orderly s) (hw : s.worker w = .cancel c)
    (hpc : pc.task = none) {f : Future E V} : Declined ((s.setFuture c f).setWorker w pc) c where
  events := h.unbegun w c (.inr hw)
  taken := List.mem_map.mpr ⟨(w, c), h.held w c (by rw [hw]; rfl), rfl⟩
  notHeld v := by
    show (Function.update s.worker w pc v).task ≠ some c
    by_cases hvw : v = w
    · subst hvw
      rw [Function.update_self, hpc]
      simp
    · rw [Function.update_of_ne hvw]
      exact fun hv => hvw (h.sentOnce.unique (h.held v c hv) (h.held w c (by rw [hw]; rfl)))

/-- In the run a client's `cancel()` of the future of `c` has returned `True`. -/
def ClientCancelled (as : List (Act n C E V)) (c : C) : Prop :=
  ∃ pre post u, as = pre ++ .clientCancel c :: post ∧ Run next State.init pre u ∧
    (u.future c).cancel.2 = true

theorem ClientCancelled.snoc (h : ClientCancelled as c) (a : Act n C E V) :
    ClientCancelled (as ++ [a]) c := by
  obtain ⟨pre, post, u, rfl, hu, hcancel⟩ := h
  exact ⟨pre, post ++ [a], u, by simp, hu, hcancel⟩

/-- A future is cancelled by a client, or by a worker that declines the task. -/
theorem cancelled_origin (hrun : Run next State.init as s) (hc : s.future c = .cancelled) :
    ClientCancelled as c ∨ Declined s c := by
  induction hrun generalizing c with
  | nil => cases hc
  | @snoc as s a t hr _ hn ih =>
      have hold : s.future c = .cancelled → ClientCancelled (as ++ [a]) c ∨ Declined t c :=
        fun hs => (ih hs).imp (·.snoc a) (·.next (Orderly.run hr) hn)
      rcases next_or_cancel hn with hstep | ⟨d, rfl, rfl⟩
      · cases hstep with
        | cancel hw hpc =>
            rename_i w d pc
            by_cases hcd : c = d
            · subst hcd
              exact .inr ((Orderly.run hr).declined hw (task_eq_none hpc))
            · exact hold ((Function.update_of_ne hcd _ _).symm.trans hc)
        | complete hw =>
            rename_i w d o pc hpc
            by_cases hcd : c = d
            · subst hcd
              replace hc : Function.update s.future c (((s.future c).complete o).getD (s.future c)) c
                = .cancelled := hc
              rw [Function.update_self, getD_complete_cancelled] at hc
              exact hold hc
            · exact hold ((Function.update_of_ne hcd _ _).symm.trans hc)
        | _ => exact hold hc
      · by_cases hcd : c = d
        · subst hcd
          replace hc : Function.update s.future c (s.future c).cancel.1 c = .cancelled := hc
          rw [Function.update_self, cancel_eq_cancelled] at hc
          exact .inl ⟨as, [], s, rfl, hr, (cancel_true _).mpr hc⟩
        · exact hold ((Function.update_of_ne hcd _ _).symm.trans hc)

/-- The promise about the `cancel()` calls of a run is about the futures at its end. -/
theorem honoured_iff_cancelledUnbegun (hrun : Run next State.init as s) :
    Honoured as s ↔ CancelledUnbegun s := by
  constructor
  · intro h c hc
    rcases cancelled_origin hrun hc with ⟨pre, post, u, rfl, hu, hcancel⟩ | hdeclined
    · exact h pre c post u rfl hu hcancel
    · exact hdeclined.events
  · rintro h pre c post u rfl hu hcancel
    obtain ⟨u', hu', hrest⟩ := hrun.split
    obtain rfl := hu'.unique hu
    have hfirst : Run next u' ([.clientCancel c] ++ post) s := hrest
    obtain ⟨v, hv, hpost⟩ := hfirst.split
    obtain rfl := hv.unique (RunWith.single (P := fun _ _ => True) trivial rfl)
    refine h c (cancelled_run hpost ?_)
    show Function.update u'.future c (u'.future c).cancel.1 c = .cancelled
    rw [Function.update_self, cancel_eq_cancelled]
    exact (cancel_true _).mp hcancel

/-- Under any calls of `submit`, `shutdown` and `cancel()` and any interleaving with the workers: the
callable of a future whose `cancel()` returned `True` has not been begun, before or after, if and
only if clients and workers are in time. -/
theorem honoured_iff (as : List (Act n C E V)) (s : State n C E V)
    (hrun : Run next State.init as s) :
    Honoured as s ↔ RunWith next CancelsInTime State.init as s :=
  (honoured_iff_cancelledUnbegun hrun).trans (cancelledUnbegun_iff hrun)

/-- A client cancels the future of a queued task, which a worker then runs. -/
def ignoredTrace : List (Act 1 ℕ Unit ℕ) :=
  [.invoke 0 .submit, .step 0, .step 0, .step 0, .step 0, .clientCancel 0, .work only, .work only]

theorem ignoredTrace_exec :
    (exec next (fun _ _ => True) State.init ignoredTrace).map (fun s => decide
      (s.events 0 = [.started])) = some true := by
  decide +kernel

theorem honoured_iff_ignoredTrace :
    ∃ s : State 1 ℕ Unit ℕ, Run next State.init ignoredTrace s ∧
      (Honoured ignoredTrace s ↔ RunWith next CancelsInTime State.init ignoredTrace s) := by
  obtain ⟨s, hrun, -⟩ := exists_runWith_of_exec ignoredTrace_exec
  exact ⟨s, hrun, honoured_iff ignoredTrace s hrun⟩

theorem ignoredTrace_cancel :
    (exec next (fun _ _ => True) (State.init : State 1 ℕ Unit ℕ) (ignoredTrace.take 5)).map
      (fun s => decide (s.future 0 = .pending)) = some true := by
  decide +kernel

/-- The callable of a cancelled future is run. -/
theorem not_always_honoured :
    ¬ ∀ (n : ℕ) (C E V : Type) [DecidableEq C] [DecidableEq E] [DecidableEq V]
      (as : List (Act n C E V)) (s : State n C E V), Run next State.init as s → Honoured as s := by
  intro h
  obtain ⟨s, hrun, hs⟩ := exists_runWith_of_exec ignoredTrace_exec
  obtain ⟨u, hu, hpending⟩ := exists_runWith_of_exec ignoredTrace_cancel
  have hevents := h 1 ℕ Unit ℕ _ s hrun (ignoredTrace.take 5) 0 (ignoredTrace.drop 6) u rfl hu
    (by rw [of_decide_eq_true hpending]; rfl)
  rw [of_decide_eq_true hs] at hevents
  cases hevents

end Pysync.Pool
