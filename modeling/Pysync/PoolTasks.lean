import Pysync.PoolModel

/-!
Which tasks are lost, and that none is repeated. Every accepted task is queued, in the hands of one
worker, finished, or lost to a panic of its callable, and each step of the pool keeps it so; the
borrows of the pool keep the sender alive while a `submit` uses it.
-/

namespace Pysync.Pool
open Queue Transition

variable {n : ℕ} {C E V : Type} [DecidableEq C]
variable {s t : State n C E V} {a : Act n C E V} {c d : C} {w v : Fin n}

/-- What one step of the pool can do. -/
inductive PoolStep (s : State n C E V) (a : Act n C E V) : State n C E V → Prop
  | refused {c : C} {m : Method} {e : PyErr} (hc : s.calls c = .idle) :
      PoolStep s a (s.setCall c (.done m (.error e)))
  | submit {c : C} (hc : s.calls c = .idle) (halive : s.drop = .alive)
      (hexclusive : s.exclusive = none) :
      PoolStep s a (State.setCall { s with shared := insert c s.shared } c (.run .submit .active))
  | shutdown {c : C} {wait cancel : Bool} (hc : s.calls c = .idle) (halive : s.drop = .alive)
      (hexclusive : s.exclusive = none) (hshared : s.shared = ∅) :
      PoolStep s a (State.setCall { s with exclusive := some c } c
        (.run (.shutdown wait cancel) .active))
  | submitGoto {c : C} {pc pc' : Pc} (hc : s.calls c = .run .submit pc)
      (hpc : ∀ r, pc ≠ .ret r) (hpc' : pc' = .sender ∨ (pc' = .send ∧ s.sender = true) ∨
        ∃ e, pc' = .ret (.error e)) :
      PoolStep s a (s.setCall c (.run .submit pc'))
  | accept {c : C} {q : Fifo Unit (Fin n) C} (hc : s.calls c = .run .submit .send)
      (hlive : ¬ s.allExited) (hpush : s.queue.push () c = some q) :
      PoolStep s a (State.setCall { s with queue := q } c (.run .submit (.ret (.ok ()))))
  | submitRet {c : C} {r : PyResult Unit} (hc : s.calls c = .run .submit (.ret r)) :
      PoolStep s a (State.setCall { s with shared := s.shared.erase c } c (.done .submit r))
  | shutdownGoto {c : C} {wait cancel active cancelPending workers : Bool} {pc pc' : Pc}
      (hc : s.calls c = .run (.shutdown wait cancel) pc)
      (hcancel : s.cancelPending = true → cancelPending = true)
      (hasked : cancelPending = true → s.cancelPending = true ∨ cancel = true)
      (hret : ∀ r, pc' = .ret r → r = .ok ()) :
      PoolStep s a (State.setCall
        { s with active := active, cancelPending := cancelPending, workers := workers } c
        (.run (.shutdown wait cancel) pc'))
  | dropSender {c : C} {wait cancel : Bool} {pc : Pc}
      (hc : s.calls c = .run (.shutdown wait cancel) pc) :
      PoolStep s a (State.setCall { s with sender := false } c (.run (.shutdown wait cancel) .join))
  | shutdownRet {c : C} {wait cancel : Bool} {r : PyResult Unit}
      (hc : s.calls c = .run (.shutdown wait cancel) (.ret r)) :
      PoolStep s a (State.setCall { s with exclusive := none } c (.done (.shutdown wait cancel) r))
  | take {w : Fin n} {c : C} {q : Fifo Unit (Fin n) C} (hw : s.worker w = .recv)
      (hpop : s.queue.pop w = some (c, q)) :
      PoolStep s a (State.setWorker { s with queue := q } w (.got c))
  | exit {w : Fin n} (hw : s.worker w = .recv) (hqueue : s.queue.queue = [])
      (hsender : s.sender = false) : PoolStep s a (s.setWorker w .exited)
  | decline {w : Fin n} {c : C} (hw : s.worker w = .got c) (hcancel : s.cancelPending = true) :
      PoolStep s a (s.setWorker w (.cancel c))
  | start {w : Fin n} {c : C} (hw : s.worker w = .got c) (hcancel : s.cancelPending = false) :
      PoolStep s a ((s.log c .started).setWorker w (.run c))
  | cancel {w : Fin n} {c : C} {pc : WorkerPc C E V} (hw : s.worker w = .cancel c)
      (hpc : pc = .recv ∨ a = .panic w ∧ pc = .panicked ∧ (s.future c).done = false) :
      PoolStep s a ((s.setFuture c (s.future c).cancel.1).setWorker w pc)
  | finish {w : Fin n} {c : C} {o : Except E V} (hw : s.worker w = .run c) :
      PoolStep s a ((s.log c (.returned o)).setWorker w (.complete c o))
  | panic {w : Fin n} {c : C} (ha : a = .panic w) (hw : s.worker w = .run c) :
      PoolStep s a ((s.log c .panicked).setWorker w .panicked)
  | complete {w : Fin n} {c : C} {o : Except E V} {pc : WorkerPc C E V}
      (hw : s.worker w = .complete c o)
      (hpc : pc = .recv ∨ a = .panic w ∧ pc = .panicked ∧ (s.future c).done = false) :
      PoolStep s a
        ((s.setFuture c (((s.future c).complete o).getD (s.future c))).setWorker w pc)
  | drop {active sender workers : Bool} {pc : DropPc} (hpc : pc ≠ .alive)
      (hdrop : s.drop = .alive → s.shared = ∅ ∧ s.exclusive = none)
      (hsender : sender = false ∨ sender = s.sender) :
      PoolStep s a { s with active := active, sender := sender, workers := workers, drop := pc }

omit [DecidableEq C] in
/-- A worker that is done with its task, or that a done callback has killed, holds none. -/
theorem task_eq_none {pc : WorkerPc C E V} {p : Prop}
    (hpc : pc = .recv ∨ a = .panic w ∧ pc = .panicked ∧ p) : pc.task = none := by
  rcases hpc with rfl | ⟨-, rfl, -⟩ <;> rfl

theorem submitStep_cases {pc : Pc} (hc : s.calls c = .run .submit pc)
    (h : submitStep s c pc = some t) : PoolStep s a t := by
  unfold submitStep at h
  split at h
  · cases h
    refine .submitGoto hc (by simp) ?_
    split
    · exact .inl rfl
    · exact .inr (.inr ⟨_, rfl⟩)
  · cases h
    refine .submitGoto hc (by simp) ?_
    split
    · rename_i hsender
      exact .inr (.inl ⟨rfl, hsender⟩)
    · exact .inr (.inr ⟨_, rfl⟩)
  · split at h
    · cases h
      exact .submitGoto hc (by simp) (.inr (.inr ⟨_, rfl⟩))
    · rename_i hlive
      obtain ⟨q, hq, rfl⟩ := Option.map_eq_some_iff.mp h
      exact .accept hc hlive hq
  · cases h
    exact .submitRet hc
  · cases h

theorem shutdownStep_cases {wait cancel : Bool} {pc : Pc}
    (hc : s.calls c = .run (.shutdown wait cancel) pc)
    (h : shutdownStep s c wait cancel pc = some t) : PoolStep s a t := by
  unfold shutdownStep at h
  split at h
  · split at h
    · cases h
      exact .shutdownGoto hc id .inl (by simp)
    · cases h
      exact .shutdownGoto hc id .inl (by simp)
  · cases h
    refine .shutdownGoto hc (fun hp => by rw [hp, Bool.true_or]) (fun hp => ?_) (by simp)
    simpa using hp
  · cases h
    exact .dropSender hc
  · split at h
    · cases h
    · cases h
      exact .shutdownGoto hc id .inl (by simp)
  · cases h
    exact .shutdownRet hc
  · cases h

theorem workStep_cases {pc : WorkerPc C E V} (hw : s.worker w = pc)
    (h : workStep s w pc = some t) : PoolStep s a t := by
  unfold workStep at h
  split at h
  · split at h
    · rename_i hpop
      cases h
      exact .take hw hpop
    · rename_i hpop
      split at h
      · cases h
      · rename_i hsender
        cases h
        exact .exit hw (Fifo.pop_eq_none.mp hpop) (by simpa using hsender)
  · split at h
    · rename_i hcancel
      cases h
      exact .decline hw hcancel
    · rename_i hcancel
      cases h
      exact .start hw (by simpa using hcancel)
  · cases h
    exact .cancel hw (.inl rfl)
  · cases h
    exact .complete hw (.inl rfl)
  · cases h
  · cases h
  · cases h

theorem panicStep_cases {pc : WorkerPc C E V} (hw : s.worker w = pc)
    (h : panicStep s w pc = some t) : PoolStep s (.panic w) t := by
  unfold panicStep at h
  split at h
  · cases h
    exact .panic rfl hw
  · split at h
    · cases h
    · rename_i hdone
      cases h
      exact .cancel hw (.inr ⟨rfl, rfl, by simpa using hdone⟩)
  · split at h
    · cases h
    · rename_i hdone
      cases h
      exact .complete hw (.inr ⟨rfl, rfl, by simpa using hdone⟩)
  · cases h
  · cases h
  · cases h
  · cases h

theorem dropStep_cases (h : dropStep s = some t) : PoolStep s a t := by
  unfold dropStep at h
  split at h
  · split at h
    · rename_i hfree
      cases h
      exact .drop (by simp) (fun _ => hfree) (.inr rfl)
    · cases h
  · rename_i hpc
    cases h
    exact .drop (by simp) (fun halive => by simp [hpc] at halive) (.inr rfl)
  · rename_i hpc
    cases h
    exact .drop (by simp) (fun halive => by simp [hpc] at halive) (.inl rfl)
  · rename_i hpc
    split at h
    · cases h
    · cases h
      exact .drop (by simp) (fun halive => by simp [hpc] at halive) (.inr rfl)
  · cases h

/-- Clients leave the futures alone. -/
def NoClientCancel : Act n C E V → Prop
  | .clientCancel _ => False
  | _ => True

theorem next_cases (ha : NoClientCancel a) (hn : next s a = some t) : PoolStep s a t := by
  cases a with
  | invoke c m =>
      replace hn : invoke s c m = some t := hn
      unfold invoke at hn
      split at hn
      · cases hn
      rename_i hidle
      rw [not_or, not_not, not_not] at hidle
      split at hn
      · split at hn
        · cases hn
          exact .refused hidle.1
        · rename_i hfree
          cases hn
          exact .submit hidle.1 hidle.2 (by simpa using hfree)
      · split at hn
        · cases hn
          exact .refused hidle.1
        · rename_i hfree
          rw [not_or, not_not] at hfree
          cases hn
          exact .shutdown hidle.1 hidle.2 (by simpa using hfree.1) hfree.2
  | step c =>
      unfold next at hn
      dsimp only at hn
      split at hn
      · rename_i hc
        exact submitStep_cases hc hn
      · rename_i hc
        exact shutdownStep_cases hc hn
      · cases hn
  | work w => exact workStep_cases rfl hn
  | finish w o =>
      unfold next at hn
      dsimp only at hn
      split at hn
      · rename_i hw
        cases hn
        exact .finish hw
      · cases hn
  | panic w => exact panicStep_cases rfl hn
  | drop => exact dropStep_cases hn
  | clientCancel c => exact ha.elim

/-- The borrows: a `submit` in progress shares the pool, a `shutdown` in progress owns it, and so does
the drop; a `submit` that has seen the sender can rely on it. -/
structure Borrowed (s : State n C E V) : Prop where
  submit : ∀ c pc, s.calls c = .run .submit pc → c ∈ s.shared
  shutdown : ∀ c wait cancel pc, s.calls c = .run (.shutdown wait cancel) pc →
    s.exclusive = some c
  exclusive : ∀ c, s.exclusive = some c → s.shared = ∅
  drop : s.drop ≠ .alive → s.shared = ∅ ∧ s.exclusive = none
  send : ∀ c, s.calls c = .run .submit .send → s.sender = true

omit [DecidableEq C] in
theorem borrowed_init : Borrowed (State.init : State n C E V) := by
  refine ⟨fun _ _ h => ?_, fun _ _ _ _ h => ?_, fun _ h => ?_, fun h => ?_, fun _ h => ?_⟩
  · cases h
  · cases h
  · cases h
  · exact (h rfl).elim
  · cases h

theorem calls_setCall_self (s : State n C E V) (c : C) (k : Call) : (s.setCall c k).calls c = k :=
  Function.update_self _ _ _

theorem calls_setCall_ne (s : State n C E V) (k : Call) (h : d ≠ c) :
    (s.setCall c k).calls d = s.calls d := Function.update_of_ne h _ _

/-- A call that goes on and does not touch the borrows keeps them in order. -/
theorem Borrowed.setCall (h : Borrowed s) {m : Method} {pc pc' : Pc} (hc : s.calls c = .run m pc)
    (hsend : m = .submit → pc' = .send → s.sender = true) :
    Borrowed (s.setCall c (.run m pc')) := by
  refine ⟨fun d pc₀ hd => ?_, fun d wait cancel pc₀ hd => ?_, h.exclusive, h.drop, fun d hd => ?_⟩
  · by_cases hdc : d = c
    · subst hdc
      rw [calls_setCall_self] at hd
      cases hd
      exact h.submit d pc hc
    · rw [calls_setCall_ne _ _ hdc] at hd
      exact h.submit d pc₀ hd
  · by_cases hdc : d = c
    · subst hdc
      rw [calls_setCall_self] at hd
      cases hd
      exact h.shutdown d wait cancel pc hc
    · rw [calls_setCall_ne _ _ hdc] at hd
      exact h.shutdown d wait cancel pc₀ hd
  · by_cases hdc : d = c
    · subst hdc
      rw [calls_setCall_self] at hd
      cases hd
      exact hsend rfl rfl
    · rw [calls_setCall_ne _ _ hdc] at hd
      exact h.send d hd

omit [DecidableEq C] in
/-- The borrows do not depend on the tasks. -/
theorem Borrowed.congr (h : Borrowed s) (hcalls : t.calls = s.calls) (hshared : t.shared = s.shared)
    (hexclusive : t.exclusive = s.exclusive) (hdrop : t.drop = s.drop)
    (hsender : t.sender = s.sender) : Borrowed t := by
  refine ⟨?_, ?_, ?_, ?_, ?_⟩
  · rw [hcalls, hshared]
    exact h.submit
  · rw [hcalls, hexclusive]
    exact h.shutdown
  · rw [hexclusive, hshared]
    exact h.exclusive
  · rw [hdrop, hshared, hexclusive]
    exact h.drop
  · rw [hcalls, hsender]
    exact h.send

theorem Borrowed.submitBegin (h : Borrowed s) (halive : s.drop = .alive)
    (hexclusive : s.exclusive = none) :
    Borrowed (State.setCall { s with shared := insert c s.shared } c (.run .submit .active)) where
  submit d pc hd := by
    by_cases hdc : d = c
    · exact hdc ▸ Finset.mem_insert_self c s.shared
    · rw [calls_setCall_ne _ _ hdc] at hd
      exact Finset.mem_insert_of_mem (h.submit d pc hd)
  shutdown d wait cancel pc hd := by
    by_cases hdc : d = c
    · subst hdc
      rw [calls_setCall_self] at hd
      cases hd
    · rw [calls_setCall_ne _ _ hdc] at hd
      exact h.shutdown d wait cancel pc hd
  exclusive d hd := by simp [State.setCall, hexclusive] at hd
  drop hd := (hd halive).elim
  send d hd := by
    by_cases hdc : d = c
    · subst hdc
      rw [calls_setCall_self] at hd
      cases hd
    · rw [calls_setCall_ne _ _ hdc] at hd
      exact h.send d hd

theorem Borrowed.shutdownBegin (h : Borrowed s) {wait cancel : Bool} (halive : s.drop = .alive)
    (hexclusive : s.exclusive = none) (hshared : s.shared = ∅) :
    Borrowed (State.setCall { s with exclusive := some c } c
      (.run (.shutdown wait cancel) .active)) where
  submit d pc hd := by
    by_cases hdc : d = c
    · subst hdc
      rw [calls_setCall_self] at hd
      cases hd
    · rw [calls_setCall_ne _ _ hdc] at hd
      exact h.submit d pc hd
  shutdown d wait' cancel' pc hd := by
    by_cases hdc : d = c
    · exact congrArg some hdc.symm
    · rw [calls_setCall_ne _ _ hdc] at hd
      have hmem := h.shutdown d wait' cancel' pc hd
      rw [hexclusive] at hmem
      cases hmem
  exclusive _ _ := hshared
  drop hd := (hd halive).elim
  send d hd := by
    by_cases hdc : d = c
    · subst hdc
      rw [calls_setCall_self] at hd
      cases hd
    · rw [calls_setCall_ne _ _ hdc] at hd
      exact h.send d hd

/-- A call gives its borrow back when it returns. -/
theorem Borrowed.ret (h : Borrowed s) {m : Method} {r : PyResult Unit} {shared : Finset C}
    {exclusive : Option C} (hshared : ∀ d, d ≠ c → d ∈ s.shared → d ∈ shared)
    (hsub : ∀ d, d ∈ shared → d ∈ s.shared) (hkeep : ∀ d, d ≠ c → s.exclusive = some d → exclusive = some d)
    (hexclusive : exclusive = s.exclusive ∨ exclusive = none) :
    Borrowed (State.setCall { s with shared := shared, exclusive := exclusive } c (.done m r)) where
  submit d pc hd := by
    by_cases hdc : d = c
    · subst hdc
      rw [calls_setCall_self] at hd
      cases hd
    · rw [calls_setCall_ne _ _ hdc] at hd
      exact hshared d hdc (h.submit d pc hd)
  shutdown d wait cancel pc hd := by
    by_cases hdc : d = c
    · subst hdc
      rw [calls_setCall_self] at hd
      cases hd
    · rw [calls_setCall_ne _ _ hdc] at hd
      exact hkeep d hdc (h.shutdown d wait cancel pc hd)
  exclusive d hd := by
    rcases hexclusive with rfl | rfl
    · exact Finset.subset_empty.mp fun e he => h.exclusive d hd ▸ hsub e he
    · cases hd
  drop hd := by
    obtain ⟨hempty, hnone⟩ := h.drop hd
    refine ⟨Finset.subset_empty.mp fun e he => hempty ▸ hsub e he, ?_⟩
    rcases hexclusive with rfl | rfl
    · exact hnone
    · rfl
  send d hd := by
    by_cases hdc : d = c
    · subst hdc
      rw [calls_setCall_self] at hd
      cases hd
    · rw [calls_setCall_ne _ _ hdc] at hd
      exact h.send d hd

theorem Borrowed.next (h : Borrowed s) (hstep : PoolStep s a t) : Borrowed t := by
  cases hstep with
  | refused hc => exact h.ret (fun _ _ => id) (fun _ => id) (fun _ _ => id) (.inl rfl)
  | submit hc halive hexclusive => exact h.submitBegin halive hexclusive
  | shutdown hc halive hexclusive hshared => exact h.shutdownBegin halive hexclusive hshared
  | submitGoto hc hpc hpc' =>
      refine h.setCall hc fun _ hsend => ?_
      rcases hpc' with rfl | ⟨-, hsender⟩ | ⟨e, rfl⟩
      · cases hsend
      · exact hsender
      · cases hsend
  | accept hc hlive hpush =>
      rename_i c q
      have hq : Borrowed { s with queue := q } := h.congr rfl rfl rfl rfl rfl
      exact hq.setCall hc (by simp)
  | submitRet hc =>
      exact h.ret (fun d hd => Finset.mem_erase_of_ne_of_mem hd)
        (fun d => Finset.mem_of_mem_erase) (fun _ _ => id) (.inl rfl)
  | shutdownGoto hc hcancel hasked hret =>
      rename_i c wait cancel active cancelPending workers pc pc'
      have hflags : Borrowed
          { s with active := active, cancelPending := cancelPending, workers := workers } :=
        h.congr rfl rfl rfl rfl rfl
      exact hflags.setCall hc (by simp)
  | dropSender hc =>
      rename_i c wait cancel pc
      have hempty := h.exclusive c (h.shutdown c wait cancel pc hc)
      have hsender : Borrowed { s with sender := false } := by
        refine ⟨h.submit, h.shutdown, h.exclusive, h.drop, fun d hd => ?_⟩
        have hmem := h.submit d _ hd
        rw [hempty] at hmem
        exact absurd hmem (Finset.notMem_empty d)
      exact hsender.setCall hc (by simp)
  | shutdownRet hc =>
      refine h.ret (fun _ _ => id) (fun _ => id) (fun d hd hex => ?_) (.inr rfl)
      exact (hd (Option.some.inj (hex.symm.trans (h.shutdown _ _ _ _ hc)))).elim
  | drop hpc hdrop hsender =>
      rename_i active sender workers pc
      have hfree : s.shared = ∅ ∧ s.exclusive = none := by
        by_cases halive : s.drop = .alive
        · exact hdrop halive
        · exact h.drop halive
      refine ⟨h.submit, h.shutdown, h.exclusive, fun _ => hfree, fun d hd => ?_⟩
      have hmem := h.submit d _ hd
      rw [hfree.1] at hmem
      exact absurd hmem (Finset.notMem_empty d)
  | _ => exact h.congr rfl rfl rfl rfl rfl

/-- The call is a `submit` that has sent its task. -/
def Call.Sent : Call → Prop
  | .run .submit (.ret (.ok _)) => True
  | .done .submit (.ok _) => True
  | _ => False

/-- Each task is accepted at most once, and its `submit` says so exactly when it is. -/
structure SentOnce (s : State n C E V) : Prop where
  nodup : (s.queue.accepted.map Prod.snd).Nodup
  sent : ∀ c, c ∈ s.queue.accepted.map Prod.snd ↔ (s.calls c).Sent

theorem SentOnce.setCall (h : SentOnce s) {k : Call} (hk : k.Sent ↔ (s.calls c).Sent)
    (hqueue : t.queue = s.queue) (hcalls : t.calls = Function.update s.calls c k) : SentOnce t := by
  refine ⟨by rw [hqueue]; exact h.nodup, fun d => ?_⟩
  rw [hqueue, hcalls, h.sent]
  by_cases hdc : d = c
  · subst hdc
    rw [Function.update_self, hk]
  · rw [Function.update_of_ne hdc]

theorem SentOnce.accept (h : SentOnce s) {q : Fifo Unit (Fin n) C}
    (hc : s.calls c = .run .submit .send) (hpush : s.queue.push () c = some q) :
    SentOnce (State.setCall { s with queue := q } c (.run .submit (.ret (.ok ())))) := by
  obtain ⟨-, -, -, hacc, -⟩ := Fifo.push_eq_some.mp hpush
  have hnew : c ∉ s.queue.accepted.map Prod.snd := by
    rw [h.sent, hc]
    exact id
  have haccepted : q.accepted.map Prod.snd = s.queue.accepted.map Prod.snd ++ [c] := by
    rw [hacc, List.map_append]
    rfl
  refine ⟨?_, fun d => ?_⟩
  · show (q.accepted.map Prod.snd).Nodup
    rw [haccepted]
    exact h.nodup.append (List.nodup_singleton c) (List.disjoint_singleton.mpr hnew)
  · show d ∈ q.accepted.map Prod.snd ↔ _
    rw [haccepted, List.mem_append, List.mem_singleton, h.sent]
    by_cases hdc : d = c
    · subst hdc
      rw [calls_setCall_self]
      exact ⟨fun _ => trivial, fun _ => .inr rfl⟩
    · rw [calls_setCall_ne _ _ hdc]
      exact ⟨fun hd => hd.resolve_right hdc, .inl⟩

theorem SentOnce.next (h : SentOnce s) (hstep : PoolStep s a t) : SentOnce t := by
  cases hstep with
  | refused hc =>
      rename_i c m e
      refine h.setCall ?_ rfl rfl
      rw [hc]
      cases m <;> exact Iff.rfl
  | submit hc => exact h.setCall (by rw [hc]; exact Iff.rfl) rfl rfl
  | shutdown hc => exact h.setCall (by rw [hc]; exact Iff.rfl) rfl rfl
  | submitGoto hc hpc hpc' =>
      rename_i c pc pc'
      refine h.setCall ?_ rfl rfl
      have hold : ¬ (s.calls c).Sent := by
        rw [hc]
        cases pc with
        | ret r => exact (hpc r rfl).elim
        | _ => exact id
      refine ⟨fun hsent => ?_, fun hsent => (hold hsent).elim⟩
      rcases hpc' with rfl | ⟨rfl, -⟩ | ⟨e, rfl⟩ <;> exact hsent.elim
  | accept hc hlive hpush => exact h.accept hc hpush
  | submitRet hc =>
      rename_i c r
      refine h.setCall ?_ rfl rfl
      rw [hc]
      cases r <;> exact Iff.rfl
  | shutdownGoto hc => exact h.setCall (by rw [hc]; exact Iff.rfl) rfl rfl
  | dropSender hc => exact h.setCall (by rw [hc]; exact Iff.rfl) rfl rfl
  | shutdownRet hc => exact h.setCall (by rw [hc]; exact Iff.rfl) rfl rfl
  | take hw hpop =>
      rename_i w c q
      obtain ⟨-, -, hacc, -⟩ := Fifo.pop_eq_some.mp hpop
      refine ⟨?_, fun d => ?_⟩
      · show (q.accepted.map Prod.snd).Nodup
        rw [hacc]
        exact h.nodup
      · show d ∈ q.accepted.map Prod.snd ↔ _
        rw [hacc]
        exact h.sent d
  | _ => exact ⟨h.nodup, h.sent⟩

/-- What has happened to the task in the hands of a worker. -/
def Phase (s : State n C E V) : WorkerPc C E V → Prop
  | .got c => s.events c = [] ∧ s.future c = .pending
  | .cancel c => s.events c = [] ∧ s.future c = .pending ∧ s.cancelPending = true
  | .run c => s.events c = [.started] ∧ s.future c = .pending
  | .complete c o => s.events c = [.started, .returned o] ∧ s.future c = .pending
  | .recv | .exited | .panicked => True

/-- A task is done with: its callable ran once and the future carries its outcome, or the pool was
asked to cancel, the callable never ran and the future is cancelled. -/
def Finished (s : State n C E V) (c : C) : Prop :=
  (∃ o, s.events c = [.started, .returned o] ∧ some (s.future c) = Future.pending.complete o) ∨
    (s.events c = [] ∧ s.future c = .cancelled ∧ s.cancelPending = true)

/-- The callable of a task has ended in a panic, and with it the worker that would have set the
future. -/
def Lost (s : State n C E V) (c : C) : Prop :=
  s.events c = [.started, .panicked] ∧ s.future c = .pending

/-- Every task is queued, in the hands of the worker that took it, done with, or lost. -/
structure Partitioned (s : State n C E V) : Prop where
  held : ∀ w c, (s.worker w).task = some c → (w, c) ∈ s.queue.delivered
  phase : ∀ w, Phase s (s.worker w)
  outcome : ∀ w c, (w, c) ∈ s.queue.delivered → (s.worker w).task ≠ some c →
    Finished s c ∨ Lost s c
  fresh : ∀ c, c ∉ s.queue.delivered.map Prod.snd → s.events c = [] ∧ s.future c = .pending
  exited : ∀ w, s.worker w = .exited → s.sender = false ∧ s.queue.queue = []

section Unchanged

omit [DecidableEq C]

theorem SentOnce.delivered_nodup (h : SentOnce s) : (s.queue.delivered.map Prod.snd).Nodup :=
  h.nodup.sublist (Fifo.delivered_prefix s.queue).sublist

/-- A task is taken by one worker only. -/
theorem SentOnce.unique (h : SentOnce s) (hw : (w, c) ∈ s.queue.delivered)
    (hv : (v, c) ∈ s.queue.delivered) : w = v :=
  congrArg Prod.fst (List.inj_on_of_nodup_map h.delivered_nodup hw hv rfl)

theorem Phase.mono {pc : WorkerPc C E V} (h : Phase s pc)
    (hsame : ∀ c, pc.task = some c → t.events c = s.events c ∧ t.future c = s.future c)
    (hcancel : s.cancelPending = true → t.cancelPending = true) : Phase t pc := by
  cases pc with
  | recv => trivial
  | exited => trivial
  | panicked => trivial
  | got c =>
      obtain ⟨hevents, hfuture⟩ := hsame c rfl
      exact ⟨hevents.trans h.1, hfuture.trans h.2⟩
  | cancel c =>
      obtain ⟨hevents, hfuture⟩ := hsame c rfl
      exact ⟨hevents.trans h.1, hfuture.trans h.2.1, hcancel h.2.2⟩
  | run c =>
      obtain ⟨hevents, hfuture⟩ := hsame c rfl
      exact ⟨hevents.trans h.1, hfuture.trans h.2⟩
  | complete c o =>
      obtain ⟨hevents, hfuture⟩ := hsame c rfl
      exact ⟨hevents.trans h.1, hfuture.trans h.2⟩

theorem Finished.mono (h : Finished s c) (hevents : t.events c = s.events c)
    (hfuture : t.future c = s.future c)
    (hcancel : s.cancelPending = true → t.cancelPending = true) : Finished t c := by
  rcases h with ⟨o, ho, hf⟩ | ⟨he, hf, hp⟩
  · exact .inl ⟨o, hevents.trans ho, by rw [hfuture, hf]⟩
  · exact .inr ⟨hevents.trans he, hfuture.trans hf, hcancel hp⟩

theorem Lost.mono (h : Lost s c) (hevents : t.events c = s.events c)
    (hfuture : t.future c = s.future c) : Lost t c :=
  ⟨hevents.trans h.1, hfuture.trans h.2⟩

/-- What a step leaves alone is done with or lost as before. -/
theorem outcome_mono (h : Finished s c ∨ Lost s c) (hevents : t.events c = s.events c)
    (hfuture : t.future c = s.future c)
    (hcancel : s.cancelPending = true → t.cancelPending = true) : Finished t c ∨ Lost t c :=
  h.imp (·.mono hevents hfuture hcancel) (·.mono hevents hfuture)

/-- A step that concerns no task. -/
theorem Partitioned.aside (h : Partitioned s) (hqueue : t.queue = s.queue)
    (hworker : t.worker = s.worker) (hevents : t.events = s.events) (hfuture : t.future = s.future)
    (hcancel : s.cancelPending = true → t.cancelPending = true)
    (hsender : s.sender = false → t.sender = false) : Partitioned t where
  held w c hw := by
    rw [hqueue]
    exact h.held w c (hworker ▸ hw)
  phase w := by
    rw [hworker]
    exact (h.phase w).mono (fun c _ => ⟨by rw [hevents], by rw [hfuture]⟩) hcancel
  outcome w c hd hw := by
    rw [hqueue] at hd
    rw [hworker] at hw
    exact outcome_mono (h.outcome w c hd hw) (by rw [hevents]) (by rw [hfuture]) hcancel
  fresh c hc := by
    rw [hqueue] at hc
    rw [hevents, hfuture]
    exact h.fresh c hc
  exited w hw := by
    rw [hworker] at hw
    rw [hqueue]
    exact (h.exited w hw).imp hsender id

end Unchanged

theorem Partitioned.accept (h : Partitioned s) {q : Fifo Unit (Fin n) C} {k : Call}
    (hsender : s.sender = true) (hpush : s.queue.push () c = some q) :
    Partitioned (State.setCall { s with queue := q } c k) := by
  obtain ⟨-, -, -, -, hdel⟩ := Fifo.push_eq_some.mp hpush
  refine ⟨fun w d hw => ?_, h.phase, fun w d hd hw => ?_, fun d hd => ?_, fun w hw => ?_⟩
  · exact hdel ▸ h.held w d hw
  · exact h.outcome w d (hdel ▸ hd) hw
  · exact h.fresh d (fun hmem => hd (hdel ▸ hmem))
  · have hgone := (h.exited w hw).1
    rw [hsender] at hgone
    cases hgone

omit [DecidableEq C] in
/-- A worker takes the task at the front. -/
theorem Partitioned.take (h : Partitioned s) (hs : SentOnce s) {q : Fifo Unit (Fin n) C}
    (hw : s.worker w = .recv) (hpop : s.queue.pop w = some (c, q)) :
    Partitioned (State.setWorker { s with queue := q } w (.got c)) := by
  obtain ⟨-, hqueue, -, hdel⟩ := Fifo.pop_eq_some.mp hpop
  have hfirst : c ∉ s.queue.delivered.map Prod.snd := by
    have hnodup := hs.nodup
    rw [s.queue.conserved, hqueue] at hnodup
    intro hmem
    exact (List.nodup_append.mp hnodup).2.2 c hmem c List.mem_cons_self rfl
  have hworker : ∀ v, (State.setWorker { s with queue := q } w (.got c)).worker v
      = if v = w then .got c else s.worker v := fun v => Function.update_apply _ _ _ _
  refine ⟨fun v d hv => ?_, fun v => ?_, fun v d hd hv => ?_, fun d hd => ?_, fun v hv => ?_⟩
  · show (v, d) ∈ q.delivered
    rw [hdel]
    rw [hworker] at hv
    split at hv
    · rename_i hvw
      cases hv
      rw [hvw]
      exact List.mem_append_right _ (List.mem_singleton.mpr rfl)
    · exact List.mem_append_left _ (h.held v d hv)
  · rw [hworker]
    split
    · exact h.fresh c hfirst
    · exact (h.phase v).mono (fun _ _ => ⟨rfl, rfl⟩) id
  · replace hd : (v, d) ∈ q.delivered := hd
    rw [hdel] at hd
    rw [hworker] at hv
    rcases List.mem_append.mp hd with hd | hd
    · refine outcome_mono (h.outcome v d hd ?_) rfl rfl id
      split at hv
      · rename_i hvw
        rw [hvw, hw]
        simp [WorkerPc.task]
      · exact hv
    · cases List.mem_singleton.mp hd
      rw [if_pos rfl] at hv
      exact (hv rfl).elim
  · refine h.fresh d fun hmem => hd ?_
    show d ∈ q.delivered.map Prod.snd
    rw [hdel, List.map_append]
    exact List.mem_append_left _ hmem
  · rw [hworker] at hv
    split at hv
    · cases hv
    · have hempty := (h.exited v hv).2
      rw [hqueue] at hempty
      cases hempty

/-- A worker goes on with the task `c` in its hands, or is done with it, or dies of it. -/
theorem Partitioned.work (h : Partitioned s) (hs : SentOnce s) {pc' : WorkerPc C E V}
    (hw : (s.worker w).task = some c) (hqueue : t.queue = s.queue) (hsender : t.sender = s.sender)
    (hcancel : t.cancelPending = s.cancelPending)
    (hworker : t.worker = Function.update s.worker w pc')
    (hother : ∀ d, d ≠ c → t.events d = s.events d ∧ t.future d = s.future d)
    (hpc' : (pc'.task = some c ∧ Phase t pc') ∨
      ((pc' = .recv ∨ pc' = .panicked) ∧ (Finished t c ∨ Lost t c))) :
    Partitioned t := by
  have hmine : ∀ v, (v, c) ∈ s.queue.delivered → v = w := fun v hv =>
    hs.unique hv (h.held w c hw)
  have hne : ∀ v, v ≠ w → ∀ d, (s.worker v).task = some d → d ≠ c := by
    rintro v hv d hd rfl
    exact hv (hmine v (h.held v d hd))
  have hnotExited : pc' ≠ .exited := by
    rintro rfl
    rcases hpc' with ⟨htask, -⟩ | ⟨hidle | hidle, -⟩
    · cases htask
    · cases hidle
    · cases hidle
  have hphase : Phase t pc' := by
    rcases hpc' with ⟨-, hphase⟩ | ⟨rfl | rfl, -⟩
    · exact hphase
    · trivial
    · trivial
  refine ⟨fun v d hv => ?_, fun v => ?_, fun v d hd hv => ?_, fun d hd => ?_, fun v hv => ?_⟩
  · rw [hqueue]
    rw [hworker] at hv
    by_cases hvw : v = w
    · subst hvw
      rw [Function.update_self] at hv
      rcases hpc' with ⟨htask, -⟩ | ⟨rfl | rfl, -⟩
      · rw [htask] at hv
        cases hv
        exact h.held v c hw
      · cases hv
      · cases hv
    · rw [Function.update_of_ne hvw] at hv
      exact h.held v d hv
  · rw [hworker]
    by_cases hvw : v = w
    · subst hvw
      rwa [Function.update_self]
    · rw [Function.update_of_ne hvw]
      exact (h.phase v).mono (fun d hd => hother d (hne v hvw d hd)) fun hp => hcancel.trans hp
  · rw [hqueue] at hd
    rw [hworker] at hv
    by_cases hdc : d = c
    · subst hdc
      obtain rfl := hmine v hd
      rw [Function.update_self] at hv
      rcases hpc' with ⟨htask, -⟩ | ⟨-, hover⟩
      · exact (hv htask).elim
      · exact hover
    · obtain ⟨hevents, hfuture⟩ := hother d hdc
      refine outcome_mono (h.outcome v d hd ?_) hevents hfuture fun hp => hcancel.trans hp
      by_cases hvw : v = w
      · subst hvw
        rw [hw]
        exact fun heq => hdc (Option.some.inj heq).symm
      · rwa [Function.update_of_ne hvw] at hv
  · rw [hqueue] at hd
    have hdc : d ≠ c := by
      rintro rfl
      exact hd (List.mem_map.mpr ⟨(w, d), h.held w d hw, rfl⟩)
    obtain ⟨hevents, hfuture⟩ := hother d hdc
    rw [hevents, hfuture]
    exact h.fresh d hd
  · rw [hworker] at hv
    rw [hsender, hqueue]
    by_cases hvw : v = w
    · subst hvw
      rw [Function.update_self] at hv
      exact (hnotExited hv).elim
    · rw [Function.update_of_ne hvw] at hv
      exact h.exited v hv

omit [DecidableEq C] in
theorem Partitioned.exit (h : Partitioned s) (hw : s.worker w = .recv)
    (hqueue : s.queue.queue = []) (hsender : s.sender = false) :
    Partitioned (s.setWorker w .exited) := by
  have hworker : ∀ v, (s.setWorker w .exited).worker v = if v = w then .exited else s.worker v :=
    fun v => Function.update_apply _ _ _ _
  refine ⟨fun v d hv => ?_, fun v => ?_, fun v d hd hv => ?_, h.fresh, fun v hv =>
    ⟨hsender, hqueue⟩⟩
  · rw [hworker] at hv
    split at hv
    · cases hv
    · exact h.held v d hv
  · rw [hworker]
    split
    · trivial
    · exact (h.phase v).mono (fun _ _ => ⟨rfl, rfl⟩) id
  · rw [hworker] at hv
    refine outcome_mono (h.outcome v d hd ?_) rfl rfl id
    split at hv
    · rename_i hvw
      rw [hvw, hw]
      exact hv
    · exact hv

theorem Partitioned.next (h : Partitioned s) (hs : SentOnce s) (hb : Borrowed s)
    (hstep : PoolStep s a t) : Partitioned t := by
  cases hstep with
  | accept hc hlive hpush => exact h.accept (hb.send _ hc) hpush
  | shutdownGoto hc hcancel hasked hret => exact h.aside rfl rfl rfl rfl hcancel id
  | dropSender hc => exact h.aside rfl rfl rfl rfl id fun _ => rfl
  | drop hpc hdrop hsender =>
      refine h.aside rfl rfl rfl rfl id fun hgone => ?_
      rcases hsender with hsender | hsender
      · exact hsender
      · exact hsender.trans hgone
  | take hw hpop => exact h.take hs hw hpop
  | exit hw hqueue hsender => exact h.exit hw hqueue hsender
  | decline hw hcancel =>
      rename_i w c
      have hgot := h.phase w
      rw [hw] at hgot
      exact h.work hs (by rw [hw]; rfl) rfl rfl rfl rfl (fun _ _ => ⟨rfl, rfl⟩)
        (.inl ⟨rfl, hgot.1, hgot.2, hcancel⟩)
  | start hw hcancel =>
      rename_i w c
      have hgot := h.phase w
      rw [hw] at hgot
      refine h.work hs (by rw [hw]; rfl) rfl rfl rfl rfl
        (fun d hd => ⟨Function.update_of_ne hd _ _, rfl⟩) (.inl ⟨rfl, ?_, hgot.2⟩)
      show Function.update s.events c _ c = _
      rw [Function.update_self, hgot.1]
      rfl
  | cancel hw hpc =>
      rename_i w c pc
      have hcancel := h.phase w
      rw [hw] at hcancel
      refine h.work hs (by rw [hw]; rfl) rfl rfl rfl rfl
        (fun d hd => ⟨rfl, Function.update_of_ne hd _ _⟩)
        (.inr ⟨hpc.imp id fun h => h.2.1, .inl (.inr ⟨hcancel.1, ?_, hcancel.2.2⟩)⟩)
      show Function.update s.future c _ c = _
      rw [Function.update_self, hcancel.2.1]
      rfl
  | finish hw =>
      rename_i w c o
      have hrun := h.phase w
      rw [hw] at hrun
      refine h.work hs (by rw [hw]; rfl) rfl rfl rfl rfl
        (fun d hd => ⟨Function.update_of_ne hd _ _, rfl⟩) (.inl ⟨rfl, ?_, hrun.2⟩)
      show Function.update s.events c _ c = _
      rw [Function.update_self, hrun.1]
      rfl
  | panic ha hw =>
      rename_i w c
      have hrun := h.phase w
      rw [hw] at hrun
      refine h.work hs (by rw [hw]; rfl) rfl rfl rfl rfl
        (fun d hd => ⟨Function.update_of_ne hd _ _, rfl⟩) (.inr ⟨.inr rfl, .inr ⟨?_, hrun.2⟩⟩)
      show Function.update s.events c _ c = _
      rw [Function.update_self, hrun.1]
      rfl
  | complete hw hpc =>
      rename_i w c o pc
      have hcomplete := h.phase w
      rw [hw] at hcomplete
      refine h.work hs (by rw [hw]; rfl) rfl rfl rfl rfl
        (fun d hd => ⟨rfl, Function.update_of_ne hd _ _⟩)
        (.inr ⟨hpc.imp id fun h => h.2.1, .inl (.inl ⟨o, hcomplete.1, ?_⟩)⟩)
      show some (Function.update s.future c _ c) = _
      rw [Function.update_self, hcomplete.2]
      rfl
  | _ => exact h.aside rfl rfl rfl rfl id id

/-- The standing facts about a pool whose clients leave the futures alone. -/
structure InOrder (s : State n C E V) : Prop where
  borrowed : Borrowed s
  sentOnce : SentOnce s
  partitioned : Partitioned s

omit [DecidableEq C] in
theorem inOrder_init : InOrder (State.init : State n C E V) where
  borrowed := borrowed_init
  sentOnce := ⟨List.nodup_nil, fun c => by simp [State.init, Fifo.empty, Call.Sent]⟩
  partitioned := by
    refine ⟨fun _ _ h => ?_, fun _ => trivial, fun _ _ h => ?_, fun _ _ => ⟨rfl, rfl⟩, fun _ h => ?_⟩
    · cases h
    · cases h
    · cases h

theorem InOrder.next (h : InOrder s) (ha : NoClientCancel a) (hn : next s a = some t) :
    InOrder t :=
  have hstep := next_cases ha hn
  ⟨h.borrowed.next hstep, h.sentOnce.next hstep, h.partitioned.next h.sentOnce h.borrowed hstep⟩

theorem inOrder_run {as : List (Act n C E V)}
    (h : RunWith next (fun _ a => NoClientCancel a) State.init as s) : InOrder s :=
  h.invariant inOrder_init fun _ _ _ h ha hn => h.next ha hn

/-- The pool has been asked to cancel and has not begun to run the task. -/
structure Doomed (s : State n C E V) (c : C) : Prop where
  cancelPending : s.cancelPending = true
  notRun : s.events c = []
  notRunning : ∀ w, s.worker w ≠ .run c

/-- A doomed task stays doomed: a worker that takes it sees the flag. -/
theorem Doomed.next (h : Doomed s c) (hstep : PoolStep s a t) : Doomed t c := by
  have hset : ∀ {w pc}, pc ≠ WorkerPc.run c → ∀ v, Function.update s.worker w pc v ≠ .run c := by
    intro w pc hpc v
    by_cases hvw : v = w
    · subst hvw
      rwa [Function.update_self]
    · rw [Function.update_of_ne hvw]
      exact h.notRunning v
  cases hstep with
  | shutdownGoto hc hcancel hasked hret => exact ⟨hcancel h.cancelPending, h.notRun, h.notRunning⟩
  | take => exact ⟨h.cancelPending, h.notRun, hset (by simp)⟩
  | exit => exact ⟨h.cancelPending, h.notRun, hset (by simp)⟩
  | decline => exact ⟨h.cancelPending, h.notRun, hset (by simp)⟩
  | start hw hcancel =>
      rw [h.cancelPending] at hcancel
      cases hcancel
  | cancel hw hpc =>
      refine ⟨h.cancelPending, h.notRun, hset fun hrun => ?_⟩
      have htask := task_eq_none hpc
      rw [hrun] at htask
      cases htask
  | finish hw =>
      rename_i w d o
      have hdc : c ≠ d := by
        rintro rfl
        exact h.notRunning w hw
      exact ⟨h.cancelPending, (Function.update_of_ne hdc _ _).trans h.notRun, hset (by simp)⟩
  | panic ha hw =>
      rename_i w d
      have hdc : c ≠ d := by
        rintro rfl
        exact h.notRunning w hw
      exact ⟨h.cancelPending, (Function.update_of_ne hdc _ _).trans h.notRun, hset (by simp)⟩
  | complete hw hpc =>
      refine ⟨h.cancelPending, h.notRun, hset fun hrun => ?_⟩
      have htask := task_eq_none hpc
      rw [hrun] at htask
      cases htask
  | _ => exact ⟨h.cancelPending, h.notRun, h.notRunning⟩

omit [DecidableEq C] in
/-- What is queued has not been taken. -/
theorem SentOnce.not_delivered (h : SentOnce s) (hc : c ∈ s.queue.queue) :
    c ∉ s.queue.delivered.map Prod.snd := by
  have hnodup := h.nodup
  rw [s.queue.conserved] at hnodup
  exact fun hmem => (List.nodup_append.mp hnodup).2.2 c hmem c hc rfl

omit [DecidableEq C] in
theorem Partitioned.doomed (h : Partitioned s) (hs : SentOnce s) (hcancel : s.cancelPending = true)
    (hc : c ∈ s.queue.queue) : Doomed s c := by
  have hfresh := hs.not_delivered hc
  refine ⟨hcancel, (h.fresh c hfresh).1, fun w hw => hfresh ?_⟩
  exact List.mem_map.mpr ⟨(w, c), h.held w c (by rw [hw]; rfl), rfl⟩

theorem doomed_run {as : List (Act n C E V)}
    (h : RunWith next (fun _ a => NoClientCancel a) s as t) (hc : Doomed s c) : Doomed t c := by
  induction h with
  | nil => exact hc
  | snoc _ ha hn ih => exact ih.next (next_cases ha hn)

omit [DecidableEq C] in
theorem Finished.done (h : Finished s c) : (s.future c).done = true := by
  rcases h with ⟨o, -, hf⟩ | ⟨-, hf, -⟩
  · exact Future.complete_done hf.symm
  · rw [hf]
    rfl

/-- A `shutdown(cancel_futures=True)` is in progress or has returned. -/
def CancelRequested (s : State n C E V) : Prop :=
  ∃ c wait, s.calls c = .done (.shutdown wait true) (.ok ()) ∨
    ∃ pc, s.calls c = .run (.shutdown wait true) pc

/-- The cancel flag is set by request only. -/
structure CancelAsked (s : State n C E V) : Prop where
  ret : ∀ c wait cancel r, s.calls c = .run (.shutdown wait cancel) (.ret r) → r = .ok ()
  asked : s.cancelPending = true → CancelRequested s

/-- A call that goes on without touching the flag keeps every request. -/
theorem CancelAsked.setCall (h : CancelAsked s) {k : Call} (hcalls : t.calls = Function.update s.calls c k)
    (hcancel : t.cancelPending = s.cancelPending)
    (hret : ∀ wait cancel r, k = .run (.shutdown wait cancel) (.ret r) → r = .ok ())
    (hkeep : ∀ wait, (s.calls c = .done (.shutdown wait true) (.ok ()) ∨
        ∃ pc, s.calls c = .run (.shutdown wait true) pc) →
      k = .done (.shutdown wait true) (.ok ()) ∨ ∃ pc, k = .run (.shutdown wait true) pc) :
    CancelAsked t := by
  refine ⟨fun d wait cancel r hd => ?_, fun hp => ?_⟩
  · rw [hcalls] at hd
    by_cases hdc : d = c
    · subst hdc
      rw [Function.update_self] at hd
      exact hret wait cancel r hd
    · rw [Function.update_of_ne hdc] at hd
      exact h.ret d wait cancel r hd
  · obtain ⟨d, wait, hd⟩ := h.asked (hcancel ▸ hp)
    refine ⟨d, wait, ?_⟩
    rw [hcalls]
    by_cases hdc : d = c
    · subst hdc
      rw [Function.update_self]
      exact hkeep wait hd
    · rwa [Function.update_of_ne hdc]

theorem CancelAsked.next (h : CancelAsked s) (hstep : PoolStep s a t) : CancelAsked t := by
  cases hstep with
  | refused hc =>
      refine h.setCall rfl rfl (by simp) fun wait hold => ?_
      simp [hc] at hold
  | submit hc =>
      refine h.setCall rfl rfl (by simp) fun wait hold => ?_
      simp [hc] at hold
  | shutdown hc =>
      refine h.setCall rfl rfl (by simp) fun wait hold => ?_
      simp [hc] at hold
  | submitGoto hc =>
      refine h.setCall rfl rfl (by simp) fun wait hold => ?_
      simp [hc] at hold
  | accept hc =>
      refine h.setCall rfl rfl (by simp) fun wait hold => ?_
      simp [hc] at hold
  | submitRet hc =>
      refine h.setCall rfl rfl (by simp) fun wait hold => ?_
      simp [hc] at hold
  | shutdownGoto hc hcancel hasked hret =>
      rename_i c wait cancel active cancelPending workers pc pc'
      have hflags : CancelAsked
          (s.setCall c (.run (.shutdown wait cancel) pc')) := by
        refine h.setCall rfl rfl (fun _ _ r hr => ?_) fun wait' hold => ?_
        · cases hr
          exact hret r rfl
        · rcases hold with hold | ⟨pc₀, hold⟩
          · rw [hc] at hold
            cases hold
          · rw [hc] at hold
            cases hold
            exact .inr ⟨_, rfl⟩
      refine ⟨hflags.ret, fun hp => ?_⟩
      rcases hasked hp with hp | rfl
      · exact hflags.asked hp
      · exact ⟨c, wait, .inr ⟨pc', calls_setCall_self _ _ _⟩⟩
  | dropSender hc =>
      refine h.setCall rfl rfl (by simp) fun wait' hold => ?_
      rcases hold with hold | ⟨pc₀, hold⟩
      · rw [hc] at hold
        cases hold
      · rw [hc] at hold
        cases hold
        exact .inr ⟨_, rfl⟩
  | shutdownRet hc =>
      refine h.setCall rfl rfl (by simp) fun wait' hold => ?_
      rcases hold with hold | ⟨pc₀, hold⟩
      · rw [hc] at hold
        cases hold
      · have hok := h.ret _ _ _ _ hc
        rw [hc] at hold
        cases hold
        exact .inl (by rw [hok])
  | _ => exact ⟨h.ret, h.asked⟩

theorem cancelAsked_run {as : List (Act n C E V)}
    (h : RunWith next (fun _ a => NoClientCancel a) State.init as s) : CancelAsked s :=
  h.invariant ⟨fun _ _ _ _ h => (by cases h), fun h => (by cases h)⟩
    fun _ _ _ hs ha hn => hs.next (next_cases ha hn)

/-- Where an accepted task is: in the queue and untouched, in the hands of a worker that has run its
callable at most once, or done with. -/
inductive Whereabouts (s : State n C E V) (c : C) : Prop
  | queued (hqueue : c ∈ s.queue.queue) (hevents : s.events c = [])
      (hfuture : s.future c = .pending)
  | held (w : Fin n) (htask : (s.worker w).task = some c) (hphase : Phase s (s.worker w))
  | finished (h : Finished s c) (hasked : s.events c = [] → CancelRequested s)

/-- No task has been lost or repeated: each has been taken by at most one worker, and is queued, in one
worker's hands, or done with, its callable run once and its future completed with just that outcome,
or cancelled by request and never run; what is queued when the pool is asked to cancel is never run;
and when all workers have exited nothing is queued and every future that `submit` has returned is
done. -/
structure TasksExact (s : State n C E V) : Prop where
  once : (s.queue.delivered.map Prod.snd).Nodup
  accepted : ∀ c, s.calls c = .done .submit (.ok ()) → c ∈ s.queue.accepted.map Prod.snd
  whereabouts : ∀ c ∈ s.queue.accepted.map Prod.snd, Whereabouts s c
  cancelled : s.cancelPending = true → ∀ c ∈ s.queue.queue, ∀ bs t,
    RunWith next (fun _ a => NoClientCancel a) s bs t → t.events c = []
  exited : s.allExited → s.queue.queue = [] ∧
    ∀ c ∈ s.queue.accepted.map Prod.snd, Finished s c ∧ (s.future c).done = true

/-- No callable ends in a panic, and the last worker that is left does not die of a done callback
while a task is queued. -/
def NoLoss (s : State n C E V) : Act n C E V → Prop
  | .panic w => (∀ c, s.worker w ≠ .run c) ∧
      (s.queue.queue = [] ∨ ∃ v, v ≠ w ∧ ¬ (s.worker v).Ended)
  | _ => True

/-- Panics have neither lost a task nor left one to nobody. -/
structure Kept (s : State n C E V) : Prop where
  notLost : ∀ c, ¬ Lost s c
  drained : s.allExited → s.queue.queue = []

omit [DecidableEq C] in
theorem not_allExited_setWorker {pc : WorkerPc C E V} (hpc : ¬ pc.Ended) :
    ¬ (s.setWorker w pc).allExited := fun h => by
  have hw : (Function.update s.worker w pc w).Ended := h w
  rw [Function.update_self] at hw
  exact hpc hw

/-- Only a panic of its callable loses a task. -/
theorem Lost.of_log {e : Event E V} (h : Lost t c)
    (hevents : t.events = Function.update s.events d (s.events d ++ [e])) (he : e ≠ .panicked)
    (hfuture : t.future = s.future) : Lost s c := by
  obtain ⟨hlost, hpending⟩ := h
  rw [hfuture] at hpending
  rw [hevents] at hlost
  by_cases hcd : c = d
  · subst hcd
    rw [Function.update_self] at hlost
    have hlast := congrArg List.getLast? hlost
    rw [List.getLast?_concat] at hlast
    exact (he (Option.some.inj hlast)).elim
  · rw [Function.update_of_ne hcd] at hlost
    exact ⟨hlost, hpending⟩

theorem Lost.of_future {f : Future E V} (h : Lost t c) (hevents : t.events = s.events)
    (hfuture : t.future = Function.update s.future d f) (hf : f.done = true) : Lost s c := by
  obtain ⟨hlost, hpending⟩ := h
  rw [hevents] at hlost
  rw [hfuture] at hpending
  by_cases hcd : c = d
  · subst hcd
    rw [Function.update_self] at hpending
    rw [hpending] at hf
    cases hf
  · rw [Function.update_of_ne hcd] at hpending
    exact ⟨hlost, hpending⟩

theorem complete_getD_done (f : Future E V) (o : Except E V) :
    ((f.complete o).getD f).done = true := by
  cases f <;> cases o <;> rfl

theorem Kept.next (h : Kept s) (hnot : ∀ w, a ≠ .panic w) (hstep : PoolStep s a t) : Kept t := by
  cases hstep with
  | accept hc hlive => exact ⟨h.notLost, fun hall => (hlive hall).elim⟩
  | take => exact ⟨h.notLost, fun hall => (not_allExited_setWorker id hall).elim⟩
  | exit hw hqueue => exact ⟨h.notLost, fun _ => hqueue⟩
  | decline => exact ⟨h.notLost, fun hall => (not_allExited_setWorker id hall).elim⟩
  | start =>
      exact ⟨fun d hd => h.notLost d (hd.of_log rfl (by simp) rfl),
        fun hall => (not_allExited_setWorker id hall).elim⟩
  | cancel hw hpc =>
      obtain rfl := hpc.resolve_right fun hpanic => hnot _ hpanic.1
      exact ⟨fun d hd => h.notLost d (hd.of_future rfl rfl (Future.cancel_done _)),
        fun hall => (not_allExited_setWorker id hall).elim⟩
  | finish =>
      exact ⟨fun d hd => h.notLost d (hd.of_log rfl (by simp) rfl),
        fun hall => (not_allExited_setWorker id hall).elim⟩
  | panic ha => exact (hnot _ ha).elim
  | complete hw hpc =>
      obtain rfl := hpc.resolve_right fun hpanic => hnot _ hpanic.1
      exact ⟨fun d hd => h.notLost d (hd.of_future rfl rfl (complete_getD_done _ _)),
        fun hall => (not_allExited_setWorker id hall).elim⟩
  | _ => exact ⟨h.notLost, h.drained⟩

omit [DecidableEq C] in
theorem allExited_setWorker {pc : WorkerPc C E V} (hpc : pc.Ended) :
    (s.setWorker w pc).allExited ↔ ∀ v, v ≠ w → (s.worker v).Ended := by
  constructor
  · intro hall v hvw
    have hv : (Function.update s.worker w pc v).Ended := hall v
    rwa [Function.update_of_ne hvw] at hv
  · intro hall v
    show (Function.update s.worker w pc v).Ended
    by_cases hvw : v = w
    · rw [hvw, Function.update_self]
      exact hpc
    · rw [Function.update_of_ne hvw]
      exact hall v hvw

/-- A worker that a done callback kills has set its future; what is queued is left to the others. -/
theorem Kept.callback {f : Future E V} (h : Kept s) (hw : ∀ c, s.worker w ≠ .run c)
    (hf : f.done = true) : NoLoss s (.panic w) ↔ Kept ((s.setFuture c f).setWorker w .panicked) := by
  have hall : ((s.setFuture c f).setWorker w .panicked).allExited ↔
      ∀ v, v ≠ w → (s.worker v).Ended := allExited_setWorker trivial
  constructor
  · rintro ⟨-, hqueue | ⟨v, hvw, hv⟩⟩
    · exact ⟨fun d hd => h.notLost d (hd.of_future rfl rfl hf), fun _ => hqueue⟩
    · exact ⟨fun d hd => h.notLost d (hd.of_future rfl rfl hf), fun hend =>
        (hv (hall.mp hend v hvw)).elim⟩
  · intro ht
    refine ⟨hw, ?_⟩
    by_cases hend : ∀ v, v ≠ w → (s.worker v).Ended
    · exact .inl (ht.drained (hall.mpr hend))
    · simp only [not_forall] at hend
      obtain ⟨v, hvw, hv⟩ := hend
      exact .inr ⟨v, hvw, hv⟩

/-- A step keeps all tasks if and only if it is not a panic that loses one. -/
theorem kept_next (ho : InOrder s) (h : Kept s) (ha : NoClientCancel a) (hn : next s a = some t) :
    NoLoss s a ↔ Kept t := by
  by_cases hpanic : ∃ w, a = .panic w
  · obtain ⟨w, rfl⟩ := hpanic
    replace hn : panicStep s w (s.worker w) = some t := hn
    have hphase := ho.partitioned.phase w
    generalize hw : s.worker w = pc at hn hphase
    unfold panicStep at hn
    split at hn
    · rename_i c
      cases hn
      refine ⟨fun hgood => (hgood.1 c hw).elim, fun ht => (ht.notLost c ⟨?_, hphase.2⟩).elim⟩
      show Function.update s.events c _ c = _
      rw [Function.update_self, hphase.1]
      rfl
    · split at hn <;> cases hn
      exact h.callback (by simp [hw]) (Future.cancel_done _)
    · split at hn <;> cases hn
      exact h.callback (by simp [hw]) (complete_getD_done _ _)
    · cases hn
    · cases hn
    · cases hn
    · cases hn
  · have hnot : ∀ w, a ≠ .panic w := fun w hw => hpanic ⟨w, hw⟩
    have hgood : NoLoss s a := by
      cases a with
      | panic w => exact (hnot w rfl).elim
      | _ => trivial
    exact ⟨fun _ => h.next hnot (next_cases ha hn), fun _ => hgood⟩

omit [DecidableEq C] in
/-- The callable of a task that a worker holds has not ended in a panic. -/
theorem Phase.not_panicked {pc : WorkerPc C E V} (h : Phase s pc) (htask : pc.task = some c) :
    s.events c ≠ [.started, .panicked] := by
  intro hevents
  cases pc with
  | recv | exited | panicked => cases htask
  | got d | cancel d | run d | complete d o =>
      cases htask
      have hphase := hevents.symm.trans h.1
      simp at hphase

omit [DecidableEq C] in
theorem Finished.not_panicked (h : Finished s c) : s.events c ≠ [.started, .panicked] := by
  rcases h with ⟨o, ho, -⟩ | ⟨hevents, -⟩
  · rw [ho]
    simp
  · rw [hevents]
    simp

omit [DecidableEq C] in
/-- A lost task is in nobody's hands and never done with. -/
theorem Lost.not_whereabouts (hc : Lost s c) : ¬ Whereabouts s c := by
  rintro (⟨-, hevents, -⟩ | ⟨w, htask, hphase⟩ | ⟨hfin, -⟩)
  · rw [hc.1] at hevents
    cases hevents
  · exact hphase.not_panicked htask hc.1
  · exact hfin.not_panicked hc.1

/-- What has been begun has been taken. -/
theorem Partitioned.taken (h : Partitioned s) (hc : s.events c ≠ []) :
    c ∈ s.queue.delivered.map Prod.snd := by
  by_contra hfresh
  exact hc (h.fresh c hfresh).1

/-- In a run the tasks are as promised if and only if no panic has lost one. -/
theorem InOrder.exact_iff_kept (h : InOrder s) (hasked : CancelAsked s) :
    TasksExact s ↔ Kept s := by
  obtain ⟨hborrowed, hsent, hpart⟩ := h
  constructor
  · refine fun hexact => ⟨fun c hc => ?_, fun hall => (hexact.exited hall).1⟩
    refine hc.not_whereabouts (hexact.whereabouts c ?_)
    rw [s.queue.conserved]
    exact List.mem_append_left _ (hpart.taken (by simp [hc.1]))
  intro hkept
  have hrequested : ∀ c, Finished s c → s.events c = [] → CancelRequested s := by
    rintro c (⟨o, ho, -⟩ | ⟨-, -, hcancel⟩) hnone
    · rw [ho] at hnone
      cases hnone
    · exact hasked.asked hcancel
  have hdelivered : ∀ c ∈ s.queue.delivered.map Prod.snd,
      Finished s c ∨ ∃ w, (s.worker w).task = some c := by
    intro c hc
    obtain ⟨⟨w, c⟩, hmem, rfl⟩ := List.mem_map.mp hc
    by_cases htask : (s.worker w).task = some c
    · exact .inr ⟨w, htask⟩
    · exact .inl ((hpart.outcome w c hmem htask).resolve_right (hkept.notLost c))
  refine ⟨hsent.delivered_nodup, fun c hc => ?_, fun c hc => ?_, fun hcancel c hc bs t hbs => ?_,
    fun hall => ?_⟩
  · rw [hsent.sent, hc]
    trivial
  · by_cases hdel : c ∈ s.queue.delivered.map Prod.snd
    · rcases hdelivered c hdel with hfin | ⟨w, hw⟩
      · exact .finished hfin (hrequested c hfin)
      · exact .held w hw (hpart.phase w)
    · rw [s.queue.conserved, List.mem_append] at hc
      obtain ⟨hevents, hfuture⟩ := hpart.fresh c hdel
      exact .queued (hc.resolve_left hdel) hevents hfuture
  · exact (doomed_run hbs (hpart.doomed hsent hcancel hc)).notRun
  · have hempty := hkept.drained hall
    refine ⟨hempty, fun c hc => ?_⟩
    rw [s.queue.conserved, hempty, List.append_nil] at hc
    rcases hdelivered c hc with hfin | ⟨w, hw⟩
    · exact ⟨hfin, hfin.done⟩
    · rw [(hall w).task_eq] at hw
      cases hw

omit [DecidableEq C] in
theorem kept_init : Kept (State.init : State n C E V) :=
  ⟨fun _ h => (by cases h.1), fun _ => rfl⟩

/-- In every run of a pool with any number of workers, under any calls of `submit` and `shutdown`, its
drop, and with clients that leave the futures alone: no task is lost or repeated in any state of the
run, if and only if no callable ends in a panic and the last worker does not die of a done callback
while a task is queued. -/
theorem tasksExact_iff (as : List (Act n C E V)) (s : State n C E V)
    (hrun : RunWith next (fun _ a => NoClientCancel a) State.init as s) :
    (∀ u, Visits next State.init as u → TasksExact u) ↔
      RunWith next (fun s a => NoClientCancel a ∧ NoLoss s a) State.init as s := by
  have hkept : (∀ u, Visits next State.init as u → TasksExact u) ↔
      ∀ u, Visits next State.init as u → Kept u := by
    refine forall₂_congr fun u hu => ?_
    obtain ⟨pre, post, rfl, hpre, -⟩ := hrun.visits_split hu
    exact (inOrder_run hpre).exact_iff_kept (cancelAsked_run hpre)
  exact hkept.trans (always_iff_runWith kept_init (fun as s a t hr hs ha hn =>
    kept_next (inOrder_run (hr.mono fun _ _ h => h.1)) hs ha hn) hrun)

/-- The callable of the first of two tasks panics and takes the only worker with it. -/
def panicTrace : List (Act 1 ℕ Unit ℕ) :=
  [.invoke 0 .submit, .step 0, .step 0, .step 0, .step 0,
   .invoke 1 .submit, .step 1, .step 1, .step 1, .step 1, .work only, .work only, .panic only]

instance : DecidablePred (NoClientCancel : Act n C E V → Prop) := fun a => by
  unfold NoClientCancel
  cases a <;> infer_instance

theorem panicTrace_exec :
    (exec next (fun _ a => NoClientCancel a) State.init panicTrace).map (fun s => decide
      (s.allExited ∧ s.queue.queue = [1] ∧ s.calls 0 = .done .submit (.ok ()) ∧
        s.future 0 = .pending)) = some true := by
  decide +kernel

theorem tasksExact_iff_panicTrace :
    ∃ s : State 1 ℕ Unit ℕ, RunWith next (fun _ a => NoClientCancel a) State.init panicTrace s ∧
      ((∀ u, Visits next State.init panicTrace u → TasksExact u) ↔
        RunWith next (fun s a => NoClientCancel a ∧ NoLoss s a) State.init panicTrace s) := by
  obtain ⟨s, hrun, -⟩ := exists_runWith_of_exec panicTrace_exec
  exact ⟨s, hrun, tasksExact_iff panicTrace s hrun⟩

/-- All workers have exited, a task is still queued, and the future of another one is pending. -/
theorem not_always_tasksExact :
    ¬ ∀ (n : ℕ) (C E V : Type) [DecidableEq C] [DecidableEq E] [DecidableEq V], 0 < n →
      ∀ (as : List (Act n C E V)) (s : State n C E V),
        RunWith next (fun _ a => NoClientCancel a) State.init as s → TasksExact s := by
  intro h
  obtain ⟨s, hrun, hs⟩ := exists_runWith_of_exec panicTrace_exec
  obtain ⟨hall, hqueue, -, -⟩ := of_decide_eq_true hs
  have hempty := ((h 1 ℕ Unit ℕ Nat.one_pos _ s hrun).exited hall).1
  rw [hqueue] at hempty
  cases hempty

end Pysync.Pool
