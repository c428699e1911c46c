import Pysync.GroupJoin

/-!
What becomes of the exceptions of the tasks. The wrapper of a task catches any `BaseException` and
records it, so that `__exit__` finds each of them in `_errors` once; but the `ExceptionGroup` in which
it raises several takes members of class `Exception` only.
-/

namespace Pysync.Group
open Transition

/-- The exception with which a target ends in this step, and its thread. -/
def Act.raises {T E : Type} : Act T E → Option (T × E)
  | .finish t (.error e) => some (t, e)
  | _ => none

/-- The exceptions that the targets have raised in a run. -/
def raisedIn {T E : Type} (as : List (Act T E)) : List E := (as.filterMap Act.raises).map Prod.snd

/-- `__exit__` propagates the exceptions `raised`: nothing when there is none, the only one itself, and
several in one group that holds each of them once. -/
def Propagates {E : Type} (raised : List E) : Exit E → Prop
  | .returned => raised = []
  | .raised e => raised = [e]
  | .group es => 2 ≤ raised.length ∧ es.Perm raised
  | .typeError => False

variable {T E : Type} [DecidableEq T] {isException : E → Bool}
variable {s s' : State T E} {a : Act T E} {t u : T} {x : Thread T E} {e f : E} {exc : Option E}
variable {caller : Option T} {c c' : Code T} {as : List (Act T E)}
variable {P : State T E → Act T E → Prop}

theorem raised_setThread (ht : ∀ e, s.thread t ≠ .raised e) (hx : ∀ e, x ≠ .raised e) :
    (s.setThread t x).thread u = .raised f ↔ s.thread u = .raised f := by
  by_cases hut : u = t
  · subst hut
    rw [thread_setThread_self]
    exact ⟨fun h => (hx f h).elim, fun h => (ht f h).elim⟩
  · rw [thread_setThread_ne s x hut]

theorem raised_setCode (hc : s.code caller = some c') :
    (s.setCode caller c).thread u = .raised f ↔ s.thread u = .raised f := by
  rcases thread_setCode (c := c) hc u with hsame | ⟨hold, hnew⟩
  · rw [hsame]
  · rw [hold, hnew]
    exact ⟨fun h => (by cases h), fun h => (by cases h)⟩

theorem errors_setCode (s : State T E) (caller : Option T) (c : Code T) :
    (s.setCode caller c).errors = s.errors := by
  cases caller <;> rfl

/-- What a step does to `_errors` and to the exceptions that are about to be appended to it. -/
inductive ErrorStep (s : State T E) : Act T E → State T E → Prop
  | raises {t : T} {e : E} {s' : State T E} (ht : s.thread t = .running .user)
      (herrors : s'.errors = s.errors)
      (hthread : ∀ u f, s'.thread u = .raised f ↔ (u, f) = (t, e) ∨ s.thread u = .raised f) :
      ErrorStep s (.finish t (.error e)) s'
  | records {t : T} {e : E} {s' : State T E} (ht : s.thread t = .raised e)
      (herrors : s'.errors = s.errors ++ [e])
      (hthread : ∀ u f, s'.thread u = .raised f ↔ u ≠ t ∧ s.thread u = .raised f) :
      ErrorStep s (.record t) s'
  | aside {a : Act T E} {s' : State T E} (ha : a.raises = none) (herrors : s'.errors = s.errors)
      (hthread : ∀ u f, s'.thread u = .raised f ↔ s.thread u = .raised f) : ErrorStep s a s'

theorem exitStep_body (hexit : exitStep isException s = some s') :
    s'.errors = s.errors ∧ s'.thread = s.thread := by
  unfold exitStep at hexit
  split at hexit
  · split at hexit <;> cases hexit <;> exact ⟨rfl, rfl⟩
  · cases hexit
    exact ⟨rfl, rfl⟩
  · dsimp only at hexit
    split at hexit <;> cases hexit
    exact ⟨rfl, rfl⟩
  · cases hexit
    exact ⟨rfl, rfl⟩
  · cases hexit

theorem Contained.next_errors (h : Contained s) (hn : Group.next isException s a = some s') :
    ErrorStep s a s' := by
  cases a with
  | spawn caller t =>
      unfold Group.next at hn
      dsimp only at hn
      split at hn
      · rename_i hc ht
        cases hn
        have hnone : s.code (some t) = none := by simp [State.code, ht]
        have hc' : (s.setThread t .fresh).code caller = some .user :=
          (code_setThread s hnone (by simp)).trans hc
        refine .aside rfl (errors_setCode _ _ _) fun u f => ?_
        rw [raised_setCode hc', raised_setThread (by simp [ht]) (by simp)]
      · cases hn
  | step caller =>
      unfold Group.next at hn
      dsimp only at hn
      split at hn
      · rename_i t hc
        cases hn
        have hfresh := h.starting caller t hc
        have hct : caller ≠ some t := by
          rintro rfl
          rw [running_of_code hc] at hfresh
          cases hfresh
        have hc' : (s.setThread t (.running .user)).code caller = some (.start t) :=
          (code_setThread_ne s _ hct).trans hc
        refine .aside rfl (errors_setCode _ _ _) fun u f => ?_
        rw [raised_setCode hc', raised_setThread (by simp [hfresh]) (by simp)]
      · rename_i t hc
        cases hn
        refine .aside rfl (errors_setCode _ _ _) fun u f => ?_
        exact raised_setCode (s := { s with threads := s.threads ++ [t] }) hc
      · cases hn
  | startFails caller =>
      unfold Group.next at hn
      dsimp only at hn
      split at hn
      · rename_i hc
        cases hn
        exact .aside rfl (errors_setCode _ _ _) fun u f => raised_setCode hc
      · cases hn
  | finish t o =>
      unfold Group.next at hn
      dsimp only at hn
      split at hn
      · rename_i ht
        cases hn
        exact .aside rfl rfl fun u f => raised_setThread (by simp [ht]) (by simp)
      · rename_i e ht
        cases hn
        refine .raises ht rfl fun u f => ?_
        by_cases hut : u = t
        · subst hut
          rw [thread_setThread_self, ht]
          simp [eq_comm]
        · rw [thread_setThread_ne s _ hut]
          simp [hut]
      · cases hn
  | record t =>
      unfold Group.next at hn
      dsimp only at hn
      split at hn
      · rename_i e ht
        cases hn
        refine .records ht rfl fun u f => ?_
        by_cases hut : u = t
        · subst hut
          rw [thread_setThread_self]
          simp
        · rw [thread_setThread_ne _ _ hut]
          simp [hut]
      · cases hn
  | leaveBody exc =>
      unfold Group.next at hn
      dsimp only at hn
      split at hn
      · cases hn
        exact .aside rfl rfl fun _ _ => .rfl
      · cases hn
  | exit =>
      obtain ⟨herrors, hthread⟩ := exitStep_body hn
      refine .aside rfl herrors fun u f => ?_
      rw [hthread]

/-- `pending` holds the exceptions that are about to be appended to `_errors`; with those that have
been they are all that the targets have raised. -/
structure Collected (s : State T E) (raised : List (T × E)) (pending : List (T × E)) : Prop where
  nodup : pending.Nodup
  mem : ∀ t e, (t, e) ∈ pending ↔ s.thread t = .raised e
  perm : (s.errors ++ pending.map Prod.snd).Perm (raised.map Prod.snd)

omit [DecidableEq T] in
theorem Collected.next {raised pending : List (T × E)} (h : Collected s raised pending)
    (hstep : ErrorStep s a s') :
    ∃ pending', Collected s' (raised ++ a.raises.toList) pending' := by
  cases hstep with
  | @raises t e _ ht herrors hthread =>
      have hnew : (t, e) ∉ pending := by
        rw [h.mem, ht]
        simp
      refine ⟨(t, e) :: pending, List.nodup_cons.mpr ⟨hnew, h.nodup⟩, fun u f => ?_, ?_⟩
      · rw [List.mem_cons, h.mem, hthread]
      · have hperm := h.perm.append_right [e]
        rw [herrors, List.map_cons, Act.raises, Option.toList_some, List.map_append]
        refine List.Perm.trans ?_ hperm
        rw [List.append_assoc]
        have hcomm : ([e] ++ pending.map Prod.snd).Perm (pending.map Prod.snd ++ [e]) :=
          List.perm_append_comm
        exact hcomm.append_left s.errors
  | @records t e _ ht herrors hthread =>
      obtain ⟨before, after, rfl⟩ := List.append_of_mem ((h.mem t e).mpr ht)
      have hsplit : (before ++ (t, e) :: after).Perm ((t, e) :: (before ++ after)) := List.perm_middle
      obtain ⟨hnot, hrest⟩ := List.nodup_cons.mp (hsplit.nodup_iff.mp h.nodup)
      refine ⟨before ++ after, hrest, fun u f => ?_, ?_⟩
      · rw [hthread, ← h.mem, hsplit.mem_iff, List.mem_cons]
        constructor
        · intro huf
          refine ⟨?_, .inr huf⟩
          rintro rfl
          have hf := (h.mem u f).mp (hsplit.mem_iff.mpr (List.mem_cons_of_mem _ huf))
          cases ht.symm.trans hf
          exact hnot huf
        · rintro ⟨hut, heq | huf⟩
          · exact absurd (congrArg Prod.fst heq) hut
          · exact huf
      · have hrecord : (Act.record t : Act T E).raises = none := rfl
        rw [herrors, List.append_assoc, hrecord, Option.toList_none, List.append_nil]
        exact ((hsplit.map Prod.snd).symm.append_left s.errors).trans h.perm
  | aside ha herrors hthread =>
      refine ⟨pending, h.nodup, fun u f => ?_, ?_⟩
      · rw [hthread, h.mem]
      · rw [ha, herrors]
        simpa using h.perm

theorem collected_run (h : RunWith (next isException) P State.init as s) :
    ∃ pending, Collected s (as.filterMap Act.raises) pending := by
  induction h with
  | nil => exact ⟨[], List.nodup_nil, by simp [State.init], .nil⟩
  | @snoc as s a s' hr hp hn ih =>
      obtain ⟨pending, hcollected⟩ := ih
      have hlast : (as ++ [a]).filterMap Act.raises = as.filterMap Act.raises ++ a.raises.toList := by
        rw [List.filterMap_append]
        cases h : a.raises <;> simp [h]
      rw [hlast]
      exact hcollected.next ((contained_run hr).next_errors hn)

/-- Where `__exit__` stands when the body has ended with `exc`; at its end it has told what it found
in `_errors`. -/
def State.Exits (isException : E → Bool) (s : State T E) (exc : Option E) : Prop :=
  match s.body with
  | .code _ => False
  | .scan exc' _ | .join exc' _ _ | .leave exc' => exc' = exc
  | .left exit => exit = exitResult isException exc s.errors

theorem exits_exit (h : s.Exits isException exc) (hexit : exitStep isException s = some s') :
    s'.Exits isException exc := by
  unfold exitStep at hexit
  unfold State.Exits at h
  split at hexit
  · rename_i hbody
    rw [hbody] at h
    split at hexit <;> cases hexit <;> exact h
  · rename_i hbody
    rw [hbody] at h
    cases hexit
    exact h
  · rename_i hbody
    rw [hbody] at h
    dsimp only at hexit
    split at hexit <;> cases hexit
    exact h
  · rename_i hbody
    rw [hbody] at h
    cases hexit
    cases h
    rfl
  · cases hexit

theorem Contained.exits_next (h : Contained s) (hs : s.Exits isException exc)
    (hn : Group.next isException s a = some s') : s'.Exits isException exc := by
  have hkeep : s'.body = s.body → s'.errors = s.errors → s'.Exits isException exc := by
    intro hbody herrors
    unfold State.Exits at hs ⊢
    rwa [hbody, herrors]
  have hcode : ∀ {caller c} {u : State T E}, s.code caller = some c → u.body = s.body →
      u.errors = s.errors → ∀ c', (u.setCode caller c').body = s.body ∧
        (u.setCode caller c').errors = s.errors := by
    intro caller c u hc hbody herrors c'
    cases caller with
    | none =>
        unfold State.Exits at hs
        simp only [State.code] at hc
        split at hc
        · rename_i hcode
          rw [hcode] at hs
          exact hs.elim
        · cases hc
    | some p => exact ⟨hbody, herrors⟩
  cases next_cases hn with
  | spawn hc ht =>
      obtain ⟨hbody, herrors⟩ := hcode hc (u := s.setThread _ .fresh) rfl rfl _
      exact hkeep hbody herrors
  | start hc =>
      obtain ⟨hbody, herrors⟩ := hcode hc (u := s.setThread _ (.running .user)) rfl rfl _
      exact hkeep hbody herrors
  | register hc =>
      obtain ⟨hbody, herrors⟩ := hcode hc (u := { s with threads := s.threads ++ [_] }) rfl rfl _
      exact hkeep hbody herrors
  | failed hc =>
      obtain ⟨hbody, herrors⟩ := hcode hc (u := s) rfl rfl _
      exact hkeep hbody herrors
  | finish ht hx => exact hkeep rfl rfl
  | @record t e ht =>
      have hdead := h.body
      show State.Exits isException { s with errors := s.errors ++ [e] } exc
      unfold State.Exits at hs ⊢
      cases hbody : s.body with
      | left exit =>
          rw [hbody] at hdead
          have halive := hdead t
          rw [ht] at halive
          cases halive
      | _ =>
          rw [hbody] at hs
          exact hs
  | leaveBody hbody =>
      unfold State.Exits at hs
      rw [hbody] at hs
      exact hs.elim
  | exit hexit => exact exits_exit hs hexit

theorem exits_run (h : RunWith (next isException) P State.init as s) (hexc : .leaveBody exc ∈ as) :
    s.Exits isException exc := by
  induction h with
  | nil => exact absurd hexc List.not_mem_nil
  | @snoc as s a s' hr hp hn ih =>
      rcases List.mem_append.mp hexc with hold | hlast
      · exact (contained_run hr).exits_next (ih hold) hn
      · obtain rfl := List.mem_singleton.mp hlast
        simp only [next] at hn
        split at hn
        · cases hn
          rfl
        · cases hn

/-- When `__exit__` has ended it has found the exceptions of all tasks in `_errors`. -/
theorem errors_perm (h : RunWith (next isException) P State.init as s) {exit : Exit E}
    (hleft : s.body = .left exit) : s.errors.Perm (raisedIn as) := by
  obtain ⟨pending, hcollected⟩ := collected_run h
  have hdead := (contained_run h).body
  rw [hleft] at hdead
  have hnone : pending = [] := by
    refine List.eq_nil_iff_forall_not_mem.mpr fun p hp => ?_
    have halive := hdead p.1
    rw [(hcollected.mem p.1 p.2).mp hp] at halive
    cases halive
  have hperm := hcollected.perm
  rwa [hnone, List.map_nil, List.append_nil] at hperm

/-- The end of `__exit__` with the exceptions it has found. -/
theorem propagates_exitResult {errors raised : List E} (hperm : errors.Perm raised) :
    Propagates raised (exitResult isException none errors) ↔
      raised.length ≤ 1 ∨ ∀ e ∈ raised, isException e = true := by
  unfold exitResult
  cases errors with
  | nil =>
      obtain rfl := List.nil_perm.mp hperm
      simp [Propagates]
  | cons e rest =>
      cases rest with
      | nil =>
          obtain rfl := List.singleton_perm.mp hperm
          simp [Propagates]
      | cons e' rest =>
          have hlen : 2 ≤ raised.length := by
            rw [← hperm.length_eq]
            simp
          have hall : (e :: e' :: rest).all isException = true ↔ ∀ f ∈ raised, isException f = true := by
            rw [List.all_eq_true]
            exact forall_congr' fun f => by rw [hperm.mem_iff]
          simp only [Option.isSome_none, Bool.false_eq_true, if_false]
          split
          · rename_i hex
            exact ⟨fun _ => .inr (hall.mp hex), fun _ => ⟨hlen, hperm⟩⟩
          · rename_i hex
            refine ⟨False.elim, fun h => ?_⟩
            rcases h with hshort | hgood
            · omega
            · exact hex (hall.mpr hgood)

/-- For every tree of spawns, every interleaving and every pattern of exceptions: a body that ends
normally gets the exceptions of its tasks as they should come, each of them once, if and only if at
most one task has raised or all that the tasks have raised is of class `Exception`. -/
theorem propagates_iff (isException : E → Bool) (as : List (Act T E)) (s : State T E)
    (hrun : Run (next isException) State.init as s) (hbody : .leaveBody none ∈ as) (exit : Exit E)
    (hleft : s.body = .left exit) :
    Propagates (raisedIn as) exit ↔
      (raisedIn as).length ≤ 1 ∨ ∀ e ∈ raisedIn as, isException e = true := by
  have hexits := exits_run hrun hbody
  unfold State.Exits at hexits
  rw [hleft] at hexits
  subst hexits
  exact propagates_exitResult (errors_perm hrun hleft)

/-- Two tasks raise: the second exception is no `Exception`, such as `SystemExit`. -/
def systemExitTrace : List (Act ℕ Bool) :=
  [.spawn none 0, .step none, .step none, .spawn none 1, .step none, .step none,
   .finish 0 (.error true), .finish 1 (.error false), .record 1, .record 0, .leaveBody none,
   .exit, .exit, .exit, .exit, .exit, .exit]

theorem systemExitTrace_exec :
    (exec (next id) (fun _ _ => True) State.init systemExitTrace).map (fun s => decide
      (s.body = .left .typeError)) = some true := by
  decide +kernel

theorem propagates_iff_systemExitTrace :
    ∃ s : State ℕ Bool, Run (next id) State.init systemExitTrace s ∧ s.body = .left .typeError ∧
      (Propagates (raisedIn systemExitTrace) .typeError ↔
        (raisedIn systemExitTrace).length ≤ 1 ∨ ∀ e ∈ raisedIn systemExitTrace, id e = true) := by
  obtain ⟨s, hrun, hs⟩ := exists_runWith_of_exec systemExitTrace_exec
  have hleft := of_decide_eq_true hs
  exact ⟨s, hrun, hleft,
    propagates_iff id systemExitTrace s hrun (by decide) .typeError hleft⟩

/-- The group is lost with what it would have held. -/
theorem not_always_propagates :
    ¬ ∀ (T E : Type) [DecidableEq T] (isException : E → Bool) (as : List (Act T E)) (s : State T E),
      Run (next isException) State.init as s → .leaveBody none ∈ as →
      ∀ exit, s.body = .left exit → Propagates (raisedIn as) exit := by
  intro h
  obtain ⟨s, hrun, hs⟩ := exists_runWith_of_exec systemExitTrace_exec
  exact h ℕ Bool id systemExitTrace s hrun (by decide) .typeError (of_decide_eq_true hs)

end Pysync.Group
