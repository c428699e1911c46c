import Pysync.GroupJoin
import Pysync.TransitionProgress

/-!
A `with` statement over a `ThreadGroup` ends when its tasks do. Every `spawn` is worth only so many
steps of anyone, the rounds of `__exit__` included; and until the statement is left somebody can take
one, for `__exit__` waits for a thread only as long as it is alive.
-/

namespace Pysync.Group
open Transition

variable {T E : Type} [DecidableEq T] {isException : E → Bool}
variable {s s' : State T E} {a : Act T E} {t : T} {x y : Thread T E} {c c' : Code T}
variable {caller : Option T} {as : List (Act T E)} {F : Finset T}

/-- A call of `spawn` begins. -/
def Act.isSpawn : Act T E → Bool
  | .spawn _ _ => true
  | _ => false

/-- What is left of a `spawn`: the steps of its own, the end of its thread, and the joining of it. -/
def Code.ahead : Code T → ℕ
  | user => 0
  | register _ => 4
  | start _ => 7

def Thread.ahead : Thread T E → ℕ
  | absent | fresh | ended => 0
  | raised _ => 1
  | running c => 2 + c.ahead

/-- How many steps the thread of the body takes at most, where `threads` have been registered; a thread
that `__exit__` has not seen yet is worth three, with the round that it may take. -/
def Body.ahead (threads : List T) : Body T E → ℕ
  | code c => 3 * threads.length + 3 + c.ahead
  | scan _ joined => 3 * (threads.filter (· ∉ joined)).length + 2
  | join _ joined unjoined =>
      3 * (threads.filter (· ∉ joined ++ unjoined)).length + 3 + unjoined.length
  | leave _ => 1
  | left _ => 0

/-- How many steps are left at most without another `spawn`, where the threads in `F` have been made. -/
def State.effort (s : State T E) (F : Finset T) : ℕ :=
  ∑ t ∈ F, (s.thread t).ahead + s.body.ahead s.threads

theorem effort_setThread (ht : t ∈ F) :
    (s.setThread t x).effort F + (s.thread t).ahead = s.effort F + x.ahead := by
  have hsum := sum_update_add (fun u => (s.thread u).ahead) ht x.ahead
  have hcomp : ∀ u, ((s.setThread t x).thread u).ahead =
      Function.update (fun u => (s.thread u).ahead) t x.ahead u := fun u =>
    Function.apply_update (fun _ => Thread.ahead) s.thread t x u
  simp only [State.effort, hcomp]
  show _ + s.body.ahead s.threads + _ = _
  omega

theorem effort_setCode (hF : ∀ t, s.thread t ≠ .absent → t ∈ F) (hc : s.code caller = some c') :
    (s.setCode caller c).effort F + c'.ahead = s.effort F + c.ahead := by
  cases caller with
  | none =>
      have hbody : s.body = .code c' := by
        unfold State.code at hc
        dsimp only at hc
        split at hc
        · rename_i hbody
          cases hc
          exact hbody
        · cases hc
      simp only [State.effort, State.setCode, hbody, Body.ahead]
      omega
  | some p =>
      have hp := running_of_code hc
      have hset := effort_setThread (s := s) (x := .running c) (hF p (by rw [hp]; simp))
      simp only [hp, Thread.ahead] at hset
      show (s.setThread p (.running c)).effort F + _ = _
      omega

/-- A thread more to be joined. -/
theorem Body.ahead_append (b : Body T E) (threads : List T) (t : T) :
    b.ahead (threads ++ [t]) ≤ b.ahead threads + 3 := by
  have hfilter : ∀ joined : List T, ((threads ++ [t]).filter (· ∉ joined)).length ≤
      (threads.filter (· ∉ joined)).length + 1 := fun joined => by
    rw [List.filter_append, List.length_append]
    exact Nat.add_le_add_left (List.length_filter_le _ _) _
  cases b with
  | code c =>
      simp only [Body.ahead, List.length_append, List.length_singleton]
      omega
  | scan exc joined =>
      have hle := hfilter joined
      simp only [Body.ahead]
      omega
  | join exc joined unjoined =>
      have hle := hfilter (joined ++ unjoined)
      simp only [Body.ahead]
      omega
  | leave exc | left exit => simp [Body.ahead]

theorem exitStep_thread (h : exitStep isException s = some s') : s'.thread = s.thread := by
  unfold exitStep at h
  split at h
  · split at h <;> cases h <;> rfl
  · cases h
    rfl
  · dsimp only at h
    split at h <;> cases h
    rfl
  · cases h
    rfl
  · cases h

theorem exitStep_lt (h : exitStep isException s = some s') : s'.effort F < s.effort F := by
  unfold exitStep at h
  split at h
  · rename_i exc joined hbody
    split at h
    · cases h
      simp [State.effort, hbody, Body.ahead]
    · rename_i hne
      cases h
      have hpos : 0 < (s.threads.filter (· ∉ joined)).length := List.length_pos_iff.mpr hne
      have hnone : s.threads.filter (· ∉ joined ++ s.threads.filter (· ∉ joined)) = [] := by
        refine List.filter_eq_nil_iff.mpr fun u hu => ?_
        by_cases huj : u ∈ joined <;> simp [hu, huj]
      simp only [State.effort, hbody, Body.ahead, hnone, List.length_nil]
      omega
  · rename_i exc joined hbody
    cases h
    simp only [State.effort, hbody, Body.ahead, List.append_nil, List.length_nil]
    omega
  · rename_i exc joined u rest hbody
    dsimp only at h
    split at h
    · cases h
    · cases h
      simp only [State.effort, hbody, Body.ahead, List.append_assoc, List.singleton_append,
        List.length_cons]
      omega
  · rename_i exc hbody
    cases h
    simp [State.effort, hbody, Body.ahead]
  · cases h

theorem effort_insert (ht : s.thread t = .absent) : s.effort (insert t F) = s.effort F := by
  unfold State.effort
  rw [Finset.sum_insert_of_eq_zero_if_notMem fun _ => by rw [ht]; rfl]

theorem known_setThread (hF : ∀ u, s.thread u ≠ .absent → u ∈ F) (ht : t ∈ F) (u : T)
    (hu : (s.setThread t x).thread u ≠ .absent) : u ∈ F := by
  by_cases hut : u = t
  · rwa [hut]
  · rw [thread_setThread_ne s x hut] at hu
    exact hF u hu

theorem known_setCode (hF : ∀ u, s.thread u ≠ .absent → u ∈ F) (hc : s.code caller = some c') (u : T)
    (hu : (s.setCode caller c).thread u ≠ .absent) : u ∈ F := by
  rcases thread_setCode (c := c) hc u with hsame | ⟨hrun, -⟩
  · exact hF u (hsame ▸ hu)
  · exact hF u (by rw [hrun]; simp)

/-- A step from `s` to `s'` has cost one, but for what it is `worth`. -/
def Pays (s s' : State T E) (F : Finset T) (worth : ℕ) : Prop :=
  ∃ F', (∀ t, s'.thread t ≠ .absent → t ∈ F') ∧ s'.effort F' + 1 ≤ s.effort F + worth

theorem spawn_pays (hF : ∀ u, s.thread u ≠ .absent → u ∈ F) (hc : s.code caller = some .user)
    (ht : s.thread t = .absent) : Pays s ((s.setThread t .fresh).setCode caller (.start t)) F 8 := by
  have hF' : ∀ u, s.thread u ≠ .absent → u ∈ insert t F := fun u hu => Finset.mem_insert_of_mem (hF u hu)
  have hct : caller ≠ some t := by
    rintro rfl
    cases ht.symm.trans (running_of_code hc)
  have hc' : (s.setThread t .fresh).code caller = some .user := (code_setThread_ne s .fresh hct).trans hc
  have hknown := known_setThread (x := .fresh) hF' (Finset.mem_insert_self t F)
  refine ⟨insert t F, known_setCode hknown hc', ?_⟩
  have hset := effort_setThread (s := s) (x := .fresh) (Finset.mem_insert_self t F)
  have hcode := effort_setCode (c := .start t) hknown hc'
  rw [ht, effort_insert ht] at hset
  simp only [Thread.ahead, Code.ahead] at hset hcode ⊢
  omega

theorem start_pays (hs : Contained s) (hF : ∀ u, s.thread u ≠ .absent → u ∈ F)
    (hc : s.code caller = some (.start t)) :
    Pays s ((s.setThread t (.running .user)).setCode caller (.register t)) F 0 := by
  have hfresh := hs.starting caller t hc
  have hct : caller ≠ some t := by
    rintro rfl
    cases hfresh.symm.trans (running_of_code hc)
  have hc' : (s.setThread t (.running .user)).code caller = some (.start t) :=
    (code_setThread_ne s _ hct).trans hc
  have ht : t ∈ F := hF t (by rw [hfresh]; simp)
  have hknown := known_setThread (x := .running .user) hF ht
  refine ⟨F, known_setCode hknown hc', ?_⟩
  have hset := effort_setThread (s := s) (x := .running .user) ht
  have hcode := effort_setCode (c := .register t) hknown hc'
  rw [hfresh] at hset
  simp only [Thread.ahead, Code.ahead] at hset hcode ⊢
  omega

theorem register_pays (hF : ∀ u, s.thread u ≠ .absent → u ∈ F) (hc : s.code caller = some (.register t)) :
    Pays s (State.setCode { s with threads := s.threads ++ [t] } caller .user) F 0 := by
  have hF' : ∀ u, State.thread { s with threads := s.threads ++ [t] } u ≠ .absent → u ∈ F := hF
  have hc' : State.code { s with threads := s.threads ++ [t] } caller = some (.register t) := hc
  refine ⟨F, known_setCode hF' hc', ?_⟩
  have hcode := effort_setCode (c := .user) hF' hc'
  have happend := s.body.ahead_append s.threads t
  simp only [State.effort, Code.ahead] at hcode happend ⊢
  omega

theorem startFails_pays (hF : ∀ u, s.thread u ≠ .absent → u ∈ F) (hc : s.code caller = some (.start t)) :
    Pays s (s.setCode caller .user) F 0 := by
  refine ⟨F, known_setCode hF hc, ?_⟩
  have hcode := effort_setCode (c := .user) hF hc
  simp only [Code.ahead] at hcode ⊢
  omega

/-- A thread goes on to where less is left. -/
theorem setThread_pays (hF : ∀ u, s.thread u ≠ .absent → u ∈ F) (hy : s.thread t = y)
    (hlt : x.ahead < y.ahead) : Pays s (s.setThread t x) F 0 := by
  have ht : t ∈ F := by
    refine hF t fun habsent => ?_
    rw [← hy, habsent] at hlt
    exact Nat.not_lt_zero _ hlt
  refine ⟨F, known_setThread hF ht, ?_⟩
  have hset := effort_setThread (s := s) (x := x) ht
  rw [hy] at hset
  omega

/-- A step that begins no `spawn` costs one, and a `spawn` is worth seven. -/
theorem effort_next (hs : Contained s) (hF : ∀ t, s.thread t ≠ .absent → t ∈ F)
    (hn : next isException s a = some s') : Pays s s' F (8 * a.isSpawn.toNat) := by
  cases a with
  | spawn caller t =>
      unfold next at hn
      dsimp only at hn
      split at hn
      · rename_i hc ht
        cases hn
        exact spawn_pays hF hc ht
      · cases hn
  | step caller =>
      unfold next at hn
      dsimp only at hn
      split at hn
      · rename_i t hc
        cases hn
        exact start_pays hs hF hc
      · rename_i t hc
        cases hn
        exact register_pays hF hc
      · cases hn
  | startFails caller =>
      unfold next at hn
      dsimp only at hn
      split at hn
      · rename_i t hc
        cases hn
        exact startFails_pays hF hc
      · cases hn
  | finish t o =>
      unfold next at hn
      dsimp only at hn
      split at hn
      · rename_i hrun
        cases hn
        exact setThread_pays hF hrun (by simp [Thread.ahead, Code.ahead])
      · rename_i hrun
        cases hn
        exact setThread_pays hF hrun (by simp [Thread.ahead, Code.ahead])
      · cases hn
  | record t =>
      unfold next at hn
      dsimp only at hn
      split at hn
      · rename_i e hraised
        cases hn
        exact setThread_pays (s := { s with errors := s.errors ++ [e] }) hF hraised Nat.zero_lt_one
      · cases hn
  | leaveBody exc =>
      unfold next at hn
      dsimp only at hn
      split at hn
      · rename_i hbody
        cases hn
        refine ⟨F, hF, ?_⟩
        simp [State.effort, hbody, Body.ahead, Code.ahead]
        omega
      · cases hn
  | exit =>
      refine ⟨F, fun t ht => hF t ?_, (exitStep_lt hn).trans_le (Nat.le_add_right _ _)⟩
      rwa [← exitStep_thread hn]

/-- A thread that is alive can take a step of its own. -/
theorem able_of_alive (isException : E → Bool) (halive : (s.thread t).isAlive = true) :
    ∃ a, a.isSpawn = false ∧ (next isException s a).isSome = true := by
  cases ht : s.thread t with
  | running c =>
      cases c with
      | user => exact ⟨.finish t (.ok ()), rfl, by simp [next, ht]⟩
      | start u => exact ⟨.step (some t), rfl, by simp [next, State.code, ht]⟩
      | register u => exact ⟨.step (some t), rfl, by simp [next, State.code, ht]⟩
  | raised e => exact ⟨.record t, rfl, by simp [next, ht]⟩
  | _ =>
      rw [ht] at halive
      cases halive

/-- Until the statement is left a step can be taken that begins no `spawn`. -/
theorem able_of_not_left (isException : E → Bool) (hleft : ∀ exit, s.body ≠ .left exit) :
    ∃ a, a.isSpawn = false ∧ (next isException s a).isSome = true := by
  cases hbody : s.body with
  | code c =>
      cases c with
      | user => exact ⟨.leaveBody none, rfl, by simp [next, hbody]⟩
      | start u => exact ⟨.step none, rfl, by simp [next, State.code, hbody]⟩
      | register u => exact ⟨.step none, rfl, by simp [next, State.code, hbody]⟩
  | scan exc joined =>
      refine ⟨.exit, rfl, ?_⟩
      simp only [next, exitStep, hbody]
      split <;> rfl
  | join exc joined unjoined =>
      cases unjoined with
      | nil => exact ⟨.exit, rfl, by simp [next, exitStep, hbody]⟩
      | cons t rest =>
          cases halive : (s.thread t).isAlive with
          | true => exact able_of_alive isException halive
          | false => exact ⟨.exit, rfl, by simp [next, exitStep, hbody, halive]⟩
  | leave exc => exact ⟨.exit, rfl, by simp [next, exitStep, hbody]⟩
  | left exit => exact absurd hbody (hleft exit)

theorem length_le_effort (hrun : Run (next isException) State.init as s) :
    ∃ F, (∀ t, s.thread t ≠ .absent → t ∈ F) ∧
      as.length + s.effort F ≤ 8 * as.countP Act.isSpawn + 3 := by
  induction hrun with
  | nil =>
      refine ⟨∅, fun t ht => absurd rfl ht, ?_⟩
      simp [State.effort, State.init, Body.ahead, Code.ahead]
  | @snoc as s a s' hr _ hn ih =>
      obtain ⟨F, hF, hle⟩ := ih
      obtain ⟨F', hF', hnext⟩ := effort_next (contained_run hr) hF hn
      refine ⟨F', hF', ?_⟩
      have hcount : (as ++ [a]).countP Act.isSpawn = as.countP Act.isSpawn + a.isSpawn.toNat := by
        rw [List.countP_append, List.countP_singleton]
        cases a.isSpawn <;> rfl
      rw [hcount, List.length_append, List.length_singleton]
      omega

/-- In every run, however the tasks spawn, return and raise, at most eight steps are taken for each
`spawn`, and three more; until the `with` statement has been left one can be taken that begins no
`spawn`, be it that the code of a task ends. So the statement ends once nothing more is spawned and the
code of the tasks has come to its end. -/
theorem exit_ends (isException : E → Bool) (as : List (Act T E)) (s : State T E)
    (hrun : Run (next isException) State.init as s) :
    as.length ≤ 8 * as.countP Act.isSpawn + 3 ∧
      ((∃ exit, s.body = .left exit) ∨
        Able (next isException) (fun _ _ => True) (fun _ a => !a.isSpawn) s) := by
  constructor
  · obtain ⟨F, -, hle⟩ := length_le_effort hrun
    exact (Nat.le_add_right _ _).trans hle
  · by_cases hleft : ∃ exit, s.body = .left exit
    · exact .inl hleft
    · obtain ⟨a, ha, hsome⟩ := able_of_not_left isException (not_exists.mp hleft)
      obtain ⟨s', hn⟩ := Option.isSome_iff_exists.mp hsome
      exact .inr ⟨a, s', trivial, by simp [ha], hn⟩

/-- A child spawns a grandchild while `__exit__` waits for the child: eighteen steps, the most that two
calls of `spawn` are worth being nineteen. -/
def grandchildTrace : List (Act ℕ Unit) :=
  [.spawn none 0, .step none, .step none, .leaveBody none, .exit, .spawn (some 0) 1,
   .step (some 0), .step (some 0), .finish 0 (.ok ()), .exit, .exit, .exit,
   .finish 1 (.error ()), .record 1, .exit, .exit, .exit, .exit]

theorem grandchildTrace_exec :
    (exec (next fun _ => true) (fun _ _ => True) State.init grandchildTrace).map (fun s => decide
      (s.body = .left (.raised ()))) = some true := by
  decide +kernel

theorem exit_ends_grandchildTrace :
    ∃ s : State ℕ Unit, Run (next fun _ => true) State.init grandchildTrace s ∧
      grandchildTrace.length ≤ 8 * grandchildTrace.countP Act.isSpawn + 3 := by
  obtain ⟨s, hrun, -⟩ := exists_runWith_of_exec grandchildTrace_exec
  exact ⟨s, hrun, (exit_ends _ grandchildTrace s hrun).1⟩

end Pysync.Group
