import Pysync.GroupModel

/-!
No thread escapes a `ThreadGroup`. `spawn` registers a thread after it has started it, so that there
are threads which `__exit__` does not see; but such a thread hangs on a chain of spawners that are
still in `spawn` and whose first is registered, or is the body.
-/

namespace Pysync.Group
open Transition

variable {T E : Type} [DecidableEq T] {isException : E → Bool}
variable {s s' : State T E} {a : Act T E} {p t u : T} {x : Thread T E} {c c' : Code T}
variable {caller caller' : Option T} {as : List (Act T E)}
variable {P : State T E → Act T E → Prop}

/-- What one step of a group can do. -/
inductive GroupStep (isException : E → Bool) (s : State T E) : State T E → Prop
  | spawn {caller : Option T} {t : T} (hc : s.code caller = some .user)
      (ht : s.thread t = .absent) :
      GroupStep isException s ((s.setThread t .fresh).setCode caller (.start t))
  | start {caller : Option T} {t : T} (hc : s.code caller = some (.start t)) :
      GroupStep isException s ((s.setThread t (.running .user)).setCode caller (.register t))
  | register {caller : Option T} {t : T} (hc : s.code caller = some (.register t)) :
      GroupStep isException s (State.setCode { s with threads := s.threads ++ [t] } caller .user)
  | failed {caller : Option T} {t : T} (hc : s.code caller = some (.start t)) :
      GroupStep isException s (s.setCode caller .user)
  | finish {t : T} {x : Thread T E} (ht : s.thread t = .running .user)
      (hx : x = .ended ∨ ∃ e, x = .raised e) : GroupStep isException s (s.setThread t x)
  | record {t : T} {e : E} (ht : s.thread t = .raised e) :
      GroupStep isException s (State.setThread { s with errors := s.errors ++ [e] } t .ended)
  | leaveBody {exc : Option E} (hbody : s.body = .code .user) :
      GroupStep isException s { s with body := .scan exc [] }
  | exit {u : State T E} (hexit : exitStep isException s = some u) : GroupStep isException s u

theorem next_cases (hn : next isException s a = some s') : GroupStep isException s s' := by
  cases a with
  | spawn caller t =>
      unfold next at hn
      dsimp only at hn
      split at hn
      · rename_i hc ht
        cases hn
        exact .spawn hc ht
      · cases hn
  | step caller =>
      unfold next at hn
      dsimp only at hn
      split at hn
      · rename_i hc
        cases hn
        exact .start hc
      · rename_i hc
        cases hn
        exact .register hc
      · cases hn
  | startFails caller =>
      unfold next at hn
      dsimp only at hn
      split at hn
      · rename_i hc
        cases hn
        exact .failed hc
      · cases hn
  | finish t o =>
      unfold next at hn
      dsimp only at hn
      split at hn
      · cases hn
        exact .finish ‹_› (.inl rfl)
      · cases hn
        exact .finish ‹_› (.inr ⟨_, rfl⟩)
      · cases hn
  | record t =>
      unfold next at hn
      dsimp only at hn
      split at hn
      · rename_i ht
        cases hn
        exact .record ht
      · cases hn
  | leaveBody exc =>
      unfold next at hn
      dsimp only at hn
      split at hn
      · rename_i hbody
        cases hn
        exact .leaveBody hbody
      · cases hn
  | exit => exact .exit hn

theorem code_setCode_self (s : State T E) (caller : Option T) (c : Code T) :
    (s.setCode caller c).code caller = some c := by
  cases caller with
  | none => rfl
  | some p => simp [State.setCode, State.setThread, State.code]

theorem code_setCode_ne (s : State T E) (c : Code T) (h : caller' ≠ caller) :
    (s.setCode caller c).code caller' = s.code caller' := by
  cases caller with
  | none =>
      cases caller' with
      | none => exact (h rfl).elim
      | some p => rfl
  | some p =>
      cases caller' with
      | none => rfl
      | some q =>
          have hqp : q ≠ p := fun heq => h (congrArg some heq)
          simp [State.setCode, State.setThread, State.code, Function.update_of_ne hqp]

theorem thread_setThread_self (s : State T E) (t : T) (x : Thread T E) :
    (s.setThread t x).thread t = x := Function.update_self ..

theorem thread_setThread_ne (s : State T E) (x : Thread T E) (h : u ≠ t) :
    (s.setThread t x).thread u = s.thread u := Function.update_of_ne h ..

theorem code_setThread_ne (s : State T E) (x : Thread T E) (h : caller ≠ some t) :
    (s.setThread t x).code caller = s.code caller := by
  cases caller with
  | none => rfl
  | some p =>
      have hpt : p ≠ t := fun heq => h (congrArg some heq)
      simp [State.code, thread_setThread_ne s x hpt]

/-- A thread that runs no code of the user before and after does not count as a caller. -/
theorem code_setThread (s : State T E) (ht : s.code (some t) = none)
    (hx : ∀ c, x ≠ .running c) : (s.setThread t x).code caller = s.code caller := by
  by_cases hcaller : caller = some t
  · subst hcaller
    rw [ht, State.code, thread_setThread_self]
    cases x with
    | running c => exact (hx c rfl).elim
    | _ => rfl
  · exact code_setThread_ne s x hcaller

omit [DecidableEq T] in
theorem running_of_code (h : s.code (some p) = some c) : s.thread p = .running c := by
  unfold State.code at h
  dsimp only at h
  split at h
  · rename_i hp
    cases h
    exact hp
  · cases h

omit [DecidableEq T] in
theorem alive_of_code (h : s.code (some p) = some c) : (s.thread p).isAlive = true := by
  rw [running_of_code h]
  rfl

/-- A caller that goes on in `spawn` changes no thread but for its own code. -/
theorem thread_setCode (hc : s.code caller = some c') (t : T) :
    (s.setCode caller c).thread t = s.thread t ∨
      s.thread t = .running c' ∧ (s.setCode caller c).thread t = .running c := by
  cases caller with
  | none => exact .inl rfl
  | some p =>
      by_cases htp : t = p
      · subst htp
        exact .inr ⟨running_of_code hc, Function.update_self _ _ _⟩
      · exact .inl (Function.update_of_ne htp _ _)

/-- How a live thread hangs on the group: it is registered, or the body or another such thread is
about to register it. -/
inductive Anchored (s : State T E) : T → Prop
  | registered {t : T} (ht : t ∈ s.threads) : Anchored s t
  | body {t : T} (hc : s.code none = some (.register t)) : Anchored s t
  | child {p t : T} (hc : s.code (some p) = some (.register t)) (hp : Anchored s p) : Anchored s t

omit [DecidableEq T] in
theorem Anchored.mono (h : Anchored s t) (hthreads : ∀ u ∈ s.threads, u ∈ s'.threads)
    (hcode : ∀ caller u, s.code caller = some (.register u) →
      s'.code caller = some (.register u) ∨ u ∈ s'.threads) : Anchored s' t := by
  induction h with
  | registered ht => exact .registered (hthreads _ ht)
  | body hc => exact (hcode _ _ hc).elim .body .registered
  | child hc _ ih => exact (hcode _ _ hc).elim (fun hc' => .child hc' ih) .registered

/-- What the thread of the body knows in `__exit__`. -/
def Body.Knows (b : Body T E) (thread : T → Thread T E) : Prop :=
  match b with
  | .code _ => True
  | .scan _ joined => ∀ t ∈ joined, thread t = .ended
  | .join _ joined unjoined =>
      (∀ t ∈ joined, thread t = .ended) ∧ ∀ t ∈ unjoined, (thread t).hasIdent = true
  | .leave _ | .left _ => ∀ t, (thread t).isAlive = false

/-- Every live thread hangs on the group, a thread is started by its own spawner, what is registered
has been started, and what has been joined has ended. -/
structure Contained (s : State T E) : Prop where
  anchored : ∀ t, (s.thread t).isAlive = true → Anchored s t
  starting : ∀ caller t, s.code caller = some (.start t) → s.thread t = .fresh
  one : ∀ caller caller' t, s.code caller = some (.start t) → s.code caller' = some (.start t) →
    caller = caller'
  registering : ∀ caller t, s.code caller = some (.register t) → (s.thread t).hasIdent = true
  ident : ∀ t ∈ s.threads, (s.thread t).hasIdent = true
  body : s.body.Knows s.thread

/-- A thread goes on: it does not come to life, and what has ended has ended. -/
structure GoesOn (x y : Thread T E) : Prop where
  alive : y.isAlive = true → x.isAlive = true
  ident : x.hasIdent = true → y.hasIdent = true
  ended : x = .ended → y = .ended
  fresh : x = .fresh → y = .fresh

omit [DecidableEq T] in
theorem GoesOn.refl (x : Thread T E) : GoesOn x x := ⟨id, id, id, id⟩

omit [DecidableEq T] in
theorem GoesOn.trans {x y z : Thread T E} (h : GoesOn x y) (h' : GoesOn y z) : GoesOn x z :=
  ⟨h.alive ∘ h'.alive, h'.ident ∘ h.ident, h'.ended ∘ h.ended, h'.fresh ∘ h.fresh⟩

omit [DecidableEq T] in
theorem Body.Knows.mono {b : Body T E} {thread thread' : T → Thread T E} (h : b.Knows thread)
    (hgoes : ∀ t, GoesOn (thread t) (thread' t)) : b.Knows thread' := by
  cases b with
  | code c => trivial
  | scan exc joined => exact fun t ht => (hgoes t).ended (h t ht)
  | join exc joined unjoined =>
      exact ⟨fun t ht => (hgoes t).ended (h.1 t ht), fun t ht => (hgoes t).ident (h.2 t ht)⟩
  | leave exc =>
      intro t
      by_contra halive
      have := (hgoes t).alive (by simpa using halive)
      rw [h t] at this
      cases this
  | left exit =>
      intro t
      by_contra halive
      have := (hgoes t).alive (by simpa using halive)
      rw [h t] at this
      cases this

omit [DecidableEq T] in
/-- Nobody comes to life when nothing but callers go on. -/
theorem Contained.goto (h : Contained s) (hgoes : ∀ t, GoesOn (s.thread t) (s'.thread t))
    (hthreads : ∀ u ∈ s.threads, u ∈ s'.threads)
    (hnew : ∀ u ∈ s'.threads, u ∈ s.threads ∨ (s.thread u).hasIdent = true)
    (hcode : ∀ caller c, s'.code caller = some c → s.code caller = some c ∨ c = .user)
    (hregister : ∀ caller u, s.code caller = some (.register u) →
      s'.code caller = some (.register u) ∨ u ∈ s'.threads)
    (hbody : s'.body.Knows s'.thread) : Contained s' where
  anchored t ht := (h.anchored t ((hgoes t).alive ht)).mono hthreads hregister
  starting caller t hc := by
    rcases hcode caller _ hc with hold | hnew
    · exact (hgoes t).fresh (h.starting caller t hold)
    · cases hnew
  one caller caller' t hc hc' := by
    rcases hcode caller _ hc with hold | hnew
    · rcases hcode caller' _ hc' with hold' | hnew'
      · exact h.one caller caller' t hold hold'
      · cases hnew'
    · cases hnew
  registering caller t hc := by
    rcases hcode caller _ hc with hold | hnew
    · exact (hgoes t).ident (h.registering caller t hold)
    · cases hnew
  ident t ht := (hnew t ht).elim (fun hold => (hgoes t).ident (h.ident t hold)) (hgoes t).ident
  body := hbody

theorem goesOn_setThread (h : GoesOn (s.thread t) x) (u : T) :
    GoesOn (s.thread u) ((s.setThread t x).thread u) := by
  by_cases hut : u = t
  · subst hut
    rwa [thread_setThread_self]
  · rw [thread_setThread_ne s x hut]
    exact .refl _

theorem goesOn_setCode (hc : s.code caller = some c') (t : T) :
    GoesOn (s.thread t) ((s.setCode caller c).thread t) := by
  rcases thread_setCode (c := c) hc t with hsame | ⟨hold, hnew⟩
  · rw [hsame]
    exact .refl _
  · rw [hold, hnew]
    exact ⟨fun _ => rfl, fun _ => rfl, fun h => (by cases h), fun h => (by cases h)⟩

theorem knows_setCode (h : s.body.Knows s.thread) (hc : s.code caller = some c') :
    (s.setCode caller c).body.Knows (s.setCode caller c).thread := by
  cases caller with
  | none => trivial
  | some p => exact h.mono (goesOn_setCode hc)

/-- A thread that comes to life has not been joined, nor seen by the body. -/
theorem Body.Knows.starts {b : Body T E} (h : b.Knows s.thread) (hfresh : s.thread t = .fresh)
    (hleft : ∀ exc exit, ¬ (b = .leave exc ∨ b = .left exit)) :
    b.Knows (s.setThread t (.running .user)).thread := by
  have hended : ∀ u, s.thread u = .ended → (s.setThread t (.running .user)).thread u = .ended := by
    intro u hu
    have hut : u ≠ t := by
      rintro rfl
      rw [hfresh] at hu
      cases hu
    exact (Function.update_of_ne hut _ _).trans hu
  cases b with
  | code c => trivial
  | scan exc joined => exact fun u hu => hended u (h u hu)
  | join exc joined unjoined =>
      refine ⟨fun u hu => hended u (h.1 u hu), fun u hu => ?_⟩
      show (Function.update s.thread t _ u).hasIdent = true
      by_cases hut : u = t
      · subst hut
        rw [Function.update_self]
        rfl
      · rw [Function.update_of_ne hut]
        exact h.2 u hu
  | leave exc => exact (hleft exc .returned (.inl rfl)).elim
  | left exit => exact (hleft none exit (.inr rfl)).elim

/-- A caller of `spawn` returns to code of the user. -/
theorem Contained.returned (h : Contained s) {threads : List T} (hc : s.code caller = some c)
    (hthreads : ∀ u ∈ s.threads, u ∈ threads)
    (hnew : ∀ u ∈ threads, u ∈ s.threads ∨ (s.thread u).hasIdent = true)
    (hregister : ∀ u, c = .register u → u ∈ threads) :
    Contained (State.setCode { s with threads := threads } caller .user) := by
  have hc' : State.code { s with threads := threads } caller = some c := hc
  have hlist : (State.setCode { s with threads := threads } caller .user).threads = threads := by
    cases caller <;> rfl
  refine h.goto (fun t => goesOn_setCode hc' t) (by rwa [hlist]) (by rwa [hlist])
    (fun caller' c' hcode => ?_) (fun caller' u hcode => ?_) (knows_setCode h.body hc')
  · by_cases heq : caller' = caller
    · rw [heq, code_setCode_self] at hcode
      exact .inr (Option.some.inj hcode).symm
    · rw [code_setCode_ne _ _ heq] at hcode
      exact .inl hcode
  · rw [hlist]
    by_cases heq : caller' = caller
    · rw [heq, hc] at hcode
      exact .inr (hregister u (Option.some.inj hcode))
    · rw [code_setCode_ne _ _ heq]
      exact .inl hcode

/-- A target ends, or its exception is recorded. -/
theorem Contained.ends (h : Contained s) (errors : List E) (hx : ∀ c, x ≠ .running c)
    (hcode : ∀ u, s.code (some t) ≠ some (.register u)) (hgoes : GoesOn (s.thread t) x) :
    Contained (State.setThread { s with errors := errors } t x) := by
  have hthread := goesOn_setThread hgoes
  refine h.goto hthread (fun _ => id) (fun _ => .inl) (fun caller c hc => .inl ?_)
    (fun caller u hc => .inl ?_) (h.body.mono hthread)
  · by_cases heq : caller = some t
    · subst heq
      have hrunning := running_of_code hc
      exact (hx c ((thread_setThread_self s t x).symm.trans hrunning)).elim
    · exact (code_setThread_ne s x heq).symm.trans hc
  · have hne : caller ≠ some t := by
      rintro rfl
      exact hcode u hc
    exact (code_setThread_ne s x hne).trans hc

theorem Contained.spawn (h : Contained s) (hc : s.code caller = some .user)
    (ht : s.thread t = .absent) :
    Contained ((s.setThread t .fresh).setCode caller (.start t)) := by
  have hnone : s.code (some t) = none := by simp [State.code, ht]
  have hcode : ∀ caller', (s.setThread t .fresh).code caller' = s.code caller' := fun _ =>
    code_setThread s hnone (by simp)
  have hc' : (s.setThread t .fresh).code caller = some .user := (hcode caller).trans hc
  have hfresh : ∀ u, GoesOn (s.thread u) ((s.setThread t .fresh).thread u) := by
    refine goesOn_setThread ?_
    rw [ht]
    exact ⟨fun h => (by cases h), fun h => (by cases h), fun h => (by cases h), fun h => (by cases h)⟩
  have hgoes : ∀ u, GoesOn (s.thread u)
      (((s.setThread t .fresh).setCode caller (.start t)).thread u) := fun u =>
    (hfresh u).trans (goesOn_setCode hc' u)
  have hthreads : ((s.setThread t .fresh).setCode caller (.start t)).threads = s.threads := by
    cases caller <;> rfl
  have hafter : ∀ caller' c, ((s.setThread t .fresh).setCode caller (.start t)).code caller' =
      some c → caller' = caller ∧ c = .start t ∨ s.code caller' = some c := by
    intro caller' c hcaller
    by_cases heq : caller' = caller
    · rw [heq, code_setCode_self] at hcaller
      exact .inl ⟨heq, (Option.some.inj hcaller).symm⟩
    · rw [code_setCode_ne _ _ heq, hcode] at hcaller
      exact .inr hcaller
  have hnobody : ∀ caller', s.code caller' ≠ some (.start t) := by
    intro caller' hstart
    rw [h.starting caller' t hstart] at ht
    cases ht
  refine ⟨fun u hu => ?_, fun caller' u hu => ?_, fun caller₁ caller₂ u h₁ h₂ => ?_,
    fun caller' u hu => ?_, fun u hu => ?_, ?_⟩
  · refine (h.anchored u ((hgoes u).alive hu)).mono (by simp [hthreads]) fun caller' v hv => .inl ?_
    have hne : caller' ≠ caller := by
      rintro rfl
      rw [hc] at hv
      cases hv
    rwa [code_setCode_ne _ _ hne, hcode]
  · rcases hafter caller' _ hu with ⟨-, heq⟩ | hold
    · cases heq
      rcases thread_setCode (c := .start t) hc' t with hsame | ⟨hrun, -⟩
      · exact hsame.trans (thread_setThread_self s t .fresh)
      · cases (thread_setThread_self s t .fresh).symm.trans hrun
    · exact (hgoes u).fresh (h.starting caller' u hold)
  · rcases hafter caller₁ _ h₁ with ⟨rfl, heq⟩ | hold₁
    · cases heq
      rcases hafter caller₂ _ h₂ with ⟨rfl, -⟩ | hold₂
      · rfl
      · exact (hnobody _ hold₂).elim
    · rcases hafter caller₂ _ h₂ with ⟨rfl, heq⟩ | hold₂
      · cases heq
        exact (hnobody _ hold₁).elim
      · exact h.one caller₁ caller₂ u hold₁ hold₂
  · rcases hafter caller' _ hu with ⟨-, heq⟩ | hold
    · cases heq
    · exact (hgoes u).ident (h.registering caller' u hold)
  · rw [hthreads] at hu
    exact (hgoes u).ident (h.ident u hu)
  · exact knows_setCode (h.body.mono hfresh) hc'

omit [DecidableEq T] in
/-- While somebody runs Python code, the body has not left `__exit__`. -/
theorem Contained.not_left (h : Contained s) (hc : s.code caller = some c) (exc : Option E)
    (exit : Exit E) : ¬ (s.body = .leave exc ∨ s.body = .left exit) := by
  intro hbody
  cases caller with
  | none =>
      simp only [State.code] at hc
      rcases hbody with hbody | hbody <;> rw [hbody] at hc <;> cases hc
  | some p =>
      have hdead := h.body
      have halive := alive_of_code hc
      rcases hbody with hbody | hbody <;> rw [hbody] at hdead <;> rw [hdead p] at halive <;>
        cases halive

/-- A thread comes to life, and its spawner is about to register it. -/
theorem Contained.start (h : Contained s) (hc : s.code caller = some (.start t)) :
    Contained ((s.setThread t (.running .user)).setCode caller (.register t)) := by
  have hfresh := h.starting caller t hc
  have hct : caller ≠ some t := by
    rintro rfl
    rw [running_of_code hc] at hfresh
    cases hfresh
  have hc' : (s.setThread t (.running .user)).code caller = some (.start t) :=
    (code_setThread_ne s _ hct).trans hc
  have hgoes : ∀ u, u ≠ t → GoesOn (s.thread u)
      (((s.setThread t (.running .user)).setCode caller (.register t)).thread u) := by
    intro u hu
    rw [← thread_setThread_ne s (.running .user) hu]
    exact goesOn_setCode hc' u
  have hself : (((s.setThread t (.running .user)).setCode caller (.register t)).thread t) =
      .running .user := by
    rcases thread_setCode (c := .register t) hc' t with hsame | ⟨hrun, -⟩
    · exact hsame.trans (thread_setThread_self s t _)
    · cases (thread_setThread_self s t _).symm.trans hrun
  have hthreads : ((s.setThread t (.running .user)).setCode caller (.register t)).threads =
      s.threads := by
    cases caller <;> rfl
  have hafter : ∀ caller' c,
      ((s.setThread t (.running .user)).setCode caller (.register t)).code caller' = some c →
        c = .register t ∨ c = .user ∨ caller' ≠ caller ∧ s.code caller' = some c := by
    intro caller' c hcaller
    by_cases heq : caller' = caller
    · rw [heq, code_setCode_self] at hcaller
      exact .inl (Option.some.inj hcaller).symm
    · rw [code_setCode_ne _ _ heq] at hcaller
      by_cases hself : caller' = some t
      · subst hself
        simp only [State.code, thread_setThread_self] at hcaller
        exact .inr (.inl (Option.some.inj hcaller).symm)
      · exact .inr (.inr ⟨heq, (code_setThread_ne s _ hself).symm.trans hcaller⟩)
  have hmono : ∀ u, Anchored s u →
      Anchored ((s.setThread t (.running .user)).setCode caller (.register t)) u := by
    intro u hu
    refine hu.mono (by simp [hthreads]) fun caller' v hv => .inl ?_
    have hne : caller' ≠ caller := by
      rintro rfl
      rw [hc] at hv
      cases hv
    have hnet : caller' ≠ some t := by
      rintro rfl
      rw [running_of_code hv] at hfresh
      cases hfresh
    rwa [code_setCode_ne _ _ hne, code_setThread_ne s _ hnet]
  refine ⟨fun u hu => ?_, fun caller' u hu => ?_, fun caller₁ caller₂ u h₁ h₂ => ?_,
    fun caller' u hu => ?_, fun u hu => ?_, ?_⟩
  · by_cases hut : u = t
    · subst hut
      cases caller with
      | none => exact .body (code_setCode_self _ _ _)
      | some p => exact .child (code_setCode_self _ _ _) (hmono p (h.anchored p (alive_of_code hc)))
    · exact hmono u (h.anchored u ((hgoes u hut).alive hu))
  · rcases hafter caller' _ hu with heq | heq | ⟨hne, hold⟩
    · cases heq
    · cases heq
    · have hut : u ≠ t := by
        rintro rfl
        exact hne (h.one caller' caller u hold hc)
      exact (hgoes u hut).fresh (h.starting caller' u hold)
  · rcases hafter caller₁ _ h₁ with heq | heq | ⟨-, hold₁⟩
    · cases heq
    · cases heq
    · rcases hafter caller₂ _ h₂ with heq | heq | ⟨-, hold₂⟩
      · cases heq
      · cases heq
      · exact h.one caller₁ caller₂ u hold₁ hold₂
  · by_cases hut : u = t
    · rw [hut, hself]
      rfl
    · rcases hafter caller' _ hu with heq | heq | ⟨-, hold⟩
      · cases heq
        exact (hut rfl).elim
      · cases heq
      · exact (hgoes u hut).ident (h.registering caller' u hold)
  · rw [hthreads] at hu
    by_cases hut : u = t
    · rw [hut, hself]
      rfl
    · exact (hgoes u hut).ident (h.ident u hu)
  · exact knows_setCode (h.body.starts hfresh (h.not_left hc)) hc'

omit [DecidableEq T] in
/-- When all registered threads have ended and the body is in `__exit__`, nothing is alive. -/
theorem Anchored.not_alive (h : Anchored s t) (hbody : s.code none = none)
    (hended : ∀ u ∈ s.threads, s.thread u = .ended) : (s.thread t).isAlive = false := by
  induction h with
  | registered ht =>
      rw [hended _ ht]
      rfl
  | body hc =>
      rw [hbody] at hc
      cases hc
  | child hc _ ih =>
      rw [alive_of_code hc] at ih
      cases ih

omit [DecidableEq T] in
theorem ended_of_not_alive (halive : x.isAlive = false) (hident : x.hasIdent = true) :
    x = .ended := by
  cases x with
  | ended => rfl
  | absent | fresh => cases hident
  | running | raised => cases halive

omit [DecidableEq T] in
/-- A step of `__exit__` leaves the threads alone. -/
theorem Contained.exitStep (h : Contained s) {b : Body T E} (hcode : s.code none = none)
    (hb : State.code { s with body := b } none = none) (hknows : b.Knows s.thread) :
    Contained { s with body := b } := by
  have hsame : ∀ caller, State.code { s with body := b } caller = s.code caller := by
    intro caller
    cases caller with
    | none => rw [hb, hcode]
    | some p => rfl
  exact h.goto (fun _ => .refl _) (fun _ => id) (fun _ => .inl)
    (fun caller c hc => .inl (hsame caller ▸ hc)) (fun caller u hc => .inl ((hsame caller).trans hc))
    hknows

theorem Contained.exit (h : Contained s) (hexit : Group.exitStep isException s = some s') :
    Contained s' := by
  have hknows := h.body
  unfold Group.exitStep at hexit
  split at hexit
  · rename_i exc joined hbody
    rw [hbody] at hknows
    have hcode : s.code none = none := by simp [State.code, hbody]
    split at hexit
    · rename_i hnone
      cases hexit
      refine h.exitStep hcode rfl fun t => ?_
      by_contra halive
      have hended : ∀ u ∈ s.threads, s.thread u = .ended := by
        intro u hu
        have hmem := List.filter_eq_nil_iff.mp hnone u hu
        exact hknows u (by simpa using hmem)
      have hdead := (h.anchored t (by simpa using halive)).not_alive hcode hended
      exact halive hdead
    · cases hexit
      refine h.exitStep hcode rfl ⟨hknows, fun t ht => ?_⟩
      exact h.ident t (List.mem_of_mem_filter ht)
  · rename_i exc joined hbody
    rw [hbody] at hknows
    cases hexit
    exact h.exitStep (by simp [State.code, hbody]) rfl hknows.1
  · rename_i exc joined t rest hbody
    rw [hbody] at hknows
    dsimp only at hexit
    split at hexit
    · cases hexit
    · rename_i hfree
      cases hexit
      have hident := hknows.2 t List.mem_cons_self
      have hended : s.thread t = .ended :=
        ended_of_not_alive (by simpa [hident] using hfree) hident
      refine h.exitStep (by simp [State.code, hbody]) rfl ⟨fun u hu => ?_, fun u hu => ?_⟩
      · rcases List.mem_append.mp hu with hold | hnew
        · exact hknows.1 u hold
        · rw [List.mem_singleton.mp hnew]
          exact hended
      · exact hknows.2 u (List.mem_cons_of_mem _ hu)
  · rename_i exc hbody
    rw [hbody] at hknows
    cases hexit
    exact h.exitStep (by simp [State.code, hbody]) rfl hknows
  · cases hexit

theorem Contained.next (h : Contained s) (hn : next isException s a = some s') : Contained s' := by
  cases next_cases hn with
  | spawn hc ht => exact h.spawn hc ht
  | start hc => exact h.start hc
  | register hc =>
      refine h.returned hc (fun u hu => List.mem_append_left _ hu) (fun u hu => ?_) fun u hu => ?_
      · rcases List.mem_append.mp hu with hold | hnew
        · exact .inl hold
        · rw [List.mem_singleton.mp hnew]
          exact .inr (h.registering _ _ hc)
      · cases hu
        exact List.mem_append_right _ (List.mem_singleton.mpr rfl)
  | failed hc => exact h.returned hc (fun _ => id) (fun _ => .inl) (by simp)
  | finish ht hx =>
      refine h.ends s.errors ?_ (by simp [State.code, ht]) ?_
      · rcases hx with rfl | ⟨e, rfl⟩ <;> simp
      · rw [ht]
        rcases hx with rfl | ⟨e, rfl⟩ <;>
          exact ⟨fun _ => rfl, fun _ => rfl, fun h => (by cases h), fun h => (by cases h)⟩
  | record ht =>
      refine h.ends _ (by simp) (by simp [State.code, ht]) ?_
      rw [ht]
      exact ⟨fun _ => rfl, fun _ => rfl, fun h => (by cases h), fun h => (by cases h)⟩
  | leaveBody hbody =>
      refine h.goto (fun _ => .refl _) (fun _ => id) (fun _ => .inl) (fun caller c hc => .inl ?_)
        (fun caller u hc => .inl ?_) fun t ht => absurd ht List.not_mem_nil
      · cases caller with
        | none => cases hc
        | some p => exact hc
      · cases caller with
        | none =>
            simp only [State.code, hbody] at hc
            cases hc
        | some p => exact hc
  | exit hexit => exact h.exit hexit

theorem contained_run (h : RunWith (next isException) P State.init as s) : Contained s := by
  have hinit : Contained (State.init : State T E) := by
    refine ⟨fun _ h => (by cases h), fun caller t hc => ?_, fun caller _ t hc => ?_,
      fun caller t hc => ?_, fun _ h => absurd h List.not_mem_nil, trivial⟩
    all_goals cases caller <;> cases hc
  exact h.invariant hinit fun _ _ _ hs _ hn => hs.next hn

/-- For every tree of spawns, every interleaving and every pattern of exceptions: when `__exit__` has
returned or raised, every thread that was started has ended. -/
theorem no_escape (isException : E → Bool) (as : List (Act T E)) (s : State T E)
    (hrun : Run (next isException) State.init as s) (exit : Exit E) (hleft : s.body = .left exit)
    (t : T) : (s.thread t).isAlive = false ∧
      ((s.thread t).hasIdent = true → s.thread t = .ended) := by
  have hdead := (contained_run hrun).body
  rw [hleft] at hdead
  exact ⟨hdead t, ended_of_not_alive (hdead t)⟩

/-- A child spawns a grandchild while the body joins the child; the grandchild raises. -/
def escapeTrace : List (Act ℕ Unit) :=
  [.spawn none 0, .step none, .step none, .leaveBody none, .exit, .spawn (some 0) 1,
   .step (some 0), .step (some 0), .finish 0 (.ok ()), .exit, .exit, .exit,
   .finish 1 (.error ()), .record 1, .exit, .exit, .exit, .exit]

theorem escapeTrace_exec :
    (exec (next fun _ => true) (fun _ _ => True) State.init escapeTrace).map (fun s => decide
      (s.body = .left (.raised ()) ∧ (s.thread 1).hasIdent = true)) = some true := by
  decide +kernel

theorem no_escape_escapeTrace :
    ∃ s : State ℕ Unit, Run (next fun _ => true) State.init escapeTrace s ∧
      s.body = .left (.raised ()) ∧ s.thread 1 = .ended := by
  obtain ⟨s, hrun, hs⟩ := exists_runWith_of_exec escapeTrace_exec
  obtain ⟨hleft, hident⟩ := of_decide_eq_true hs
  exact ⟨s, hrun, hleft, (no_escape _ escapeTrace s hrun _ hleft 1).2 hident⟩

end Pysync.Group
