import Pysync.AttributeGuard

/-!
The construction of an actor. A wrapped `__init__` counts itself in `_init_depth` while its original
runs, and the originals call one another through `super()`; whatever returns, raises or is caught on the
way, the count comes out even, and only the outermost wrapper sees it come to zero.
-/

namespace Pysync.Attribute
open Transition

/-- What an original `__init__` does, as far as the wrappers can tell. -/
inductive Init where
  | returns
  | raises
  /-- It calls a wrapped `__init__`, whose original does `inner`. An exception of it goes through, unless
  it is caught. -/
  | calls (inner : Init) (caught : Bool) (rest : Init)
  deriving DecidableEq

/-- It returns. -/
def Init.succeeds : Init → Bool
  | .returns => true
  | .raises => false
  | .calls inner caught rest => (inner.succeeds || caught) && rest.succeeds

variable {C T V : Type} {cls : Cls V} {s s₀ s' t u v : State C T V}
variable {a : Act C T V} {c d : C} {as bs : List (Act C T V)} {k : Call T V}

/-- A step of no wrapped `__init__`: other code of the constructors, and of other threads. -/
def Act.Aside (s : State C T V) : Act C T V → Prop
  | .beginInit _ | .endInit _ _ => False
  | .step c _ => ∀ pc, s.calls c ≠ .wrapped pc
  | _ => True

/-- A step of the wrapper that runs as the call `c`, or of no wrapper. -/
def Own (c : C) (s : State C T V) (a : Act C T V) : Prop :=
  a.Aside s ∨ a = .beginInit c ∨ ∃ byUser, a = .step c byUser

/-- One wrapped `__init__` from its call to its end; `body` says what its original may do. -/
inductive Wrapped [DecidableEq C] [DecidableEq T] (cls : Cls V)
    (body : State C T V → List (Act C T V) → State C T V → Prop)
    (success : Bool) : State C T V → List (Act C T V) → State C T V → Prop
  | mk {c : C} {s s₁ s₂ s₃ t : State C T V} {enter mid leave : List (Act C T V)}
      (hidle : s.calls c = .idle) (henter : RunWith (next cls) (Own c) s enter s₁)
      (hbody : s₁.calls c = .wrapped .body) (hmid : body s₁ mid s₂)
      (hend : next cls s₂ (.endInit c success) = some s₃)
      (hleave : RunWith (next cls) (Own c) s₃ leave t) (hended : t.calls c = .wrapped .ended) :
      Wrapped cls body success s (enter ++ mid ++ .endInit c success :: leave) t

/-- The runs of an original `__init__` that does `i`. -/
def Runs [DecidableEq C] [DecidableEq T] (cls : Cls V) :
    Init → State C T V → List (Act C T V) → State C T V → Prop
  | .returns | .raises => fun s as t => RunWith (next cls) (fun s a => a.Aside s) s as t
  | .calls inner caught rest => fun s as t => ∃ pre mid post u v, as = pre ++ mid ++ post ∧
      RunWith (next cls) (fun s a => a.Aside s) s pre u ∧
      Wrapped cls (Runs cls inner) inner.succeeds u mid v ∧
      if inner.succeeds || caught then Runs cls rest v post t
      else RunWith (next cls) (fun s a => a.Aside s) v post t

/-- The steps of no wrapper leave the two fields alone, and the wrappers. -/
structure Same (s t : State C T V) : Prop where
  depth : t.initDepth = s.initDepth
  initialized : t.initialized = s.initialized
  wrapped : ∀ c pc, t.calls c = .wrapped pc ↔ s.calls c = .wrapped pc

theorem AccessStep.initDepth [DecidableEq T] {t : T} {name : String} {op : Op V} {pc : Pc T V}
    (h : AccessStep cls s t name op pc s' k) : s'.initDepth = s.initDepth := by
  cases h with
  | direct byUser =>
      obtain ⟨attrs, hs', -⟩ := direct_frame cls s op name byUser
      rw [hs']
  | _ => rfl

theorem AccessStep.not_wrapped [DecidableEq T] {t : T} {name : String} {op : Op V} {pc : Pc T V}
    (h : AccessStep cls s t name op pc s' k) (pc' : InitPc) : k ≠ .wrapped pc' := by
  cases h <;> simp

theorem Same.refl (s : State C T V) : Same s s := ⟨rfl, rfl, fun _ _ => .rfl⟩

theorem Same.trans (h : Same s t) (h' : Same t u) : Same s u :=
  ⟨h'.depth.trans h.depth, h'.initialized.trans h.initialized,
    fun c pc => (h'.wrapped c pc).trans (h.wrapped c pc)⟩

variable [DecidableEq C]

/-- A call that is no wrapper goes on. -/
theorem Same.setCall (hcalls : s'.calls = s.calls) (hdepth : s'.initDepth = s.initDepth)
    (hinit : s'.initialized = s.initialized) (hold : ∀ pc, s.calls c ≠ .wrapped pc)
    (hnew : ∀ pc, k ≠ .wrapped pc) : Same s (s'.setCall c k) := by
  refine ⟨hdepth, hinit, fun d pc => ?_⟩
  by_cases hd : d = c
  · subst hd
    rw [State.calls_setCall_self]
    exact ⟨fun h => (hnew pc h).elim, fun h => (hold pc h).elim⟩
  · rw [State.calls_setCall_ne _ _ hd, hcalls]

theorem aside_next [DecidableEq T] (hn : next cls s a = some t) (ha : a.Aside s) : Same s t := by
  cases a with
  | invoke c thread op name =>
      unfold next at hn
      dsimp only at hn
      split at hn
      · rename_i hidle
        split at hn <;> cases hn
        exact .setCall rfl rfl rfl (by simp [hidle]) (by simp)
      · cases hn
  | step c byUser =>
      unfold next at hn
      dsimp only at hn
      split at hn
      · rename_i hcall
        obtain ⟨s', k, rfl, hstep⟩ := stepAccess_cases hn
        exact .setCall hstep.calls hstep.initDepth hstep.initialized ha hstep.not_wrapped
      · rename_i hcall
        exact (ha _ hcall).elim
      · cases hn
  | make c w =>
      unfold next at hn
      dsimp only at hn
      split at hn
      · rename_i hcall _ _
        split at hn <;> cases hn
        exact .setCall rfl rfl rfl (by simp [hcall]) (by simp)
      · cases hn
  | beginInit c => exact ha.elim
  | endInit c success => exact ha.elim
  | initThread =>
      cases hn
      exact ⟨rfl, rfl, fun _ _ => .rfl⟩
  | initLock =>
      cases hn
      exact ⟨rfl, rfl, fun _ _ => .rfl⟩
  | stop =>
      cases hn
      exact ⟨rfl, rfl, fun _ _ => .rfl⟩

/-- What a step of the wrapper `c` does, if it is one. -/
theorem own_next [DecidableEq T] (hn : next cls s a = some t) (ha : Own c s a) :
    Same s t ∨ (s.calls c = .idle ∧ t = s.setCall c (.wrapped .enter)) ∨
      ∃ pc, s.calls c = .wrapped pc ∧ stepWrapped s c pc = some t := by
  rcases ha with haside | rfl | ⟨byUser, rfl⟩
  · exact .inl (aside_next hn haside)
  · unfold next at hn
    dsimp only at hn
    split at hn
    · rename_i hidle
      cases hn
      exact .inr (.inl ⟨hidle, rfl⟩)
    · cases hn
  · by_cases hw : ∃ pc, s.calls c = .wrapped pc
    · obtain ⟨pc, hpc⟩ := hw
      refine .inr (.inr ⟨pc, hpc, ?_⟩)
      unfold next at hn
      dsimp only at hn
      rw [hpc] at hn
      exact hn
    · exact .inl (aside_next hn fun pc hpc => hw ⟨pc, hpc⟩)

/-- A wrapper on its way in, when `_init_depth` was `d`. -/
def Call.Enters (d depth : ℤ) : Call T V → Prop
  | .wrapped .enter => depth = d
  | .wrapped (.deepen n) => n = d ∧ depth = d
  | .wrapped .body => depth = d + 1
  | .wrapped _ => False
  | _ => depth = d

/-- A wrapper on its way out, when the original has returned or not; `_initialized` was `b`. -/
def Call.Leaves (d : ℤ) (b success : Bool) (depth : ℤ) (initialized : Bool) : Call T V → Prop
  | .wrapped (.leave ok) => ok = success ∧ depth = d + 1 ∧ initialized = b
  | .wrapped (.lessen ok n) => ok = success ∧ n = d ∧ depth = d + 1 ∧ initialized = b
  | .wrapped .finish => success = true ∧ d ≤ 0 ∧ depth = d ∧ initialized = b
  | .wrapped .ended => depth = d ∧ initialized = (b || (success && decide (d ≤ 0)))
  | _ => False

/-- The other wrappers stand where they stood. -/
def OthersKept (c : C) (s t : State C T V) : Prop :=
  ∀ e, e ≠ c → ∀ pc, t.calls e = .wrapped pc ↔ s.calls e = .wrapped pc

theorem othersKept_setCall (hcalls : s'.calls = s.calls) : OthersKept c s (s'.setCall c k) := by
  intro e he pc
  rw [State.calls_setCall_ne _ _ he, hcalls]

omit [DecidableEq C] in
theorem OthersKept.trans (h : OthersKept c s t) (h' : OthersKept c t u) : OthersKept c s u :=
  fun e he pc => (h' e he pc).trans (h e he pc)

omit [DecidableEq C] in
theorem Same.othersKept (h : Same s t) : OthersKept c s t := fun e _ pc => h.wrapped e pc

/-- What the wrapper does before its original runs. -/
structure Entering (c : C) (s₀ s : State C T V) : Prop where
  initialized : s.initialized = s₀.initialized
  enters : (s.calls c).Enters s₀.initDepth s.initDepth
  others : OthersKept c s₀ s

theorem Entering.next [DecidableEq T] (h : Entering c s₀ s) (ha : Own c s a) (hn : next cls s a = some t) :
    Entering c s₀ t := by
  have henters := h.enters
  rcases own_next hn ha with hsame | ⟨hidle, rfl⟩ | ⟨pc, hpc, hstep⟩
  · refine ⟨hsame.initialized.trans h.initialized, ?_, h.others.trans hsame.othersKept⟩
    rw [hsame.depth]
    by_cases hw : ∃ pc, s.calls c = .wrapped pc
    · obtain ⟨pc, hpc⟩ := hw
      rwa [(hsame.wrapped c pc).mpr hpc, ← hpc]
    · have hd : s.initDepth = s₀.initDepth := by
        cases hc : s.calls c with
        | wrapped pc => exact (hw ⟨pc, hc⟩).elim
        | _ =>
            rw [hc] at henters
            exact henters
      cases hc : t.calls c with
      | wrapped pc => exact (hw ⟨pc, (hsame.wrapped c pc).mp hc⟩).elim
      | _ => exact hd
  · rw [hidle] at henters
    refine ⟨h.initialized, ?_, h.others.trans (othersKept_setCall rfl)⟩
    rw [State.calls_setCall_self]
    exact henters
  · rw [hpc] at henters
    cases pc with
    | enter =>
        cases hstep
        refine ⟨h.initialized, ?_, h.others.trans (othersKept_setCall rfl)⟩
        rw [State.calls_setCall_self]
        exact ⟨henters, henters⟩
    | deepen n =>
        cases hstep
        refine ⟨h.initialized, ?_, h.others.trans (othersKept_setCall rfl)⟩
        rw [State.calls_setCall_self]
        exact congrArg (· + 1) henters.1
    | body => cases hstep
    | _ => exact henters.elim

/-- What the wrapper does when its original has ended. -/
structure Leaving (c : C) (success : Bool) (d : ℤ) (b : Bool) (s₀ s : State C T V) : Prop where
  leaves : (s.calls c).Leaves d b success s.initDepth s.initialized
  others : OthersKept c s₀ s

theorem Leaving.next [DecidableEq T] {success b : Bool} {d : ℤ} (h : Leaving c success d b s₀ s)
    (ha : Own c s a) (hn : next cls s a = some t) : Leaving c success d b s₀ t := by
  have hleaves := h.leaves
  rcases own_next hn ha with hsame | ⟨hidle, rfl⟩ | ⟨pc, hpc, hstep⟩
  · refine ⟨?_, h.others.trans hsame.othersKept⟩
    rw [hsame.depth, hsame.initialized]
    cases hc : s.calls c with
    | wrapped pc =>
        rw [(hsame.wrapped c pc).mpr hc, ← hc]
        exact hleaves
    | _ =>
        rw [hc] at hleaves
        exact hleaves.elim
  · rw [hidle] at hleaves
    exact hleaves.elim
  · rw [hpc] at hleaves
    cases pc with
    | leave ok =>
        obtain ⟨rfl, hdepth, hinit⟩ := hleaves
        cases hstep
        refine ⟨?_, h.others.trans (othersKept_setCall rfl)⟩
        rw [State.calls_setCall_self]
        exact ⟨rfl, by omega, hdepth, hinit⟩
    | lessen ok n =>
        obtain ⟨rfl, rfl, hdepth, hinit⟩ := hleaves
        cases hstep
        refine ⟨?_, h.others.trans (othersKept_setCall rfl)⟩
        rw [State.calls_setCall_self]
        split
        · rename_i hfinish
          obtain ⟨hok, hn⟩ := (Bool.and_eq_true ..).mp hfinish
          exact ⟨hok, of_decide_eq_true hn, rfl, hinit⟩
        · rename_i hfinish
          refine ⟨rfl, ?_⟩
          rw [Bool.eq_false_iff.mpr hfinish, Bool.or_false]
          exact hinit
    | finish =>
        obtain ⟨rfl, hd, hdepth, hinit⟩ := hleaves
        cases hstep
        refine ⟨?_, h.others.trans (othersKept_setCall rfl)⟩
        rw [State.calls_setCall_self]
        refine ⟨hdepth, ?_⟩
        rw [decide_eq_true hd, Bool.and_true, Bool.or_true]
        rfl
    | ended => cases hstep
    | _ => exact hleaves.elim

/-- No wrapper runs in `u` but those that ran in `s`, where they stood. -/
def NoneRuns (s u : State C T V) : Prop :=
  ∀ e pc, u.calls e = .wrapped pc → s.calls e = .wrapped pc ∨ pc = .ended

/-- The two fields are as they were, and so are the wrappers that were running. -/
structure Kept (s t : State C T V) : Prop where
  depth : t.initDepth = s.initDepth
  initialized : t.initialized = s.initialized
  wrapped : ∀ c pc, s.calls c = .wrapped pc → t.calls c = .wrapped pc
  noneRuns : NoneRuns s t

omit [DecidableEq C] in
theorem Same.kept (h : Same s t) : Kept s t :=
  ⟨h.depth, h.initialized, fun c pc => (h.wrapped c pc).mpr, fun c pc hc => .inl ((h.wrapped c pc).mp hc)⟩

omit [DecidableEq C] in
theorem Kept.trans (h : Kept s t) (h' : Kept t u) : Kept s u where
  depth := h'.depth.trans h.depth
  initialized := h'.initialized.trans h.initialized
  wrapped c pc hc := h'.wrapped c pc (h.wrapped c pc hc)
  noneRuns c pc hc := (h'.noneRuns c pc hc).elim (h.noneRuns c pc) .inr

variable [DecidableEq T]

/-- A run that keeps the two fields, with `_initialized` as it was at each of its steps. -/
def Quiet (cls : Cls V) (s : State C T V) (as : List (Act C T V)) (t : State C T V) : Prop :=
  Kept s t ∧ RunWith (next cls) (fun u _ => u.initialized = s.initialized) s as t

theorem Quiet.append (h : Quiet cls s as t) (h' : Quiet cls t bs u) : Quiet cls s (as ++ bs) u := by
  refine ⟨h.1.trans h'.1, h.2.append ?_⟩
  exact h'.2.mono fun _ _ hu => hu.trans h.1.initialized

theorem quiet_asides (h : RunWith (next cls) (fun s a => a.Aside s) s as t) : Quiet cls s as t := by
  have hsame : RunWith (next cls) (fun u _ => Same s u) s as t ∧ Same s t :=
    h.always (.refl s) fun _ _ _ hs ha hn => hs.trans (aside_next hn ha)
  exact ⟨hsame.2.kept, hsame.1.mono fun _ _ hu => hu.initialized⟩

/-- As long as the wrapper of the call runs, `_initialized` is as it was. -/
def Guarded (s : State C T V) (success : Bool) (u : State C T V) : Prop :=
  u.initialized = s.initialized ∨ (success = true ∧ s.initDepth ≤ 0 ∧ NoneRuns s u)

/-- What a wrapped `__init__` does. -/
structure Counted (cls : Cls V) (success : Bool) (s : State C T V) (as : List (Act C T V))
    (t : State C T V) : Prop where
  depth : t.initDepth = s.initDepth
  initialized : t.initialized = (s.initialized || (success && decide (s.initDepth ≤ 0)))
  wrapped : ∀ c pc, s.calls c = .wrapped pc → t.calls c = .wrapped pc
  noneRuns : NoneRuns s t
  run : RunWith (next cls) (fun u _ => Guarded s success u) s as t
  last : Guarded s success t

omit [DecidableEq T] in
theorem Leaving.guarded {success : Bool} {s₃ : State C T V}
    (h : Leaving c success s.initDepth s.initialized s₃ u)
    (hover : ∀ e, e ≠ c → ∀ pc, s₃.calls e = .wrapped pc → s.calls e = .wrapped pc ∨ pc = .ended) :
    Guarded s success u := by
  have hleaves := h.leaves
  cases hc : u.calls c with
  | wrapped pc =>
      rw [hc] at hleaves
      cases pc with
      | leave ok => exact .inl hleaves.2.2
      | lessen ok n => exact .inl hleaves.2.2.2
      | finish => exact .inl hleaves.2.2.2
      | ended =>
          obtain ⟨hdepth, hinit⟩ := hleaves
          cases hok : success && decide (s.initDepth ≤ 0) with
          | false =>
              rw [hok, Bool.or_false] at hinit
              exact .inl hinit
          | true =>
              obtain ⟨hsuccess, hd⟩ := (Bool.and_eq_true ..).mp hok
              refine .inr ⟨hsuccess, of_decide_eq_true hd, fun e pc he => ?_⟩
              by_cases hec : e = c
              · subst hec
                rw [hc] at he
                cases he
                exact .inr rfl
              · exact hover e hec pc ((h.others e hec pc).mp he)
      | _ => exact hleaves.elim
  | _ =>
      rw [hc] at hleaves
      exact hleaves.elim

theorem Wrapped.counted {body : State C T V → List (Act C T V) → State C T V → Prop} {success : Bool}
    (hbody : ∀ s as t, body s as t → 0 < s.initDepth → Quiet cls s as t)
    (h : Wrapped cls body success s as t) (hdepth : 0 ≤ s.initDepth) :
    Counted cls success s as t := by
  cases h with
  | @mk c _ s₁ s₂ s₃ _ enter mid leave hidle henter hin hmid hend hleave hended =>
      have hstart : Entering c s s := by
        refine ⟨rfl, ?_, fun _ _ _ => .rfl⟩
        rw [hidle]
        rfl
      obtain ⟨hrun₁, hentered⟩ := henter.always hstart fun _ _ _ hs => hs.next
      have hdepth₁ : s₁.initDepth = s.initDepth + 1 := by
        have henters := hentered.enters
        rwa [hin] at henters
      obtain ⟨hkept, hrun₂⟩ := hbody s₁ mid s₂ hmid (by omega)
      have hin₂ := hkept.wrapped c .body hin
      obtain rfl : s₃ = s₂.setCall c (.wrapped (.leave success)) := by
        simp only [next, hin₂] at hend
        exact (Option.some.inj hend).symm
      have hinit₂ := hkept.initialized.trans hentered.initialized
      have hover : ∀ e, e ≠ c → ∀ pc,
          (s₂.setCall c (.wrapped (.leave success))).calls e = .wrapped pc →
            s.calls e = .wrapped pc ∨ pc = .ended := by
        intro e he pc hpc
        rw [State.calls_setCall_ne _ _ he] at hpc
        exact (hkept.noneRuns e pc hpc).imp_left (hentered.others e he pc).mp
      have hleft : Leaving c success s.initDepth s.initialized
          (s₂.setCall c (.wrapped (.leave success))) (s₂.setCall c (.wrapped (.leave success))) := by
        refine ⟨?_, fun _ _ _ => .rfl⟩
        rw [State.calls_setCall_self]
        exact ⟨rfl, hkept.depth.trans hdepth₁, hinit₂⟩
      obtain ⟨hrun₃, hlast⟩ := hleave.always hleft fun _ _ _ hs => hs.next
      have hleaves := hlast.leaves
      rw [hended] at hleaves
      refine ⟨hleaves.1, hleaves.2, fun e pc he => ?_, fun e pc he => ?_, ?_, hlast.guarded hover⟩
      · have hec : e ≠ c := by
          rintro rfl
          cases hidle.symm.trans he
        rw [hlast.others e hec pc, State.calls_setCall_ne _ _ hec]
        exact hkept.wrapped e pc ((hentered.others e hec pc).mpr he)
      · by_cases hec : e = c
        · subst hec
          rw [hended] at he
          cases he
          exact .inr rfl
        · exact hover e hec pc ((hlast.others e hec pc).mp he)
      · have hguarded₂ : Guarded s success s₂ := .inl hinit₂
        have hfirst : RunWith (next cls) (fun u _ => Guarded s success u) s (enter ++ mid) s₂ := by
          refine .append (hrun₁.mono fun _ _ hu => .inl hu.initialized) ?_
          exact hrun₂.mono fun _ _ hu => .inl (hu.trans hentered.initialized)
        have hsecond : RunWith (next cls) (fun u _ => Guarded s success u) s₂
            ([.endInit c success] ++ leave) t := by
          refine .append (.single hguarded₂ hend) ?_
          exact hrun₃.mono fun _ _ hu => hu.guarded hover
        exact hfirst.append hsecond

/-- A wrapped `__init__` that another one calls. -/
theorem Counted.quiet {success : Bool} (h : Counted cls success s as t) (hdepth : 0 < s.initDepth) :
    Quiet cls s as t := by
  have hinit := h.initialized
  rw [decide_eq_false (not_le.mpr hdepth), Bool.and_false, Bool.or_false] at hinit
  refine ⟨⟨h.depth, hinit, h.wrapped, h.noneRuns⟩, h.run.mono fun u _ hu => ?_⟩
  rcases hu with hsame | ⟨-, hout, -⟩
  · exact hsame
  · omega

/-- While an original `__init__` runs, the fields come back to what they were, whatever it calls. -/
theorem runs_quiet (i : Init) :
    ∀ (s : State C T V) as t, Runs cls i s as t → 0 < s.initDepth → Quiet cls s as t := by
  induction i with
  | returns => exact fun s as t h _ => quiet_asides h
  | raises => exact fun s as t h _ => quiet_asides h
  | calls inner caught rest ihinner ihrest =>
      rintro s as t ⟨pre, mid, post, u, v, rfl, hpre, hmid, hpost⟩ hdepth
      have hquiet := quiet_asides hpre
      have hu := hquiet.1.depth
      have hcall := (hmid.counted ihinner (by omega)).quiet (by omega)
      have hv := hcall.1.depth
      refine (hquiet.append hcall).append ?_
      split at hpost
      · exact ihrest v post t hpost (by omega)
      · exact quiet_asides hpost

/-! ## Every tree of calls has its runs -/

section Existence

theorem next_wrapped {pc : InitPc} (hpc : s.calls c = .wrapped pc) (byUser : PyResult V) :
    next cls s (.step c byUser) = stepWrapped s c pc := by
  simp only [next, hpc]

/-- The next step of a wrapper. -/
theorem step_wrapper {pc : InitPc} (h : RunWith (next cls) (Own c) s as t)
    (hpc : t.calls c = .wrapped pc) (hstep : stepWrapped t c pc = some u) :
    ∃ bs, RunWith (next cls) (Own c) s bs u :=
  ⟨_, .snoc h (.inr (.inr ⟨.error .user, rfl⟩)) ((next_wrapped hpc _).trans hstep)⟩

theorem enter_exists (cls : Cls V) (hidle : s.calls c = .idle) : ∃ (as : List (Act C T V)) (t : State C T V),
    RunWith (next cls) (Own c) s as t ∧ t.calls c = .wrapped .body ∧
      t.initDepth = s.initDepth + 1 ∧ ∀ e, e ≠ c → t.calls e = s.calls e := by
  have hbegin : next cls s (.beginInit c) = some (s.setCall c (.wrapped .enter)) := by
    simp only [next, hidle]
  have h₁ : RunWith (next cls) (Own c) s [.beginInit c] (s.setCall c (.wrapped .enter)) :=
    .single (.inr (.inl rfl)) hbegin
  obtain ⟨bs, h₂⟩ := step_wrapper h₁ (State.calls_setCall_self ..) rfl
  obtain ⟨as, h₃⟩ := step_wrapper h₂ (State.calls_setCall_self ..) rfl
  refine ⟨as, _, h₃, State.calls_setCall_self .., rfl, fun e he => ?_⟩
  rw [State.calls_setCall_ne _ _ he]
  show (State.setCall _ c _).calls e = _
  rw [State.calls_setCall_ne _ _ he, State.calls_setCall_ne _ _ he]

theorem leave_exists (cls : Cls V) {success : Bool} (hleave : s.calls c = .wrapped (.leave success)) :
    ∃ (as : List (Act C T V)) (t : State C T V),
      RunWith (next cls) (Own c) s as t ∧ t.calls c = .wrapped .ended ∧
        ∀ e, e ≠ c → t.calls e = s.calls e := by
  have h₀ : RunWith (next cls) (Own c) s [] s := .nil
  obtain ⟨bs, h₁⟩ := step_wrapper h₀ hleave rfl
  obtain ⟨bs, h₂⟩ := step_wrapper h₁ (State.calls_setCall_self ..) rfl
  by_cases hfinish : (success && decide (s.initDepth - 1 ≤ 0)) = true
  · rw [if_pos hfinish] at h₂
    obtain ⟨as, h₃⟩ := step_wrapper h₂ (State.calls_setCall_self ..) rfl
    refine ⟨as, _, h₃, State.calls_setCall_self .., fun e he => ?_⟩
    rw [State.calls_setCall_ne _ _ he]
    show (State.setCall _ c _).calls e = _
    rw [State.calls_setCall_ne _ _ he]
    show (State.setCall _ c _).calls e = _
    rw [State.calls_setCall_ne _ _ he]
  · rw [if_neg hfinish] at h₂
    refine ⟨bs, _, h₂, State.calls_setCall_self .., fun e he => ?_⟩
    rw [State.calls_setCall_ne _ _ he]
    show (State.setCall _ c _).calls e = _
    rw [State.calls_setCall_ne _ _ he]

variable {s : State ℕ T V} {n : ℕ}

/-- The calls from `n` on are yet to be made. -/
def FreeFrom (n : ℕ) (s : State ℕ T V) : Prop := ∀ c, n ≤ c → s.calls c = .idle

theorem wrapped_exists {body : State ℕ T V → List (Act ℕ T V) → State ℕ T V → Prop} (success : Bool)
    (hquiet : ∀ s as t, body s as t → 0 < s.initDepth → Quiet cls s as t)
    (hbody : ∀ s n, 0 < s.initDepth → FreeFrom n s → ∃ as t m, body s as t ∧ FreeFrom m t)
    (hdepth : 0 ≤ s.initDepth) (hfree : FreeFrom n s) :
    ∃ as t m, Wrapped cls body success s as t ∧ FreeFrom m t := by
  obtain ⟨enter, s₁, henter, hin, hdepth₁, hothers₁⟩ := enter_exists cls (hfree n le_rfl)
  obtain ⟨mid, s₂, m, hmid, hfree₂⟩ := hbody s₁ (n + 1) (by omega) fun c hc =>
    (hothers₁ c (by omega)).trans (hfree c (by omega))
  have hin₂ := (hquiet s₁ mid s₂ hmid (by omega)).1.wrapped n .body hin
  have hend : next cls s₂ (.endInit n success) = some (s₂.setCall n (.wrapped (.leave success))) := by
    simp only [next, hin₂]
  obtain ⟨leave, t, hleave, hended, hothers⟩ := leave_exists cls
    (State.calls_setCall_self s₂ n (.wrapped (.leave success)))
  refine ⟨_, t, max m (n + 1), .mk (hfree n le_rfl) henter hin hmid hend hleave hended, ?_⟩
  intro c hc
  rw [hothers c (by omega), State.calls_setCall_ne _ _ (by omega)]
  exact hfree₂ c (by omega)

theorem runs_exist (i : Init) : ∀ (s : State ℕ T V) n, 0 < s.initDepth → FreeFrom n s →
    ∃ as t m, Runs cls i s as t ∧ FreeFrom m t := by
  induction i with
  | returns => exact fun s n _ hfree => ⟨[], s, n, .nil, hfree⟩
  | raises => exact fun s n _ hfree => ⟨[], s, n, .nil, hfree⟩
  | calls inner caught rest ihinner ihrest =>
      intro s n hdepth hfree
      obtain ⟨mid, v, m, hmid, hfree'⟩ := wrapped_exists inner.succeeds (runs_quiet inner) ihinner
        hdepth.le hfree
      have hv := (hmid.counted (runs_quiet inner) hdepth.le).depth
      cases hgo : inner.succeeds || caught with
      | true =>
          obtain ⟨post, t, m', hpost, hfree''⟩ := ihrest v m (by omega) hfree'
          refine ⟨mid ++ post, t, m', ⟨[], mid, post, s, v, rfl, .nil, hmid, ?_⟩, hfree''⟩
          rwa [if_pos hgo]
      | false =>
          refine ⟨mid, v, m, ⟨[], mid, [], s, v, by simp, .nil, hmid, ?_⟩, hfree'⟩
          rw [if_neg (by simp [hgo])]
          exact .nil

end Existence

/-- For every tree of nested wrapped `__init__` calls, whatever returns, raises and is caught in it, and
whatever else goes on meanwhile: when the outermost one has ended, `_init_depth` is 0 again, and
`_initialized` is set if and only if that one returned; and wherever it is set on the way, it is because
of that one, and no wrapper is running any more. -/
theorem construction_exact (cls : Cls V) (i : Init) (s t : State C T V) (as : List (Act C T V))
    (hrun : Wrapped cls (Runs cls i) i.succeeds s as t) (hdepth : s.initDepth = 0)
    (hinit : s.initialized = false) (hnone : ∀ c pc, s.calls c = .wrapped pc → pc = .ended) :
    t.initDepth = 0 ∧ (t.initialized = true ↔ i.succeeds = true) ∧
      ∀ u, Visits (next cls) s as u → u.initialized = true →
        i.succeeds = true ∧ ∀ c pc, u.calls c = .wrapped pc → pc = .ended := by
  have hcounted := hrun.counted (runs_quiet i) hdepth.ge
  refine ⟨hcounted.depth.trans hdepth, ?_, fun u hu hset => ?_⟩
  · rw [hcounted.initialized, hinit, hdepth]
    simp
  · rcases hcounted.run.visits_of hcounted.last hu with hsame | ⟨hsuccess, -, hover⟩
    · cases hset.symm.trans (hsame.trans hinit)
    · exact ⟨hsuccess, fun c pc hc => (hover c pc hc).elim (hnone c pc) id⟩

/-- A constructor catches the exception of its first `super().__init__()` and raises after its second. -/
theorem construction_exact_caught : ∃ (as : List (Act ℕ ℕ ℕ)) (t : State ℕ ℕ ℕ),
    Wrapped counterCls (Runs counterCls (.calls .raises true (.calls .returns false .raises))) false
        State.init as t ∧
      t.initDepth = 0 ∧ t.initialized = false := by
  have hfree : FreeFrom 0 (State.init : State ℕ ℕ ℕ) := fun _ _ => rfl
  have hquiet : ∀ (s : State ℕ ℕ ℕ) as t,
      Runs counterCls (.calls .raises true (.calls .returns false .raises)) s as t →
        0 < s.initDepth → Quiet counterCls s as t :=
    runs_quiet _
  obtain ⟨as, t, -, hrun, -⟩ := wrapped_exists false hquiet (runs_exist _) le_rfl hfree
  obtain ⟨hdepth, hinit, -⟩ := construction_exact counterCls _ _ t as hrun rfl rfl
    (by simp [State.init])
  refine ⟨as, t, hrun, hdepth, ?_⟩
  rw [← Bool.not_eq_true, hinit]
  decide

end Pysync.Attribute
