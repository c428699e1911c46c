import Pysync.LockExclusion
import Mathlib.Order.Preorder.Finite
import Mathlib.Data.Set.Finite.Basic

/-!
Locks that are taken in an order. If a thread enters guards only of locks above those of which it has
entered one already, then whoever waits has entered guards below the lock it waits for. So the guards of
the highest lock that is waited for are with threads that wait for none.
-/

namespace Pysync.Lock
open Transition
open ReadWrite (Policy)

variable {T G L : Type*} {p : Policy G} {s s' : State T G L} {a : Act T G L} {t u : T} {l m : L} {g h : G}

/-- The lock that a thread waits for. -/
def Frame.waitsFor : Frame G L → Option L
  | .python => none
  | .readArc _ l _ | .writeArc _ l => some l

theorem Frame.exists_waitsFor {f : Frame G L} (hf : f ≠ .python) : ∃ l, f.waitsFor = some l := by
  cases f with
  | python => exact absurd rfl hf
  | readArc g l b => exact ⟨l, rfl⟩
  | writeArc g l => exact ⟨l, rfl⟩

theorem Frame.ne_python {f : Frame G L} (hf : f.waitsFor = some l) : f ≠ .python := by
  rintro rfl
  cases hf

/-- The thread has entered a guard of the lock. -/
def State.Has (s : State T G L) (t : T) (l : L) : Prop :=
  ∃ g, s.Entered t l g ∨ s.EnteredWrite t l g

/-- A guard is entered only of a lock above all those of which its thread has entered one. -/
def Upward [LT L] (s : State T G L) (x : Act T G L × Policy G) : Prop :=
  match x.1 with
  | .readEnter g => ∀ t l, s.readGuards g = some ⟨t, l, false⟩ → ∀ m, s.Has t m → m < l
  | .writeEnter g => ∀ t l, s.writeGuards g = some ⟨t, l, false⟩ → ∀ m, s.Has t m → m < l
  | _ => True

section Updates

variable [DecidableEq G] {x : Option (Guard T L)}

theorem has_of_readGuards (hread : s'.readGuards = Function.update s.readGuards g x)
    (hwrite : s'.writeGuards = s.writeGuards) (hx : x ≠ some ⟨u, m, true⟩) (h : s'.Has u m) :
    s.Has u m := by
  obtain ⟨k, hk | hk⟩ := h
  · rcases (entered_update hread).mp hk with ⟨-, hxe⟩ | ⟨-, hk⟩
    · exact absurd hxe hx
    · exact ⟨k, .inl hk⟩
  · rw [State.EnteredWrite, hwrite] at hk
    exact ⟨k, .inr hk⟩

theorem has_of_writeGuards (hwrite : s'.writeGuards = Function.update s.writeGuards g x)
    (hread : s'.readGuards = s.readGuards) (hx : x ≠ some ⟨u, m, true⟩) (h : s'.Has u m) :
    s.Has u m := by
  obtain ⟨k, hk | hk⟩ := h
  · rw [State.Entered, hread] at hk
    exact ⟨k, .inl hk⟩
  · rcases (enteredWrite_update hwrite).mp hk with ⟨-, hxe⟩ | ⟨-, hk⟩
    · exact absurd hxe hx
    · exact ⟨k, .inr hk⟩

end Updates

/-- A guard of a thread that runs Python code is none of a thread that waits. -/
theorem ne_of_waits {k : L} {b : Bool} (hf : s.frame t = .python)
    (hu : (s.frame u).waitsFor = some l) : some (⟨t, k, b⟩ : Guard T L) ≠ some ⟨u, m, true⟩ := by
  intro he
  cases he
  exact Frame.ne_python hu hf

/-- The thread enters a guard of the lock by this action. -/
def Begins (s : State T G L) (a : Act T G L) (u : T) (l : L) : Prop :=
  ∃ g, a = .readEnter g ∧ s.readGuards g = some ⟨u, l, false⟩ ∨
    a = .writeEnter g ∧ s.writeGuards g = some ⟨u, l, false⟩

theorem waitsFor_update [DecidableEq T] {f : Frame G L}
    (hu : (Function.update s.frame t f u).waitsFor = some l) :
    u = t ∧ f.waitsFor = some l ∨ u ≠ t ∧ (s.frame u).waitsFor = some l := by
  by_cases hut : u = t
  · subst hut
    rw [Function.update_self] at hu
    exact .inl ⟨rfl, hu⟩
  · rw [Function.update_of_ne hut] at hu
    exact .inr ⟨hut, hu⟩

/-! ## The order -/

theorem exists_has_of_not_unheld (h : ¬ Unheld s l) : ∃ t, s.Has t l := by
  by_contra hnot
  refine h ⟨fun t g hg => hnot ⟨t, g, .inl hg⟩, fun t g hg => hnot ⟨t, g, .inr hg⟩⟩

/-- Finitely many threads wait, each for a lock above those of which it has entered guards. -/
structure Ordered [LT L] (s : State T G L) : Prop where
  finite : {t | s.frame t ≠ .python}.Finite
  above : ∀ t l, (s.frame t).waitsFor = some l → ∀ m, s.Has t m → m < l

theorem ordered_init [LT L] : Ordered (.init : State T G L) where
  finite := by
    refine Set.finite_empty.subset fun t ht => ?_
    exact ht rfl
  above t l ht := by cases ht

theorem Ordered.finite_waited [LT L] (h : Ordered s) :
    {l | ∃ t, (s.frame t).waitsFor = some l}.Finite := by
  have himage : (some '' {l | ∃ t, (s.frame t).waitsFor = some l}).Finite := by
    refine (h.finite.image fun t => (s.frame t).waitsFor).subset ?_
    rintro _ ⟨l, ⟨t, ht⟩, rfl⟩
    exact ⟨t, Frame.ne_python ht, ht⟩
  exact himage.of_finite_image (Option.some_injective L).injOn

theorem finite_update [DecidableEq T] {f : Frame G L} (h : {t | s.frame t ≠ .python}.Finite) :
    {u | Function.update s.frame t f u ≠ .python}.Finite := by
  refine (h.insert t).subset fun u hu => ?_
  by_cases hut : u = t
  · exact .inl hut
  · have hne : Function.update s.frame t f u ≠ .python := hu
    rw [Function.update_of_ne hut] at hne
    exact .inr hne

/-! ## What a step does to those who wait -/

variable [DecidableEq T] [DecidableEq G] [DecidableEq L]

/-- A thread that waits after a step has entered no guard by it, and waited before it or begins to. -/
theorem Step.waiter (hstep : Step p s a s') (hu : (s'.frame u).waitsFor = some l) :
    (∀ m, s'.Has u m → s.Has u m) ∧ ((s.frame u).waitsFor = some l ∨ Begins s a u l) := by
  cases hstep with
  | readRaised | readLeft | writeRaised => exact ⟨fun _ => id, .inl hu⟩
  | readAcquired hf _ _ => exact ⟨fun m => has_of_readGuards rfl rfl (ne_of_waits hf hu), .inl hu⟩
  | writeAcquired hf _ _ => exact ⟨fun m => has_of_writeGuards rfl rfl (ne_of_waits hf hu), .inl hu⟩
  | read | readExit | readDied | readDrop =>
      refine ⟨fun m => has_of_readGuards rfl rfl fun he => ?_, .inl hu⟩
      cases he
  | write =>
      refine ⟨fun m => has_of_writeGuards rfl rfl fun he => ?_, .inl hu⟩
      cases he
  | writeReleased _ _ _ hx | writeLeft _ _ _ hx =>
      refine ⟨fun m => has_of_writeGuards rfl rfl fun he => ?_, .inl hu⟩
      rcases hx with rfl | rfl <;> cases he
  | @readWaits t l' g hf hg =>
      rcases waitsFor_update hu with ⟨rfl, hl⟩ | ⟨-, hu⟩
      · cases hl
        exact ⟨fun _ => id, .inr ⟨g, .inl ⟨rfl, hg⟩⟩⟩
      · exact ⟨fun _ => id, .inl hu⟩
  | @writeWaits t l' g hf hg =>
      rcases waitsFor_update hu with ⟨rfl, hl⟩ | ⟨-, hu⟩
      · cases hl
        exact ⟨fun _ => id, .inr ⟨g, .inr ⟨rfl, hg⟩⟩⟩
      · exact ⟨fun _ => id, .inl hu⟩
  | readArc =>
      rcases waitsFor_update hu with ⟨-, hl⟩ | ⟨hut, hu⟩
      · cases hl
      · refine ⟨fun m => has_of_readGuards rfl rfl fun he => ?_, .inl hu⟩
        cases he
        exact hut rfl
  | writeArc =>
      rcases waitsFor_update hu with ⟨-, hl⟩ | ⟨hut, hu⟩
      · cases hl
      · refine ⟨fun m => has_of_writeGuards rfl rfl fun he => ?_, .inl hu⟩
        cases he
        exact hut rfl

theorem Step.finite (hstep : Step p s a s') (h : {t | s.frame t ≠ .python}.Finite) :
    {t | s'.frame t ≠ .python}.Finite := by
  cases hstep with
  | readWaits | readArc | writeWaits | writeArc => exact finite_update h
  | _ => exact h

theorem Step.ordered [LT L] (hs : Ordered s) (hup : Upward s (a, p)) (hstep : Step p s a s') :
    Ordered s' where
  finite := hstep.finite hs.finite
  above t l ht m hm := by
    obtain ⟨hhas, hwaited | ⟨g, ⟨rfl, hg⟩ | ⟨rfl, hg⟩⟩⟩ := hstep.waiter ht
    · exact hs.above t l hwaited m (hhas m hm)
    · exact hup t l hg m (hhas m hm)
    · exact hup t l hg m (hhas m hm)

theorem ordered_run [LT L] {xs : List (Act T G L × Policy G)}
    (h : RunWith nextAny Upward .init xs s) : Ordered s :=
  h.invariant ordered_init fun _ _ _ hs hup hn => (nextBy_step hn).ordered hs hup

/-- A guard of the lock is entered by a thread that can leave it. -/
def CanBeLeft (s : State T G L) (l : L) : Prop :=
  (∃ t g, s.Entered t l g ∧ ∀ p, (nextBy p s (.readExit g)).isSome = true) ∨
    ∃ t g, s.EnteredWrite t l g ∧ ∀ p, (nextBy p s (.writeExit g)).isSome = true

/-- A thread that runs Python code can leave the guards that it has entered. -/
theorem canBeLeft_of_has (hf : s.frame t = .python) (h : s.Has t l) : CanBeLeft s l := by
  obtain ⟨g, hg | hg⟩ := h
  · refine .inl ⟨t, g, hg, fun p => ?_⟩
    rw [State.Entered] at hg
    rw [nextBy, hg, onGuard, if_pos hf, Option.isSome_some]
  · refine .inr ⟨t, g, hg, fun p => ?_⟩
    rw [State.EnteredWrite] at hg
    rw [nextBy, hg, onGuard, if_pos hf, Option.isSome_some]

/-- Whatever the locks answer within their exclusion, in every run in which each thread enters guards
only of locks above those of which it has entered one, for some preorder of the locks: when threads
wait, then one of the locks that are waited for is entered by nobody, or by a thread that can leave it. -/
theorem no_circular_wait [Preorder L] (xs : List (Act T G L × Policy G)) (s : State T G L)
    (h : RunWith nextAny Upward .init xs s) (hwait : ∃ t l, (s.frame t).waitsFor = some l) :
    ∃ l, (∃ t, (s.frame t).waitsFor = some l) ∧ (Unheld s l ∨ CanBeLeft s l) := by
  have hs := ordered_run h
  have hne : {l | ∃ t, (s.frame t).waitsFor = some l}.Nonempty := by
    obtain ⟨t, l, ht⟩ := hwait
    exact ⟨l, t, ht⟩
  obtain ⟨l, hl, hmax⟩ := hs.finite_waited.exists_maximal hne
  refine ⟨l, hl, ?_⟩
  by_cases hheld : Unheld s l
  · exact .inl hheld
  obtain ⟨u, hu⟩ := exists_has_of_not_unheld hheld
  by_cases hf : s.frame u = .python
  · exact .inr (canBeLeft_of_has hf hu)
  · -- the thread that has the highest lock would wait for a higher one
    obtain ⟨k, hk⟩ := Frame.exists_waitsFor hf
    have hlt := hs.above u k hk l hu
    exact absurd (hmax ⟨u, hk⟩ hlt.le) hlt.not_ge

section Trace

instance [Fintype T] [Fintype G] [Fintype L] (s : State T G L) (t : T) (l : L) : Decidable (s.Has t l) :=
  inferInstanceAs (Decidable (∃ g, s.readGuards g = _ ∨ s.writeGuards g = _))

instance [Fintype T] [Fintype G] [Fintype L] [LT L] [DecidableLT L] (s : State T G L)
    (x : Act T G L × Policy G) : Decidable (Upward s x) := by
  unfold Upward
  split <;> infer_instance

/-- The thread `b` writes under the lock `b`, and the thread `a` waits for it while it reads under the
lock `a`. -/
def orderTrace {N : Type} (a b : N) : List (Act N N N × Policy N) :=
  [(.write b b a, .writersFirst), (.writeEnter a, .writersFirst), (.read a a a, .writersFirst),
    (.readEnter a, .writersFirst), (.read a b b, .writersFirst), (.readEnter b, .writersFirst)]

theorem orderTrace_exec :
    (exec nextAny Upward (.init : State (Fin 2) (Fin 2) (Fin 2)) (orderTrace 0 1)).map
      (fun s => decide ((s.frame 0).waitsFor = some 1)) = some true := by
  decide +kernel

theorem no_circular_wait_orderTrace :
    ∃ s : State (Fin 2) (Fin 2) (Fin 2), RunWith nextAny Upward .init (orderTrace 0 1) s ∧
      ∃ l, (∃ t, (s.frame t).waitsFor = some l) ∧ (Unheld s l ∨ CanBeLeft s l) := by
  obtain ⟨s, hrun, hs⟩ := exists_runWith_of_exec orderTrace_exec
  exact ⟨s, hrun, no_circular_wait (orderTrace 0 1) s hrun ⟨0, 1, of_decide_eq_true hs⟩⟩

end Trace

end Pysync.Lock
