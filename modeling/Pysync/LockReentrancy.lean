import Pysync.LockModel
import Mathlib.Data.Set.Card

/-!
When a read is a recursive one. `READ_DEPTH` counts the read guards of all locks that the thread has
entered and not left, and besides those that died meanwhile: a thread that holds a read guard of a
lock enters another one without a wait, but is also let past a writer on a lock of which it holds none.
-/

namespace Pysync.Lock
open Transition
open ReadWrite (Policy)

variable {T G L : Type*} [DecidableEq G]

/-! ## What a step does -/

/-- The steps of the locks, one constructor for each way in which a call or the end of a wait goes. -/
inductive Step [DecidableEq T] [DecidableEq L] (p : Policy G) (s : State T G L) :
    Act T G L → State T G L → Prop
  | read {t l g} (hf : s.frame t = .python) (hg : s.readGuards g = none) :
      Step p s (.read t l g) (s.setReadGuard g (some ⟨t, l, false⟩))
  | readRaised {g} : Step p s (.readEnter g) s
  | readAcquired {t l g raw} (hf : s.frame t = .python) (hg : s.readGuards g = some ⟨t, l, false⟩)
      (hraw : p.tryRead (s.lock l) (s.isReentrant t) g = some raw) :
      Step p s (.readEnter g) (s.readAcquired t l g raw)
  | readWaits {t l g} (hf : s.frame t = .python) (hg : s.readGuards g = some ⟨t, l, false⟩) :
      Step p s (.readEnter g) (s.setFrame t (.readArc g l (s.isReentrant t)))
  | readArc {t l g b raw} (hf : s.frame t = .readArc g l b)
      (hraw : p.tryRead (s.lock l) b g = some raw) :
      Step p s (.readArc t) ((s.readAcquired t l g raw).setFrame t .python)
  | readExit {t l g} (hf : s.frame t = .python) (hg : s.Entered t l g) :
      Step p s (.readExit g) (State.readReleased
        { s with readDepth := Function.update s.readDepth t (s.readDepth t - 1) }
        g ⟨t, l, true⟩ (some ⟨t, l, false⟩))
  | readLeft {g} : Step p s (.readExit g) s
  | readDied {t l g} (hf : s.frame t = .python) (hg : s.Entered t l g) :
      Step p s (.readDrop g) (s.readReleased g ⟨t, l, true⟩ none)
  | readDrop {t l g} (hf : s.frame t = .python) (hg : s.readGuards g = some ⟨t, l, false⟩) :
      Step p s (.readDrop g) (s.setReadGuard g none)
  | write {t l g} (hf : s.frame t = .python) (hg : s.writeGuards g = none) :
      Step p s (.write t l g) (s.setWriteGuard g (some ⟨t, l, false⟩))
  | writeRaised {g} : Step p s (.writeEnter g) s
  | writeAcquired {t l g raw} (hf : s.frame t = .python)
      (hg : s.writeGuards g = some ⟨t, l, false⟩) (hraw : p.tryWrite (s.lock l) g = some raw) :
      Step p s (.writeEnter g) ((s.setLock l raw).setWriteGuard g (some ⟨t, l, true⟩))
  | writeWaits {t l g} (hf : s.frame t = .python) (hg : s.writeGuards g = some ⟨t, l, false⟩) :
      Step p s (.writeEnter g)
        ((s.setLock l ((s.lock l).enqueue g)).setFrame t (.writeArc g l))
  | writeArc {t l g raw} (hf : s.frame t = .writeArc g l)
      (hraw : p.tryWrite (s.lock l) g = some raw) :
      Step p s (.writeArc t)
        (((s.setLock l (raw.dequeue g)).setWriteGuard g (some ⟨t, l, true⟩)).setFrame t .python)
  | writeReleased {a t l g x} (ha : a = .writeExit g ∨ a = .writeDrop g) (hf : s.frame t = .python)
      (hg : s.writeGuards g = some ⟨t, l, true⟩) (hx : x = some ⟨t, l, false⟩ ∨ x = none) :
      Step p s a ((s.setLock l (s.lock l).releaseWrite).setWriteGuard g x)
  | writeLeft {a t l g x} (ha : a = .writeExit g ∨ a = .writeDrop g) (hf : s.frame t = .python)
      (hg : s.writeGuards g = some ⟨t, l, false⟩) (hx : x = some ⟨t, l, false⟩ ∨ x = none) :
      Step p s a (s.setWriteGuard g x)

variable {p : Policy G} {s s' : State T G L} {a : Act T G L}

theorem onGuard_inv [DecidableEq L] {x : Option (Guard T L)} {f : Guard T L → State T G L}
    (h : onGuard s x f = some s') : ∃ r, x = some r ∧ s.frame r.owner = .python ∧ s' = f r := by
  cases x with
  | none => cases h
  | some r =>
      rw [onGuard] at h
      split at h
      · rename_i hf
        exact ⟨r, rfl, hf, (Option.some.inj h).symm⟩
      · cases h

theorem readEnterBy_step [DecidableEq T] [DecidableEq L] {t : T} {l : L} {g : G} {b : Bool}
    (hg : s.readGuards g = some ⟨t, l, b⟩)
    (hf : s.frame t = .python) : Step p s (.readEnter g) (readEnterBy p s g ⟨t, l, b⟩).2 := by
  cases b with
  | true => exact .readRaised
  | false =>
      rw [readEnterBy, if_neg Bool.false_ne_true]
      split
      · rename_i raw hraw
        exact .readAcquired hf hg hraw
      · exact .readWaits hf hg

theorem writeEnterBy_step [DecidableEq T] [DecidableEq L] {t : T} {l : L} {g : G} {b : Bool}
    (hg : s.writeGuards g = some ⟨t, l, b⟩)
    (hf : s.frame t = .python) : Step p s (.writeEnter g) (writeEnterBy p s g ⟨t, l, b⟩).2 := by
  cases b with
  | true => exact .writeRaised
  | false =>
      rw [writeEnterBy, if_neg Bool.false_ne_true]
      split
      · rename_i raw hraw
        exact .writeAcquired hf hg hraw
      · exact .writeWaits hf hg

theorem writeRelease_step [DecidableEq T] [DecidableEq L] {t : T} {l : L} {g : G} {b : Bool}
    {x : Option (Guard T L)}
    (ha : a = .writeExit g ∨ a = .writeDrop g) (hg : s.writeGuards g = some ⟨t, l, b⟩)
    (hf : s.frame t = .python) (hx : x = some ⟨t, l, false⟩ ∨ x = none) :
    Step p s a (writeRelease s g ⟨t, l, b⟩ x) := by
  cases b with
  | true => exact .writeReleased ha hf hg hx
  | false => exact .writeLeft ha hf hg hx

theorem nextBy_step [DecidableEq T] [DecidableEq L] (h : nextBy p s a = some s') : Step p s a s' := by
  cases a with
  | read t l g =>
      rw [nextBy] at h
      split at h
      · rename_i hc
        cases h
        exact .read hc.1 hc.2
      · cases h
  | readEnter g =>
      obtain ⟨⟨t, l, b⟩, hg, hf, rfl⟩ := onGuard_inv h
      exact readEnterBy_step hg hf
  | readArc t =>
      rw [nextBy] at h
      split at h
      · rename_i g l b hf
        obtain ⟨raw, hraw, rfl⟩ := Option.map_eq_some_iff.mp h
        exact .readArc hf hraw
      · cases h
  | readExit g =>
      obtain ⟨⟨t, l, b⟩, hg, hf, rfl⟩ := onGuard_inv h
      cases b with
      | true => exact .readExit hf hg
      | false => exact .readLeft
  | readDrop g =>
      obtain ⟨⟨t, l, b⟩, hg, hf, rfl⟩ := onGuard_inv h
      cases b with
      | true => exact .readDied hf hg
      | false => exact .readDrop hf hg
  | write t l g =>
      rw [nextBy] at h
      split at h
      · rename_i hc
        cases h
        exact .write hc.1 hc.2
      · cases h
  | writeEnter g =>
      obtain ⟨⟨t, l, b⟩, hg, hf, rfl⟩ := onGuard_inv h
      exact writeEnterBy_step hg hf
  | writeArc t =>
      rw [nextBy] at h
      split at h
      · rename_i g l hf
        obtain ⟨raw, hraw, rfl⟩ := Option.map_eq_some_iff.mp h
        exact .writeArc hf hraw
      · cases h
  | writeExit g =>
      obtain ⟨⟨t, l, b⟩, hg, hf, rfl⟩ := onGuard_inv h
      exact writeRelease_step (.inl rfl) hg hf (.inl rfl)
  | writeDrop g =>
      obtain ⟨⟨t, l, b⟩, hg, hf, rfl⟩ := onGuard_inv h
      exact writeRelease_step (.inr rfl) hg hf (.inr rfl)

/-! ## The read guards that are entered -/

/-- A thread waits in `__enter__` for a guard that is its own and not entered. -/
def Waits (s : State T G L) : Prop :=
  ∀ t g l b, s.frame t = .readArc g l b → s.readGuards g = some ⟨t, l, false⟩

/-- What a step does to the entered read guards: nothing, one more, or one less, which its thread has
left or which has died. -/
inductive Effect [DecidableEq T] [DecidableEq L] (s s' : State T G L) (a : Act T G L) : Prop
  | same (he : ∀ t l g, s'.Entered t l g ↔ s.Entered t l g) (hd : s'.readDepth = s.readDepth)
      (hr : ∀ l, (s'.lock l).readers = (s.lock l).readers)
      (ha : ∀ t l g, a = .readDrop g → ¬ s.Entered t l g)
  | acquire (t : T) (l : L) (g : G) (hg : s.readGuards g = some ⟨t, l, false⟩)
      (he : ∀ u m h, s'.Entered u m h ↔ s.Entered u m h ∨ u = t ∧ m = l ∧ h = g)
      (hd : s'.readDepth = Function.update s.readDepth t (s.readDepth t + 1))
      (hr : ∀ m, (s'.lock m).readers = if m = l then g :: (s.lock l).readers else (s.lock m).readers)
      (ha : ∀ h, a ≠ .readDrop h)
  | leave (t : T) (l : L) (g : G) (hg : s.Entered t l g)
      (he : ∀ u m h, s'.Entered u m h ↔ s.Entered u m h ∧ h ≠ g)
      (hd : s'.readDepth = Function.update s.readDepth t (s.readDepth t - 1))
      (hr : ∀ m, (s'.lock m).readers =
        if m = l then (s.lock l).readers.erase g else (s.lock m).readers)
      (ha : ∀ h, a ≠ .readDrop h)
  | die (t : T) (l : L) (g : G) (hg : s.Entered t l g)
      (he : ∀ u m h, s'.Entered u m h ↔ s.Entered u m h ∧ h ≠ g) (hd : s'.readDepth = s.readDepth)
      (hr : ∀ m, (s'.lock m).readers =
        if m = l then (s.lock l).readers.erase g else (s.lock m).readers)
      (ha : a = .readDrop g)

section Updates

variable {t u : T} {l m : L} {g h : G} {x : Option (Guard T L)}

theorem entered_update (hs : s'.readGuards = Function.update s.readGuards g x) :
    s'.Entered u m h ↔ h = g ∧ x = some ⟨u, m, true⟩ ∨ h ≠ g ∧ s.Entered u m h := by
  rw [State.Entered, State.Entered, hs]
  by_cases hhg : h = g
  · rw [hhg, Function.update_self]
    simp
  · rw [Function.update_of_ne hhg]
    simp [hhg]

/-- A guard that is not entered stays so. -/
theorem entered_same (hs : s'.readGuards = Function.update s.readGuards g x)
    (hg : ¬ s.Entered u m g) (hx : x ≠ some ⟨u, m, true⟩) :
    s'.Entered u m h ↔ s.Entered u m h := by
  rw [entered_update hs]
  constructor
  · rintro (⟨-, hxe⟩ | ⟨-, he⟩)
    · exact absurd hxe hx
    · exact he
  · intro he
    refine .inr ⟨?_, he⟩
    rintro rfl
    exact hg he

theorem entered_acquire (hs : s'.readGuards = Function.update s.readGuards g (some ⟨t, l, true⟩))
    (hg : s.readGuards g = some ⟨t, l, false⟩) :
    s'.Entered u m h ↔ s.Entered u m h ∨ u = t ∧ m = l ∧ h = g := by
  rw [entered_update hs]
  constructor
  · rintro (⟨rfl, hx⟩ | ⟨-, he⟩)
    · cases hx
      exact .inr ⟨rfl, rfl, rfl⟩
    · exact .inl he
  · rintro (he | ⟨rfl, rfl, rfl⟩)
    · refine .inr ⟨?_, he⟩
      rintro rfl
      rw [State.Entered, hg] at he
      cases he
    · exact .inl ⟨rfl, rfl⟩

theorem entered_release (hs : s'.readGuards = Function.update s.readGuards g x)
    (hx : ∀ u m, x ≠ some ⟨u, m, true⟩) : s'.Entered u m h ↔ s.Entered u m h ∧ h ≠ g := by
  rw [entered_update hs]
  constructor
  · rintro (⟨-, hxe⟩ | ⟨hhg, he⟩)
    · exact absurd hxe (hx u m)
    · exact ⟨he, hhg⟩
  · exact fun he => .inr ⟨he.2, he.1⟩

omit [DecidableEq G] in
/-- A guard has one owner. -/
theorem entered_owner (hu : s.Entered u m g) (ht : s.Entered t l g) : u = t := by
  rw [State.Entered] at hu
  rw [State.Entered, hu] at ht
  cases ht
  rfl

omit [DecidableEq G] in
theorem not_entered_of_idle (hg : s.readGuards g = some ⟨t, l, false⟩) : ¬ s.Entered u m g := by
  rw [State.Entered, hg]
  intro he
  cases he

omit [DecidableEq G] in
theorem readers_update [DecidableEq L] {raw : ReadWrite.Lock G} {rs : List G}
    (hs : s'.lock = Function.update s.lock l raw) (hrs : raw.readers = rs) :
    (s'.lock m).readers = if m = l then rs else (s.lock m).readers := by
  rw [hs]
  by_cases hml : m = l
  · rw [hml, Function.update_self, if_pos rfl, hrs]
  · rw [Function.update_of_ne hml, if_neg hml]

omit [DecidableEq G] in
/-- A step of a writer leaves the readers as they are. -/
theorem readers_same [DecidableEq L] {raw : ReadWrite.Lock G} (hs : s'.lock = Function.update s.lock l raw)
    (hr : raw.readers = (s.lock l).readers) : (s'.lock m).readers = (s.lock m).readers := by
  rw [readers_update hs hr]
  split
  · rename_i hml
    rw [hml]
  · rfl

theorem Effect.of_same [DecidableEq T] [DecidableEq L] (ha : ∀ g, a ≠ .readDrop g)
    (hg : s'.readGuards = s.readGuards)
    (hd : s'.readDepth = s.readDepth) (hr : ∀ l, (s'.lock l).readers = (s.lock l).readers) :
    Effect s s' a :=
  .same (fun t l g => by rw [State.Entered, State.Entered, hg]) hd hr fun _ _ g h => absurd h (ha g)

theorem Effect.of_acquire [DecidableEq T] [DecidableEq L] {b : Bool} {raw : ReadWrite.Lock G}
    (ha : ∀ g, a ≠ .readDrop g)
    (hg : s.readGuards g = some ⟨t, l, false⟩) (hraw : p.tryRead (s.lock l) b g = some raw)
    (hg' : s'.readGuards = Function.update s.readGuards g (some ⟨t, l, true⟩))
    (hd : s'.readDepth = Function.update s.readDepth t (s.readDepth t + 1))
    (hl : s'.lock = Function.update s.lock l raw) : Effect s s' a :=
  .acquire t l g hg (fun _ _ _ => entered_acquire hg' hg) hd
    (fun _ => readers_update hl (Policy.tryRead_spec hraw).2.1) ha

end Updates

theorem Step.effect [DecidableEq T] [DecidableEq L] (hw : Waits s) (h : Step p s a s') : Effect s s' a := by
  cases h with
  | read hf hg =>
      refine .same (fun u m h => entered_same rfl ?_ ?_) rfl (fun _ => rfl) ?_
      · rw [State.Entered, hg]
        intro he
        cases he
      · intro he
        cases he
      · intro u m h he
        cases he
  | readRaised | readWaits | readLeft | write | writeRaised =>
      exact .of_same (fun g h => by cases h) rfl rfl fun _ => rfl
  | readAcquired hf hg hraw => exact .of_acquire (fun g h => by cases h) hg hraw rfl rfl rfl
  | readArc hf hraw =>
      exact .of_acquire (fun g h => by cases h) (hw _ _ _ _ hf) hraw rfl rfl rfl
  | readExit hf hg =>
      refine .leave _ _ _ hg (fun u m h => entered_release rfl ?_) rfl
        (fun m => readers_update rfl rfl) (fun h he => by cases he)
      intro u m he
      cases he
  | readDied hf hg =>
      refine .die _ _ _ hg (fun u m h => entered_release rfl ?_) rfl
        (fun m => readers_update rfl rfl) rfl
      intro u m he
      cases he
  | readDrop hf hg =>
      refine .same (fun u m h => entered_same rfl (not_entered_of_idle hg) ?_) rfl (fun _ => rfl) ?_
      · intro he
        cases he
      · intro u m h he
        cases he
        exact not_entered_of_idle hg
  | writeAcquired hf hg hraw =>
      obtain ⟨hr, hr', -⟩ := Policy.tryWrite_spec hraw
      exact .of_same (fun g h => by cases h) rfl rfl fun _ => readers_same rfl (hr'.trans hr.symm)
  | writeWaits =>
      exact .of_same (fun g h => by cases h) rfl rfl fun _ => readers_same rfl rfl
  | writeArc hf hraw =>
      obtain ⟨hr, hr', -⟩ := Policy.tryWrite_spec hraw
      exact .of_same (fun g h => by cases h) rfl rfl fun _ => readers_same rfl (hr'.trans hr.symm)
  | writeReleased ha =>
      refine .of_same (fun g h => ?_) rfl rfl fun _ => readers_same rfl rfl
      rcases ha with rfl | rfl <;> cases h
  | writeLeft ha =>
      refine .of_same (fun g h => ?_) rfl rfl fun _ => rfl
      rcases ha with rfl | rfl <;> cases h

/-! ## What holds along a run -/

section Waiting

variable {t : T} {l : L} {g : G} {x : Option (Guard T L)}

omit [DecidableEq G] in
theorem Waits.mono (hw : Waits s) (hg : s'.readGuards = s.readGuards)
    (hf : ∀ u h m b, s'.frame u = .readArc h m b → s.frame u = .readArc h m b) : Waits s' := by
  intro u h m b hu
  rw [hg]
  exact hw _ _ _ _ (hf _ _ _ _ hu)

/-- A guard that its thread does not wait for changes. -/
theorem Waits.update (hw : Waits s) (hs : s'.readGuards = Function.update s.readGuards g x)
    (hf : ∀ u h m b, s'.frame u = .readArc h m b → s.frame u = .readArc h m b ∧ h ≠ g) :
    Waits s' := by
  intro u h m b hu
  obtain ⟨hu, hhg⟩ := hf _ _ _ _ hu
  rw [hs, Function.update_of_ne hhg]
  exact hw _ _ _ _ hu

omit [DecidableEq G] in
/-- Nobody waits for a guard of a thread that runs Python code. -/
theorem Waits.ne_of_python (hw : Waits s) (hf : s.frame t = .python) {b : Bool}
    (hg : s.readGuards g = some ⟨t, l, b⟩) {u : T} {h : G} {m : L} {c : Bool}
    (hu : s.frame u = .readArc h m c) : s.frame u = .readArc h m c ∧ h ≠ g := by
  refine ⟨hu, ?_⟩
  rintro rfl
  have hgu := hw _ _ _ _ hu
  rw [hg] at hgu
  cases hgu
  rw [hf] at hu
  cases hu

end Waiting

variable [DecidableEq T]

omit [DecidableEq G] in
theorem frame_of_update {t u : T} {f : Frame G L} {h : G} {m : L} {b : Bool}
    (hf : ∀ h m b, f ≠ .readArc h m b)
    (hu : Function.update s.frame t f u = .readArc h m b) : u ≠ t ∧ s.frame u = .readArc h m b := by
  by_cases hut : u = t
  · subst hut
    rw [Function.update_self] at hu
    exact absurd hu (hf h m b)
  · rw [Function.update_of_ne hut] at hu
    exact ⟨hut, hu⟩

theorem Step.waits [DecidableEq L] (hw : Waits s) (h : Step p s a s') : Waits s' := by
  cases h with
  | read hf hg =>
      refine hw.update rfl fun u h m b hu => ⟨hu, ?_⟩
      rintro rfl
      rw [hw _ _ _ _ hu] at hg
      cases hg
  | readRaised | readLeft | writeRaised => exact hw
  | readAcquired hf hg =>
      exact hw.update rfl fun u h m b hu => hw.ne_of_python hf hg hu
  | @readWaits t l g hf hg =>
      intro u h m b hu
      by_cases hut : u = t
      · subst hut
        have hfr : Function.update s.frame u (.readArc g l (s.isReentrant u)) u = .readArc h m b := hu
        rw [Function.update_self] at hfr
        cases hfr
        exact hg
      · have hfr : Function.update s.frame t (.readArc g l (s.isReentrant t)) u = .readArc h m b := hu
        rw [Function.update_of_ne hut] at hfr
        exact hw _ _ _ _ hfr
  | readArc hf hraw =>
      refine hw.update rfl fun u h m b hu => ?_
      obtain ⟨hut, hu⟩ := frame_of_update (fun _ _ _ he => by cases he) hu
      refine ⟨hu, ?_⟩
      rintro rfl
      have hg := hw _ _ _ _ hf
      rw [hw _ _ _ _ hu] at hg
      cases hg
      exact hut rfl
  | readExit hf hg => exact hw.update rfl fun u h m b hu => hw.ne_of_python hf hg hu
  | readDied hf hg => exact hw.update rfl fun u h m b hu => hw.ne_of_python hf hg hu
  | readDrop hf hg => exact hw.update rfl fun u h m b hu => hw.ne_of_python hf hg hu
  | write | writeAcquired | writeReleased | writeLeft =>
      exact hw.mono rfl fun u h m b hu => hu
  | writeWaits | writeArc =>
      exact hw.mono rfl fun u h m b hu => (frame_of_update (fun _ _ _ he => by cases he) hu).2

omit [DecidableEq T] [DecidableEq G] in
theorem waits_init : Waits (.init : State T G L) := fun t g l b ht => by cases ht

variable [DecidableEq L]

/-- Every entered read guard holds its lock. -/
def Held (s : State T G L) : Prop := ∀ t l g, s.Entered t l g → g ∈ (s.lock l).readers

theorem Effect.held (hh : Held s) (h : Effect s s' a) : Held s' := by
  intro u m k hk
  cases h with
  | same he _ hr _ =>
      rw [hr]
      exact hh _ _ _ ((he _ _ _).mp hk)
  | acquire t l g _ he _ hr _ =>
      rw [hr]
      rcases (he _ _ _).mp hk with hk | ⟨rfl, rfl, rfl⟩
      · split
        · rename_i hml
          subst hml
          exact List.mem_cons_of_mem _ (hh _ _ _ hk)
        · exact hh _ _ _ hk
      · rw [if_pos rfl]
        exact List.mem_cons_self
  | leave t l g _ he _ hr _ | die t l g _ he _ hr _ =>
      obtain ⟨hk, hkg⟩ := (he _ _ _).mp hk
      rw [hr]
      split
      · rename_i hml
        subst hml
        exact (List.mem_erase_of_ne hkg).mpr (hh _ _ _ hk)
      · exact hh _ _ _ hk

/-- A read guard of the thread died in the run while it was entered. -/
def Died (as : List (Act T G L)) (t : T) : Prop :=
  ∃ pre l g u, pre ++ [.readDrop g] <+: as ∧ Run next .init pre u ∧ u.Entered t l g

/-- The read guards that the thread has entered. -/
def entered (s : State T G L) (t : T) : Set G := {g | ∃ l, s.Entered t l g}

/-- `READ_DEPTH` of a thread is the number of its entered read guards and of those that died so. -/
def Counted (as : List (Act T G L)) (s : State T G L) (t : T) : Prop :=
  (entered s t).Finite ∧ ∃ lost, s.readDepth t = (entered s t).ncard + lost ∧ (0 < lost ↔ Died as t)

variable {as : List (Act T G L)} {t : T}

theorem died_snoc (hr : Run next .init as s) :
    Died (as ++ [a]) t ↔ Died as t ∨ ∃ l g, a = .readDrop g ∧ s.Entered t l g := by
  constructor
  · rintro ⟨pre, l, g, u, hpre, hu, hg⟩
    rcases List.prefix_concat_iff.mp hpre with heq | hpre
    · obtain ⟨rfl, ha⟩ := List.append_inj' heq rfl
      cases ha
      rw [hu.unique hr] at hg
      exact .inr ⟨l, g, rfl, hg⟩
    · exact .inl ⟨pre, l, g, u, hpre, hu, hg⟩
  · rintro (⟨pre, l, g, u, hpre, hu, hg⟩ | ⟨l, g, rfl, hg⟩)
    · exact ⟨pre, l, g, u, hpre.trans (List.prefix_append _ _), hu, hg⟩
    · exact ⟨as, l, g, s, List.prefix_rfl, hr, hg⟩

theorem not_died_nil : ¬ Died ([] : List (Act T G L)) t := by
  rintro ⟨pre, l, g, u, hpre, -⟩
  have hnil := List.prefix_nil.mp hpre
  simp at hnil

theorem counted_nil : Counted [] (.init : State T G L) t := by
  have hempty : entered (.init : State T G L) t = ∅ := by
    refine Set.eq_empty_of_forall_notMem fun g hg => ?_
    obtain ⟨l, hl⟩ := hg
    cases hl
  refine ⟨by rw [hempty]; exact Set.finite_empty, 0, ?_, ?_⟩
  · rw [hempty, Set.ncard_empty]
    rfl
  · exact ⟨fun h => absurd h (lt_irrefl 0), fun h => absurd h not_died_nil⟩

/-- The steps that do not concern the read guards of the thread. -/
theorem Counted.frame (hr : Run next .init as s) (hc : Counted as s t)
    (he : ∀ l g, s'.Entered t l g ↔ s.Entered t l g) (hd : s'.readDepth t = s.readDepth t)
    (ha : ∀ l g, a = .readDrop g → ¬ s.Entered t l g) : Counted (as ++ [a]) s' t := by
  have hset : entered s' t = entered s t := by
    ext g
    exact exists_congr fun l => he l g
  obtain ⟨hfin, lost, hcount, hlost⟩ := hc
  refine ⟨by rwa [hset], lost, by rw [hd, hset, hcount], ?_⟩
  rw [hlost, died_snoc hr]
  exact ⟨.inl, fun h => h.resolve_right fun ⟨l, g, hag, hg⟩ => ha l g hag hg⟩

theorem Counted.acquire {l : L} {g : G} (hr : Run next .init as s) (hc : Counted as s t)
    (hg : s.readGuards g = some ⟨t, l, false⟩)
    (he : ∀ m h, s'.Entered t m h ↔ s.Entered t m h ∨ m = l ∧ h = g)
    (hd : s'.readDepth t = s.readDepth t + 1) (ha : ∀ h, a ≠ .readDrop h) :
    Counted (as ++ [a]) s' t := by
  have hset : entered s' t = insert g (entered s t) := by
    ext h
    constructor
    · rintro ⟨m, hm⟩
      rcases (he m h).mp hm with hm | ⟨-, rfl⟩
      · exact .inr ⟨m, hm⟩
      · exact .inl rfl
    · rintro (rfl | ⟨m, hm⟩)
      · exact ⟨l, (he l h).mpr (.inr ⟨rfl, rfl⟩)⟩
      · exact ⟨m, (he m h).mpr (.inl hm)⟩
  have hnew : g ∉ entered s t := fun ⟨m, hm⟩ => not_entered_of_idle hg hm
  obtain ⟨hfin, lost, hcount, hlost⟩ := hc
  refine ⟨by rw [hset]; exact hfin.insert g, lost, ?_, ?_⟩
  · rw [hd, hset, Set.ncard_insert_of_notMem hnew hfin, hcount]
    omega
  · rw [hlost, died_snoc hr]
    exact ⟨.inl, fun h => h.resolve_right fun ⟨_, h, hah, _⟩ => ha h hah⟩

omit [DecidableEq T] [DecidableEq G] [DecidableEq L] in
theorem entered_release_eq {l : L} {g : G} (hg : s.Entered t l g)
    (he : ∀ m h, s'.Entered t m h ↔ s.Entered t m h ∧ h ≠ g) :
    g ∈ entered s t ∧ entered s' t = entered s t \ {g} := by
  refine ⟨⟨l, hg⟩, ?_⟩
  ext h
  constructor
  · rintro ⟨m, hm⟩
    exact ⟨⟨m, ((he m h).mp hm).1⟩, ((he m h).mp hm).2⟩
  · rintro ⟨⟨m, hm⟩, hne⟩
    exact ⟨m, (he m h).mpr ⟨hm, hne⟩⟩

theorem Counted.leave {l : L} {g : G} (hr : Run next .init as s) (hc : Counted as s t)
    (hg : s.Entered t l g) (he : ∀ m h, s'.Entered t m h ↔ s.Entered t m h ∧ h ≠ g)
    (hd : s'.readDepth t = s.readDepth t - 1) (ha : ∀ h, a ≠ .readDrop h) :
    Counted (as ++ [a]) s' t := by
  obtain ⟨hmem, hset⟩ := entered_release_eq hg he
  obtain ⟨hfin, lost, hcount, hlost⟩ := hc
  refine ⟨by rw [hset]; exact hfin.sdiff, lost, ?_, ?_⟩
  · have hcard := Set.ncard_sdiff_singleton_add_one hmem hfin
    rw [hd, hset, hcount]
    omega
  · rw [hlost, died_snoc hr]
    exact ⟨.inl, fun h => h.resolve_right fun ⟨_, h, hah, _⟩ => ha h hah⟩

theorem Counted.die {l : L} {g : G} (hr : Run next .init as s) (hc : Counted as s t)
    (hg : s.Entered t l g) (he : ∀ m h, s'.Entered t m h ↔ s.Entered t m h ∧ h ≠ g)
    (hd : s'.readDepth t = s.readDepth t) (ha : a = .readDrop g) : Counted (as ++ [a]) s' t := by
  obtain ⟨hmem, hset⟩ := entered_release_eq hg he
  obtain ⟨hfin, lost, hcount, hlost⟩ := hc
  refine ⟨by rw [hset]; exact hfin.sdiff, lost + 1, ?_, ?_⟩
  · have hcard := Set.ncard_sdiff_singleton_add_one hmem hfin
    rw [hd, hset, hcount]
    omega
  · rw [died_snoc hr]
    exact ⟨fun _ => .inr ⟨l, g, ha, hg⟩, fun _ => Nat.succ_pos lost⟩

theorem Effect.counted (hr : Run next .init as s) (h : Effect s s' a) (hc : ∀ t, Counted as s t) :
    ∀ t, Counted (as ++ [a]) s' t := by
  intro u
  cases h with
  | same he hd _ ha =>
      exact (hc u).frame hr (he u) (by rw [hd]) fun l g hag => ha u l g hag
  | acquire t l g hg he hd _ ha =>
      by_cases hut : u = t
      · subst hut
        refine (hc u).acquire hr hg (fun m h => ?_) (by rw [hd, Function.update_self]) ha
        rw [he]
        simp only [true_and]
      · refine (hc u).frame hr (fun m h => ?_) (by rw [hd, Function.update_of_ne hut])
          fun _ h hah => absurd hah (ha h)
        rw [he]
        exact or_iff_left fun hu => hut hu.1
  | leave t l g hg he hd _ ha =>
      by_cases hut : u = t
      · subst hut
        exact (hc u).leave hr hg (he u) (by rw [hd, Function.update_self]) ha
      · refine (hc u).frame hr (fun m h => ?_) (by rw [hd, Function.update_of_ne hut])
          fun _ h hah => absurd hah (ha h)
        rw [he]
        exact and_iff_left_of_imp fun hh hhg => hut (entered_owner (hhg ▸ hh) hg)
  | die t l g hg he hd _ ha =>
      by_cases hut : u = t
      · subst hut
        exact (hc u).die hr hg (he u) (by rw [hd]) ha
      · refine (hc u).frame hr (fun m h => ?_) (by rw [hd]) fun m h hah hh => ?_
        · rw [he]
          exact and_iff_left_of_imp fun hh hhg => hut (entered_owner (hhg ▸ hh) hg)
        · rw [ha] at hah
          cases hah
          exact hut (entered_owner hh hg)

/-- The step rule for the three together. -/
theorem run_inv (h : Run next .init as s) : Waits s ∧ Held s ∧ ∀ t, Counted as s t := by
  induction h with
  | nil =>
      refine ⟨waits_init, fun t l g hg => ?_, fun t => counted_nil⟩
      cases hg
  | snoc hr _ hn ih =>
      obtain ⟨hw, hh, hc⟩ := ih
      have hstep := nextBy_step hn
      have heff := hstep.effect hw
      exact ⟨hstep.waits hw, heff.held hh, heff.counted hr hc⟩

/-- What `READ_DEPTH > 0` tells about the thread. -/
theorem isReentrant_iff (h : Run next .init as s) :
    s.isReentrant t = true ↔ (∃ l, s.HoldsRead t l) ∨ Died as t := by
  obtain ⟨hfin, lost, hcount, hlost⟩ := (run_inv h).2.2 t
  have hheld : 0 < (entered s t).ncard ↔ ∃ l, s.HoldsRead t l := by
    rw [Set.ncard_pos hfin]
    constructor
    · rintro ⟨g, l, hg⟩
      exact ⟨l, g, hg⟩
    · rintro ⟨l, g, hg⟩
      exact ⟨g, l, hg⟩
  rw [State.isReentrant, decide_eq_true_iff, hcount, ← hlost, ← hheld]
  omega

/-! ## Which path a read takes -/

theorem readEnter_path {g : G} {r : Guard T L} :
    (readEnter s g r).1.path = some .recursive ↔ r.guard = false ∧ s.isReentrant r.owner = true := by
  cases hg : r.guard with
  | true => simp [readEnter, readEnterBy, hg, Entry.path]
  | false =>
      have hof : (Path.of (s.isReentrant r.owner) = .recursive) ↔ s.isReentrant r.owner = true := by
        cases s.isReentrant r.owner <;> simp [Path.of]
      rw [readEnter, readEnterBy, if_neg (by rw [hg]; exact Bool.false_ne_true)]
      split <;> simp [Entry.path, hof]

/-- A thread that holds a read guard of a lock enters another one at once. -/
theorem reentrant_read {l : L} {g : G} (h : Run next .init as s) (hheld : s.HoldsRead t l)
    (hg : s.readGuards g = some ⟨t, l, false⟩) (hf : s.frame t = .python) :
    ∃ s', next s (.readEnter g) = some s' ∧
      (readEnter s g ⟨t, l, false⟩).1 = .acquired .recursive ∧ s'.Entered t l g ∧
      s'.frame t = .python ∧ (s'.lock l).waiting = (s.lock l).waiting := by
  have hre : s.isReentrant t = true := (isReentrant_iff h).mpr (.inl ⟨l, hheld⟩)
  obtain ⟨g', hg'⟩ := hheld
  obtain ⟨raw, hraw⟩ :=
    Policy.exists_tryRead_recursive ((run_inv h).2.1 t l g' hg') g
  have htry : tryOpt .writersFirst s g ⟨t, l, false⟩ = some raw := by
    rw [tryOpt, hre]
    exact hraw
  have henter : readEnter s g ⟨t, l, false⟩ = (.acquired .recursive, s.readAcquired t l g raw) := by
    rw [readEnter, readEnterBy, if_neg Bool.false_ne_true, htry]
    simp only [hre, Path.of, if_pos]
  refine ⟨s.readAcquired t l g raw, ?_, by rw [henter], ?_, hf, ?_⟩
  · rw [readEnter] at henter
    rw [next, nextBy, hg, onGuard, if_pos hf, henter]
  · exact (entered_acquire rfl hg).mpr (.inr ⟨rfl, rfl, rfl⟩)
  · show (Function.update s.lock l raw l).waiting = _
    rw [Function.update_self]
    exact (Policy.tryRead_spec hraw).2.2.2

/-- A writer waits for the lock that a thread reads, which makes another guard for it. -/
def nestedRead : List (Act ℕ ℕ ℕ) :=
  [.read 0 0 0, .readEnter 0, .write 1 0 0, .writeEnter 0, .read 0 0 1]

theorem nestedRead_exec :
    (exec next (fun _ _ => True) (.init : State ℕ ℕ ℕ) nestedRead).map
      (fun s => decide (s.readGuards 0 = some ⟨0, 0, true⟩ ∧ s.readGuards 1 = some ⟨0, 0, false⟩ ∧
        s.frame 0 = .python ∧ (s.lock 0).waiting = [0])) = some true := by
  decide

theorem reentrant_read_past_writer :
    ∃ s : State ℕ ℕ ℕ, Run next .init nestedRead s ∧ (s.lock 0).waiting = [0] ∧
      ∃ s', next s (.readEnter 1) = some s' ∧
        (readEnter s 1 ⟨0, 0, false⟩).1 = .acquired .recursive ∧ s'.Entered 0 0 1 ∧
        s'.frame 0 = .python ∧ (s'.lock 0).waiting = (s.lock 0).waiting := by
  obtain ⟨s, hrun, hs⟩ := exists_runWith_of_exec nestedRead_exec
  obtain ⟨hheld, hg, hf, hw⟩ := of_decide_eq_true hs
  exact ⟨s, hrun, hw, reentrant_read hrun ⟨0, hheld⟩ hg hf⟩

/-- Every read that takes the recursive path is by a thread that holds a read guard of that lock. -/
def OnlyReentrant (as : List (Act T G L)) : Prop :=
  ∀ pre g r u, pre ++ [.readEnter g] <+: as → Run next .init pre u → u.readGuards g = some r →
    (readEnter u g r).1.path = some .recursive → u.HoldsRead r.owner r.lock

/-- Every read guard is entered by a thread that holds a read guard of the same lock, or that holds
none at all and has let none die while it was entered. -/
def EntersFresh (as : List (Act T G L)) : Prop :=
  ∀ pre g r u, pre ++ [.readEnter g] <+: as → Run next .init pre u → u.readGuards g = some r →
    r.guard = false →
      u.HoldsRead r.owner r.lock ∨ (∀ l, ¬ u.HoldsRead r.owner l) ∧ ¬ Died pre r.owner

theorem onlyReentrant_iff (as : List (Act T G L)) : OnlyReentrant as ↔ EntersFresh as := by
  refine forall_congr' fun pre => forall_congr' fun g => forall_congr' fun r => forall_congr' fun u =>
    forall_congr' fun _ => forall_congr' fun hu => forall_congr' fun _ => ?_
  rw [readEnter_path, isReentrant_iff hu, ← not_exists, ← not_or]
  tauto

/-- The thread `a` holds the lock `a` when it enters a guard of the lock `b`, which the thread `c`
reads and for which the thread `b` waits with a write guard. -/
def overtake {N : Type} (a b c : N) : List (Act N N N) :=
  [.read c b c, .readEnter c, .write b b a, .writeEnter a, .read a a a, .readEnter a, .read a b b,
    .readEnter b]

theorem overtake_exec :
    (exec next (fun _ _ => True) (.init : State (Fin 3) (Fin 3) (Fin 3))
      ((overtake 0 1 2).take 7)).map
      (fun s => decide (s.readGuards 1 = some ⟨0, 1, false⟩ ∧ s.isReentrant 0 = true ∧
        ∀ g, s.readGuards g ≠ some ⟨0, 1, true⟩)) = some true := by
  decide

theorem overtake_run :
    ((exec next (fun _ _ => True) (.init : State (Fin 3) (Fin 3) (Fin 3)) (overtake 0 1 2)).map
      fun s => decide (s.readGuards 1 = some ⟨0, 1, true⟩ ∧ (s.lock 1).waiting = [0])) = some true := by
  decide

/-- A thread that holds another lock overtakes a writer. -/
theorem not_always_onlyReentrant :
    ¬ ∀ (T G L : Type) [DecidableEq T] [DecidableEq G] [DecidableEq L] (as : List (Act T G L))
      (s : State T G L), Run next .init as s → OnlyReentrant as := by
  intro hall
  obtain ⟨s, hrun, -⟩ := exists_runWith_of_exec overtake_run
  obtain ⟨u, hu, hp⟩ := exists_runWith_of_exec overtake_exec
  obtain ⟨hg, hre, hnot⟩ := of_decide_eq_true hp
  obtain ⟨g, hheld⟩ := hall _ _ _ (overtake 0 1 2) s hrun ((overtake 0 1 2).take 7) 1 ⟨0, 1, false⟩ u
    List.prefix_rfl hu hg (readEnter_path.mpr ⟨rfl, hre⟩)
  exact hnot g hheld

end Pysync.Lock
