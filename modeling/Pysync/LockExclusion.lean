import Pysync.LockReentrancy

/-!
Who has a lock. Whatever the lock answers, its state is told by the guards and the threads alone: its
readers are the entered read guards, its writer is the entered write guard, and the writers that wait
are the threads in the slow path of an `__enter__`. With this a writer has the lock for itself, and a
thread that waits for a lock of which it has entered a guard waits for ever.
-/

namespace Pysync.Lock
open Transition
open ReadWrite (Policy)

variable {T G L : Type*}
variable {p : Policy G} {s s' : State T G L} {a : Act T G L} {as : List (Act T G L)}
variable {t u : T} {l m : L} {g h : G}

/-- The thread `t` has entered the write guard `g` of the lock `l`, and not left it yet. -/
def State.EnteredWrite (s : State T G L) (t : T) (l : L) (g : G) : Prop :=
  s.writeGuards g = some ⟨t, l, true⟩

/-! ## The readers -/

/-- The readers of every lock are the read guards entered on it. -/
structure ReadersAccounted (s : State T G L) : Prop where
  readers : ∀ l g, g ∈ (s.lock l).readers ↔ ∃ t, s.Entered t l g
  nodup : ∀ l, (s.lock l).readers.Nodup

theorem ReadersAccounted.acquire [DecidableEq L] (hs : ReadersAccounted s)
    (hg : s.readGuards g = some ⟨t, l, false⟩)
    (he : ∀ u m h, s'.Entered u m h ↔ s.Entered u m h ∨ u = t ∧ m = l ∧ h = g)
    (hr : ∀ m, (s'.lock m).readers = if m = l then g :: (s.lock l).readers else (s.lock m).readers) :
    ReadersAccounted s' where
  readers m h := by
    simp only [he, exists_or, exists_eq_left, hr]
    by_cases hml : m = l
    · subst hml
      rw [if_pos rfl, List.mem_cons, hs.readers, or_comm]
      simp
    · rw [if_neg hml, hs.readers]
      simp [hml]
  nodup m := by
    rw [hr]
    split
    · refine List.nodup_cons.mpr ⟨fun hmem => ?_, hs.nodup l⟩
      obtain ⟨u, hu⟩ := (hs.readers l g).mp hmem
      exact not_entered_of_idle hg hu
    · exact hs.nodup m

theorem ReadersAccounted.release [DecidableEq G] [DecidableEq L] (hs : ReadersAccounted s)
    (hg : s.Entered t l g) (he : ∀ u m h, s'.Entered u m h ↔ s.Entered u m h ∧ h ≠ g)
    (hr : ∀ m, (s'.lock m).readers =
      if m = l then (s.lock l).readers.erase g else (s.lock m).readers) : ReadersAccounted s' where
  readers m h := by
    simp only [he, exists_and_right, ← hs.readers, hr]
    by_cases hml : m = l
    · subst hml
      rw [if_pos rfl, (hs.nodup m).mem_erase_iff, and_comm]
    · rw [if_neg hml]
      refine (and_iff_left_of_imp fun hmem => ?_).symm
      rintro rfl
      obtain ⟨u, hu⟩ := (hs.readers m h).mp hmem
      rw [State.Entered, hg] at hu
      cases hu
      exact hml rfl
  nodup m := by
    rw [hr]
    split
    · exact (hs.nodup l).erase g
    · exact hs.nodup m

theorem Effect.readersAccounted [DecidableEq T] [DecidableEq G] [DecidableEq L] (hs : ReadersAccounted s)
    (heff : Effect s s' a) : ReadersAccounted s' := by
  cases heff with
  | same he _ hr _ =>
      refine ⟨fun l g => ?_, fun l => by rw [hr]; exact hs.nodup l⟩
      rw [hr, hs.readers]
      exact exists_congr fun t => (he t l g).symm
  | acquire t l g hg he _ hr _ => exact hs.acquire hg he hr
  | leave t l g hg he _ hr _ | die t l g hg he _ hr _ => exact hs.release hg he hr

/-! ## The writer -/

/-- The writer of every lock is the write guard entered on it, and the threads that wait in a write
guard are those queued on the lock. -/
structure WritersAccounted (s : State T G L) : Prop where
  writer : ∀ l g, (s.lock l).writer = some g ↔ ∃ t, s.EnteredWrite t l g
  waiting : ∀ l g, g ∈ (s.lock l).waiting ↔ ∃ t, s.frame t = .writeArc g l
  waits : ∀ t l g, s.frame t = .writeArc g l → s.writeGuards g = some ⟨t, l, false⟩
  queued : ∀ l, (s.lock l).waiting.Nodup

/-- What a step of a read guard leaves as it is. -/
theorem WritersAccounted.aside (hs : WritersAccounted s) (hguards : s'.writeGuards = s.writeGuards)
    (hframe : ∀ t g l, s'.frame t = .writeArc g l ↔ s.frame t = .writeArc g l)
    (hwriter : ∀ l, (s'.lock l).writer = (s.lock l).writer)
    (hwaiting : ∀ l, (s'.lock l).waiting = (s.lock l).waiting) : WritersAccounted s' where
  writer l g := by
    rw [hwriter, hs.writer]
    simp only [State.EnteredWrite, hguards]
  waiting l g := by
    rw [hwaiting, hs.waiting]
    exact exists_congr fun t => (hframe t g l).symm
  waits t l g ht := by
    rw [hguards]
    exact hs.waits t l g ((hframe t g l).mp ht)
  queued l := by
    rw [hwaiting]
    exact hs.queued l

/-- A thread that runs Python code waits for no guard. -/
theorem WritersAccounted.ne_of_python (hs : WritersAccounted s) (hf : s.frame t = .python) {b : Bool}
    (hg : s.writeGuards g = some ⟨t, l, b⟩) (hu : s.frame u = .writeArc h m) : h ≠ g := by
  rintro rfl
  have hgu := hs.waits _ _ _ hu
  rw [hg] at hgu
  cases hgu
  rw [hf] at hu
  cases hu

theorem frame_update_iff [DecidableEq T] {f : Frame G L} (hbefore : ∀ g l, s.frame t ≠ .writeArc g l)
    (hafter : ∀ g l, f ≠ .writeArc g l) :
    Function.update s.frame t f u = .writeArc g l ↔ s.frame u = .writeArc g l := by
  by_cases hut : u = t
  · subst hut
    rw [Function.update_self]
    exact ⟨fun h => absurd h (hafter g l), fun h => absurd h (hbefore g l)⟩
  · rw [Function.update_of_ne hut]

/-- What the guards of a lock say when the guard `g` has changed to `x`. -/
theorem enteredWrite_update [DecidableEq G] {x : Option (Guard T L)}
    (hs : s'.writeGuards = Function.update s.writeGuards g x) :
    s'.EnteredWrite u m h ↔ h = g ∧ x = some ⟨u, m, true⟩ ∨ h ≠ g ∧ s.EnteredWrite u m h := by
  rw [State.EnteredWrite, State.EnteredWrite, hs]
  by_cases hhg : h = g
  · subst hhg
    rw [Function.update_self]
    simp
  · rw [Function.update_of_ne hhg]
    simp [hhg]

theorem exists_enteredWrite_of_ne [DecidableEq G] {x : Option (Guard T L)}
    (hs : s'.writeGuards = Function.update s.writeGuards g x) (hhg : h ≠ g) :
    (∃ t, s'.EnteredWrite t m h) ↔ ∃ t, s.EnteredWrite t m h := by
  simp [enteredWrite_update hs, hhg]

/-- An idle guard is the writer of no lock. -/
theorem WritersAccounted.writer_ne (hs : WritersAccounted s)
    (hg : ∀ t l, s.writeGuards g ≠ some ⟨t, l, true⟩) (l : L) : (s.lock l).writer ≠ some g := by
  intro hw
  obtain ⟨t, ht⟩ := (hs.writer l g).mp hw
  exact hg t l ht

/-- A write guard that is not entered and not waited for is made or goes. -/
theorem WritersAccounted.idle [DecidableEq G] {x : Option (Guard T L)} (hs : WritersAccounted s)
    (hg : ∀ t l, s.writeGuards g ≠ some ⟨t, l, true⟩)
    (hfree : ∀ u l, s.frame u ≠ .writeArc g l) (hx : ∀ t l, x ≠ some ⟨t, l, true⟩) :
    WritersAccounted (s.setWriteGuard g x) where
  writer l h := by
    have hupd : (s.setWriteGuard g x).writeGuards = Function.update s.writeGuards g x := rfl
    by_cases hhg : h = g
    · subst hhg
      refine iff_of_false (hs.writer_ne hg l) ?_
      rintro ⟨t, ht⟩
      rcases (enteredWrite_update hupd).mp ht with ⟨-, hxe⟩ | ⟨hne, -⟩
      · exact hx t l hxe
      · exact hne rfl
    · rw [exists_enteredWrite_of_ne hupd hhg]
      exact hs.writer l h
  waiting := hs.waiting
  waits u l h hu := by
    have hhg : h ≠ g := by
      rintro rfl
      exact hfree u l hu
    exact (Function.update_of_ne hhg _ _).trans (hs.waits u l h hu)
  queued := hs.queued

variable [DecidableEq L]

/-- The lock `l` goes to the write guard `g`. -/
theorem WritersAccounted.acquire [DecidableEq G] {raw : ReadWrite.Lock G} (hs : WritersAccounted s)
    (hg : s.writeGuards g = some ⟨t, l, false⟩) (hfree : (s.lock l).writer = none)
    (hraw : raw.writer = some g) (hlock : s'.lock = Function.update s.lock l raw)
    (hguards : s'.writeGuards = Function.update s.writeGuards g (some ⟨t, l, true⟩)) :
    ∀ m h, (s'.lock m).writer = some h ↔ ∃ u, s'.EnteredWrite u m h := by
  intro m h
  by_cases hhg : h = g
  · subst hhg
    simp only [enteredWrite_update hguards, true_and, ne_eq, not_true_eq_false, false_and, or_false,
      Option.some.injEq, Guard.mk.injEq, and_true, exists_eq_left']
    rw [hlock]
    by_cases hml : m = l
    · rw [hml, Function.update_self]
      exact iff_of_true hraw rfl
    · rw [Function.update_of_ne hml]
      refine iff_of_false (hs.writer_ne (fun u k => ?_) m) fun hlm => hml hlm.symm
      rw [hg]
      intro he
      cases he
  · rw [exists_enteredWrite_of_ne hguards hhg, ← hs.writer, hlock]
    by_cases hml : m = l
    · rw [hml, Function.update_self, hraw, hfree]
      refine iff_of_false (fun he => hhg ?_) fun he => by cases he
      cases he
      rfl
    · rw [Function.update_of_ne hml]

/-- The write guard `g` gives its lock back. -/
theorem WritersAccounted.release [DecidableEq G] {x : Option (Guard T L)} (hs : WritersAccounted s)
    (hf : s.frame t = .python) (hg : s.EnteredWrite t l g) (hx : ∀ t l, x ≠ some ⟨t, l, true⟩) :
    WritersAccounted ((s.setLock l (s.lock l).releaseWrite).setWriteGuard g x) where
  writer m h := by
    have hupd : ((s.setLock l (s.lock l).releaseWrite).setWriteGuard g x).writeGuards =
      Function.update s.writeGuards g x := rfl
    have hown : (s.lock l).writer = some g := (hs.writer l g).mpr ⟨t, hg⟩
    show (Function.update s.lock l (s.lock l).releaseWrite m).writer = some h ↔ _
    by_cases hhg : h = g
    · subst hhg
      refine iff_of_false ?_ ?_
      · by_cases hml : m = l
        · rw [hml, Function.update_self]
          intro he
          cases he
        · rw [Function.update_of_ne hml, hs.writer]
          rintro ⟨u, hu⟩
          rw [State.EnteredWrite, hg] at hu
          cases hu
          exact hml rfl
      · rintro ⟨u, hu⟩
        rcases (enteredWrite_update hupd).mp hu with ⟨-, hxe⟩ | ⟨hne, -⟩
        · exact hx u m hxe
        · exact hne rfl
    · rw [exists_enteredWrite_of_ne hupd hhg, ← hs.writer]
      by_cases hml : m = l
      · rw [hml, Function.update_self, hown]
        refine iff_of_false (fun he => by cases he) fun he => hhg ?_
        cases he
        rfl
      · rw [Function.update_of_ne hml]
  waiting m h := by
    show h ∈ (Function.update s.lock l (s.lock l).releaseWrite m).waiting ↔ _
    by_cases hml : m = l
    · rw [hml, Function.update_self]
      exact hs.waiting l h
    · rw [Function.update_of_ne hml]
      exact hs.waiting m h
  waits u m h hu :=
    (Function.update_of_ne (hs.ne_of_python hf hg hu) _ _).trans (hs.waits u m h hu)
  queued m := by
    show (Function.update s.lock l (s.lock l).releaseWrite m).waiting.Nodup
    by_cases hml : m = l
    · rw [hml, Function.update_self]
      exact hs.queued l
    · rw [Function.update_of_ne hml]
      exact hs.queued m

theorem waiting_update {raw : ReadWrite.Lock G} (hlock : s'.lock = Function.update s.lock l raw) :
    (s'.lock m).waiting = if m = l then raw.waiting else (s.lock m).waiting := by
  rw [hlock]
  split
  · rename_i hml
    rw [hml, Function.update_self]
  · rename_i hml
    rw [Function.update_of_ne hml]

/-- A write guard that found its lock free. -/
theorem WritersAccounted.take [DecidableEq T] [DecidableEq G] {raw : ReadWrite.Lock G}
    (hs : WritersAccounted s) (hf : s.frame t = .python) (hg : s.writeGuards g = some ⟨t, l, false⟩)
    (hraw : p.tryWrite (s.lock l) g = some raw) :
    WritersAccounted ((s.setLock l raw).setWriteGuard g (some ⟨t, l, true⟩)) := by
  obtain ⟨-, -, hfree, hown, hsame⟩ := Policy.tryWrite_spec hraw
  have hlock : ((s.setLock l raw).setWriteGuard g (some ⟨t, l, true⟩)).lock =
      Function.update s.lock l raw := rfl
  have hwaiting : ∀ m, (((s.setLock l raw).setWriteGuard g (some ⟨t, l, true⟩)).lock m).waiting =
      (s.lock m).waiting := by
    intro m
    rw [waiting_update hlock, hsame]
    split
    · rename_i hml
      rw [hml]
    · rfl
  refine ⟨hs.acquire hg hfree hown rfl rfl, fun m h => ?_, fun u m h hu => ?_, fun m => ?_⟩
  · rw [hwaiting]
    exact hs.waiting m h
  · exact (Function.update_of_ne (hs.ne_of_python hf hg hu) _ _).trans (hs.waits u m h hu)
  · rw [hwaiting]
    exact hs.queued m

/-- A write guard whose thread begins to wait. -/
theorem WritersAccounted.enqueue [DecidableEq T] [DecidableEq G] (hs : WritersAccounted s)
    (hf : s.frame t = .python) (hg : s.writeGuards g = some ⟨t, l, false⟩) :
    WritersAccounted ((s.setLock l ((s.lock l).enqueue g)).setFrame t (.writeArc g l)) := by
  have hlock : ((s.setLock l ((s.lock l).enqueue g)).setFrame t (.writeArc g l)).lock =
    Function.update s.lock l ((s.lock l).enqueue g) := rfl
  have hnew : ∀ u m, s.frame u ≠ .writeArc g m := fun u m hu => hs.ne_of_python hf hg hu rfl
  refine ⟨fun m h => ?_, fun m h => ?_, fun u m h hu => ?_, fun m => ?_⟩
  · refine Iff.trans ?_ (hs.writer m h)
    rw [hlock]
    by_cases hml : m = l
    · rw [hml, Function.update_self]
      rfl
    · rw [Function.update_of_ne hml]
  · rw [waiting_update hlock]
    show _ ↔ ∃ u, Function.update s.frame t (.writeArc g l) u = .writeArc h m
    by_cases hgh : h = g ∧ m = l
    · obtain ⟨rfl, rfl⟩ := hgh
      rw [if_pos rfl]
      exact iff_of_true (List.mem_append_right _ (List.mem_singleton.mpr rfl))
        ⟨t, Function.update_self ..⟩
    · have hold : h ∈ (if m = l then ((s.lock l).enqueue g).waiting else (s.lock m).waiting) ↔
          h ∈ (s.lock m).waiting := by
        split
        · rename_i hml
          subst hml
          rw [ReadWrite.Lock.enqueue, List.mem_append, List.mem_singleton]
          exact or_iff_left fun hhg => hgh ⟨hhg, rfl⟩
        · rfl
      rw [hold, hs.waiting]
      refine exists_congr fun u => ?_
      by_cases hut : u = t
      · subst hut
        rw [Function.update_self, hf, Frame.writeArc.injEq]
        exact iff_of_false (fun h => by cases h) fun ⟨hg', hl'⟩ => hgh ⟨hg'.symm, hl'.symm⟩
      · rw [Function.update_of_ne hut]
  · replace hu : Function.update s.frame t (.writeArc g l) u = .writeArc h m := hu
    by_cases hut : u = t
    · subst hut
      rw [Function.update_self] at hu
      cases hu
      exact hg
    · rw [Function.update_of_ne hut] at hu
      exact hs.waits u m h hu
  · rw [waiting_update hlock]
    split
    · refine List.nodup_append.mpr ⟨hs.queued l, List.nodup_singleton g, fun h hh k hk => ?_⟩
      rw [List.mem_singleton.mp hk]
      rintro rfl
      obtain ⟨u, hu⟩ := (hs.waiting l h).mp hh
      exact hnew u l hu
    · exact hs.queued m

/-- The lock goes to a thread that waits for it. -/
theorem WritersAccounted.grant [DecidableEq T] [DecidableEq G] {raw : ReadWrite.Lock G}
    (hs : WritersAccounted s)
    (hf : s.frame t = .writeArc g l) (hraw : p.tryWrite (s.lock l) g = some raw) :
    WritersAccounted
      (((s.setLock l (raw.dequeue g)).setWriteGuard g (some ⟨t, l, true⟩)).setFrame t .python) := by
  obtain ⟨-, -, hfree, hown, hsame⟩ := Policy.tryWrite_spec hraw
  have hg := hs.waits t l g hf
  have hlock : (((s.setLock l (raw.dequeue g)).setWriteGuard g (some ⟨t, l, true⟩)).setFrame t
    .python).lock = Function.update s.lock l (raw.dequeue g) := rfl
  have honly : ∀ u h m, s.frame u = .writeArc h m → u ≠ t → h ≠ g := by
    rintro u h m hu hut rfl
    have hgu := hs.waits u m h hu
    rw [hg] at hgu
    cases hgu
    exact hut rfl
  have hown' : (raw.dequeue g).writer = some g := hown
  refine ⟨hs.acquire hg hfree hown' hlock rfl, fun m h => ?_, fun u m h hu => ?_,
    fun m => ?_⟩
  · rw [waiting_update hlock]
    show _ ↔ ∃ u, Function.update s.frame t .python u = .writeArc h m
    have hlist : h ∈ (if m = l then (raw.dequeue g).waiting else (s.lock m).waiting) ↔
        h ∈ (s.lock m).waiting ∧ h ≠ g := by
      split
      · rename_i hml
        subst hml
        rw [ReadWrite.Lock.dequeue, hsame, (hs.queued m).mem_erase_iff, and_comm]
      · rename_i hml
        refine (and_iff_left_of_imp fun hmem => ?_).symm
        rintro rfl
        obtain ⟨u, hu⟩ := (hs.waiting m h).mp hmem
        have hgu := hs.waits u m h hu
        rw [hg] at hgu
        cases hgu
        exact hml rfl
    rw [hlist, hs.waiting]
    constructor
    · rintro ⟨⟨u, hu⟩, hhg⟩
      refine ⟨u, ?_⟩
      rw [Function.update_of_ne, hu]
      rintro rfl
      rw [hf] at hu
      cases hu
      exact hhg rfl
    · rintro ⟨u, hu⟩
      by_cases hut : u = t
      · subst hut
        rw [Function.update_self] at hu
        cases hu
      · rw [Function.update_of_ne hut] at hu
        exact ⟨⟨u, hu⟩, honly u h m hu hut⟩
  · replace hu : Function.update s.frame t .python u = .writeArc h m := hu
    by_cases hut : u = t
    · subst hut
      rw [Function.update_self] at hu
      cases hu
    · rw [Function.update_of_ne hut] at hu
      exact (Function.update_of_ne (honly u h m hu hut) _ _).trans (hs.waits u m h hu)
  · rw [waiting_update hlock]
    split
    · rw [ReadWrite.Lock.dequeue, hsame]
      exact (hs.queued l).erase g
    · exact hs.queued m

/-- A step of a read guard changes at most the readers of its lock, and a frame that is no writer's. -/
theorem WritersAccounted.reader {raw : ReadWrite.Lock G} (hs : WritersAccounted s)
    (hlock : s'.lock = Function.update s.lock l raw) (hguards : s'.writeGuards = s.writeGuards)
    (hframe : ∀ t g l, s'.frame t = .writeArc g l ↔ s.frame t = .writeArc g l)
    (hraw : raw.writer = (s.lock l).writer ∧ raw.waiting = (s.lock l).waiting) :
    WritersAccounted s' := by
  refine hs.aside hguards hframe (fun m => ?_) fun m => ?_
  · rw [hlock]
    by_cases hml : m = l
    · rw [hml, Function.update_self, hraw.1]
    · rw [Function.update_of_ne hml]
  · rw [waiting_update hlock, hraw.2]
    split
    · rename_i hml
      rw [hml]
    · rfl

omit [DecidableEq L] in
theorem tryRead_writer {b : Bool} {raw : ReadWrite.Lock G} (hraw : p.tryRead (s.lock l) b g = some raw) :
    raw.writer = (s.lock l).writer ∧ raw.waiting = (s.lock l).waiting :=
  (Policy.tryRead_spec hraw).2.2

theorem WritersAccounted.step [DecidableEq T] [DecidableEq G] (hs : WritersAccounted s)
    (hstep : Step p s a s') : WritersAccounted s' := by
  cases hstep with
  | read | readRaised | readLeft | readDrop | writeRaised =>
      exact hs.aside rfl (fun _ _ _ => .rfl) (fun _ => rfl) fun _ => rfl
  | readAcquired hf hg hraw =>
      exact hs.reader rfl rfl (fun _ _ _ => .rfl) (tryRead_writer hraw)
  | readWaits hf hg =>
      refine hs.aside rfl (fun u g l => frame_update_iff (fun g l h => ?_) fun g l h => ?_)
        (fun _ => rfl) fun _ => rfl
      · rw [hf] at h
        cases h
      · cases h
  | readArc hf hraw =>
      refine hs.reader rfl rfl (fun u g l => frame_update_iff (fun g l h => ?_) fun g l h => ?_)
        (tryRead_writer hraw)
      · have he := hf.symm.trans h
        cases he
      · cases h
  | readExit hf hg | readDied hf hg => exact hs.reader rfl rfl (fun _ _ _ => .rfl) ⟨rfl, rfl⟩
  | @write t l g hf hg =>
      refine hs.idle (fun u m h => ?_) (fun u m hu => ?_) fun u m h => ?_
      · rw [hg] at h
        cases h
      · rw [hs.waits u m g hu] at hg
        cases hg
      · cases h
  | writeAcquired hf hg hraw => exact hs.take hf hg hraw
  | writeWaits hf hg => exact hs.enqueue hf hg
  | writeArc hf hraw => exact hs.grant hf hraw
  | writeReleased ha hf hg hx =>
      refine hs.release hf hg fun u m h => ?_
      rcases hx with rfl | rfl <;> cases h
  | writeLeft ha hf hg hx =>
      refine hs.idle (fun u m h => ?_) (fun u m hu => hs.ne_of_python hf hg hu rfl) fun u m h => ?_
      · rw [hg] at h
        cases h
      · rcases hx with rfl | rfl <;> cases h

/-! ## Every run -/

/-- The state of every lock, read off the guards and the threads. -/
structure Accounted (s : State T G L) : Prop extends ReadersAccounted s, WritersAccounted s

omit [DecidableEq L] in
theorem accounted_init : Accounted (.init : State T G L) where
  readers l g := iff_of_false (fun h => by cases h) fun ⟨t, ht⟩ => by cases ht
  nodup l := List.nodup_nil
  writer l g := iff_of_false (fun h => by cases h) fun ⟨t, ht⟩ => by cases ht
  waiting l g := iff_of_false (fun h => by cases h) fun ⟨t, ht⟩ => by cases ht
  waits t l g ht := by cases ht
  queued l := List.nodup_nil

theorem Step.accounted [DecidableEq T] [DecidableEq G] (hw : Waits s) (hs : Accounted s)
    (hstep : Step p s a s') : Accounted s' :=
  ⟨(hstep.effect hw).readersAccounted hs.toReadersAccounted, hs.toWritersAccounted.step hstep⟩

/-- The step rule, whatever the lock answers. -/
theorem accounted_any [DecidableEq T] [DecidableEq G] {xs : List (Act T G L × Policy G)}
    (h : Run nextAny .init xs s) : Waits s ∧ Accounted s := by
  induction h with
  | nil => exact ⟨waits_init, accounted_init⟩
  | snoc _ _ hn ih =>
      have hstep := nextBy_step hn
      exact ⟨hstep.waits ih.1, hstep.accounted ih.1 ih.2⟩

theorem accounted_run [DecidableEq T] [DecidableEq G] (h : Run next .init as s) : Accounted s :=
  h.invariant_run accounted_init fun _ _ _ _ hr hs _ hn => (nextBy_step hn).accounted (run_inv hr).1 hs

omit [DecidableEq L] in
/-- An entered write guard has the lock for itself. -/
theorem Accounted.alone (hs : Accounted s) (hg : s.EnteredWrite t l g) :
    (∀ u h, ¬ s.Entered u l h) ∧ ∀ u h, s.EnteredWrite u l h → u = t ∧ h = g := by
  have hown : (s.lock l).writer = some g := (hs.writer l g).mpr ⟨t, hg⟩
  constructor
  · intro u h hu
    have hmem := (hs.readers l h).mpr ⟨u, hu⟩
    rcases (s.lock l).exclusive with hnone | hnil
    · rw [hown] at hnone
      cases hnone
    · rw [hnil] at hmem
      cases hmem
  · intro u h hu
    have hgh := (hs.writer l h).mpr ⟨u, hu⟩
    rw [hown] at hgh
    cases hgh
    rw [State.EnteredWrite, hg] at hu
    cases hu
    exact ⟨rfl, rfl⟩

/-- Nobody has entered a guard of the lock. -/
def Unheld (s : State T G L) (l : L) : Prop :=
  (∀ t g, ¬ s.Entered t l g) ∧ ∀ t g, ¬ s.EnteredWrite t l g

omit [DecidableEq L] in
theorem Accounted.readers_eq_nil (hs : Accounted s) :
    (s.lock l).readers = [] ↔ ∀ t g, ¬ s.Entered t l g := by
  rw [List.eq_nil_iff_forall_not_mem]
  simp only [hs.readers, not_exists]
  exact forall_comm

omit [DecidableEq L] in
theorem Accounted.writer_eq_none (hs : Accounted s) :
    (s.lock l).writer = none ↔ ∀ t g, ¬ s.EnteredWrite t l g := by
  rw [Option.eq_none_iff_forall_ne_some]
  simp only [ne_eq, hs.writer, not_exists]
  exact forall_comm

omit [DecidableEq L] in
theorem Accounted.waiting_eq_nil (hs : Accounted s) :
    (s.lock l).waiting = [] ↔ ∀ t g, s.frame t ≠ .writeArc g l := by
  rw [List.eq_nil_iff_forall_not_mem]
  simp only [hs.waiting, not_exists]
  exact forall_comm

theorem lock_eq_free {raw : ReadWrite.Lock G} (hr : raw.readers = []) (hw : raw.writer = none)
    (hq : raw.waiting = []) : raw = .free := by
  obtain ⟨readers, writer, waiting, hex⟩ := raw
  cases hr
  cases hw
  cases hq
  rfl

/-- Whatever the lock answers within its exclusion, in every run its readers and its writer are the
guards entered on it, an entered write guard excludes every other guard of the lock, and a lock that
nobody has entered and no writer waits for is as good as new. -/
theorem exclusive [DecidableEq T] [DecidableEq G] (xs : List (Act T G L × Policy G)) (s : State T G L)
    (h : Run nextAny .init xs s) : Accounted s ∧ ∀ l,
      (∀ t g, s.EnteredWrite t l g →
        (∀ u h, ¬ s.Entered u l h) ∧ ∀ u h, s.EnteredWrite u l h → u = t ∧ h = g) ∧
      (Unheld s l → (∀ t g, s.frame t ≠ .writeArc g l) → s.lock l = .free) := by
  have hs := (accounted_any h).2
  refine ⟨hs, fun l => ⟨fun t g hg => hs.alone hg, fun hfree hq => ?_⟩⟩
  exact lock_eq_free (hs.readers_eq_nil.mpr hfree.1) (hs.writer_eq_none.mpr hfree.2)
    (hs.waiting_eq_nil.mpr hq)

/-- The thread 0 reads and the thread 2 waits to write; behind it waits the thread 1, which is let in
to read all the same. When both have left, the thread 2 has the lock for itself. -/
def handoverTrace : List (Act ℕ ℕ ℕ × Policy ℕ) :=
  [(.read 0 0 0, .writersFirst), (.readEnter 0, .writersFirst), (.write 2 0 2, .writersFirst),
    (.writeEnter 2, .writersFirst), (.read 1 0 1, .writersFirst), (.readEnter 1, .writersFirst),
    (.readArc 1, .readersFirst), (.readExit 0, .writersFirst), (.readDrop 1, .writersFirst),
    (.writeArc 2, .writersFirst)]

theorem handoverTrace_exec :
    (exec nextAny (fun _ _ => True) (.init : State ℕ ℕ ℕ) handoverTrace).map
      (fun s => decide (s.writeGuards 2 = some ⟨2, 0, true⟩)) = some true := by
  decide +kernel

theorem exclusive_handoverTrace :
    ∃ s : State ℕ ℕ ℕ, Run nextAny .init handoverTrace s ∧ s.EnteredWrite 2 0 2 ∧
      ∀ u h, ¬ s.Entered u 0 h := by
  obtain ⟨s, hrun, hs⟩ := exists_runWith_of_exec handoverTrace_exec
  have hg := of_decide_eq_true hs
  exact ⟨s, hrun, hg, ((exclusive handoverTrace s hrun).2 0).1 2 2 hg |>.1⟩

/-! ## Who has to wait -/

/-- A read guard of the lock may be entered at once, by the recursive path if `recursive`. -/
def Readable (s : State T G L) (l : L) (recursive : Bool) : Prop :=
  (∀ t g, ¬ s.EnteredWrite t l g) ∧
    ((∀ t g, s.frame t ≠ .writeArc g l) ∨ recursive = true ∧ ∃ t g, s.Entered t l g)

omit [DecidableEq L] in
theorem Accounted.readable (hs : Accounted s) {b : Bool} :
    (Policy.writersFirst.tryRead (s.lock l) b g).isSome = true ↔ Readable s l b := by
  rw [Policy.tryRead_isSome, hs.writer_eq_none, hs.waiting_eq_nil, ne_eq, hs.readers_eq_nil]
  simp only [Readable, not_forall, not_not]

omit [DecidableEq L] in
theorem Accounted.unheld (hs : Accounted s) :
    (Policy.writersFirst.tryWrite (s.lock l) g).isSome = true ↔ Unheld s l := by
  rw [Policy.tryWrite_isSome, hs.readers_eq_nil, hs.writer_eq_none, Unheld]

/-- The wait of a thread ends exactly when the guards of the others let it. -/
theorem Accounted.grants [DecidableEq T] [DecidableEq G] (hs : Accounted s) :
    (∀ t g l, s.frame t = .writeArc g l → ((next s (.writeArc t)).isSome = true ↔ Unheld s l)) ∧
      ∀ t g l b, s.frame t = .readArc g l b →
        ((next s (.readArc t)).isSome = true ↔ Readable s l b) := by
  constructor
  · intro t g l hf
    rw [← hs.unheld (g := g), next, nextBy, hf, Option.isSome_map]
  · intro t g l b hf
    rw [← hs.readable (g := g), next, nextBy, hf, Option.isSome_map]

/-! ## A lock taken twice -/

/-- The thread waits for a lock of which it has itself entered a guard, so that it will not leave it:
it waits to write, or it has entered a write guard. -/
def SelfBlocked (s : State T G L) (t : T) (l : L) : Prop :=
  (∃ g, s.frame t = .writeArc g l ∧ ∃ h, s.Entered t l h ∨ s.EnteredWrite t l h) ∨
    ∃ g b, s.frame t = .readArc g l b ∧ ∃ h, s.EnteredWrite t l h

/-- A thread whose wait for the lock is a plain one: not that of a recursive read. -/
def PlainlyWaits (s : State T G L) (t : T) (l : L) : Prop :=
  ∃ g, s.frame t = .writeArc g l ∨ s.frame t = .readArc g l false

/-- A thread that does not run Python code, and does not get the lock it waits for, stays where it is
and keeps its guards. -/
theorem Step.stays [DecidableEq T] [DecidableEq G] (hs : Accounted s) (hw : Waits s)
    (hstep : Step p s a s') (hf : s.frame t ≠ .python)
    (hread : a ≠ .readArc t) (hwrite : a ≠ .writeArc t) :
    s'.frame t = s.frame t ∧ (∀ l h, s.Entered t l h → s'.Entered t l h) ∧
      ∀ l h, s.EnteredWrite t l h → s'.EnteredWrite t l h := by
  have hne : ∀ u, s.frame u = .python → t ≠ u := by
    rintro u hu rfl
    exact hf hu
  -- the guard that the step changes is not entered by the thread
  have hguard : ∀ {g : G} {x y : Option (Guard T L)}, s.readGuards g = x →
      (∀ l, x ≠ some ⟨t, l, true⟩) → ∀ l h, s.Entered t l h →
        Function.update s.readGuards g y h = some ⟨t, l, true⟩ := by
    intro g x y hx hxt l h hh
    rw [Function.update_of_ne]
    · exact hh
    · rintro rfl
      exact hxt l (hx.symm.trans hh)
  have hguard' : ∀ {g : G} {x y : Option (Guard T L)}, s.writeGuards g = x →
      (∀ l, x ≠ some ⟨t, l, true⟩) → ∀ l h, s.EnteredWrite t l h →
        Function.update s.writeGuards g y h = some ⟨t, l, true⟩ := by
    intro g x y hx hxt l h hh
    rw [Function.update_of_ne]
    · exact hh
    · rintro rfl
      exact hxt l (hx.symm.trans hh)
  have hother : ∀ {u : T} {l : L} {b : Bool}, t ≠ u →
      ∀ k, some (⟨u, l, b⟩ : Guard T L) ≠ some ⟨t, k, true⟩ := by
    intro u l b htu k he
    cases he
    exact htu rfl
  cases hstep with
  | read hfr hg => exact ⟨rfl, hguard hg (fun l he => by cases he), fun _ _ => id⟩
  | readRaised | readLeft | writeRaised => exact ⟨rfl, fun _ _ => id, fun _ _ => id⟩
  | readAcquired hfr hg | readExit hfr hg | readDied hfr hg | readDrop hfr hg =>
      exact ⟨rfl, hguard hg (hother (hne _ hfr)), fun _ _ => id⟩
  | readWaits hfr hg =>
      exact ⟨Function.update_of_ne (hne _ hfr) _ _, fun _ _ => id, fun _ _ => id⟩
  | @readArc u l g b raw hfr hraw =>
      have htu : t ≠ u := by
        rintro rfl
        exact hread rfl
      exact ⟨Function.update_of_ne htu _ _, hguard (hw u g l b hfr) (hother htu), fun _ _ => id⟩
  | write hfr hg => exact ⟨rfl, fun _ _ => id, hguard' hg fun l he => by cases he⟩
  | writeAcquired hfr hg => exact ⟨rfl, fun _ _ => id, hguard' hg (hother (hne _ hfr))⟩
  | writeReleased ha hfr hg | writeLeft ha hfr hg =>
      exact ⟨rfl, fun _ _ => id, hguard' hg (hother (hne _ hfr))⟩
  | writeWaits hfr hg =>
      exact ⟨Function.update_of_ne (hne _ hfr) _ _, fun _ _ => id, fun _ _ => id⟩
  | @writeArc u l g raw hfr hraw =>
      have htu : t ≠ u := by
        rintro rfl
        exact hwrite rfl
      exact ⟨Function.update_of_ne htu _ _, fun _ _ => id,
        hguard' (hs.waits u l g hfr) (hother htu)⟩

omit [DecidableEq L] in
theorem SelfBlocked.held (h : SelfBlocked s t l) : ¬ Unheld s l := by
  rintro ⟨hread, hwrite⟩
  rcases h with ⟨-, -, h, hh | hh⟩ | ⟨-, -, -, h, hh⟩
  · exact hread t h hh
  · exact hwrite t h hh
  · exact hwrite t h hh

omit [DecidableEq L] in
theorem SelfBlocked.not_readable (h : SelfBlocked s t l) : ¬ Readable s l false := by
  rintro ⟨hwrite, hq | ⟨hrec, -⟩⟩
  · rcases h with ⟨g, hf, -⟩ | ⟨-, -, -, h, hh⟩
    · exact hq t g hf
    · exact hwrite t h hh
  · cases hrec

variable [DecidableEq T] [DecidableEq G]

/-- Nobody who waits for the lock plainly is let in. -/
theorem SelfBlocked.not_granted (hs : Accounted s) (h : SelfBlocked s t l) (hu : PlainlyWaits s u l)
    (hn : next s a = some s') : s.frame u ≠ .python ∧ a ≠ .readArc u ∧ a ≠ .writeArc u := by
  obtain ⟨g, hf | hf⟩ := hu
  · refine ⟨fun he => ?_, ?_, ?_⟩
    · rw [hf] at he
      cases he
    · rintro rfl
      rw [next, nextBy, hf] at hn
      cases hn
    · rintro rfl
      exact h.held ((hs.grants.1 u g l hf).mp (Option.isSome_of_eq_some hn))
  · refine ⟨fun he => ?_, ?_, ?_⟩
    · rw [hf] at he
      cases he
    · rintro rfl
      exact h.not_readable ((hs.grants.2 u g l false hf).mp (Option.isSome_of_eq_some hn))
    · rintro rfl
      rw [next, nextBy, hf] at hn
      cases hn

/-- The thread itself is not let in either, by whichever path. -/
theorem SelfBlocked.next (hs : Accounted s) (hw : Waits s) (h : SelfBlocked s t l)
    (hn : Lock.next s a = some s') : SelfBlocked s' t l := by
  have hstep := nextBy_step hn
  rcases h with ⟨g, hf, k, hk⟩ | ⟨g, b, hf, k, hk⟩
  · obtain ⟨hpy, hread, hwrite⟩ :=
      SelfBlocked.not_granted hs (.inl ⟨g, hf, k, hk⟩) ⟨g, .inl hf⟩ hn
    obtain ⟨hframe, hr, hw'⟩ := hstep.stays hs hw hpy hread hwrite
    exact .inl ⟨g, hframe.trans hf, k, hk.imp (hr l k) (hw' l k)⟩
  · have hpy : s.frame t ≠ .python := fun he => by
      rw [hf] at he
      cases he
    obtain ⟨hframe, -, hw'⟩ := hstep.stays hs hw hpy
      (by
        rintro rfl
        exact ((hs.grants.2 t g l b hf).mp (Option.isSome_of_eq_some hn)).1 t k hk)
      (by
        rintro rfl
        rw [Lock.next, nextBy, hf] at hn
        cases hn)
    exact .inr ⟨g, b, hframe.trans hf, k, hw' l k hk⟩

/-- A write guard is entered on a lock that nobody has entered. -/
theorem Step.enteredWrite (hs : Accounted s) (hstep : Step p s a s') (hg : s'.EnteredWrite u l g) :
    s.EnteredWrite u l g ∨ Unheld s l := by
  have hafter : ∀ {k : G} {x : Option (Guard T L)}, (∀ v m, x ≠ some ⟨v, m, true⟩) →
      Function.update s.writeGuards k x g = some ⟨u, l, true⟩ → s.EnteredWrite u l g := by
    intro k x hx hgu
    by_cases hgk : g = k
    · subst hgk
      rw [Function.update_self] at hgu
      exact absurd hgu (hx u l)
    · rwa [Function.update_of_ne hgk] at hgu
  have htaken : ∀ {v : T} {m : L} {k : G} {raw : ReadWrite.Lock G}, p.tryWrite (s.lock m) k = some raw →
      Function.update s.writeGuards k (some ⟨v, m, true⟩) g = some ⟨u, l, true⟩ →
      s.EnteredWrite u l g ∨ Unheld s l := by
    intro v m k raw hraw hgu
    by_cases hgk : g = k
    · subst hgk
      rw [Function.update_self] at hgu
      cases hgu
      obtain ⟨hr, -, hw, -⟩ := Policy.tryWrite_spec hraw
      exact .inr ⟨hs.readers_eq_nil.mp hr, hs.writer_eq_none.mp hw⟩
    · rw [Function.update_of_ne hgk] at hgu
      exact .inl hgu
  cases hstep with
  | read | readRaised | readAcquired | readWaits | readArc | readExit | readLeft | readDied | readDrop
  | writeRaised | writeWaits => exact .inl hg
  | write =>
      refine .inl (hafter (fun v m he => ?_) hg)
      cases he
  | writeAcquired _ _ hraw | writeArc _ hraw => exact htaken hraw hg
  | writeReleased _ _ _ hx | writeLeft _ _ _ hx =>
      refine .inl (hafter (fun v m he => ?_) hg)
      rcases hx with rfl | rfl <;> cases he

/-- Once a thread waits for a lock of which it has entered a guard, to write, or in whatever way when it
is a write guard, it waits for ever, whatever the others do; and so does everybody who waits for that
lock plainly, and nobody else gets to write. -/
theorem selfBlocked_forever (as bs : List (Act T G L)) (s u : State T G L) (h : Run next .init as s)
    (t : T) (l : L) (hblocked : SelfBlocked s t l) (hrun : Run next s bs u) :
    SelfBlocked u t l ∧ (∀ v, PlainlyWaits s v l → u.frame v = s.frame v) ∧
      ∀ v g, u.EnteredWrite v l g → s.EnteredWrite v l g := by
  induction hrun with
  | nil => exact ⟨hblocked, fun _ _ => rfl, fun _ _ => id⟩
  | @snoc bs u a u' hr _ hn ih =>
      obtain ⟨hblocked', hplain, hwrite⟩ := ih
      have hu := accounted_run (h.append hr)
      have hw := (run_inv (h.append hr)).1
      refine ⟨hblocked'.next hu hw hn, fun v hv => ?_, fun v g hg => ?_⟩
      · have hv' : PlainlyWaits u v l := by
          obtain ⟨g, hf⟩ := hv
          exact ⟨g, by rwa [hplain v ⟨g, hf⟩]⟩
        obtain ⟨hpy, hread, hwrite'⟩ := hblocked'.not_granted hu hv' hn
        rw [((nextBy_step hn).stays hu hw hpy hread hwrite').1, hplain v hv]
      · exact hwrite v g (((nextBy_step hn).enteredWrite hu hg).resolve_right hblocked'.held)

/-- The thread 0 reads and then wants to write, while the thread 1 wants to read. -/
def upgradeTrace : List (Act ℕ ℕ ℕ) :=
  [.read 0 0 0, .readEnter 0, .write 0 0 1, .writeEnter 1, .read 1 0 2, .readEnter 2]

/-- Another writer comes. -/
def lateWriter : List (Act ℕ ℕ ℕ) := [.write 2 0 3, .writeEnter 3]

theorem upgradeTrace_exec :
    (exec next (fun _ _ => True) (.init : State ℕ ℕ ℕ) upgradeTrace).map
      (fun s => decide (s.frame 0 = .writeArc 1 0 ∧ s.readGuards 0 = some ⟨0, 0, true⟩ ∧
        s.frame 1 = .readArc 2 0 false)) = some true := by
  decide +kernel

theorem lateWriter_exec :
    (exec next (fun _ _ => True) (.init : State ℕ ℕ ℕ) (upgradeTrace ++ lateWriter)).map
      (fun s => decide (s.frame 2 = .writeArc 3 0)) = some true := by
  decide +kernel

theorem selfBlocked_forever_upgradeTrace :
    ∃ s u : State ℕ ℕ ℕ, Run next .init upgradeTrace s ∧ Run next s lateWriter u ∧
      SelfBlocked u 0 0 ∧ u.frame 1 = .readArc 2 0 false := by
  obtain ⟨u, hrun, -⟩ := exists_runWith_of_exec lateWriter_exec
  obtain ⟨s, hs, hu⟩ := hrun.split
  obtain ⟨s', hs', hp⟩ := exists_runWith_of_exec upgradeTrace_exec
  obtain rfl := hs'.unique hs
  obtain ⟨hf, hg, hf'⟩ := of_decide_eq_true hp
  have hall := selfBlocked_forever upgradeTrace lateWriter s' u hs 0 0 (.inl ⟨1, hf, 0, .inl hg⟩) hu
  exact ⟨s', u, hs, hu, hall.1, (hall.2.1 1 ⟨2, .inr hf'⟩).trans hf'⟩

end Pysync.Lock
