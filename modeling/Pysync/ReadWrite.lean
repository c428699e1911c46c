import Mathlib.Data.List.Basic

/-!
A readers-writer lock: who holds it, and which writers wait for it. What it answers those who ask for
it is a policy, of which the exclusion alone is sure: a reader is let in while no writer holds the lock,
a writer while nobody does. By the policy `writersFirst`, as task-fair locks document it, a plain reader
waits behind a writer that holds the lock or waits for it, and a recursive one is let in while readers
hold the lock.
-/

namespace ReadWrite

/-- The holders of the lock and the writers that wait for it, in the order in which they came. -/
structure Lock (G : Type*) where
  readers : List G
  writer : Option G
  waiting : List G
  exclusive : writer = none ∨ readers = []

namespace Lock

variable {G : Type*}

section Excl

variable (s : Lock G) (g : G) (rs : List G)

theorem exclusive_of_writer {s : Lock G} (h : s.writer = none) :
    s.writer = none ∨ rs = [] := .inl h

theorem exclusive_of_free : (none : Option G) = none ∨ rs = [] := .inl rfl

theorem exclusive_erase [DecidableEq G] : s.writer = none ∨ s.readers.erase g = [] := by
  rcases s.exclusive with hw | hr
  · exact .inl hw
  · rw [hr]
    exact .inr (List.erase_nil g)

end Excl

/-- A lock that nobody uses. -/
def free : Lock G where
  readers := []
  writer := none
  waiting := []
  exclusive := exclusive_of_free []

/-- Some writer holds the lock or waits for it. -/
def hasWriter (s : Lock G) : Bool := s.writer.isSome || !s.waiting.isEmpty

/-- A reader may have the lock at once. -/
def readable (s : Lock G) (recursive : Bool) : Bool :=
  !s.hasWriter || (recursive && !s.readers.isEmpty)

theorem writer_of_readable {s : Lock G} {recursive : Bool} (h : s.readable recursive = true) :
    s.writer = none := by
  rcases s.exclusive with hw | hr
  · exact hw
  · rw [readable, hr, List.isEmpty_nil, Bool.not_true, Bool.and_false, Bool.or_false] at h
    cases hw : s.writer with
    | none => rfl
    | some g => simp [hasWriter, hw] at h

/-- Nobody holds the lock. -/
def unheld (s : Lock G) : Bool := s.readers.isEmpty && s.writer.isNone

theorem unheld_iff {s : Lock G} : s.unheld = true ↔ s.readers = [] ∧ s.writer = none := by
  rw [unheld, Bool.and_eq_true, List.isEmpty_iff, Option.isNone_iff_eq_none]

def addReader (s : Lock G) (g : G) (h : s.writer = none) : Lock G :=
  { s with readers := g :: s.readers, exclusive := exclusive_of_writer (g :: s.readers) h }

def setWriter (s : Lock G) (g : G) (h : s.readers = []) : Lock G :=
  { s with writer := some g, exclusive := .inr h }

/-- A writer joins those that wait. -/
def enqueue (s : Lock G) (g : G) : Lock G := { s with waiting := s.waiting ++ [g] }

def releaseWrite (s : Lock G) : Lock G :=
  { s with writer := none, exclusive := exclusive_of_free s.readers }

section Release

variable [DecidableEq G]

/-- A writer waits no longer. -/
def dequeue (s : Lock G) (g : G) : Lock G := { s with waiting := s.waiting.erase g }

def releaseRead (s : Lock G) (g : G) : Lock G :=
  { s with readers := s.readers.erase g, exclusive := s.exclusive_erase g }

end Release

end Lock

/-- The answers of a lock: whom it lets in. -/
structure Policy (G : Type*) where
  letsRead : Lock G → Bool → G → Bool
  letsWrite : Lock G → G → Bool
  writer_of_letsRead {s : Lock G} {recursive : Bool} {g : G} :
    letsRead s recursive g = true → s.writer = none
  unheld_of_letsWrite {s : Lock G} {g : G} : letsWrite s g = true → s.unheld = true

namespace Policy

variable {G : Type*}

/-- A reader takes the lock if it is let in. -/
def tryRead (p : Policy G) (s : Lock G) (recursive : Bool) (g : G) : Option (Lock G) :=
  if h : p.letsRead s recursive g = true then some (s.addReader g (p.writer_of_letsRead h)) else none

/-- A writer takes the lock if it is let in. -/
def tryWrite (p : Policy G) (s : Lock G) (g : G) : Option (Lock G) :=
  if h : p.letsWrite s g = true then
    some (s.setWriter g (Lock.unheld_iff.mp (p.unheld_of_letsWrite h)).1)
  else none

/-- Everybody is let in who has to wait for nobody. -/
def writersFirst : Policy G where
  letsRead s recursive _ := s.readable recursive
  letsWrite s _ := s.unheld
  writer_of_letsRead := Lock.writer_of_readable
  unheld_of_letsWrite h := h

/-- A reader has to wait for a writer that holds the lock, and for no other. -/
def readersFirst : Policy G where
  letsRead s _ _ := s.writer.isNone
  letsWrite s _ := s.unheld
  writer_of_letsRead := Option.isNone_iff_eq_none.mp
  unheld_of_letsWrite h := h

variable {p : Policy G} {s s' : Lock G} {g g' : G} {recursive : Bool}

/-- What a reader that got the lock changed. -/
theorem tryRead_spec (h : p.tryRead s recursive g = some s') :
    s.writer = none ∧ s'.readers = g :: s.readers ∧ s'.writer = s.writer ∧ s'.waiting = s.waiting := by
  rw [tryRead] at h
  split at h
  · rename_i hr
    cases h
    exact ⟨p.writer_of_letsRead hr, rfl, rfl, rfl⟩
  · cases h

/-- What a writer that got the lock changed. -/
theorem tryWrite_spec (h : p.tryWrite s g = some s') :
    s.readers = [] ∧ s'.readers = [] ∧ s.writer = none ∧ s'.writer = some g ∧
      s'.waiting = s.waiting := by
  rw [tryWrite] at h
  split at h
  · rename_i hw
    obtain ⟨hr, hw⟩ := Lock.unheld_iff.mp (p.unheld_of_letsWrite hw)
    cases h
    exact ⟨hr, hr, hw, rfl, rfl⟩
  · cases h

/-- A recursive reader gets the lock at once while another reader holds it. -/
theorem exists_tryRead_recursive (h : g' ∈ s.readers) (g : G) :
    ∃ s', writersFirst.tryRead s true g = some s' := by
  have hne : s.readers.isEmpty = false := by
    rw [List.isEmpty_eq_false_iff_exists_mem]
    exact ⟨g', h⟩
  have hr : s.readable true = true := by
    rw [Lock.readable, hne, Bool.not_false, Bool.and_true, Bool.or_true]
  exact ⟨_, dif_pos hr⟩

theorem tryRead_isSome :
    (writersFirst.tryRead s recursive g).isSome = true ↔
      s.writer = none ∧ (s.waiting = [] ∨ recursive = true ∧ s.readers ≠ []) := by
  have hreadable : (writersFirst.tryRead s recursive g).isSome = s.readable recursive := by
    rw [tryRead]
    split
    · rename_i hr
      exact hr.symm
    · rename_i hr
      exact ((Bool.not_eq_true _).mp hr).symm
  rw [hreadable]
  constructor
  · intro hr
    refine ⟨Lock.writer_of_readable hr, ?_⟩
    rw [Lock.readable, Lock.hasWriter] at hr
    cases hq : s.waiting with
    | nil => exact .inl rfl
    | cons g gs =>
        rw [hq] at hr
        exact .inr (by simpa using hr)
  · rintro ⟨hw, hq⟩
    rw [Lock.readable, Lock.hasWriter, hw]
    rcases hq with hq | ⟨rfl, hr⟩
    · simp [hq]
    · simp [hr]

theorem tryWrite_isSome :
    (writersFirst.tryWrite s g).isSome = true ↔ s.readers = [] ∧ s.writer = none := by
  rw [tryWrite]
  split
  · rename_i hfree
    exact iff_of_true rfl (Lock.unheld_iff.mp hfree)
  · rename_i hfree
    exact iff_of_false (by simp) fun h => hfree (Lock.unheld_iff.mpr h)

end Policy

end ReadWrite
