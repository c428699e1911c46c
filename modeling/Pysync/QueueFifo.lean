import Mathlib.Data.List.Basic

/-!
FIFO queues that remember what was put in and what was taken out, tagged with who did it. The two
histories are part of the queue together with the law that connects them, so that delivery in order
is a fact about every queue and not about a run. This is what bounded and unbounded channels between
threads document: elements come out in the order in which they went in, each of them once, and one more
is refused exactly when as many are in as there is room for.
-/

namespace Queue

variable {A B T : Type*}

/-- A queue with room for `capacity` elements, or any number of them. -/
@[ext] structure Fifo (A B T : Type*) where
  capacity : Option ℕ
  queue : List T
  /-- What was put in, in order, by whom. -/
  accepted : List (A × T)
  /-- What was taken out, in order, by whom. -/
  delivered : List (B × T)
  conserved : accepted.map Prod.snd = delivered.map Prod.snd ++ queue
  bounded : ∀ n, capacity = some n → queue.length ≤ n

namespace Fifo

def empty (capacity : Option ℕ) : Fifo A B T :=
  ⟨capacity, [], [], [], rfl, fun _ _ => Nat.zero_le _⟩

def hasRoom (f : Fifo A B T) : Bool :=
  match f.capacity with
  | none => true
  | some n => f.queue.length < n

/-- Put `x` at the back, if there is room. -/
def push (f : Fifo A B T) (a : A) (x : T) : Option (Fifo A B T) :=
  if h : f.hasRoom then
    some
      { f with
        queue := f.queue ++ [x]
        accepted := f.accepted ++ [(a, x)]
        conserved := by simp [f.conserved]
        bounded := fun n hn => by
          simp only [hasRoom, hn, decide_eq_true_eq] at h
          rw [List.length_append, List.length_singleton]
          omega }
  else none

/-- Take the front element, if there is one. -/
def pop (f : Fifo A B T) (b : B) : Option (T × Fifo A B T) :=
  match h : f.queue with
  | [] => none
  | x :: rest =>
      some (x,
        { f with
          queue := rest
          delivered := f.delivered ++ [(b, x)]
          conserved := by simp [f.conserved, h]
          bounded := fun n hn => by
            have := f.bounded n hn
            rw [h, List.length_cons] at this
            omega })

/-- Hand `x` over past an empty queue. -/
def pass (f : Fifo A B T) (a : A) (b : B) (x : T) : Option (Fifo A B T) :=
  if h : f.queue = [] then
    some
      { f with
        accepted := f.accepted ++ [(a, x)]
        delivered := f.delivered ++ [(b, x)]
        conserved := by simp [f.conserved, h] }
  else none

variable {f g : Fifo A B T} {a : A} {b : B} {x : T}

theorem push_eq_some : f.push a x = some g ↔ f.hasRoom = true ∧ g.capacity = f.capacity ∧
    g.queue = f.queue ++ [x] ∧ g.accepted = f.accepted ++ [(a, x)] ∧
    g.delivered = f.delivered := by
  unfold push
  split
  · rename_i hroom
    rw [Option.some.injEq, Fifo.ext_iff]
    simp only [hroom, true_and, eq_comm]
  · rename_i hroom
    simp [hroom]

theorem push_eq_none : f.push a x = none ↔ f.hasRoom = false := by
  simp [push]

theorem hasRoom_eq_false :
    f.hasRoom = false ↔ ∃ n, f.capacity = some n ∧ n ≤ f.queue.length := by
  unfold hasRoom
  cases f.capacity <;> simp

theorem pop_eq_some : f.pop b = some (x, g) ↔ g.capacity = f.capacity ∧
    f.queue = x :: g.queue ∧ g.accepted = f.accepted ∧
    g.delivered = f.delivered ++ [(b, x)] := by
  unfold pop
  split
  · rename_i hq
    simp [hq]
  · rename_i y rest hq
    rw [Option.some.injEq, Prod.mk.injEq, Fifo.ext_iff]
    constructor
    · rintro ⟨rfl, hcap, hrest, hacc, hdel⟩
      exact ⟨hcap.symm, hq.trans (congrArg _ hrest), hacc.symm, hdel.symm⟩
    · rintro ⟨hcap, hqueue, hacc, hdel⟩
      obtain ⟨rfl, rfl⟩ := List.cons.inj (hq.symm.trans hqueue)
      exact ⟨rfl, hcap.symm, rfl, hacc.symm, hdel.symm⟩

theorem pop_eq_none : f.pop b = none ↔ f.queue = [] := by
  unfold pop
  split
  · rename_i hq
    simp [hq]
  · rename_i hq
    simp [hq]

theorem pass_eq_some : f.pass a b x = some g ↔ f.queue = [] ∧ g.capacity = f.capacity ∧
    g.queue = [] ∧ g.accepted = f.accepted ++ [(a, x)] ∧
    g.delivered = f.delivered ++ [(b, x)] := by
  unfold pass
  split
  · rename_i hq
    rw [Option.some.injEq, Fifo.ext_iff]
    simp only [hq, true_and, eq_comm]
  · rename_i hq
    simp [hq]

/-- What has come out is what went in first, in the same order. -/
theorem delivered_prefix (f : Fifo A B T) :
    f.delivered.map Prod.snd <+: f.accepted.map Prod.snd :=
  ⟨f.queue, f.conserved.symm⟩

/-- Everything has come out once the queue is empty. -/
theorem delivered_eq (hq : f.queue = []) : f.delivered.map Prod.snd = f.accepted.map Prod.snd := by
  rw [f.conserved, hq, List.append_nil]

end Fifo

/-- What the entries tagged `a` carry, in order. -/
def tagged [DecidableEq A] (a : A) (l : List (A × T)) : List T :=
  (l.filter fun e => e.1 = a).map Prod.snd

section Tagged

variable [DecidableEq A] {a : A} {l : List (A × T)} {x : T}

@[simp] theorem tagged_nil : tagged a ([] : List (A × T)) = [] := rfl

theorem tagged_append (l₁ l₂ : List (A × T)) :
    tagged a (l₁ ++ l₂) = tagged a l₁ ++ tagged a l₂ := by
  simp [tagged]

theorem tagged_snoc_ne {b : A} (h : a ≠ b) : tagged a (l ++ [(b, x)]) = tagged a l := by
  rw [tagged_append]
  simp [tagged, Ne.symm h]

end Tagged

namespace Fifo

/-- One party, `a` when it puts in and `b` when it takes out, does one thing to a queue or none. -/
inductive Step (a : A) (b : B) (f : Fifo A B T) : Fifo A B T → Prop
  | same : Step a b f f
  | push {x : T} {g : Fifo A B T} (hpush : f.push a x = some g) : Step a b f g
  | pop {x : T} {g : Fifo A B T} (hpop : f.pop b = some (x, g)) : Step a b f g

variable {f g : Fifo A B T} {a a' : A} {b b' : B}

theorem Step.of_eq (h : g = f) : Step a b f g := by
  rw [h]
  exact .same

theorem Step.capacity (h : Step a b f g) : g.capacity = f.capacity := by
  cases h with
  | same => rfl
  | push hpush => exact (push_eq_some.mp hpush).2.1
  | pop hpop => exact (pop_eq_some.mp hpop).1

/-- A party leaves no entry in the name of another. -/
theorem Step.accepted [DecidableEq A] (h : Step a b f g) (ha : a' ≠ a) :
    tagged a' g.accepted = tagged a' f.accepted := by
  cases h with
  | same => rfl
  | push hpush => rw [(push_eq_some.mp hpush).2.2.2.1, tagged_snoc_ne ha]
  | pop hpop => rw [(pop_eq_some.mp hpop).2.2.1]

theorem Step.delivered [DecidableEq B] (h : Step a b f g) (hb : b' ≠ b) :
    tagged b' g.delivered = tagged b' f.delivered := by
  cases h with
  | same => rfl
  | push hpush => rw [(push_eq_some.mp hpush).2.2.2.2]
  | pop hpop => rw [(pop_eq_some.mp hpop).2.2.2, tagged_snoc_ne hb]

end Fifo

end Queue
