import Mathlib.Data.List.Basic

/-! Lists in which at most one element satisfies a predicate, and what `find?` returns on them. -/

namespace ListAtMostOne

variable {α : Type*} {p : α → Bool} {l l₁ l₂ : List α} {a b : α}

def AtMostOne (p : α → Bool) (l : List α) : Prop :=
  l.Pairwise fun a b => p a = true → p b = false

theorem AtMostOne.append_singleton (h : AtMostOne p l) (ha : ∀ b ∈ l, p b = true → p a = false) :
    AtMostOne p (l ++ [a]) := by
  refine List.pairwise_append.mpr ⟨h, List.pairwise_singleton _ _, fun b hb c hc => ?_⟩
  rw [List.mem_singleton.mp hc]
  exact ha b hb

theorem AtMostOne.remove (h : AtMostOne p (l₁ ++ a :: l₂)) : AtMostOne p (l₁ ++ l₂) :=
  List.Pairwise.sublist ((List.sublist_cons_self a l₂).append_left l₁) h

/-- An element outside the predicate may be replaced by another one. -/
theorem AtMostOne.replace (h : AtMostOne p (l₁ ++ a :: l₂)) (hb : p b = false) :
    AtMostOne p (l₁ ++ b :: l₂) := by
  have hsplit := List.pairwise_append.mp h.remove
  refine List.pairwise_append.mpr ⟨hsplit.1, ?_, fun c hc d hd hpc => ?_⟩
  · refine List.pairwise_cons.mpr ⟨fun d _ hpb => ?_, hsplit.2.1⟩
    rw [hb] at hpb
    cases hpb
  · rcases List.mem_cons.mp hd with rfl | hd
    · exact hb
    · exact hsplit.2.2 c hc d hd hpc

theorem find?_skip (ha : p a = false) : (l₁ ++ a :: l₂).find? p = (l₁ ++ l₂).find? p := by
  simp [List.find?_append, ha]

/-- Around the one element that satisfies the predicate no other does. -/
theorem AtMostOne.others (h : AtMostOne p (l₁ ++ a :: l₂)) (ha : p a = true) :
    ∀ b ∈ l₁ ++ l₂, p b = false := by
  obtain ⟨-, htail, hcross⟩ := List.pairwise_append.mp h
  intro b hb
  rcases List.mem_append.mp hb with hb | hb
  · by_contra hpb
    have := hcross b hb a List.mem_cons_self (by simpa using hpb)
    rw [ha] at this
    cases this
  · exact (List.pairwise_cons.mp htail).1 b hb ha

theorem find?_eq_none_of_others (h : AtMostOne p (l₁ ++ a :: l₂)) (ha : p a = true) :
    (l₁ ++ l₂).find? p = none := by
  rw [List.find?_eq_none]
  intro b hb
  rw [h.others ha b hb]
  exact Bool.false_ne_true

theorem AtMostOne.find?_eq (h : AtMostOne p l) (hmem : a ∈ l) (ha : p a = true) :
    l.find? p = some a := by
  obtain ⟨l₁, l₂, rfl⟩ := List.append_of_mem hmem
  rw [List.find?_append, List.find?_cons_of_pos ha]
  have hnone : l₁.find? p = none := by
    rw [List.find?_eq_none]
    intro b hb
    rw [h.others ha b (List.mem_append_left _ hb)]
    exact Bool.false_ne_true
  rw [hnone, Option.none_or]

theorem find?_eq_none_iff : l.find? p = none ↔ ∀ b ∈ l, p b = false := by
  simp [List.find?_eq_none]

end ListAtMostOne
