import Mathlib.Algebra.Order.Group.Int
import Mathlib.Data.List.Pairwise

/-! Ranges that lie end to end. A list of them that begins at `x` and stops at `y` covers what is between
the two and nothing else, and no two of them overlap. -/

namespace Tiling

variable {α : Type*} [LinearOrder α] {x y z : α} {ps : List (α × α)}

/-- The ranges `ps`, one after the other, take up what lies from `x` to `y`. -/
def Tiles : α → List (α × α) → α → Prop
  | x, [], y => x = y
  | x, p :: ps, y => p.1 = x ∧ p.1 ≤ p.2 ∧ Tiles p.2 ps y

theorem Tiles.le (h : Tiles x ps y) : x ≤ y := by
  induction ps generalizing x with
  | nil => exact h.le
  | cons p ps ih =>
      obtain ⟨rfl, hle, htail⟩ := h
      exact hle.trans (ih htail)

theorem Tiles.le_first (h : Tiles x ps y) : ∀ p ∈ ps, x ≤ p.1 := by
  induction ps generalizing x with
  | nil => exact List.forall_mem_nil _
  | cons p ps ih =>
      obtain ⟨rfl, hle, htail⟩ := h
      exact List.forall_mem_cons.mpr ⟨le_rfl, fun q hq => hle.trans (ih htail q hq)⟩

/-- Each range begins where those before it have ended. -/
theorem Tiles.pairwise (h : Tiles x ps y) : ps.Pairwise fun p q => p.2 ≤ q.1 := by
  induction ps generalizing x with
  | nil => exact .nil
  | cons p ps ih => exact .cons h.2.2.le_first (ih h.2.2)

theorem Tiles.covers (h : Tiles x ps y) : (∃ p ∈ ps, p.1 ≤ z ∧ z < p.2) ↔ x ≤ z ∧ z < y := by
  induction ps generalizing x with
  | nil =>
      obtain rfl : x = y := h
      simp
  | cons p ps ih =>
      obtain ⟨rfl, hle, htail⟩ := h
      simp only [List.mem_cons, exists_eq_or_imp, ih htail]
      have hend := htail.le
      constructor
      · rintro (⟨hlow, hhigh⟩ | ⟨hlow, hhigh⟩)
        · exact ⟨hlow, hhigh.trans_le hend⟩
        · exact ⟨hle.trans hlow, hhigh⟩
      · rintro ⟨hlow, hhigh⟩
        exact (lt_or_ge z p.2).imp (fun hlt => ⟨hlow, hlt⟩) fun hge => ⟨hge, hhigh⟩

end Tiling
