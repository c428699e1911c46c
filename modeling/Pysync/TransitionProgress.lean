import Pysync.TransitionRun
import Mathlib.Algebra.BigOperators.Group.Finset.Piecewise

/-!
Runs in which something must come to an end. Steps of a kind `A` work towards a goal `Q`: only so many
of them are left, whatever other steps come between, and until the goal is reached one of them can be
taken. Then the goal is reached in every run that does not put them off for ever.
-/

namespace Transition

variable {σ α : Type*} {next : σ → α → Option σ} {P : σ → α → Prop} {A : σ → α → Bool}
variable {Q Inv : σ → Prop} {s t : σ} {as : List α} {n : ℕ}

/-- A step of the kind `A` that meets `P` can be taken. -/
def Able (next : σ → α → Option σ) (P : σ → α → Prop) (A : σ → α → Bool) (s : σ) : Prop :=
  ∃ a t, P s a ∧ A s a = true ∧ next s a = some t

/-- From `s` on at most `n` steps of the kind `A` are taken, and one can be until `Q` holds. -/
structure Settles (next : σ → α → Option σ) (P : σ → α → Prop) (A : σ → α → Bool) (n : ℕ)
    (Q : σ → Prop) (s : σ) : Prop where
  few : ∀ as t, RunWith next P s as t → countSteps next A s as ≤ n
  able : ∀ as t, RunWith next P s as t → Q t ∨ Able next P A t

/-- A bound `B s m` on the steps left from `s` that the steps of the kind `A` lower and no other step
raises. -/
theorem RunWith.countSteps_add_le {B : σ → ℕ → Prop} (h0 : B s n)
    (hstep : ∀ s a t m, B s m → P s a → next s a = some t → ∃ m', B t m' ∧ m' + (A s a).toNat ≤ m)
    (h : RunWith next P s as t) : ∃ m, B t m ∧ countSteps next A s as + m ≤ n := by
  induction h with
  | nil => exact ⟨n, h0, by simp [countSteps]⟩
  | snoc hr hp hn ih =>
      obtain ⟨m, hb, hle⟩ := ih
      obtain ⟨m', hb', hle'⟩ := hstep _ _ _ _ hb hp hn
      refine ⟨m', hb', ?_⟩
      rw [hr.countSteps_snoc hn]
      omega

/-- The rule of the bound. -/
theorem settles_of_bound {B : σ → ℕ → Prop} (h0 : B s n)
    (hstep : ∀ s a t m, B s m → P s a → next s a = some t → ∃ m', B t m' ∧ m' + (A s a).toNat ≤ m)
    (hable : ∀ s m, B s m → Q s ∨ Able next P A s) : Settles next P A n Q s where
  few as t h := by
    obtain ⟨m, -, hle⟩ := h.countSteps_add_le h0 hstep
    omega
  able as t h := by
    obtain ⟨m, hb, -⟩ := h.countSteps_add_le h0 hstep
    exact hable t m hb

/-- The invariant and the measure as such a bound. -/
theorem measure_step (μ : σ → ℕ)
    (hstep : ∀ s a t, Inv s → P s a → next s a = some t → Inv t ∧ μ t + (A s a).toNat ≤ μ s) :
    ∀ s a t m, (Inv s ∧ μ s = m) → P s a → next s a = some t →
      ∃ m', (Inv t ∧ μ t = m') ∧ m' + (A s a).toNat ≤ m := by
  rintro s a t m ⟨hs, rfl⟩ hp hn
  obtain ⟨ht, hle⟩ := hstep s a t hs hp hn
  exact ⟨μ t, ⟨ht, rfl⟩, hle⟩

/-- What the steps of the kind `A` lower and no other step raises. -/
theorem RunWith.countSteps_le (μ : σ → ℕ) (h0 : Inv s)
    (hstep : ∀ s a t, Inv s → P s a → next s a = some t → Inv t ∧ μ t + (A s a).toNat ≤ μ s)
    (h : RunWith next P s as t) : Inv t ∧ countSteps next A s as + μ t ≤ μ s := by
  have hbound : Inv s ∧ μ s = μ s := ⟨h0, rfl⟩
  obtain ⟨m, ⟨ht, rfl⟩, hle⟩ := h.countSteps_add_le hbound (measure_step μ hstep)
  exact ⟨ht, hle⟩

/-- The measure rule. -/
theorem settles_of_measure (μ : σ → ℕ) (h0 : Inv s)
    (hstep : ∀ s a t, Inv s → P s a → next s a = some t → Inv t ∧ μ t + (A s a).toNat ≤ μ s)
    (hable : ∀ s, Inv s → Q s ∨ Able next P A s) : Settles next P A (μ s) Q s := by
  have hbound : Inv s ∧ μ s = μ s := ⟨h0, rfl⟩
  exact settles_of_bound hbound (measure_step μ hstep) fun s m hs => hable s hs.1

/-- Later on no more steps are left than before. -/
theorem Settles.mono (h : Settles next P A n Q s) {m : ℕ} (hnm : n ≤ m) : Settles next P A m Q s :=
  ⟨fun as t hr => (h.few as t hr).trans hnm, h.able⟩

theorem Settles.imp {Q' : σ → Prop} (h : Settles next P A n Q s)
    (hQ : ∀ as t, RunWith next P s as t → Q t → Q' t) : Settles next P A n Q' s :=
  ⟨h.few, fun as t hr => (h.able as t hr).imp_left (hQ as t hr)⟩

theorem Settles.after (h : Settles next P A n Q s) (hr : RunWith next P s as t) :
    Settles next P A (n - countSteps next A s as) Q t where
  few bs u hu := by
    have hle := h.few _ _ (hr.append hu)
    rw [hr.countSteps_append] at hle
    omega
  able bs u hu := h.able _ _ (hr.append hu)

/-- The steps of the kind `A` alone reach the goal. -/
theorem Settles.reaches (h : Settles next P A n Q s) :
    ∃ as t, RunWith next (fun s a => P s a ∧ A s a = true) s as t ∧ as.length ≤ n ∧ Q t := by
  induction n generalizing s with
  | zero =>
      rcases h.able [] s .nil with hq | ⟨a, t, hp, ha, hn⟩
      · exact ⟨[], s, .nil, le_rfl, hq⟩
      · have hfew := h.few _ _ (.single hp hn)
        simp [countSteps, ha] at hfew
  | succ n ih =>
      rcases h.able [] s .nil with hq | ⟨a, t, hp, ha, hn⟩
      · exact ⟨[], s, .nil, Nat.zero_le _, hq⟩
      · have hone : countSteps next A s [a] = 1 := by simp [countSteps, ha, hn]
        have hrest := h.after (.single hp hn)
        rw [hone, Nat.add_sub_cancel] at hrest
        obtain ⟨as, u, hrun, hlen, hq⟩ := ih hrest
        refine ⟨a :: as, u, ?_, by simpa using hlen, hq⟩
        exact (RunWith.single ⟨hp, ha⟩ hn).append hrun

/-- One party's share of a measure that is a sum over all parties. -/
theorem sum_update_add {ι : Type*} [DecidableEq ι] {F : Finset ι} (f : ι → ℕ) {i : ι} (hi : i ∈ F)
    (n : ℕ) : ∑ j ∈ F, Function.update f i n j + f i = ∑ j ∈ F, f j + n := by
  rw [Finset.sum_update_of_mem hi, ← Finset.add_sum_erase F f hi, Finset.sdiff_singleton_eq_erase]
  omega

end Transition
