import Mathlib.Data.List.Infix
import Mathlib.Order.Nat
import Mathlib.Tactic.Basic

/-!
Runs of a labelled transition system whose step is a partial function: the action names every
choice, so a list of actions determines the states it visits. A run may be required to meet a
condition at each of its steps; the condition reads the state before the step and the action.
-/

namespace Transition

variable {σ α : Type*}

/-- The runs from `s₀`, each of whose steps meets `P`: the actions in order and the state reached. -/
inductive RunWith (next : σ → α → Option σ) (P : σ → α → Prop) (s₀ : σ) : List α → σ → Prop
  | nil : RunWith next P s₀ [] s₀
  | snoc {as : List α} {s : σ} {a : α} {t : σ} :
      RunWith next P s₀ as s → P s a → next s a = some t → RunWith next P s₀ (as ++ [a]) t

/-- All runs. -/
abbrev Run (next : σ → α → Option σ) : σ → List α → σ → Prop := RunWith next fun _ _ => True

/-- The run `as` from `s₀` passes through `u`. -/
def Visits (next : σ → α → Option σ) (s₀ : σ) (as : List α) (u : σ) : Prop :=
  ∃ pre, pre <+: as ∧ Run next s₀ pre u

/-- The state after the actions `as`, when each of them is enabled and meets `P`. -/
def exec (next : σ → α → Option σ) (P : σ → α → Prop) [∀ s a, Decidable (P s a)] :
    σ → List α → Option σ
  | s, [] => some s
  | s, a :: as => if P s a then (next s a).bind fun t => exec next P t as else none

variable {next : σ → α → Option σ} {P Q : σ → α → Prop} {s₀ s t u : σ} {a : α} {as bs : List α}

theorem RunWith.mono (hPQ : ∀ s a, P s a → Q s a) (h : RunWith next P s₀ as s) :
    RunWith next Q s₀ as s := by
  induction h with
  | nil => exact .nil
  | snoc _ hp hn ih => exact .snoc ih (hPQ _ _ hp) hn

theorem RunWith.run (h : RunWith next P s₀ as s) : Run next s₀ as s :=
  h.mono fun _ _ _ => trivial

/-- The step rule: what holds at the start and is kept by every step of the run holds at its end. -/
theorem RunWith.invariant {Inv : σ → Prop} (h0 : Inv s₀)
    (hstep : ∀ s a t, Inv s → P s a → next s a = some t → Inv t)
    (h : RunWith next P s₀ as s) : Inv s := by
  induction h with
  | nil => exact h0
  | snoc _ hp hn ih => exact hstep _ _ _ ih hp hn

/-- The step rule when a step may use what is known of the run before it. -/
theorem RunWith.invariant_run {Inv : σ → Prop} (h0 : Inv s₀)
    (hstep : ∀ as s a t, RunWith next P s₀ as s → Inv s → P s a → next s a = some t → Inv t)
    (h : RunWith next P s₀ as s) : Inv s := by
  induction h with
  | nil => exact h0
  | snoc hr hp hn ih => exact hstep _ _ _ _ hr ih hp hn

/-- What the steps of a run keep holds at each of them, and at its end. -/
theorem RunWith.always {Inv : σ → Prop} (h0 : Inv s₀)
    (hstep : ∀ s a t, Inv s → P s a → next s a = some t → Inv t) (h : RunWith next P s₀ as s) :
    RunWith next (fun s _ => Inv s) s₀ as s ∧ Inv s := by
  induction h with
  | nil => exact ⟨.nil, h0⟩
  | snoc _ hp hn ih => exact ⟨.snoc ih.1 ih.2 hn, hstep _ _ _ ih.2 hp hn⟩

theorem RunWith.snoc_inv (h : RunWith next P s₀ (as ++ [a]) t) :
    ∃ s, RunWith next P s₀ as s ∧ P s a ∧ next s a = some t := by
  generalize hbs : as ++ [a] = bs at h
  cases h with
  | nil => simp at hbs
  | snoc hr hp hn =>
      obtain ⟨rfl, ha⟩ := List.append_inj' hbs rfl
      cases ha
      exact ⟨_, hr, hp, hn⟩

theorem RunWith.append (h : RunWith next P s₀ as s) (h' : RunWith next P s bs t) :
    RunWith next P s₀ (as ++ bs) t := by
  induction h' with
  | nil => simpa using h
  | snoc _ hp hn ih =>
      rw [← List.append_assoc]
      exact .snoc ih hp hn

theorem RunWith.split (h : RunWith next P s₀ (as ++ bs) t) :
    ∃ s, RunWith next P s₀ as s ∧ RunWith next P s bs t := by
  induction bs using List.reverseRecOn generalizing t with
  | nil => exact ⟨t, by simpa using h, .nil⟩
  | append_singleton bs b ih =>
      rw [← List.append_assoc] at h
      obtain ⟨u, hu, hp, hn⟩ := h.snoc_inv
      obtain ⟨s, hs, hsu⟩ := ih hu
      exact ⟨s, hs, .snoc hsu hp hn⟩

theorem RunWith.single (hp : P s a) (hn : next s a = some t) : RunWith next P s [a] t :=
  show RunWith next P s ([] ++ [a]) t from .snoc .nil hp hn

/-- The actions determine the state. -/
theorem RunWith.unique (h : RunWith next P s₀ as s) (h' : RunWith next Q s₀ as t) : s = t := by
  induction h generalizing t with
  | nil =>
      generalize hbs : ([] : List α) = bs at h'
      cases h' with
      | nil => rfl
      | snoc => simp at hbs
  | snoc _ _ hn ih =>
      obtain ⟨s', hs', _, hn'⟩ := h'.snoc_inv
      rw [ih hs'] at hn
      exact Option.some.inj (hn.symm.trans hn')

/-- Two conditions that the steps of one run meet they meet together. -/
theorem RunWith.and (h : RunWith next P s₀ as s) (h' : RunWith next Q s₀ as s) :
    RunWith next (fun s a => P s a ∧ Q s a) s₀ as s := by
  induction h with
  | nil => exact .nil
  | snoc hr hp hn ih =>
      obtain ⟨u, hu, hq, -⟩ := h'.snoc_inv
      obtain rfl := hr.unique hu
      exact .snoc (ih hu) ⟨hp, hq⟩ hn

/-- An invariant of the run tells more about its steps. -/
theorem RunWith.sharpen {Inv : σ → Prop} (h0 : Inv s₀)
    (hstep : ∀ s a t, Inv s → P s a → next s a = some t → Inv t)
    (hQ : ∀ s a, Inv s → P s a → Q s a) (h : RunWith next P s₀ as s) : RunWith next Q s₀ as s := by
  induction h with
  | nil => exact .nil
  | snoc hr hp hn ih => exact .snoc ih (hQ _ _ (hr.invariant h0 hstep) hp) hn

theorem RunWith.visits_self (h : RunWith next P s₀ as s) : Visits next s₀ as s :=
  ⟨as, List.prefix_rfl, h.run⟩

theorem Visits.snoc (h : Visits next s₀ as u) (a : α) : Visits next s₀ (as ++ [a]) u := by
  obtain ⟨pre, hpre, hrun⟩ := h
  exact ⟨pre, hpre.trans (List.prefix_append _ _), hrun⟩

/-- The states of a run with one more step are the states before it and the state it reaches. -/
theorem visits_snoc (h : Run next s₀ (as ++ [a]) t) :
    Visits next s₀ (as ++ [a]) u ↔ Visits next s₀ as u ∨ u = t := by
  constructor
  · rintro ⟨pre, hpre, hrun⟩
    rcases List.prefix_concat_iff.mp hpre with rfl | hpre
    · exact .inr (hrun.unique h)
    · exact .inl ⟨pre, hpre, hrun⟩
  · rintro (hu | rfl)
    · exact hu.snoc a
    · exact h.visits_self

/-- What every step finds and the last state shows holds all along the run. -/
theorem RunWith.visits_of {N : σ → Prop} (h : RunWith next (fun s _ => N s) s₀ as s) (hs : N s)
    (hu : Visits next s₀ as u) : N u := by
  induction h with
  | nil =>
      obtain ⟨pre, hpre, hrun⟩ := hu
      obtain rfl := List.prefix_nil.mp hpre
      rwa [hrun.unique (.nil : Run next s₀ [] s₀)]
  | snoc hr hp hn ih =>
      rcases (visits_snoc (hr.run.snoc trivial hn)).mp hu with hu | rfl
      · exact ih hp hu
      · exact hs

/-- A visited state splits the run. -/
theorem RunWith.visits_split (h : RunWith next P s₀ as s) (hu : Visits next s₀ as u) :
    ∃ pre post, as = pre ++ post ∧ RunWith next P s₀ pre u ∧ RunWith next P u post s := by
  obtain ⟨pre, ⟨post, rfl⟩, hpre⟩ := hu
  obtain ⟨u', hu', hpost⟩ := h.split
  obtain rfl := hu'.unique hpre
  exact ⟨pre, post, rfl, hu', hpost⟩

/-- When the steps that meet `P` are exactly those that keep `Q` true, a run stays inside `Q` if and
only if all its steps meet `P`. `R` is the standing assumption on the runs compared. -/
theorem always_iff_runWith {R : σ → α → Prop} {Q : σ → Prop} (h0 : Q s₀)
    (hgood : ∀ as s a t, RunWith next (fun s a => R s a ∧ P s a) s₀ as s → Q s → R s a →
      next s a = some t → (P s a ↔ Q t))
    (h : RunWith next R s₀ as s) :
    (∀ u, Visits next s₀ as u → Q u) ↔ RunWith next (fun s a => R s a ∧ P s a) s₀ as s := by
  induction h with
  | nil =>
      refine ⟨fun _ => .nil, fun _ u hu => ?_⟩
      obtain ⟨pre, hpre, hrun⟩ := hu
      obtain rfl := List.prefix_nil.mp hpre
      rwa [hrun.unique (.nil : Run next s₀ [] s₀)]
  | snoc hr hR hn ih =>
      have hrun := RunWith.snoc hr hR hn
      constructor
      · intro hall
        have hgo := ih.mp fun u hu => hall u (hu.snoc _)
        have hs := hall _ (hr.visits_self.snoc _)
        have ht := hall _ hrun.visits_self
        exact .snoc hgo ⟨hR, (hgood _ _ _ _ hgo hs hR hn).mpr ht⟩ hn
      · intro hwith u hu
        obtain ⟨s', hs', ⟨_, hP⟩, hn'⟩ := hwith.snoc_inv
        obtain rfl := hs'.unique hr
        have hbefore := ih.mpr hs'
        rcases (visits_snoc hrun.run).mp hu with hu | rfl
        · exact hbefore u hu
        · exact (hgood _ _ _ _ hs' (hbefore _ hs'.visits_self) hR hn).mp hP

/-- When moreover `Q` once lost stays lost, the last state tells whether all steps met `P`. -/
theorem last_iff_runWith {R : σ → α → Prop} {Q : σ → Prop} (h0 : Q s₀)
    (hgood : ∀ as s a t, RunWith next R s₀ as s → Q s → R s a → next s a = some t → (P s a ↔ Q t))
    (hlost : ∀ as s a t, RunWith next R s₀ as s → R s a → next s a = some t → Q t → Q s)
    (h : RunWith next R s₀ as s) :
    Q s ↔ RunWith next (fun s a => R s a ∧ P s a) s₀ as s := by
  induction h with
  | nil => exact ⟨fun _ => .nil, fun _ => h0⟩
  | snoc hr hR hn ih =>
      constructor
      · intro ht
        have hs := hlost _ _ _ _ hr hR hn ht
        exact .snoc (ih.mp hs) ⟨hR, (hgood _ _ _ _ hr hs hR hn).mpr ht⟩ hn
      · intro hwith
        obtain ⟨s', hs', ⟨_, hP⟩, _⟩ := hwith.snoc_inv
        obtain rfl := hs'.unique hr
        exact (hgood _ _ _ _ hr (ih.mpr hs') hR hn).mp hP

/-- Some time after taking the action `start` the run passed through a state where `Q` holds. -/
def Since (next : σ → α → Option σ) (s₀ : σ) (as : List α) (start : α) (Q : σ → Prop) : Prop :=
  ∃ pre mid u, pre ++ start :: mid <+: as ∧ Run next s₀ (pre ++ start :: mid) u ∧ Q u

theorem Since.snoc {start : α} {Q : σ → Prop} (h : Since next s₀ as start Q) (a : α) :
    Since next s₀ (as ++ [a]) start Q := by
  obtain ⟨pre, mid, u, hpre, hrun, hq⟩ := h
  exact ⟨pre, mid, u, hpre.trans (List.prefix_append _ _), hrun, hq⟩

theorem Since.now {start : α} {Q : σ → Prop} (hstart : start ∈ as) (h : RunWith next P s₀ as s)
    (hq : Q s) : Since next s₀ as start Q := by
  obtain ⟨pre, mid, rfl⟩ := List.append_of_mem hstart
  exact ⟨pre, mid, s, List.prefix_rfl, h.run, hq⟩

theorem Since.visits {start : α} {Q : σ → Prop} (h : Since next s₀ as start Q) :
    ∃ u, Visits next s₀ as u ∧ Q u := by
  obtain ⟨pre, mid, u, hpre, hrun, hq⟩ := h
  exact ⟨u, ⟨_, hpre, hrun⟩, hq⟩

theorem Since.mono {start : α} {Q Q' : σ → Prop} (hQ : ∀ u, Q u → Q' u)
    (h : Since next s₀ as start Q) : Since next s₀ as start Q' := by
  obtain ⟨pre, mid, u, hpre, hrun, hq⟩ := h
  exact ⟨pre, mid, u, hpre, hrun, hQ u hq⟩

/-- No two steps of the run `as` from `s₀` are steps of the kind `A`. -/
def AtMostOnce (next : σ → α → Option σ) (A : σ → α → Prop) (s₀ : σ) (as : List α) : Prop :=
  ∀ pre mid post a b u v, as = pre ++ a :: (mid ++ b :: post) → Run next s₀ pre u →
    Run next s₀ (pre ++ a :: mid) v → A u a → ¬ A v b

/-- A step of the kind `A` sets `Q`, which stays set and excludes another one. -/
theorem RunWith.atMostOnce {A : σ → α → Prop} {Q : σ → Prop}
    (hset : ∀ as s a t, RunWith next P s₀ as s → P s a → next s a = some t → A s a → Q t)
    (hkeep : ∀ as s a t, RunWith next P s₀ as s → P s a → next s a = some t → Q s → Q t)
    (hnot : ∀ as s a, RunWith next P s₀ as s → Q s → ¬ A s a)
    (h : RunWith next P s₀ as s) : AtMostOnce next A s₀ as := by
  rintro pre mid post a b u v rfl hu hv hA
  obtain ⟨u', hu', hrest⟩ := h.split
  obtain rfl := hu'.unique hu
  have hsplit : RunWith next P u' ((a :: mid) ++ b :: post) s := by simpa using hrest
  obtain ⟨w, hw, -⟩ := hsplit.split
  obtain rfl := (hu'.append hw).unique hv
  have hfirst : RunWith next P u' ([a] ++ mid) w := by simpa using hw
  obtain ⟨t, ht, hmid⟩ := hfirst.split
  have hsingle : RunWith next P u' ([] ++ [a]) t := by simpa using ht
  obtain ⟨s, hs, hP, hn⟩ := hsingle.snoc_inv
  obtain rfl := hs.unique (.nil : Run next u' [] u')
  have hafter : ∀ {bs : List α} {x : σ}, RunWith next P t bs x → Q x := by
    intro bs x hx
    induction hx with
    | nil => exact hset _ _ _ _ hu' hP hn hA
    | snoc hr hp hnext ih =>
        exact hkeep _ _ _ _ ((hu'.append ht).append hr) hp hnext ih
  exact hnot _ _ _ (hu'.append hw) (hafter hmid)

/-- A run takes a step of the kind `A`, or all its steps are of the other kind. -/
theorem RunWith.exists_or (A : σ → α → Bool) (h : RunWith next P s₀ as s) :
    (∃ pre a post u, as = pre ++ a :: post ∧ Run next s₀ pre u ∧ A u a = true) ∨
      RunWith next (fun s a => A s a = false) s₀ as s := by
  induction h with
  | nil => exact .inr .nil
  | @snoc as s a t hr hp hn ih =>
      rcases ih with ⟨pre, b, post, u, rfl, hu, hb⟩ | hnone
      · exact .inl ⟨pre, b, post ++ [a], u, by simp, hu, hb⟩
      · cases ha : A s a with
        | true => exact .inl ⟨as, a, [], s, rfl, hr.run, ha⟩
        | false => exact .inr (.snoc hnone ha hn)

theorem runWith_of_exec [∀ s a, Decidable (P s a)] (h : exec next P s as = some t) :
    RunWith next P s as t := by
  induction as generalizing s with
  | nil =>
      cases h
      exact .nil
  | cons a as ih =>
      rw [exec] at h
      split at h
      · rename_i hp
        obtain ⟨u, hu, hrest⟩ := Option.bind_eq_some_iff.mp h
        exact (RunWith.single hp hu).append (ih hrest)
      · cases h

section Count

/-- How many steps of the run `as` from `s` are of the kind `A`. -/
def countSteps (next : σ → α → Option σ) (A : σ → α → Bool) : σ → List α → ℕ
  | _, [] => 0
  | s, a :: as => (A s a).toNat + ((next s a).map fun t => countSteps next A t as).getD 0

variable {A : σ → α → Bool}

theorem RunWith.countSteps_append (h : RunWith next P s₀ as s) (bs : List α) :
    countSteps next A s₀ (as ++ bs) = countSteps next A s₀ as + countSteps next A s bs := by
  induction h generalizing bs with
  | nil => simp [countSteps]
  | @snoc as s a t hr hp hn ih =>
      have hcons : ∀ cs, countSteps next A s (a :: cs) = (A s a).toNat + countSteps next A t cs := by
        intro cs
        rw [countSteps, hn, Option.map_some, Option.getD_some]
      rw [List.append_assoc, ih, ih, List.singleton_append, hcons, hcons, countSteps]
      omega

theorem RunWith.countSteps_snoc (h : RunWith next P s₀ as s) (hn : next s a = some t) :
    countSteps next A s₀ (as ++ [a]) = countSteps next A s₀ as + (A s a).toNat := by
  rw [h.countSteps_append, countSteps, hn]
  simp [countSteps]

end Count

/-- An infinite run. -/
def RunForever (next : σ → α → Option σ) (s : ℕ → σ) (a : ℕ → α) : Prop :=
  ∀ i, next (s i) (a i) = some (s (i + 1))

/-- What no step of a run increases from some point on, and the steps `A` decrease, they decrease only
so often. -/
theorem eventually_not {μ : σ → ℕ} {A : ℕ → Prop} {s : ℕ → σ} (N : ℕ)
    (hle : ∀ i, N ≤ i → μ (s (i + 1)) ≤ μ (s i)) (hlt : ∀ i, N ≤ i → A i → μ (s (i + 1)) < μ (s i)) :
    ∃ M, N ≤ M ∧ ∀ i, M ≤ i → ¬ A i := by
  induction hμ : μ (s N) using Nat.strong_induction_on generalizing N with
  | _ n ih =>
      by_cases hA : ∃ i, N ≤ i ∧ A i
      swap
      · exact ⟨N, le_rfl, fun i hi ha => hA ⟨i, hi, ha⟩⟩
      obtain ⟨i, hi, ha⟩ := hA
      have hdown : ∀ j, N ≤ j → μ (s j) ≤ μ (s N) := by
        intro j hj
        induction j, hj using Nat.le_induction with
        | base => exact le_rfl
        | succ j hj ihj => exact (hle j hj).trans ihj
      have hless := (hlt i hi ha).trans_le (hdown i hi)
      obtain ⟨M, hM, hnot⟩ := ih _ (hμ ▸ hless) (i + 1) (fun j hj => hle j (by omega))
        (fun j hj => hlt j (by omega)) rfl
      exact ⟨M, by omega, hnot⟩

/-- Executing a list of actions gives a run that ends in a state where `p` holds. -/
theorem exists_runWith_of_exec [∀ s a, Decidable (P s a)] {p : σ → Bool}
    (h : (exec next P s as).map p = some true) : ∃ t, RunWith next P s as t ∧ p t = true := by
  obtain ⟨t, ht, hp⟩ := Option.map_eq_some_iff.mp h
  exact ⟨t, runWith_of_exec ht, hp⟩

end Transition
