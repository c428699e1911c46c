import Pysync.TransitionRun
import Mathlib.Data.List.Nodup

/-!
Linearizability from the points at which calls take effect. A step of a run performs an event on an
abstract object, or ends a call whose event was at some instant before, or does nothing that can be seen.
Then the events of a run have one order in which they are a sequential history of the object, and in
which calls that did not overlap stand as they were made.
-/

namespace Linearization
open Transition

variable {σ α A β : Type*}

section Object

variable {legal : A → β → A → Prop} {x y z : A} {es fs : List β}

/-- The events `es`, one after the other, take the object from `x` to `y`. -/
def Replays (legal : A → β → A → Prop) : A → List β → A → Prop
  | x, [], y => x = y
  | x, e :: es, y => ∃ z, legal x e z ∧ Replays legal z es y

theorem Replays.append (h : Replays legal x es y) (h' : Replays legal y fs z) :
    Replays legal x (es ++ fs) z := by
  induction es generalizing x with
  | nil =>
      obtain rfl : x = y := h
      exact h'
  | cons e es ih =>
      obtain ⟨w, he, hes⟩ := h
      exact ⟨w, he, ih hes⟩

theorem replays_stay (h : ∀ e ∈ es, legal x e x) : Replays legal x es x := by
  induction es with
  | nil => exact rfl
  | cons e es ih => exact ⟨x, h e List.mem_cons_self, ih fun d hd => h d (List.mem_cons_of_mem _ hd)⟩

/-- The events that are seen of an object elsewhere: `f` gives what is seen of an event, if it can be seen. -/
theorem Replays.filterMap {γ : Type*} {legal' : A → γ → A → Prop} {f : β → Option γ} {Inv : A → Prop}
    (hkeep : ∀ e ∈ es, ∀ x y, Inv x → legal x e y →
      Inv y ∧ (f e).elim (x = y) fun d => legal' x d y) (hx : Inv x) (h : Replays legal x es y) :
    Replays legal' x (es.filterMap f) y := by
  induction es generalizing x with
  | nil => exact h
  | cons e es ih =>
      obtain ⟨w, he, hes⟩ := h
      obtain ⟨hw, hseen⟩ := hkeep e List.mem_cons_self x w hx he
      have hrest := ih (fun d hd => hkeep d (List.mem_cons_of_mem _ hd)) hw hes
      cases hf : f e with
      | none =>
          rw [hf] at hseen
          obtain rfl : x = w := hseen
          rwa [List.filterMap_cons_none hf]
      | some d =>
          rw [hf] at hseen
          rw [List.filterMap_cons_some hf]
          exact ⟨w, hseen, hrest⟩

end Object

section Instants

variable {next : σ → α → Option σ} {s₀ s t u v : σ} {a : α} {as : List α} {i : ℕ}

/-- After `i` of its steps the run `as` from `s₀` is in the state `u`. -/
def At (next : σ → α → Option σ) (s₀ : σ) (as : List α) (i : ℕ) (u : σ) : Prop :=
  i ≤ as.length ∧ Run next s₀ (as.take i) u

theorem At.unique (h : At next s₀ as i u) (h' : At next s₀ as i v) : u = v := h.2.unique h'.2

theorem at_length (h : Run next s₀ as s) : At next s₀ as as.length s :=
  ⟨le_rfl, by rwa [List.take_length]⟩

theorem exists_at_of_visits (h : Visits next s₀ as u) : ∃ i, At next s₀ as i u := by
  obtain ⟨pre, hpre, hrun⟩ := h
  refine ⟨pre.length, hpre.length_le, ?_⟩
  rwa [← List.prefix_iff_eq_take.mp hpre]

theorem At.before (h : At next s₀ as (i + 1) v) : ∃ u, At next s₀ as i u := by
  obtain ⟨hle, hrun⟩ := h
  rw [List.take_add_one, List.getElem?_eq_getElem (by omega)] at hrun
  obtain ⟨u, hu, -⟩ := hrun.split
  exact ⟨u, by omega, hu⟩

/-- The instants of a run with one more step. -/
theorem at_snoc (h : Run next s₀ as s) (hn : next s a = some t) :
    At next s₀ (as ++ [a]) i u ↔ At next s₀ as i u ∨ (i = as.length + 1 ∧ u = t) := by
  have hrun := h.snoc trivial hn
  constructor
  · rintro ⟨hle, hu⟩
    rw [List.length_append, List.length_singleton] at hle
    by_cases hi : i ≤ as.length
    · rw [List.take_append_of_le_length hi] at hu
      exact .inl ⟨hi, hu⟩
    · obtain rfl : i = as.length + 1 := by omega
      rw [List.take_of_length_le (by simp)] at hu
      exact .inr ⟨rfl, hu.unique hrun⟩
  · rintro (⟨hle, hu⟩ | ⟨rfl, rfl⟩)
    · refine ⟨hle.trans (by simp), ?_⟩
      rwa [List.take_append_of_le_length hle]
    · refine ⟨by simp, ?_⟩
      rwa [List.take_of_length_le (by simp)]

end Instants

/-- What of the states shows an abstract object: its value, what an event may do to it, which events are
past, and which have not begun. -/
structure Observed (σ A β : Type*) where
  value : σ → A
  legal : A → β → A → Prop
  past : σ → β → Prop
  unbegun : σ → β → Prop
  begun : ∀ s e, past s e → ¬ unbegun s e

namespace Observed

variable (O : Observed σ A β) (next : σ → α → Option σ) (s₀ : σ) (as : List α)

/-- The step that the run `as` takes from `s` to `t`, as far as it can be seen. -/
inductive Step (s t : σ) : Prop
  | quiet (hvalue : O.value t = O.value s) (hpast : ∀ d, O.past t d ↔ O.past s d)
  /-- The event takes place in the step. -/
  | acts {e : β} (hlegal : O.legal (O.value s) e (O.value t)) (hnew : ¬ O.past s e)
      (hpast : ∀ d, O.past t d ↔ O.past s d ∨ d = e)
  /-- The event took place at the instant `i`, after it had begun, and left the object as it was. -/
  | looked {e : β} {i : ℕ} {u : σ} (hvalue : O.value t = O.value s) (hnew : ¬ O.past s e)
      (hpast : ∀ d, O.past t d ↔ O.past s d ∨ d = e) (hat : At next s₀ as i u)
      (hlegal : O.legal (O.value u) e (O.value u))
      (hbegun : ∀ j w, At next s₀ as j w → O.unbegun w e → j < i)

theorem Step.stays {O : Observed σ A β} {next : σ → α → Option σ} {s₀ s t : σ} {as : List α} {d : β}
    (h : O.Step next s₀ as s t) (hd : O.past s d) : O.past t d := by
  cases h with
  | quiet _ hpast => exact (hpast d).mpr hd
  | acts _ _ hpast => exact (hpast d).mpr (.inl hd)
  | looked _ _ hpast => exact (hpast d).mpr (.inl hd)

/-- The events of the run `as` to `s` in one order: a history of the object in which an event that was
past before another one had begun stands before it. -/
structure History (s : σ) (history : List β) : Prop where
  mem_iff : ∀ e, e ∈ history ↔ O.past s e
  nodup : history.Nodup
  order : history.Pairwise fun d e => ∀ u, Visits next s₀ as u → O.past u e → ¬ O.unbegun u d
  replays : Replays O.legal (O.value s₀) history (O.value s)

/-- The events of the run, each with its time: `2 i` for the instant `i`, `2 i + 1` for the step after. -/
structure Timed (s : σ) (E : ℕ → List β) : Prop where
  mem_iff : ∀ e, (∃ τ, e ∈ E τ) ↔ O.past s e
  nodup : ∀ τ, (E τ).Nodup
  once : ∀ τ τ' e, e ∈ E τ → e ∈ E τ' → τ = τ'
  early : ∀ τ e, e ∈ E τ → τ ≤ 2 * as.length
  begun : ∀ τ e i u, e ∈ E τ → At next s₀ as i u → O.unbegun u e → 2 * i < τ
  ended : ∀ τ e i u, e ∈ E τ → At next s₀ as i u → O.past u e → τ < 2 * i
  stays : ∀ i u e, At next s₀ as i u → O.past u e → O.past s e

/-- The events at each time, when they are legal there. -/
structure Slots (s : σ) (E : ℕ → List β) : Prop extends Timed O next s₀ as s E where
  looks : ∀ i u e, At next s₀ as i u → e ∈ E (2 * i) → O.legal (O.value u) e (O.value u)
  steps : ∀ i u v, At next s₀ as i u → At next s₀ as (i + 1) v →
    Replays O.legal (O.value u) (E (2 * i + 1)) (O.value v)

variable {O next s₀ as} {s t u v : σ} {a : α} {E : ℕ → List β} {e d : β} {i k τ : ℕ}

theorem Timed.eq_nil (h : O.Timed next s₀ as s E) (hτ : 2 * as.length < τ) : E τ = [] := by
  refine List.eq_nil_iff_forall_not_mem.mpr fun e he => ?_
  have hle := h.early τ e he
  omega

/-- A step in which no event is new. -/
theorem Timed.keep (h : O.Timed next s₀ as s E) (hrun : Run next s₀ as s) (hn : next s a = some t)
    (hpast : ∀ d, O.past t d ↔ O.past s d) : O.Timed next s₀ (as ++ [a]) t E where
  mem_iff e := (h.mem_iff e).trans (hpast e).symm
  nodup := h.nodup
  once := h.once
  early τ e he := by
    have hle := h.early τ e he
    rw [List.length_append]
    omega
  begun τ e i u he hu hun := by
    rcases (at_snoc hrun hn).mp hu with hu | ⟨-, rfl⟩
    · exact h.begun τ e i u he hu hun
    · exact absurd hun (O.begun _ e ((hpast e).mpr ((h.mem_iff e).mp ⟨τ, he⟩)))
  ended τ e i u he hu hpt := by
    rcases (at_snoc hrun hn).mp hu with hu | ⟨rfl, -⟩
    · exact h.ended τ e i u he hu hpt
    · have hle := h.early τ e he
      omega
  stays i u e hu hpt := by
    rcases (at_snoc hrun hn).mp hu with hu | ⟨-, rfl⟩
    · exact (hpast e).mpr (h.stays i u e hu hpt)
    · exact hpt

theorem mem_update_append :
    d ∈ Function.update E k (E k ++ [e]) τ ↔ d ∈ E τ ∨ (τ = k ∧ d = e) := by
  by_cases hτ : τ = k
  · subst hτ
    simp
  · simp [hτ]

/-- A step after which one more event is past, which took place at the time `k`. -/
theorem Timed.add (h : O.Timed next s₀ as s E) (hrun : Run next s₀ as s) (hn : next s a = some t)
    (hnew : ¬ O.past s e) (hpast : ∀ d, O.past t d ↔ O.past s d ∨ d = e) (hk : k ≤ 2 * as.length + 1)
    (hbegun : ∀ i u, At next s₀ as i u → O.unbegun u e → 2 * i < k) :
    O.Timed next s₀ (as ++ [a]) t (Function.update E k (E k ++ [e])) where
  mem_iff d := by
    simp only [mem_update_append, exists_or, h.mem_iff, hpast, exists_eq_left]
  nodup τ := by
    by_cases hτ : τ = k
    · subst hτ
      rw [Function.update_self]
      refine List.nodup_append.mpr ⟨h.nodup τ, List.nodup_singleton e, fun d hd b hb => ?_⟩
      rw [List.mem_singleton.mp hb]
      rintro rfl
      exact hnew ((h.mem_iff d).mp ⟨τ, hd⟩)
    · rw [Function.update_of_ne hτ]
      exact h.nodup τ
  once τ τ' d hd hd' := by
    rcases mem_update_append.mp hd with hd | ⟨hτ, hde⟩
    · rcases mem_update_append.mp hd' with hd' | ⟨-, hde⟩
      · exact h.once τ τ' d hd hd'
      · exact absurd ((h.mem_iff d).mp ⟨τ, hd⟩) (hde ▸ hnew)
    · rcases mem_update_append.mp hd' with hd' | ⟨hτ', -⟩
      · exact absurd ((h.mem_iff d).mp ⟨τ', hd'⟩) (hde ▸ hnew)
      · exact hτ.trans hτ'.symm
  early τ d hd := by
    rw [List.length_append, List.length_singleton]
    rcases mem_update_append.mp hd with hd | ⟨rfl, -⟩
    · have hle := h.early τ d hd
      omega
    · omega
  begun τ d i u hd hu hun := by
    rcases (at_snoc hrun hn).mp hu with hu | ⟨-, rfl⟩
    · rcases mem_update_append.mp hd with hd | ⟨rfl, rfl⟩
      · exact h.begun τ d i u hd hu hun
      · exact hbegun i u hu hun
    · refine absurd hun (O.begun _ d ((hpast d).mpr ?_))
      exact (mem_update_append.mp hd).imp (fun hd => (h.mem_iff d).mp ⟨τ, hd⟩) And.right
  ended τ d i u hd hu hpt := by
    rcases (at_snoc hrun hn).mp hu with hu | ⟨rfl, -⟩
    · rcases mem_update_append.mp hd with hd | ⟨rfl, rfl⟩
      · exact h.ended τ d i u hd hu hpt
      · exact absurd (h.stays i u d hu hpt) hnew
    · rcases mem_update_append.mp hd with hd | ⟨rfl, -⟩
      · have hle := h.early τ d hd
        omega
      · omega
  stays i u d hu hpt := by
    rcases (at_snoc hrun hn).mp hu with hu | ⟨-, rfl⟩
    · exact (hpast d).mpr (.inl (h.stays i u d hu hpt))
    · exact hpt

/-- A step that is quiet, or the end of an event that took place at an instant before. -/
theorem Timed.looks_snoc (h : O.Timed next s₀ as s E) (hrun : Run next s₀ as s) (hn : next s a = some t)
    (hlooks : ∀ i u e, At next s₀ as i u → e ∈ E (2 * i) → O.legal (O.value u) e (O.value u)) :
    ∀ i u e, At next s₀ (as ++ [a]) i u → e ∈ E (2 * i) → O.legal (O.value u) e (O.value u) := by
  intro i u e hu he
  rcases (at_snoc hrun hn).mp hu with hu | ⟨rfl, -⟩
  · exact hlooks i u e hu he
  · rw [h.eq_nil (by omega)] at he
    cases he

theorem steps_snoc (hrun : Run next s₀ as s) (hn : next s a = some t)
    (hsteps : ∀ i u v, At next s₀ as i u → At next s₀ as (i + 1) v →
      Replays O.legal (O.value u) (E (2 * i + 1)) (O.value v))
    (hlast : Replays O.legal (O.value s) (E (2 * as.length + 1)) (O.value t)) :
    ∀ i u v, At next s₀ (as ++ [a]) i u → At next s₀ (as ++ [a]) (i + 1) v →
      Replays O.legal (O.value u) (E (2 * i + 1)) (O.value v) := by
  intro i u v hu hv
  rcases (at_snoc hrun hn).mp hv with hv | ⟨hi, rfl⟩
  · rcases (at_snoc hrun hn).mp hu with hu | ⟨rfl, -⟩
    · exact hsteps i u v hu hv
    · have hle := hv.1
      omega
  · obtain rfl : i = as.length := by omega
    rcases (at_snoc hrun hn).mp hu with hu | ⟨hi', -⟩
    · rwa [hu.unique (at_length hrun)]
    · omega

theorem Slots.snoc (h : O.Slots next s₀ as s E) (hrun : Run next s₀ as s) (hn : next s a = some t)
    (hstep : O.Step next s₀ as s t) : ∃ E', O.Slots next s₀ (as ++ [a]) t E' := by
  cases hstep with
  | quiet hvalue hpast =>
      refine ⟨E, h.keep hrun hn hpast, h.looks_snoc hrun hn h.looks, steps_snoc hrun hn h.steps ?_⟩
      rw [h.eq_nil (by omega)]
      exact hvalue.symm
  | @acts e hlegal hnew hpast =>
      refine ⟨_, h.add (k := 2 * as.length + 1) hrun hn hnew hpast le_rfl fun i u hu _ => ?_,
        fun i u d hu hd => ?_, ?_⟩
      · have hle := hu.1
        omega
      · rw [Function.update_of_ne (by omega)] at hd
        exact h.looks_snoc hrun hn h.looks i u d hu hd
      · refine steps_snoc hrun hn (fun i u v hu hv => ?_) ?_
        · have hle := hv.1
          rw [Function.update_of_ne (by omega)]
          exact h.steps i u v hu hv
        · rw [Function.update_self, h.eq_nil (by omega)]
          exact ⟨_, hlegal, rfl⟩
  | @looked e j w hvalue hnew hpast hat hlegal hbegun =>
      have hle := hat.1
      refine ⟨_, h.add (k := 2 * j) hrun hn hnew hpast (by omega) fun i u hu hun => ?_,
        fun i u d hu hd => ?_, ?_⟩
      · have hlt := hbegun i u hu hun
        omega
      · rcases mem_update_append.mp hd with hd | ⟨hij, rfl⟩
        · exact h.looks_snoc hrun hn h.looks i u d hu hd
        · obtain rfl : i = j := by omega
          rcases (at_snoc hrun hn).mp hu with hu | ⟨rfl, -⟩
          · rwa [hu.unique hat]
          · omega
      · refine steps_snoc hrun hn (fun i u v hu hv => ?_) ?_
        · rw [Function.update_of_ne (by omega)]
          exact h.steps i u v hu hv
        · rw [Function.update_of_ne (by omega), h.eq_nil (by omega)]
          exact hvalue.symm

/-- Up to an instant, the events replay what the run has done to the object. -/
theorem Slots.replays (h : O.Slots next s₀ as s E) {m : ℕ} (hu : At next s₀ as m u) :
    Replays O.legal (O.value s₀) ((List.range (2 * m + 1)).flatMap E) (O.value u) := by
  induction m generalizing u with
  | zero =>
      have hs₀ : At next s₀ as 0 s₀ := ⟨Nat.zero_le _, .nil⟩
      obtain rfl := hu.unique hs₀
      refine replays_stay fun e he => ?_
      rw [List.mem_flatMap] at he
      obtain ⟨τ, hτ, he⟩ := he
      obtain rfl : τ = 0 := by simpa using hτ
      exact h.looks 0 _ e hs₀ he
  | succ m ih =>
      obtain ⟨w, hw⟩ := hu.before
      have hrange : List.range (2 * (m + 1) + 1) =
          List.range (2 * m + 1) ++ [2 * m + 1] ++ [2 * (m + 1)] := by
        rw [Nat.mul_succ, List.range_succ, List.range_succ]
      rw [hrange, List.flatMap_append, List.flatMap_append, List.flatMap_singleton, List.flatMap_singleton]
      exact ((ih hw).append (h.steps m w u hw hu)).append
        (replays_stay fun e he => h.looks (m + 1) u e hu he)

theorem Slots.history (h : O.Slots next s₀ as s E) (hrun : Run next s₀ as s) :
    O.History next s₀ as s ((List.range (2 * as.length + 1)).flatMap E) where
  mem_iff e := by
    rw [List.mem_flatMap, ← h.mem_iff]
    refine ⟨fun ⟨τ, _, he⟩ => ⟨τ, he⟩, fun ⟨τ, he⟩ => ⟨τ, ?_, he⟩⟩
    have hle := h.early τ e he
    exact List.mem_range.mpr (by omega)
  nodup := by
    refine List.nodup_flatMap.mpr ⟨fun τ _ => h.nodup τ, List.pairwise_lt_range.imp ?_⟩
    intro τ τ' hlt e he he'
    exact hlt.ne (h.once τ τ' e he he')
  order := by
    have hle : ∀ {τ τ' d e}, τ ≤ τ' → d ∈ E τ → e ∈ E τ' → ∀ u, Visits next s₀ as u →
        O.past u e → ¬ O.unbegun u d := by
      intro τ τ' d e hττ' hd he u hu hpt hun
      obtain ⟨i, hi⟩ := exists_at_of_visits hu
      have hbefore := h.begun τ d i u hd hi hun
      have hafter := h.ended τ' e i u he hi hpt
      omega
    refine List.pairwise_flatMap.mpr ⟨fun τ _ => ?_, List.pairwise_lt_range.imp ?_⟩
    · exact List.pairwise_of_forall_mem_list fun d hd e he => hle le_rfl hd he
    · exact fun hlt d hd e he => hle hlt.le hd he
  replays := h.replays (at_length hrun)

/-- A run whose steps are seen to act, or to look back, has a history. -/
theorem exists_history {P : σ → α → Prop} (hstart : ∀ e, ¬ O.past s₀ e)
    (hstep : ∀ as s a t, RunWith next P s₀ as s → P s a → next s a = some t → O.Step next s₀ as s t)
    (hrun : RunWith next P s₀ as s) : ∃ history, O.History next s₀ as s history := by
  have hslots : ∃ E, O.Slots next s₀ as s E := by
    induction hrun with
    | nil =>
        refine ⟨fun _ => [], ⟨fun e => ?_, fun _ => List.nodup_nil, ?_, ?_, ?_, ?_, ?_⟩, ?_, ?_⟩
        · exact iff_of_false (fun ⟨_, he⟩ => by cases he) (hstart e)
        · exact fun _ _ _ he => by cases he
        · exact fun _ _ he => by cases he
        · exact fun _ _ _ _ he => by cases he
        · exact fun _ _ _ _ he => by cases he
        · rintro i u e ⟨-, hu⟩ hpt
          rw [List.take_nil] at hu
          rwa [hu.unique (.nil : Run next s₀ [] s₀)] at hpt
        · exact fun _ _ _ _ he => by cases he
        · rintro i u v - ⟨hle, -⟩
          simp at hle
    | @snoc as s a t hr hp hn ih =>
        obtain ⟨E, hE⟩ := ih
        exact hE.snoc hr.run hn (hstep as s a t hr hp hn)
  obtain ⟨E, hE⟩ := hslots
  exact ⟨_, hE.history hrun.run⟩

/-- What was past at some instant of a run is past at its end. -/
theorem past_of_visits {P : σ → α → Prop}
    (hstep : ∀ as s a t, RunWith next P s₀ as s → P s a → next s a = some t → O.Step next s₀ as s t)
    (hrun : RunWith next P s₀ as s) (hu : Visits next s₀ as u) (he : O.past u e) : O.past s e := by
  induction hrun with
  | nil =>
      obtain ⟨pre, hpre, hrun⟩ := hu
      obtain rfl := List.prefix_nil.mp hpre
      rwa [← hrun.unique (.nil : Run next s₀ [] s₀)]
  | @snoc as s a t hr hp hn ih =>
      rcases (visits_snoc (hr.run.snoc trivial hn)).mp hu with hu | rfl
      · exact (hstep as s a t hr hp hn).stays (ih hu)
      · exact he

section Above

variable {σ' α' β' : Type*} {O' : Observed σ' A β'} {next' : σ' → α' → Option σ'} {s₀' s' : σ'}
variable {as' : List α'} {g : σ' → σ} {f : β → Option β'} {history : List β}

/-- A run that stands on another one, whose states it has as `g`: the history below, read as `f` tells, is
one of what stands on it. -/
structure Above (O : Observed σ A β) (O' : Observed σ' A β') (next : σ → α → Option σ) (s₀ : σ)
    (as : List α) (next' : σ' → α' → Option σ') (s₀' : σ') (as' : List α') (s' : σ') (g : σ' → σ)
    (f : β → Option β') (Inv : A → Prop) : Prop where
  value : ∀ u, O'.value u = O.value (g u)
  visits : ∀ u, Visits next' s₀' as' u → Visits next s₀ as (g u)
  past : ∀ u, Visits next' s₀' as' u → ∀ d, O'.past u d ↔ ∃ e, O.past (g u) e ∧ f e = some d
  unbegun : ∀ u, Visits next' s₀' as' u → ∀ e d, f e = some d → O'.unbegun u d → O.unbegun (g u) e
  once : ∀ e e' d, O.past (g s') e → O.past (g s') e' → f e = some d → f e' = some d → e = e'
  stays : ∀ u e, Visits next s₀ as u → O.past u e → O.past (g s') e
  start : Inv (O.value (g s₀'))
  keep : ∀ e x y, O.past (g s') e → Inv x → O.legal x e y →
    Inv y ∧ (f e).elim (x = y) fun d => O'.legal x d y

theorem Above.lift {Inv : A → Prop} (h : O.Above O' next s₀ as next' s₀' as' s' g f Inv)
    (hrun : Visits next' s₀' as' s') (hs₀ : g s₀' = s₀) (hh : O.History next s₀ as (g s') history) :
    O'.History next' s₀' as' s' (history.filterMap f) where
  mem_iff d := by
    rw [List.mem_filterMap, h.past s' hrun]
    simp only [hh.mem_iff]
  nodup := by
    refine List.pairwise_filterMap.mpr (hh.nodup.imp_of_mem ?_)
    rintro e e' he he' hne d hd d' hd' rfl
    exact hne (h.once e e' d ((hh.mem_iff e).mp he) ((hh.mem_iff e').mp he') hd hd')
  order := by
    refine List.pairwise_filterMap.mpr (hh.order.imp_of_mem ?_)
    intro e e' he he' hee d hd d' hd' u hu hpast hun
    obtain ⟨e₁, hpast₁, hd₁⟩ := (h.past u hu d').mp hpast
    have hvisits := h.visits u hu
    obtain rfl := h.once e₁ e' d' (h.stays _ e₁ hvisits hpast₁) ((hh.mem_iff e').mp he') hd₁ hd'
    exact hee (g u) hvisits hpast₁ (h.unbegun u hu e d hd hun)
  replays := by
    rw [h.value, h.value]
    refine Replays.filterMap (fun e he x y hx hl => ?_) h.start (hs₀.symm ▸ hh.replays)
    exact h.keep e x y ((hh.mem_iff e).mp he) hx hl

end Above

end Observed

end Linearization
