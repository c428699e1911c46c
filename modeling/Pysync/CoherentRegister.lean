import Mathlib.Data.List.Sort
import Mathlib.Order.MinMax
import Mathlib.Tactic.Basic

/-!
One memory location that threads share, with no more order than coherence. Every value that the location
has held stands at a time of its own. A thread may still find an old value, but none older than it has
found or written before; a plain store takes any free time that is later than that, and an update takes
the time right after the value that it has found. The accesses can then be put in one order, with each
thread's own in the order in which it made them, and each finds what the ones before it leave.
-/

namespace Coherent

/-- An access of the location: a store, or one that finds a value and may write another. -/
inductive Access (V R : Type*) where
  | store (v : V) (r : R)
  | update (write : V → Option V) (result : V → R)

/-- The access of a location that holds `x`: what the location holds after it, and the result. -/
def Access.apply {V R : Type*} : Access V R → V → V × R
  | store v r, _ => (v, r)
  | update write result, x => ((write x).getD x, result x)

/-- The values that the location has held, each at its time. -/
structure Cell (V : Type*) where
  held : ℕ → Option V
  last : ℕ
  held_last : (held last).isSome
  held_beyond : ∀ τ, last < τ → held τ = none

/-- An access in its place: at the time of the value that it has found or, when it `wrote`, of the value
that it has written. -/
structure Done (T ι V R : Type*) where
  thread : T
  call : ι
  access : Access V R
  result : R
  time : ℕ
  wrote : Bool

/-- A value is written before it is found. -/
def Done.rank {T ι V R : Type*} (e : Done T ι V R) : ℕ := 2 * e.time + if e.wrote then 0 else 1

/-- The location, the time that each thread has come to, and the accesses as they were made. -/
structure Register (T ι V R : Type*) where
  cell : Cell V
  view : T → ℕ
  log : List (Done T ι V R)

namespace Cell

variable {V : Type*}

def new (v : V) : Cell V where
  held τ := if τ = 0 then some v else none
  last := 0
  held_last := rfl
  held_beyond _ h := if_neg h.ne'

/-- The value that no other has replaced. -/
def value (c : Cell V) : V := (c.held c.last).get c.held_last

def put (c : Cell V) (τ : ℕ) (v : V) : Cell V where
  held := Function.update c.held τ (some v)
  last := max c.last τ
  held_last := by
    by_cases h : max c.last τ = τ
    · rw [h, Function.update_self]
      rfl
    · rw [Function.update_of_ne h, (max_choice c.last τ).resolve_right h]
      exact c.held_last
  held_beyond σ h := by
    obtain ⟨hlast, hτ⟩ := max_lt_iff.mp h
    rw [Function.update_of_ne hτ.ne']
    exact c.held_beyond σ hlast

theorem held_value (c : Cell V) : c.held c.last = some c.value := (Option.some_get _).symm

/-- The time of a value that none is later than. -/
theorem value_of_held {c : Cell V} {τ : ℕ} {x : V} (h : c.held τ = some x)
    (hlast : ∀ σ, τ < σ → c.held σ = none) : c.value = x := by
  rcases lt_trichotomy τ c.last with hlt | heq | hgt
  · cases (hlast _ hlt).symm.trans c.held_value
  · rw [heq] at h
    exact Option.some.inj (c.held_value.symm.trans h)
  · cases (c.held_beyond _ hgt).symm.trans h

@[simp] theorem put_held_self (c : Cell V) (τ : ℕ) (v : V) : (c.put τ v).held τ = some v :=
  Function.update_self ..

theorem put_held_of_ne (c : Cell V) {τ σ : ℕ} (v : V) (h : σ ≠ τ) :
    (c.put τ v).held σ = c.held σ :=
  Function.update_of_ne h ..

end Cell

section Step

variable {T ι V R : Type*} [DecidableEq T]

namespace Register

def new (c : Cell V) : Register T ι V R := ⟨c, fun _ => 0, []⟩

/-- Thread `t` has made an access, whose place is at the time `τ`. -/
def record (s : Register T ι V R) (c : Cell V) (t : T) (i : ι) (a : Access V R) (r : R) (τ : ℕ)
    (wrote : Bool) : Register T ι V R where
  cell := c
  view := Function.update s.view t τ
  log := s.log ++ [⟨t, i, a, r, τ, wrote⟩]

/-- Thread `t` makes the access `a`; `τ` is where it stores, or where what it finds stands. -/
def perform (s : Register T ι V R) (t : T) (i : ι) (a : Access V R) (τ : ℕ) :
    Option (Register T ι V R × R) :=
  match a with
  | .store v r =>
      if s.view t < τ ∧ (s.cell.held τ).isNone then
        some (s.record (s.cell.put τ v) t i a r τ true, r)
      else none
  | .update write result =>
      if s.view t ≤ τ then
        (s.cell.held τ).bind fun x =>
          match write x with
          | none => some (s.record s.cell t i a (result x) τ false, result x)
          | some y =>
              if (s.cell.held (τ + 1)).isNone then
                some (s.record (s.cell.put (τ + 1) y) t i a (result x) (τ + 1) true, result x)
              else none
      else none

variable {s s' : Register T ι V R} {t : T} {i : ι} {a : Access V R} {τ : ℕ} {r : R}

/-- What an access can do. -/
inductive Performed (s : Register T ι V R) (t : T) (i : ι) : Access V R → Register T ι V R → R → Prop
  | store {v : V} {r : R} {τ : ℕ} (hview : s.view t < τ) (hfree : s.cell.held τ = none) :
      Performed s t i (.store v r) (s.record (s.cell.put τ v) t i (.store v r) r τ true) r
  | find {write : V → Option V} {result : V → R} {τ : ℕ} {x : V} (hview : s.view t ≤ τ)
      (hx : s.cell.held τ = some x) (hwrite : write x = none) :
      Performed s t i (.update write result)
        (s.record s.cell t i (.update write result) (result x) τ false) (result x)
  | modify {write : V → Option V} {result : V → R} {τ : ℕ} {x y : V} (hview : s.view t ≤ τ)
      (hx : s.cell.held τ = some x) (hwrite : write x = some y)
      (hfree : s.cell.held (τ + 1) = none) :
      Performed s t i (.update write result)
        (s.record (s.cell.put (τ + 1) y) t i (.update write result) (result x) (τ + 1) true) (result x)

theorem Performed.log (h : Performed s t i a s' r) :
    ∃ e, s'.log = s.log ++ [e] ∧ e.thread = t ∧ e.call = i ∧ e.access = a ∧ e.result = r := by
  cases h <;> exact ⟨_, rfl, rfl, rfl, rfl, rfl⟩

theorem perform_performed (h : s.perform t i a τ = some (s', r)) : Performed s t i a s' r := by
  cases a with
  | store v r' =>
      simp only [perform, Option.isNone_iff_eq_none] at h
      split at h
      · rename_i hif
        cases h
        exact .store hif.1 hif.2
      · cases h
  | update write result =>
      simp only [perform, Option.isNone_iff_eq_none] at h
      split at h
      · rename_i hview
        obtain ⟨x, hx, h⟩ := Option.bind_eq_some_iff.mp h
        split at h
        · rename_i hwrite
          cases h
          exact .find hview hx hwrite
        · rename_i y hwrite
          split at h
          · rename_i hfree
            cases h
            exact .modify hview hx hwrite hfree
          · cases h
      · cases h

end Register

end Step

section Order

variable {T ι V R : Type*}

/-- What an access has found and written stands in the location. -/
inductive Done.Explained (c : Cell V) : Done T ι V R → Prop
  | store {t : T} {i : ι} {v : V} {r : R} {τ : ℕ} (hv : c.held τ = some v) :
      Explained c ⟨t, i, .store v r, r, τ, true⟩
  | find {t : T} {i : ι} {write : V → Option V} {result : V → R} {τ : ℕ} {x : V}
      (hx : c.held τ = some x) (hwrite : write x = none) :
      Explained c ⟨t, i, .update write result, result x, τ, false⟩
  | modify {t : T} {i : ι} {write : V → Option V} {result : V → R} {τ : ℕ} {x y : V}
      (hx : c.held τ = some x) (hwrite : write x = some y) (hy : c.held (τ + 1) = some y) :
      Explained c ⟨t, i, .update write result, result x, τ + 1, true⟩

/-- `d` stands no later than `e`. -/
def Done.NotLater (d e : Done T ι V R) : Prop := d.rank ≤ e.rank

instance : DecidableRel (@Done.NotLater T ι V R) :=
  fun d e => inferInstanceAs (Decidable (d.rank ≤ e.rank))

instance : Std.Total (@Done.NotLater T ι V R) :=
  ⟨fun d e => Nat.le_total d.rank e.rank⟩

instance : IsTrans (Done T ι V R) Done.NotLater := ⟨fun _ _ _ => Nat.le_trans⟩

/-- Two accesses have not written at the same time. -/
def Done.Apart (d e : Done T ι V R) : Prop := d.wrote = true → e.wrote = true → d.time ≠ e.time

theorem Done.Apart.symm {d e : Done T ι V R} (h : d.Apart e) : e.Apart d :=
  fun he hd heq => h hd he heq.symm

/-- The accesses `es`, one after the other, take the value `v` to `w` and give the results that they
have given. -/
def Replays : V → List (Done T ι V R) → V → Prop
  | v, [], w => v = w
  | v, e :: es, w => e.result = (e.access.apply v).2 ∧ Replays (e.access.apply v).1 es w

/-- Values are only ever added. -/
def Cell.Grows (c c' : Cell V) : Prop := ∀ σ x, c.held σ = some x → c'.held σ = some x

theorem Cell.grows_put {c : Cell V} {τ : ℕ} (v : V) (hfree : c.held τ = none) : c.Grows (c.put τ v) := by
  intro σ x hx
  rw [c.put_held_of_ne v fun heq => by cases hfree.symm.trans (heq ▸ hx)]
  exact hx

theorem Done.Explained.mono {c c' : Cell V} {e : Done T ι V R} (h : e.Explained c) (hc : c.Grows c') :
    e.Explained c' := by
  cases h with
  | store hv => exact .store (hc _ _ hv)
  | find hx hwrite => exact .find (hc _ _ hx) hwrite
  | modify hx hwrite hy => exact .modify (hc _ _ hx) hwrite (hc _ _ hy)

theorem Done.Explained.held_ne_none {c : Cell V} {e : Done T ι V R} (h : e.Explained c)
    (hwrote : e.wrote = true) : c.held e.time ≠ none := by
  cases h with
  | store hv => simp [hv]
  | find => cases hwrote
  | modify _ _ hy => simp [hy]

@[simp] theorem Done.rank_mk (t : T) (i : ι) (a : Access V R) (r : R) (τ : ℕ) (wrote : Bool) :
    (Done.mk t i a r τ wrote).rank = 2 * τ + if wrote then 0 else 1 := rfl

theorem Done.rank_le (e : Done T ι V R) : e.rank ≤ 2 * e.time + 1 := by
  unfold rank
  split <;> omega

theorem Done.rank_of_wrote {e : Done T ι V R} (h : e.wrote = true) : e.rank = 2 * e.time := by
  simp [rank, h]

theorem Done.wrote_of_rank {e : Done T ι V R} {τ : ℕ} (h : e.rank = 2 * τ) :
    e.wrote = true ∧ e.time = τ := by
  unfold rank at h
  cases hwrote : e.wrote with
  | true =>
      rw [hwrote, if_pos rfl] at h
      exact ⟨rfl, by omega⟩
  | false =>
      rw [hwrote, if_neg (by simp)] at h
      omega

/-- The accesses `es`, sorted by their places, are all that comes after the value held at `τ`. -/
structure After (c : Cell V) (τ : ℕ) (es : List (Done T ι V R)) : Prop where
  sorted : es.Pairwise Done.NotLater
  apart : es.Pairwise Done.Apart
  explained : ∀ e ∈ es, e.Explained c
  later : ∀ e ∈ es, 2 * τ < e.rank
  written : ∀ σ, τ < σ → c.held σ ≠ none → ∃ e ∈ es, e.wrote = true ∧ e.time = σ

variable {c : Cell V} {τ σ : ℕ} {x : V} {e : Done T ι V R} {es : List (Done T ι V R)}

/-- What the first access finds is the value held at `τ`: no later one has written it. -/
theorem After.found (h : After c τ (e :: es)) (hx : c.held σ = some x) (hτ : τ ≤ σ)
    (hσ : 2 * σ < e.rank) : σ = τ := by
  by_contra hne
  obtain ⟨d, hd, hwrote, htime⟩ := h.written σ (by omega) (by simp [hx])
  have hle : e.rank ≤ d.rank := by
    rcases List.mem_cons.mp hd with rfl | hd
    · exact le_rfl
    · exact List.rel_of_pairwise_cons h.sorted hd
  rw [Done.rank_of_wrote hwrote, htime] at hle
  omega

theorem After.skip (h : After c τ (e :: es)) (he : e.wrote = false) : After c τ es where
  sorted := h.sorted.of_cons
  apart := h.apart.of_cons
  explained d hd := h.explained d (List.mem_cons_of_mem _ hd)
  later d hd := h.later d (List.mem_cons_of_mem _ hd)
  written σ hσ hne := by
    obtain ⟨d, hd, hwrote, htime⟩ := h.written σ hσ hne
    rcases List.mem_cons.mp hd with rfl | hd
    · cases he.symm.trans hwrote
    · exact ⟨d, hd, hwrote, htime⟩

/-- Once the first access has written, the others come after what it has written. -/
theorem After.wrote (h : After c τ (e :: es)) (he : e.wrote = true) : After c e.time es where
  sorted := h.sorted.of_cons
  apart := h.apart.of_cons
  explained d hd := h.explained d (List.mem_cons_of_mem _ hd)
  later d hd := by
    have hle : e.rank ≤ d.rank := List.rel_of_pairwise_cons h.sorted hd
    rw [Done.rank_of_wrote he] at hle
    refine lt_of_le_of_ne hle fun heq => ?_
    obtain ⟨hwrote, htime⟩ := Done.wrote_of_rank heq.symm
    exact List.rel_of_pairwise_cons h.apart hd he hwrote htime.symm
  written σ hσ hne := by
    have hlater := h.later e List.mem_cons_self
    rw [Done.rank_of_wrote he] at hlater
    obtain ⟨d, hd, hwrote, htime⟩ := h.written σ (by omega) hne
    rcases List.mem_cons.mp hd with rfl | hd
    · omega
    · exact ⟨d, hd, hwrote, htime⟩

/-- Sorted by their places, the accesses begin at the value that they come after and end at the last
one. -/
theorem After.replays (h : After c τ es) (hx : c.held τ = some x) : Replays x es c.value := by
  induction es generalizing τ x with
  | nil =>
      refine (Cell.value_of_held hx fun σ hσ => ?_).symm
      by_contra hne
      obtain ⟨e, he, -⟩ := h.written σ hσ hne
      cases he
  | cons e es ih =>
      have hlater := h.later e List.mem_cons_self
      cases h.explained e List.mem_cons_self with
      | store hy => exact ⟨rfl, ih (h.wrote rfl) hy⟩
      | find hy hwrite =>
          rw [Done.rank_mk, if_neg (by simp)] at hlater
          obtain rfl := h.found hy (by omega) (by simp)
          obtain rfl := Option.some.inj (hy.symm.trans hx)
          refine ⟨rfl, ?_⟩
          rw [Access.apply, hwrite]
          exact ih (h.skip rfl) hx
      | modify hy hwrite hz =>
          rw [Done.rank_mk, if_pos rfl] at hlater
          obtain rfl := h.found hy (by omega) (by simp)
          obtain rfl := Option.some.inj (hy.symm.trans hx)
          refine ⟨rfl, ?_⟩
          rw [Access.apply, hwrite]
          exact ih (h.wrote rfl) hz

namespace Register

/-- What holds of a register that began with `v`. -/
structure Inv (v : V) (s : Register T ι V R) : Prop where
  first : s.cell.held 0 = some v
  explained : ∀ e ∈ s.log, e.Explained s.cell
  apart : s.log.Pairwise Done.Apart
  later : ∀ e ∈ s.log, 0 < e.rank
  written : ∀ σ, 0 < σ → s.cell.held σ ≠ none → ∃ e ∈ s.log, e.wrote = true ∧ e.time = σ
  seen : ∀ e ∈ s.log, e.time ≤ s.view e.thread
  program : s.log.Pairwise fun d e => d.thread = e.thread → d.NotLater e

/-- The accesses in one order, with each thread's own in the order in which it made them. -/
theorem Inv.exists_order [DecidableEq T] {v : V} {s : Register T ι V R} (h : s.Inv v) :
    ∃ order : List (Done T ι V R), order.Perm s.log ∧
      (∀ t, (s.log.filter fun e => e.thread = t).Sublist order) ∧ Replays v order s.cell.value := by
  have hperm := List.perm_insertionSort Done.NotLater s.log
  refine ⟨s.log.insertionSort Done.NotLater, hperm, fun t => ?_, After.replays ⟨?_, ?_, ?_, ?_, ?_⟩ h.first⟩
  · refine List.sublist_insertionSort ?_ List.filter_sublist
    refine (List.pairwise_filter.mpr ?_)
    refine h.program.imp fun {d e} hle hd he => ?_
    exact hle ((of_decide_eq_true hd).trans (of_decide_eq_true he).symm)
  · exact List.pairwise_insertionSort Done.NotLater s.log
  · exact (hperm.pairwise_iff fun {_ _} => Done.Apart.symm).mpr h.apart
  · exact fun e he => h.explained e (hperm.mem_iff.mp he)
  · exact fun e he => h.later e (hperm.mem_iff.mp he)
  · intro σ hσ hne
    obtain ⟨e, he, hwrote⟩ := h.written σ hσ hne
    exact ⟨e, hperm.mem_iff.mpr he, hwrote⟩

theorem inv_new (v : V) : (new (Cell.new v) : Register T ι V R).Inv v where
  first := rfl
  explained _ h := by cases h
  apart := .nil
  later _ h := by cases h
  written σ hσ hne := (hne (if_neg hσ.ne')).elim
  seen _ h := by cases h
  program := .nil

variable [DecidableEq T] {v : V} {s s' : Register T ι V R} {t : T} {i : ι} {a : Access V R} {r : R}

theorem Inv.record {wrote : Bool} (h : s.Inv v) (hgrows : s.cell.Grows c)
    (hadds : ∀ σ, c.held σ ≠ none → s.cell.held σ ≠ none ∨ wrote = true ∧ τ = σ)
    (hexp : (Done.mk t i a r τ wrote).Explained c) (hview : s.view t ≤ τ)
    (hnew : wrote = true → s.view t < τ ∧ s.cell.held τ = none) :
    (s.record c t i a r τ wrote).Inv v where
  first := hgrows _ _ h.first
  explained e he := by
    rcases List.mem_append.mp he with he | he
    · exact (h.explained e he).mono hgrows
    · exact List.mem_singleton.mp he ▸ hexp
  apart := by
    refine List.pairwise_append.mpr ⟨h.apart, List.pairwise_singleton .., fun d hd e he => ?_⟩
    obtain rfl := List.mem_singleton.mp he
    intro hdw hw heq
    exact (h.explained d hd).held_ne_none hdw (heq ▸ (hnew hw).2)
  later e he := by
    rcases List.mem_append.mp he with he | he
    · exact h.later e he
    · obtain rfl := List.mem_singleton.mp he
      rw [Done.rank_mk]
      split
      · rename_i hw
        have := (hnew hw).1
        omega
      · omega
  written σ hσ hne := by
    rcases hadds σ hne with hold | ⟨hw, hτ⟩
    · obtain ⟨e, he, hwrote⟩ := h.written σ hσ hold
      exact ⟨e, List.mem_append_left _ he, hwrote⟩
    · exact ⟨_, List.mem_append_right _ List.mem_cons_self, hw, hτ⟩
  seen e he := by
    change e.time ≤ Function.update s.view t τ e.thread
    rw [Function.update_apply]
    rcases List.mem_append.mp he with he | he
    · have hle := h.seen e he
      split
      · rename_i ht
        rw [ht] at hle
        exact hle.trans hview
      · exact hle
    · obtain rfl := List.mem_singleton.mp he
      rw [if_pos rfl]
  program := by
    refine List.pairwise_append.mpr ⟨h.program, List.pairwise_singleton .., fun d hd e he ht => ?_⟩
    obtain rfl := List.mem_singleton.mp he
    have ht : d.thread = t := ht
    have hle : d.time ≤ s.view t := ht ▸ h.seen d hd
    have hd := d.rank_le
    change d.rank ≤ 2 * τ + if wrote then 0 else 1
    split
    · rename_i hw
      have hlt := (hnew hw).1
      omega
    · omega

theorem adds_put {c : Cell V} {y : V} (hne : (c.put τ y).held σ ≠ none) :
    c.held σ ≠ none ∨ true = true ∧ τ = σ := by
  by_cases hσ : σ = τ
  · exact .inr ⟨rfl, hσ.symm⟩
  · exact .inl (by rwa [c.put_held_of_ne y hσ] at hne)

/-- One access keeps the invariant. -/
theorem Inv.performed (h : s.Inv v) (hp : Performed s t i a s' r) : s'.Inv v := by
  cases hp with
  | store hview hfree =>
      exact h.record (Cell.grows_put _ hfree) (fun σ => adds_put) (.store (Cell.put_held_self ..))
        hview.le fun _ => ⟨hview, hfree⟩
  | find hview hx hwrite =>
      exact h.record (fun _ _ => id) (fun σ => .inl) (.find hx hwrite) hview fun hw => by cases hw
  | modify hview hx hwrite hfree =>
      exact h.record (Cell.grows_put _ hfree) (fun σ => adds_put)
        (.modify (Cell.grows_put _ hfree _ _ hx) hwrite (Cell.put_held_self ..)) (by omega)
        fun _ => ⟨by omega, hfree⟩

end Register

end Order

end Coherent
