import Pysync.ChannelReport

/-!
Timeouts on their way to `Duration::from_secs_f64`. `send` and `recv` guard the conversion with a
comparison and `select` with `max`; the one lets a NaN through, and neither looks at the upper end.
-/

namespace Pysync.Channel
open Queue Transition

namespace PyFloat

/-- What becomes of a timeout, in `select` or in `send` and `recv`. -/
def convert (bySelect : Bool) (t : PyFloat) : PyResult ℚ :=
  if bySelect then t.max0.fromSecs else t.check

/-- The timeouts that the guard is enough for. -/
def fits (bySelect : Bool) : PyFloat → Bool
  | nan => bySelect
  | inf => false
  | negInf => true
  | fin q => q < 2 ^ 64

/-- The timeout is refused, or it is one that a `Duration` can hold. -/
def Handled (r : PyResult ℚ) : Prop :=
  r = .error (.valueError "Timeout must be non-negative") ∨ ∃ q, r = .ok q ∧ 0 ≤ q ∧ q < 2 ^ 64

theorem not_handled_panic : ¬ Handled (.error .panic) := by
  rintro (h | ⟨q, h, -⟩) <;> cases h

theorem fromSecs_fin {q : ℚ} (hq : 0 ≤ q) :
    (q < 2 ^ 64 ∧ Handled (fin q).fromSecs) ∨ (¬ q < 2 ^ 64 ∧ (fin q).fromSecs = .error .panic) := by
  by_cases hlt : q < 2 ^ 64
  · refine .inl ⟨hlt, .inr ⟨q, ?_, hq, hlt⟩⟩
    rw [fromSecs, if_pos ⟨hq, hlt⟩]
  · refine .inr ⟨hlt, ?_⟩
    rw [fromSecs, if_neg fun h => hlt h.2]

/-- The conversion panics on the timeouts that do not fit, and on no others. -/
theorem convert_cases (bySelect : Bool) (t : PyFloat) :
    (t.fits bySelect = true ∧ Handled (t.convert bySelect)) ∨
      (t.fits bySelect = false ∧ t.convert bySelect = .error .panic) := by
  have hzero : Handled (fin 0).fromSecs := .inr ⟨0, by simp [fromSecs], le_rfl, pow_pos two_pos 64⟩
  cases t with
  | nan => cases bySelect with
    | true => exact .inl ⟨rfl, hzero⟩
    | false => exact .inr ⟨rfl, rfl⟩
  | inf => cases bySelect <;> exact .inr ⟨rfl, rfl⟩
  | negInf => cases bySelect with
    | true => exact .inl ⟨rfl, hzero⟩
    | false => exact .inl ⟨rfl, .inl rfl⟩
  | fin q =>
      have hsecs : ∀ b, (fin q).convert b = (fin (max q 0)).fromSecs ∨
          (q < 0 ∧ (fin q).convert b = .error (.valueError "Timeout must be non-negative")) := by
        intro b
        cases b with
        | true => exact .inl rfl
        | false =>
            by_cases hneg : q < 0
            · exact .inr ⟨hneg, by simp [convert, check, isNegative, hneg]⟩
            · rw [max_eq_left (not_lt.mp hneg)]
              exact .inl (by simp [convert, check, isNegative, hneg])
      have hbound : (0 : ℚ) < 2 ^ 64 := pow_pos two_pos 64
      rcases hsecs bySelect with h | ⟨hneg, h⟩
      · rw [h]
        rcases fromSecs_fin (le_max_right q 0) with ⟨hlt, hok⟩ | ⟨hge, hpanic⟩
        · exact .inl ⟨decide_eq_true ((le_max_left q 0).trans_lt hlt), hok⟩
        · refine .inr ⟨decide_eq_false fun hlt => hge (max_lt hlt hbound), hpanic⟩
      · rw [h]
        exact .inl ⟨decide_eq_true (hneg.trans hbound), .inl rfl⟩

theorem handled_iff (bySelect : Bool) (t : PyFloat) :
    Handled (t.convert bySelect) ↔ t.fits bySelect = true := by
  rcases t.convert_cases bySelect with ⟨hfits, hok⟩ | ⟨hfits, hpanic⟩
  · exact iff_of_true hok hfits
  · rw [hpanic, hfits]
    exact iff_of_false not_handled_panic (by simp)

theorem convert_panic {bySelect : Bool} {t : PyFloat} (h : t.convert bySelect = .error .panic) :
    t.fits bySelect = false := by
  rcases t.convert_cases bySelect with ⟨-, hok⟩ | ⟨hfits, -⟩
  · exact (not_handled_panic (h ▸ hok)).elim
  · exact hfits

theorem convert_of_not_fits {bySelect : Bool} {t : PyFloat} (h : t.fits bySelect ≠ true) :
    t.convert bySelect = .error .panic := by
  rcases t.convert_cases bySelect with ⟨hfits, -⟩ | ⟨-, hpanic⟩
  · exact (h hfits).elim
  · exact hpanic

end PyFloat

open PyFloat

/-- A timeout that panics is one that does not fit. -/
theorem checkTimeout_panic {timeout : Option PyFloat} (h : checkTimeout timeout = .error .panic) :
    ∃ t, timeout = some t ∧ t.convert false = .error .panic := by
  cases timeout with
  | none => cases h
  | some t =>
      refine ⟨t, rfl, ?_⟩
      simp only [checkTimeout] at h
      cases hcheck : t.check with
      | ok q =>
          rw [hcheck] at h
          cases h
      | error e =>
          rw [hcheck] at h
          cases h
          exact hcheck

theorem checkTimeout_of_convert {t : PyFloat} (h : t.convert false = .error .panic) :
    checkTimeout (some t) = .error .panic := by
  have hcheck : t.check = .error .panic := h
  simp only [checkTimeout, hcheck]
  rfl

variable {Ch C T : Type} [DecidableEq Ch] [DecidableEq C]
variable {s t : State Ch C T} {a : Act Ch C T} {c : C} {chan chan' : Ch → Chan C C T}
variable {m m' : Method Ch C T} {ops : List (Operand Ch C T)} {timeout : Option PyFloat}
variable {capacity : Ch → Option ℕ} {as : List (Act Ch C T)}

/-- In the step `a` a call looks at its timeout: past its first section if it is a `send` or a `recv`,
and with its operations parsed if it is a `select`. -/
inductive LooksAt (s : State Ch C T) : Act Ch C T → Bool → PyFloat → Prop
  | send {c : C} {x : Ch} {item : T} {t : PyFloat} {arm : Arm}
      (hc : s.calls c = .run (.send x item (some t)) (.send .arm)) : LooksAt s (.step c arm) false t
  | recv {c : C} {x : Ch} {t : PyFloat} {arm : Arm}
      (hc : s.calls c = .run (.recv x (some t)) (.recv .arm)) : LooksAt s (.step c arm) false t
  | select {c : C} {ops : List (Operand Ch C T)} {t : PyFloat} {parsed : List (OpType Ch T)}
      (hops : ops ≠ []) (hparsed : parseOps ops = some parsed) :
      LooksAt s (.invoke c (.select ops (some t))) true t

/-- If the step looks at a timeout, the guard before the conversion is enough for it. -/
def TimeoutFits (s : State Ch C T) (a : Act Ch C T) : Prop := ∀ b t, LooksAt s a b t → t.fits b = true

/-- If the step looks at a timeout, the timeout is refused, or a `Duration` can hold it. -/
def TimeoutHandled (s : State Ch C T) (a : Act Ch C T) : Prop :=
  ∀ b t, LooksAt s a b t → Handled (t.convert b)

/-- No call has panicked. -/
def NoPanic (s : State Ch C T) : Prop := ∀ c m, (s.calls c).failure ≠ some (m, .panic)

/-- A call that settles on a panic looks at a timeout that does not fit. -/
theorem Fails.panic {pc : Pc Ch T} {arm : Arm} (h : Fails s c m pc .panic)
    (hc : s.calls c = .run m pc) : ∃ b t, LooksAt s (.step c arm) b t ∧ t.fits b = false := by
  generalize he : PyErr.panic = e at h
  cases h with
  | send hstep =>
      cases hstep.fails with
      | rejected htimeout =>
          subst he
          obtain ⟨t, rfl, ht⟩ := checkTimeout_panic htimeout
          exact ⟨false, t, .send hc, convert_panic ht⟩
      | closed => cases he
      | timedOut => cases he
  | refused => cases he
  | recv hstep =>
      cases hstep with
      | rejected htimeout =>
          subst he
          obtain ⟨t, rfl, ht⟩ := checkTimeout_panic htimeout
          exact ⟨false, t, .recv hc, convert_panic ht⟩
      | _ => cases he
  | next hstep =>
      cases hstep with
      | rejected htimeout => cases htimeout
      | _ => cases he
  | trySend hstep => cases hstep <;> cases he
  | tryRecv hstep => cases hstep <;> cases he
  | sendOp => cases he
  | select hstep hr =>
      subst he
      rename_i r _
      cases r <;> cases hr

theorem selectParse_panic (h : selectParse chan c ops timeout = (chan', .ret (.error .panic))) :
    ∃ t parsed, timeout = some t ∧ ops ≠ [] ∧ parseOps ops = some parsed ∧ t.fits true = false := by
  unfold selectParse at h
  split at h
  · cases h
  rename_i hops
  split at h
  · cases h
  rename_i parsed hparsed
  split at h
  · rename_i e he
    cases h
    obtain ⟨t, ht, hpanic⟩ := Option.map_eq_some_iff.mp he
    exact ⟨t, parsed, ht, by simpa using hops, hparsed, convert_panic hpanic⟩
  · cases h

theorem selectParse_of_convert {t : PyFloat} {parsed : List (OpType Ch T)} (hops : ops ≠ [])
    (hparsed : parseOps ops = some parsed) (ht : t.convert true = .error .panic) :
    selectParse chan c ops (some t) = (chan, .ret (.error .panic)) := by
  have hsecs : t.max0.fromSecs = .error .panic := ht
  unfold selectParse
  rw [if_neg (by simpa using hops), hparsed]
  simp only [Option.map_some, hsecs]

variable [DecidableEq T]

/-- A step on which every timeout fits brings no panic. -/
theorem NoPanic.next (h : NoPanic s) (hfits : ∀ b t, LooksAt s a b t → t.fits b = true)
    (hn : next s a = some t) : NoPanic t := by
  intro c m hpanic
  cases next_moves hn c with
  | stays hsame => exact h c m (hsame ▸ hpanic)
  | begins h₀ ht hstart hk =>
      rw [hk] at hpanic
      cases hstart with
      | selectErr =>
          cases hpanic
          rw [ht] at hk
          obtain ⟨chan', hparse⟩ := start_select_done hk
          obtain ⟨τ, parsed, rfl, hops, hparsed, hnot⟩ := selectParse_panic hparse
          cases hnot.symm.trans (hfits true τ (.select hops hparsed))
      | _ => cases hpanic
  | steps h₀ hstep hchan hk =>
      rw [hk] at hpanic
      obtain ⟨rfl, hfail | hold | ⟨x, e', -, hstop, -⟩⟩ := hstep.fails hpanic
      · obtain ⟨b, τ, hlooks, hnot⟩ := hfail.panic h₀
        cases hnot.symm.trans (hfits b τ hlooks)
      · exact h c _ (by rw [h₀, hold])
      · cases hstop
  | offers h₀ hoffer hk =>
      rw [hk] at hpanic
      cases hoffer <;> cases hpanic
  | wants h₀ hwant hk =>
      rw [hk] at hpanic
      cases hwant <;> cases hpanic

/-- A call that looks at a timeout that does not fit panics. -/
theorem fits_of_noPanic {b : Bool} {τ : PyFloat} (ht : NoPanic t) (hlooks : LooksAt s a b τ)
    (hn : next s a = some t) : τ.fits b = true := by
  by_contra hnot
  have hpanic := convert_of_not_fits hnot
  cases hlooks with
  | send hc =>
      rename_i c x item arm
      obtain ⟨m, pc, chan', k, hc', hstep, rfl⟩ := next_step hn
      obtain ⟨rfl, rfl⟩ := Call.run.inj (hc.symm.trans hc')
      have hfail := ht c (.send x item (some τ))
      rw [State.calls_setCall_self] at hfail
      cases hstep with
      | sendGoto hstep =>
          cases hstep with
          | accepted hpc => rcases hpc with hpc | hpc <;> cases hpc
          | armed htimeout => cases htimeout.symm.trans (checkTimeout_of_convert hpanic)
          | rejected htimeout =>
              cases htimeout.symm.trans (checkTimeout_of_convert hpanic)
              exact hfail rfl
      | sendRet hstep => cases hstep
  | recv hc =>
      rename_i c x arm
      obtain ⟨m, pc, chan', k, hc', hstep, rfl⟩ := next_step hn
      obtain ⟨rfl, rfl⟩ := Call.run.inj (hc.symm.trans hc')
      have hfail := ht c (.recv x (some τ))
      rw [State.calls_setCall_self] at hfail
      cases hstep with
      | recvGoto hstep =>
          cases hstep with
          | armed htimeout => cases htimeout.symm.trans (checkTimeout_of_convert hpanic)
      | recvRet hstep =>
          cases hstep with
          | received hpc => exact hpc rfl
          | rejected htimeout =>
              cases htimeout.symm.trans (checkTimeout_of_convert hpanic)
              exact hfail rfl
  | select hops hparsed =>
      rename_i c ops parsed
      have hfail := ht c (.select ops (some τ))
      obtain ⟨h₀, husable, -⟩ := next_invoke hn
      simp only [next, h₀, husable, if_pos, Option.some.injEq] at hn
      rw [← hn, State.start, selectParse_of_convert hops hparsed hpanic, State.resume,
        State.calls_setCall_self] at hfail
      exact hfail rfl

/-- In every run: no call panics, and every timeout that a call looks at is refused or held by a
`Duration`, if and only if the guard is enough for every such timeout. -/
theorem noPanic_iff (capacity : Ch → Option ℕ) (as : List (Act Ch C T)) (s : State Ch C T)
    (hrun : Run next (State.init capacity) as s) :
    ((∀ u, Visits next (State.init capacity) as u → NoPanic u) ↔
      RunWith next TimeoutFits (State.init capacity) as s) ∧
    (RunWith next TimeoutHandled (State.init capacity) as s ↔
      RunWith next TimeoutFits (State.init capacity) as s) := by
  constructor
  · have hiff := always_iff_runWith (P := TimeoutFits) (Q := NoPanic)
      (fun c m => by simp [State.init, Call.failure])
      (fun as s a t _ hs _ hn => ⟨fun hfits => hs.next hfits hn,
        fun ht b τ hlooks => fits_of_noPanic ht hlooks hn⟩) hrun
    simpa only [true_and] using hiff
  · have hiff : (TimeoutHandled : State Ch C T → Act Ch C T → Prop) = TimeoutFits := by
      funext s a
      simp only [TimeoutHandled, TimeoutFits, handled_iff]
    rw [hiff]

/-- A `recv` with a NaN. -/
def nanTrace : List (Act Unit ℕ ℕ) :=
  [.invoke 0 (.recv () (some .nan)), .step 0 .go]

theorem nanTrace_exec :
    (exec next (fun _ _ => True) (State.init fun _ => none) nanTrace).map
      (fun s => decide (s.calls 0 = .done (.recv () (some .nan)) (.error .panic))) = some true := by
  decide +kernel

/-- The NaN does not fit, and the call panics. -/
theorem noPanic_iff_nanTrace :
    ∃ s : State Unit ℕ ℕ, Run next (State.init fun _ => none) nanTrace s ∧
      ¬ RunWith next TimeoutFits (State.init fun _ => none) nanTrace s := by
  obtain ⟨s, hrun, hs⟩ := exists_runWith_of_exec nanTrace_exec
  have hdone := of_decide_eq_true hs
  refine ⟨s, hrun, fun hfits => ?_⟩
  refine (noPanic_iff (fun _ => none) nanTrace s hrun).1.mpr hfits s hrun.visits_self 0
    (.recv () (some .nan)) ?_
  rw [hdone]
  rfl

/-- Some timeouts crash a call. -/
theorem not_always_noPanic :
    ¬ ∀ (Ch C T : Type) [DecidableEq Ch] [DecidableEq C] [DecidableEq T] (capacity : Ch → Option ℕ)
      (as : List (Act Ch C T)) (s : State Ch C T), Run next (State.init capacity) as s → NoPanic s := by
  intro h
  obtain ⟨s, hrun, hs⟩ := exists_runWith_of_exec nanTrace_exec
  have hdone := of_decide_eq_true hs
  refine h Unit ℕ ℕ (fun _ => none) nanTrace s hrun 0 (.recv () (some .nan)) ?_
  rw [hdone]
  rfl

end Pysync.Channel
