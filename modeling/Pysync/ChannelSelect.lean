import Pysync.ChannelDelivery

/-!
A `select` performs the operation it reports and no other. Two handles are registered for each
operation; the two maps lead the index that `Select` chose back to the operation and the handle it
stands for, so that every chosen operation is completed on its own channel.
-/

namespace Pysync.Channel
open Queue Transition

section Handles

variable {Ch T : Type}

/-- What a `Select` watches. -/
inductive Handle (Ch : Type) where
  | recv (x : Ch)
  | send (x : Ch)
  | closeRx (x : Ch)
  deriving DecidableEq

def OpType.handle : OpType Ch T → Handle Ch
  | recv x => .recv x
  | send x _ => .send x

/-- The handles in the order in which `select` registers them. -/
def handles (parsed : List (OpType Ch T)) : List (Handle Ch) :=
  parsed.flatMap fun op => [op.handle, .closeRx op.chan]

/-- The handle with which `select` completes the operation that `Select` chose. -/
def completion (parsed : List (OpType Ch T)) (selectIdx : ℕ) : Option (Handle Ch) :=
  let reg := register parsed
  match reg.closeOpMap selectIdx with
  | some (opIdx, _) => (parsed[opIdx]?).map fun op => .closeRx op.chan
  | none => match reg.mainOpMap selectIdx with
      | some opIdx => (parsed[opIdx]?).map OpType.handle
      | none => none

theorem handles_length (parsed : List (OpType Ch T)) :
    (handles parsed).length = 2 * parsed.length := by
  simp [handles, Nat.mul_comm]

theorem handles_getElem (parsed : List (OpType Ch T)) (j : ℕ) :
    (handles parsed)[j]? = (parsed[j / 2]?).map fun op =>
      if j % 2 = 0 then op.handle else .closeRx op.chan := by
  induction parsed generalizing j with
  | nil => rfl
  | cons op parsed ih =>
      rw [handles, List.flatMap_cons, ← handles]
      match j with
      | 0 => rfl
      | 1 => rfl
      | j + 2 =>
          have hdiv : (j + 2) / 2 = j / 2 + 1 := by omega
          have hmod : (j + 2) % 2 = j % 2 := by omega
          rw [hdiv, hmod, List.getElem?_cons_succ, ← ih]
          rfl

/-- The index that `Select` chose is completed with the handle registered under it. -/
theorem completion_eq (parsed : List (OpType Ch T)) (j : ℕ) :
    completion parsed j = (handles parsed)[j]? := by
  obtain ⟨-, hmain, hclose⟩ := register_spec parsed
  rw [handles_getElem]
  simp only [completion, hmain, hclose]
  by_cases hodd : j % 2 = 1
  · have heven : ¬ j % 2 = 0 := by omega
    rw [if_pos hodd]
    cases hop : parsed[j / 2]? with
    | none => simp [heven]
    | some op => simp [hop, heven]
  · have heven : j % 2 = 0 := by omega
    rw [if_neg hodd]
    by_cases hlt : j / 2 < parsed.length
    · simp [heven, hlt]
    · simp [heven, hlt]

theorem register_count (parsed : List (OpType Ch T)) :
    (register parsed).count = (handles parsed).length := by
  rw [(register_spec parsed).1, handles_length]

end Handles

variable {Ch C T : Type}
variable {s₀ s t : State Ch C T} {a : Act Ch C T} {c d : C} {x y : Ch}
variable {chan chan' : Ch → Chan C C T} {k k' : Call Ch C T}
variable {ops : List (Operand Ch C T)} {timeout : Option PyFloat} {parsed parsed' : List (OpType Ch T)}
variable {missed : Finset ℕ} {arm : Arm} {r : SelectResult T}

/-- A parsed send still has its item. -/
theorem item_ne_none (hparse : parseOps ops = some parsed) (i : ℕ) (x : Ch) :
    parsed[i]? ≠ some (OpType.send x none) := by
  intro hop
  obtain ⟨operand, -, hp⟩ := parseOps_getElem hparse hop
  cases operand <;> cases hp

variable [DecidableEq Ch] [DecidableEq C]

/-- Whatever operation `Select` chooses, its index is mapped and its item is there. -/
theorem selectArm_ne {j : ℕ} (hitem : ∀ (i : ℕ) (x : Ch), parsed[i]? ≠ some (OpType.send x none))
    (h : selectArm chan c parsed j = some (chan', .drop parsed' r)) :
    r ≠ .timeout ∧ r ≠ .itemConsumed := by
  obtain ⟨hcount, hmain, hclose⟩ := register_spec parsed
  unfold selectArm at h
  simp only [hcount, hmain, hclose] at h
  split at h
  · cases h
  rename_i hj
  split at h
  · rename_i i isSend hsome
    split at h
    · cases h
    split at h
    · cases h
    · cases isSend <;> cases h
      exact ⟨by simp, by simp⟩
  · rename_i hnone
    split at h
    · rename_i hunmapped
      by_cases hodd : j % 2 = 1
      · rw [if_pos hodd, List.getElem?_eq_getElem (by omega)] at hnone
        cases hnone
      · rw [if_pos ⟨by omega, by omega⟩] at hunmapped
        cases hunmapped
    · split at h
      · cases h
      · split at h
        · cases h
        · cases h
          unfold selectRecv
          split <;> exact ⟨by simp, by simp⟩
      · rename_i hop
        exact (hitem _ _ hop).elim
      · obtain ⟨f, -, hf⟩ := Option.map_eq_some_iff.mp h
        cases hf
        exact ⟨by simp, by simp⟩

/-- A `select` gives up only by its timer, and only when it has found every operation not ready. -/
theorem selectStep_gaveUp (hitem : ∀ (i : ℕ) (x : Ch), parsed[i]? ≠ some (OpType.send x none))
    (hr : r = .timeout ∨ r = .itemConsumed)
    (h : selectStep chan c timeout (.choose parsed missed) arm
      = some (chan', .goto (.drop parsed' r))) :
    r = .timeout ∧ ∀ j < (register parsed).count, j ∈ missed := by
  unfold selectStep at h
  split at h
  · rename_i harg
    cases harg
    obtain ⟨⟨chan₁, pc⟩, harm, hpc⟩ := Option.map_eq_some_iff.mp h
    cases hpc
    obtain ⟨htimeout, hconsumed⟩ := selectArm_ne hitem harm
    rcases hr with rfl | rfl
    · exact (htimeout rfl).elim
    · exact (hconsumed rfl).elim
  · split at h <;> cases h
  · split at h
    · rename_i harg hall
      cases harg
      cases h
      exact ⟨rfl, hall.2⟩
    · cases h
  · rename_i harg
    cases harg
  · rename_i harg
    cases harg
  · cases h

/-- What a step of a `select` that has begun is. -/
theorem next_select [DecidableEq T] {pc : SelectPc Ch T} (hn : next s (.step c arm) = some t)
    (hc : s.calls c = .run (.select ops timeout) (.select pc)) :
    ∃ chan' out, selectStep s.chan c timeout pc arm = some (chan', out) ∧
      t.calls c = match out with
        | .goto pc' => .run (.select ops timeout) (.select pc')
        | .ret r => .done (.select ops timeout) r := by
  simp only [next, hc, stepCall] at hn
  obtain ⟨⟨chan', out⟩, hstep, rfl⟩ := Option.map_eq_some_iff.mp hn
  refine ⟨chan', out, hstep, ?_⟩
  cases out with
  | goto pc' => exact State.calls_setCall_self _ _ _
  | ret r =>
      rw [State.resume, State.calls_setCall_self]
      cases r <;> rfl

/-- A waiting `select` gives up with a timeout, having found every operation not ready. -/
theorem next_gaveUp [DecidableEq T] (hn : next s (.step c arm) = some t)
    (h₀ : s.calls c = .run (.select ops timeout) (.select (.choose parsed missed)))
    (hparse : parseOps ops = some parsed) (hr : r = .timeout ∨ r = .itemConsumed)
    (hc : t.calls c = .run (.select ops timeout) (.select (.drop parsed' r))) :
    r = .timeout ∧ ∀ j < (register parsed).count, j ∈ missed := by
  obtain ⟨chan', out, hsel, hout⟩ := next_select hn h₀
  rw [hc] at hout
  cases out with
  | goto pc =>
      cases hout
      exact selectStep_gaveUp (item_ne_none hparse) hr hsel
  | ret r => cases hout

/-- What `select` raises before it waits. -/
def selectParseErrs : List PyErr :=
  [.valueError "Operations list cannot be empty",
   .typeError "Operations must be of type RecvOp or SendOp", .panic]

theorem selectParse_error {chan' : Ch → Chan C C T} {e : PyErr}
    (h : selectParse chan c ops timeout = (chan', .ret (.error e))) : e ∈ selectParseErrs := by
  unfold selectParse at h
  split at h
  · cases h
    simp [selectParseErrs]
  split at h
  · cases h
    simp [selectParseErrs]
  · split at h
    · rename_i e' he
      cases h
      obtain ⟨t, -, ht⟩ := Option.map_eq_some_iff.mp he
      simp [selectParseErrs, PyFloat.fromSecs_error ht]
    · cases h

/-- A `select` that returns `r` has performed the operation that `r` reports and nothing else. -/
def Performed (s₀ s : State Ch C T) (c : C) (ops : List (Operand Ch C T)) :
    PyResult (Ret T) → Prop
  | .ok (.selected i (some v)) => ∃ x, ops[i]? = some (.recv x) ∧ Gained s₀ s c [] [(x, v)]
  | .ok (.selected i none) => ∃ o x v, ops[i]? = some (.send o x v) ∧ Gained s₀ s c [(x, v)] []
  | .ok _ => False
  | .error _ => Gained s₀ s c [] []

theorem Tracked.performed {r : PyResult (Ret T)} (h : Tracked s₀ s c)
    (hc : s.calls c = .done (.select ops timeout) r) : Performed s₀ s c ops r := by
  cases r with
  | error e => exact h.none (by rw [hc]; rfl)
  | ok ret =>
      have hout : (s.calls c).outcome = some (.select ops timeout, ret) := by rw [hc]; rfl
      have hone := h.coherent.2 _ _ hout
      have hgained := h.gained
      rw [(sent_of_outcome hout).1, (sent_of_outcome hout).2] at hgained
      cases ret with
      | unit => cases hone
      | item v => cases hone
      | op => cases hone
      | selected i v =>
          cases v with
          | none =>
              simp only [Method.sent, Method.received] at hone hgained
              split at hone
              · rename_i o x v hi
                exact ⟨o, x, v, hi, by simpa only [hi] using hgained⟩
              · cases hone
          | some v =>
              simp only [Method.sent, Method.received] at hone hgained
              split at hone
              · rename_i x hi
                exact ⟨x, hi, by simpa only [hi] using hgained⟩
              · cases hone

theorem start_select_done {e : PyErr}
    (h : (s.start c (.select ops timeout)).calls c = .done (.select ops timeout) (.error e)) :
    ∃ chan', selectParse s.chan c ops timeout = (chan', .ret (.error e)) := by
  unfold State.start at h
  dsimp only at h
  cases hp : selectParse s.chan c ops timeout with
  | mk chan' out =>
      rw [hp] at h
      cases out with
      | goto pc =>
          rw [State.resume, State.calls_setCall_self] at h
          cases h
      | ret r =>
          rw [State.resume, State.calls_setCall_self] at h
          cases r with
          | ok v => cases h
          | error e' =>
              cases h
              exact ⟨chan', rfl⟩

theorem start_select_error {e : PyErr}
    (h : (s.start c (.select ops timeout)).calls c = .done (.select ops timeout) (.error e)) :
    e ∈ selectParseErrs := by
  obtain ⟨chan', hp⟩ := start_select_done h
  exact selectParse_error hp

/-- The call has not found the item of a send missing. -/
def Call.Intact (k : Call Ch C T) : Prop :=
  ∀ ops timeout, (∀ parsed, k ≠ .run (.select ops timeout) (.select (.drop parsed .itemConsumed))) ∧
    k ≠ .done (.select ops timeout) (SelectResult.itemConsumed : SelectResult T).toPy

theorem toPy_itemConsumed (h : r.toPy = (SelectResult.itemConsumed : SelectResult T).toPy) :
    r = .itemConsumed := by
  cases r <;> simp_all [SelectResult.toPy]

variable [DecidableEq T]

theorem next_intact (hcoh : (s.calls c).Coherent) (h : (s.calls c).Intact)
    (hn : next s a = some t) : (t.calls c).Intact := by
  intro ops timeout
  cases next_moves hn c with
  | stays hc =>
      rw [hc]
      exact h ops timeout
  | begins h₀ ht hstart hc =>
      rw [hc]
      cases hstart with
      | selectErr =>
          refine ⟨fun _ hrun => (by cases hrun), fun hdone => ?_⟩
          cases hdone
          rw [ht] at hc
          simpa [selectParseErrs] using start_select_error hc
      | _ => exact ⟨fun _ hrun => (by cases hrun), fun hdone => (by cases hdone)⟩
  | steps h₀ hstep hchan hc =>
      cases hstep with
      | selectGoto hstep =>
          rw [hc]
          refine ⟨fun parsed' hrun => ?_, fun hdone => (by cases hdone)⟩
          cases hrun
          cases hstep with
          | gaveUp => cases (next_gaveUp hn h₀ (hcoh.1 _ _ _ h₀) (.inr rfl) hc).1
      | selectRet hstep =>
          rw [hc]
          refine ⟨fun _ hrun => (by cases hrun), fun hdone => ?_⟩
          cases hstep with
          | dropped =>
              injection hdone with hm hr
              cases hm
              rw [toPy_itemConsumed hr] at h₀
              exact (h _ _).1 _ h₀
      | _ =>
          rw [hc]
          exact ⟨fun _ hrun => (by cases hrun), fun hdone => (by cases hdone)⟩
  | offers h₀ hoffer hc =>
      rw [hc]
      cases hoffer <;> exact ⟨fun _ hrun => (by cases hrun), fun hdone => (by cases hdone)⟩
  | wants h₀ hwant hc =>
      rw [hc]
      cases hwant <;> exact ⟨fun _ hrun => (by cases hrun), fun hdone => (by cases hdone)⟩

theorem intact_run {as : List (Act Ch C T)} (hidle : s₀.calls c = .idle)
    (h : Run next s₀ as s) : (s.calls c).Intact := by
  induction h with
  | nil =>
      rw [hidle]
      exact fun _ _ => ⟨fun _ hrun => (by cases hrun), fun hdone => (by cases hdone)⟩
  | snoc hr _ hn ih => exact next_intact (tracked_run hidle hr).coherent ih hn

/-- Start a `select` on any list of operations, of any length, mixed and repeated, in any state of the
channels, and let everything run in any order. If it returns an item, the operation with the reported
index is a receive, and that item, taken from that operation's channel, is all the call has moved; if it
returns none, the operation is a send, and its item, put into its channel, is all the call has moved;
if it raises, it has moved nothing. It never finds an item missing. Each chosen index leads to the
handle registered under it, and none leads to the fallback. -/
theorem select_exact (s₀ : State Ch C T) (c : C) (hidle : s₀.calls c = .idle)
    (as : List (Act Ch C T)) (s : State Ch C T) (hrun : Run next s₀ as s)
    (ops : List (Operand Ch C T)) (timeout : Option PyFloat) :
    (∀ r, s.calls c = .done (.select ops timeout) r →
      Performed s₀ s c ops r ∧ r ≠ (SelectResult.itemConsumed : SelectResult T).toPy) ∧
    (∀ parsed, s.calls c ≠ .run (.select ops timeout) (.select (.drop parsed .itemConsumed))) ∧
    ∀ parsed missed, s.calls c = .run (.select ops timeout) (.select (.choose parsed missed)) →
      (register parsed).count = (handles parsed).length ∧
      (∀ j, completion parsed j = (handles parsed)[j]?) ∧
      ∀ j chan' parsed' r, selectArm s.chan c parsed j = some (chan', .drop parsed' r) →
        r ≠ .timeout ∧ r ≠ .itemConsumed := by
  have htracked := tracked_run hidle hrun
  have hintact := intact_run hidle hrun
  refine ⟨fun r hc => ⟨htracked.performed hc, ?_⟩, (hintact ops timeout).1,
    fun parsed missed hc => ⟨register_count parsed, completion_eq parsed, ?_⟩⟩
  · rintro rfl
    exact (hintact ops timeout).2 hc
  · intro j chan' parsed' r harm
    exact selectArm_ne (item_ne_none (htracked.coherent.1 _ _ _ hc)) harm

/-- Two items go in; a `select` on the same channel twice finds the close signal of the second
operation ready, and its second look at the queue takes the first item. -/
def duplicateTrace : List (Act Unit ℕ ℕ) :=
  [.invoke 0 (.trySend () 7), .step 0 .go, .invoke 1 (.trySend () 8), .step 1 .go,
   .invoke 2 (.close ()), .step 2 .go, .step 2 .go,
   .invoke 3 (.select [.recv (), .recv ()] none), .step 3 (.op 3), .step 3 .go, .step 3 .go]

theorem duplicateTrace_exec :
    (exec next (fun _ _ => True) (State.init fun _ => none) duplicateTrace).map (fun s => decide
      (s.calls 3 = .done (.select [.recv (), .recv ()] none) (.ok (.selected 1 (some 7)))))
      = some true := by
  decide +kernel

theorem select_exact_duplicateTrace :
    ∃ s : State Unit ℕ ℕ, Run next (State.init fun _ => none) duplicateTrace s ∧
      Performed (State.init fun _ => none) s 3 [.recv (), .recv ()]
        (.ok (.selected 1 (some 7))) := by
  obtain ⟨s, hrun, hs⟩ := exists_runWith_of_exec duplicateTrace_exec
  have h := select_exact (State.init fun _ => none) 3 rfl duplicateTrace s hrun
    [.recv (), .recv ()] none
  exact ⟨s, hrun, (h.1 _ (of_decide_eq_true hs)).1⟩

end Pysync.Channel
