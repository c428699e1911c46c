import Pysync.ChannelTimeout
import Pysync.ChannelFinal
import Pysync.TransitionProgress
import Mathlib.Data.Finset.Card
import Mathlib.Data.Finset.Range

/-!
What the calls that wait wait for, and what ends their waiting. A call moves only so often. Where it
cannot move it waits without a timeout, no channel it uses is closed, and none of them has what it waits
for; in particular a sender and a receiver never wait for each other. Once a `close` has returned, the
calls that use the channel come to their end.
-/

namespace Pysync.Channel
open Queue Transition

variable {Ch C T : Type}
variable {s t : State Ch C T} {a : Act Ch C T} {c d : C} {x y : Ch} {chan' : Ch → Chan C C T}
variable {k k' : Call Ch C T} {m m' : Method Ch C T} {arm : Arm} {timeout : Option PyFloat}
variable {ops : List (Operand Ch C T)} {parsed : List (OpType Ch T)} {missed missed' : Finset ℕ}

/-- The step moves the call `c`. -/
def advances [DecidableEq Ch] [DecidableEq C] [DecidableEq T] (c : C) (s : State Ch C T) (a : Act Ch C T) :
    Bool :=
  match next s a with
  | some t => t.calls c ≠ s.calls c
  | none => false

/-- The call `c` can move, by a step of its own or by meeting another one. -/
def CanMove [DecidableEq Ch] [DecidableEq C] [DecidableEq T] (s : State Ch C T) (c : C) : Prop :=
  Able next (fun _ _ => True) (advances c) s

theorem canMove_of_next [DecidableEq Ch] [DecidableEq C] [DecidableEq T] (hn : next s a = some t)
    (hne : t.calls c ≠ s.calls c) : CanMove s c :=
  ⟨a, t, trivial, by simp [advances, hn, hne], hn⟩

def SendPc.left : SendPc → ℕ
  | .clone => 4
  | .trySend | .arm => 3
  | .select => 2
  | .drop _ => 1

def RecvPc.left : RecvPc → ℕ
  | .tryRecv | .arm => 3
  | .select => 2
  | .recheck => 1

/-- A `select` may look at each handle that it has not found wanting yet. -/
def SelectPc.left : SelectPc Ch T → ℕ
  | choose parsed missed => 3 + (Finset.range (register parsed).count \ missed).card
  | recheck _ _ => 2
  | drop _ _ => 1

/-- How often a call can still move at most; a `recv` may be the one of a `__next__`. -/
def Call.left : Call Ch C T → ℕ
  | .run _ (.send pc) => pc.left
  | .run _ (.recv pc) => pc.left + 2
  | .run _ (.select pc) => pc.left
  | .run _ (.next _ none) => 2
  | .run _ (.next _ (some _)) => 1
  | .run _ .once => 2
  | .run _ .closeTx => 1
  | .idle | .done _ _ => 0

/-- How often a call of the method moves at most. -/
def Method.mostMoves : Method Ch C T → ℕ
  | select ops _ => 3 + 2 * ops.length
  | _ => 5

/-- The places of a method's own code. -/
def Method.Runs : Method Ch C T → Pc Ch T → Prop
  | send _ _ _, .send _ | recv _ _, .recv _ => True
  | next _, .recv _ | next _, .next _ _ => True
  | trySend _ _, .once | tryRecv _, .once | sendOp _ _, .once => True
  | close _, .once | close _, .closeTx => True
  | select ops _, .select pc => parseOps ops = some pc.parsed ∧
      ∀ parsed i, pc = .recheck parsed i → ∃ x, parsed[i]? = some (.recv x)
  | _, _ => False

def Call.Fits (k : Call Ch C T) : Prop :=
  ∀ m pc, k = .run m pc → m.Runs pc

theorem fits_done {r : PyResult (Ret T)} : (Call.done m r : Call Ch C T).Fits := by
  intro m pc h
  cases h

theorem fits_run {pc : Pc Ch T} (h : m.Runs pc) : (Call.run m pc).Fits := by
  intro m pc hrun
  cases hrun
  exact h

theorem fits_start [DecidableEq Ch] [DecidableEq C] (s : State Ch C T) (c : C) (m : Method Ch C T) :
    ((s.start c m).calls c).Fits := by
  cases m with
  | select ops timeout =>
      unfold State.start
      dsimp only
      obtain ⟨e, -, he⟩ | ⟨parsed, hparsed, hgo⟩ := selectParse_cases s.chan c ops timeout
      · rw [he, State.resume, State.calls_setCall_self]
        exact fits_done
      · rw [hgo, State.resume, State.calls_setCall_self]
        exact fits_run ⟨hparsed, fun _ _ h => by cases h⟩
  | _ =>
      rw [State.start, State.calls_setCall_self]
      exact fits_run trivial

theorem CallStep.fits [DecidableEq Ch] [DecidableEq C] {pc : Pc Ch T} (hruns : m.Runs pc)
    (h : CallStep s c m pc chan' k) : k.Fits := by
  cases h with
  | selectGoto hstep =>
      refine fits_run ⟨hruns.1.trans (congrArg some ?_), ?_⟩
      · cases hstep with
        | received hpc hop =>
            rcases hpc with ⟨missed, rfl⟩ | rfl <;> rfl
        | _ => rfl
      · intro parsed i hpc
        cases hstep with
        | recvClosed hop =>
            cases hpc
            exact ⟨_, hop⟩
        | _ => cases hpc
  | sendGoto | recvGoto | nextGoto | nextErr | nextSender | dropSender => exact fits_run trivial
  | _ => exact fits_done

theorem Call.Offers.fits {item : T} {b : Bool} (hfits : k.Fits) (h : k.Offers s.chan x item b k') :
    k'.Fits := by
  cases h with
  | send => exact fits_run trivial
  | trySend => exact fits_done
  | select hop => exact fits_run ⟨(hfits _ _ rfl).1, fun _ _ h => by cases h⟩

theorem Call.Wants.fits {b : Bool} {k' : T → Call Ch C T} (hfits : k.Fits) (h : k.Wants x b k')
    (item : T) : (k' item).Fits := by
  cases h with
  | select hpc hop =>
      refine fits_run ⟨(hfits _ _ rfl).1.trans (congrArg some ?_), fun _ _ h => by cases h⟩
      rcases hpc with ⟨missed, rfl⟩ | rfl <;> rfl
  | _ => exact fits_done

theorem fits_run_of [DecidableEq Ch] [DecidableEq C] [DecidableEq T] {capacity : Ch → Option ℕ}
    {as : List (Act Ch C T)} (h : Run next (State.init capacity) as s) (c : C) : (s.calls c).Fits := by
  induction h with
  | nil =>
      intro m pc hc
      cases hc
  | snoc _ _ hn ih =>
      cases next_moves hn c with
      | stays hc => rwa [hc]
      | begins h₀ ht hstart hc =>
          rw [ht]
          exact fits_start _ _ _
      | steps h₀ hstep hchan hc =>
          rw [hc]
          exact hstep.fits (ih _ _ h₀)
      | offers h₀ hoffer hc =>
          rw [hc]
          exact hoffer.fits (h₀ ▸ ih)
      | wants h₀ hwant hc =>
          rw [hc]
          exact hwant.fits (h₀ ▸ ih) _

/-- An operation that is tried and not ready is one of those registered. -/
theorem notReady_lt [DecidableEq C] {chan : Ch → Chan C C T} {j : ℕ} (h : notReady chan parsed j = true) :
    j < (register parsed).count := by
  obtain ⟨hcount, hmain, hclose⟩ := register_spec parsed
  unfold notReady at h
  simp only [hmain, hclose, hcount] at h ⊢
  by_cases hodd : j % 2 = 1
  · by_contra hge
    rw [if_pos hodd, List.getElem?_eq_none (by omega), if_neg (by omega)] at h
    cases h
  · by_contra hge
    rw [if_neg hodd, if_neg (by omega)] at h
    cases h

theorem Call.Offers.left_lt {item : T} {b : Bool} (h : k.Offers s.chan x item b k') : k'.left < k.left := by
  cases h with
  | send hpc => rcases hpc with rfl | rfl <;> simp [Call.left, SendPc.left]
  | trySend => simp [Call.left]
  | select =>
      simp only [Call.left, SelectPc.left]
      omega

theorem Call.Wants.left_lt {b : Bool} {k' : T → Call Ch C T} (h : k.Wants x b k') (item : T) :
    (k' item).left < k.left := by
  cases h with
  | select hpc =>
      rcases hpc with ⟨missed, rfl⟩ | rfl
      · simp only [Call.left, SelectPc.left]
        omega
      · simp [Call.left, SelectPc.left]
  | _ => simp [Call.left]

/-- Whatever moves a running call brings it nearer to its end. -/
theorem left_next [DecidableEq Ch] [DecidableEq C] [DecidableEq T] {pc : Pc Ch T}
    (hrun : s.calls c = .run m pc) (hn : next s a = some t) :
    t.calls c = s.calls c ∨ (t.calls c).left < (s.calls c).left := by
  cases next_moves hn c with
  | stays hc => exact .inl hc
  | begins h₀ =>
      rw [h₀] at hrun
      cases hrun
  | steps h₀ hstep hchan hc =>
      rw [h₀, hc]
      cases hstep with
      | sendGoto hstep =>
          refine .inr ?_
          cases hstep with
          | cloned => split <;> simp [Call.left, SendPc.left]
          | accepted hpc => (rcases hpc with rfl | rfl) <;> simp [Call.left, SendPc.left]
          | _ => simp [Call.left, SendPc.left]
      | sendRet hstep => cases hstep <;> exact .inr (by simp [Call.left, SendPc.left])
      | recvGoto hstep | nextGoto hstep =>
          cases hstep <;> exact .inr (by simp [Call.left, RecvPc.left])
      | recvRet | nextItem => exact .inr (by simp [Call.left])
      | nextErr hstep => cases hstep <;> exact .inr (by simp [Call.left, RecvPc.left])
      | selectGoto hstep =>
          cases hstep with
          | received hpc =>
              refine .inr ?_
              rcases hpc with ⟨missed, rfl⟩ | rfl
              · simp only [Call.left, SelectPc.left]
                omega
              · simp [Call.left, SelectPc.left]
          | drained => exact .inr (by simp [Call.left, SelectPc.left])
          | missed =>
              obtain ⟨-, j, rfl, hready⟩ := next_missed hn h₀ hc
              rename_i missed
              have hj := notReady_lt hready
              by_cases hmem : j ∈ missed
              · exact .inl (by rw [Finset.insert_eq_of_mem hmem])
              · refine .inr (Nat.add_lt_add_left (Finset.card_lt_card ?_) 3)
                refine (Finset.ssubset_iff_of_subset
                  (Finset.sdiff_subset_sdiff subset_rfl (Finset.subset_insert j missed))).mpr ?_
                exact ⟨j, Finset.mem_sdiff.mpr ⟨Finset.mem_range.mpr hj, hmem⟩, by simp⟩
          | _ =>
              refine .inr ?_
              simp only [Call.left, SelectPc.left]
              omega
      | selectRet hstep =>
          cases hstep with
          | dropped => exact .inr (by simp [Call.left, SelectPc.left])
      | _ => exact .inr (by simp [Call.left])
  | offers h₀ hoffer hc =>
      rw [h₀, hc]
      exact .inr hoffer.left_lt
  | wants h₀ hwant hc =>
      rw [h₀, hc]
      exact .inr (hwant.left_lt _)

theorem length_parseOps (h : parseOps ops = some parsed) : parsed.length = ops.length := by
  induction ops generalizing parsed with
  | nil =>
      cases h
      rfl
  | cons op ops ih =>
      obtain ⟨p, -, hmap⟩ := Option.bind_eq_some_iff.mp h
      obtain ⟨rest, hrest, rfl⟩ := Option.map_eq_some_iff.mp hmap
      rw [List.length_cons, List.length_cons, ih hrest]

variable [DecidableEq Ch] [DecidableEq C]

omit [DecidableEq Ch] [DecidableEq C] in
theorem left_le {pc : Pc Ch T} (hruns : m.Runs pc) : (Call.run m pc).left ≤ m.mostMoves := by
  cases m with
  | select ops timeout =>
      cases pc with
      | select pc =>
          have hlen := length_parseOps hruns.1
          have hcount := (register_spec pc.parsed).1
          cases pc with
          | choose parsed missed =>
              have hcard := Finset.card_le_card
                (Finset.sdiff_subset (s := Finset.range (register parsed).count) (t := missed))
              simp only [Call.left, SelectPc.left, Method.mostMoves, SelectPc.parsed,
                Finset.card_range] at *
              omega
          | _ =>
              simp only [Call.left, SelectPc.left, Method.mostMoves]
              omega
      | _ => exact hruns.elim
  | _ =>
      cases pc with
      | send pc => cases pc <;> simp [Call.left, SendPc.left, Method.mostMoves]
      | recv pc => cases pc <;> simp [Call.left, RecvPc.left, Method.mostMoves]
      | next e isClosed => cases isClosed <;> simp [Call.left, Method.mostMoves]
      | select pc => exact hruns.elim
      | _ => simp [Call.left, Method.mostMoves]

section CanMove

variable {pc : Pc Ch T}

theorem canMove_of_step [DecidableEq T] (arm : Arm) (hc : s.calls c = .run m pc)
    (hstep : stepCall s c m pc arm = some t) (hne : t.calls c ≠ .run m pc) : CanMove s c :=
  canMove_of_next (a := .step c arm) (by rw [next, hc]; exact hstep) (hc ▸ hne)

theorem canMove_send [DecidableEq T] (arm : Arm) {item : T} {pc : SendPc} {ch : Chan C C T}
    {out : Out SendPc Unit} (hc : s.calls c = .run (.send x item timeout) (.send pc))
    (hstep : (s.chan x).sendStep c item timeout pc arm = some (ch, out)) (hne : out ≠ .goto pc) :
    CanMove s c := by
  refine canMove_of_step arm hc (by rw [stepCall, hstep]; rfl) ?_
  cases out with
  | goto pc' =>
      simp only [State.resume, State.calls_setCall_self]
      intro h
      cases h
      exact hne rfl
  | ret r => simp [State.resume]

theorem canMove_recv [DecidableEq T] (arm : Arm) {pc : RecvPc} {ch : Chan C C T} {out : Out RecvPc T}
    (hc : s.calls c = .run (.recv x timeout) (.recv pc))
    (hstep : (s.chan x).recvStep c timeout pc arm = some (ch, out)) (hne : out ≠ .goto pc) :
    CanMove s c := by
  refine canMove_of_step arm hc (by rw [stepCall, hstep]; rfl) ?_
  cases out with
  | goto pc' =>
      simp only [State.resume, State.calls_setCall_self]
      intro h
      cases h
      exact hne rfl
  | ret r => simp [State.resume]

theorem canMove_nextRecv [DecidableEq T] (arm : Arm) {pc : RecvPc} {ch : Chan C C T} {out : Out RecvPc T}
    (hc : s.calls c = .run (.next x) (.recv pc))
    (hstep : (s.chan x).recvStep c none pc arm = some (ch, out)) (hne : out ≠ .goto pc) :
    CanMove s c := by
  refine canMove_of_step arm hc (by rw [stepCall, hstep]; rfl) ?_
  rw [State.calls_setCall_self]
  cases out with
  | goto pc' =>
      intro h
      cases h
      exact hne rfl
  | ret r => cases r <;> simp

theorem canMove_select [DecidableEq T] (arm : Arm) {pc : SelectPc Ch T} {chan' : Ch → Chan C C T}
    {out : Out (SelectPc Ch T) (Ret T)} (hc : s.calls c = .run (.select ops timeout) (.select pc))
    (hstep : selectStep s.chan c timeout pc arm = some (chan', out)) (hne : out ≠ .goto pc) :
    CanMove s c := by
  refine canMove_of_step arm hc (by rw [stepCall, hstep]; rfl) ?_
  cases out with
  | goto pc' =>
      simp only [State.resume, State.calls_setCall_self]
      intro h
      cases h
      exact hne rfl
  | ret r => simp [State.resume]

theorem sendStep_go (ch : Chan C C T) (item : T) {pc : SendPc} (hpc : pc ≠ .select) :
    ∃ ch' out, ch.sendStep c item timeout pc .go = some (ch', out) ∧ out ≠ .goto pc := by
  cases pc with
  | clone =>
      cases hsender : ch.sender with
      | false => exact ⟨_, _, by rw [Chan.sendStep, hsender]; rfl, by simp⟩
      | true =>
          refine ⟨_, _, by rw [Chan.sendStep, hsender]; rfl, ?_⟩
          cases timeout <;> simp
  | trySend =>
      cases hpush : ch.fifo.push c item with
      | none => exact ⟨_, _, by rw [Chan.sendStep, hpush], by simp⟩
      | some f => exact ⟨_, _, by rw [Chan.sendStep, hpush], by simp⟩
  | arm =>
      cases htimeout : checkTimeout timeout with
      | error e => exact ⟨_, _, by rw [Chan.sendStep, htimeout], by simp⟩
      | ok q => exact ⟨_, _, by rw [Chan.sendStep, htimeout], by simp⟩
  | select => exact (hpc rfl).elim
  | drop r => exact ⟨_, _, rfl, by simp⟩

theorem recvStep_go {S R : Type} [DecidableEq S] (ch : Chan S R T) {d : R} {pc : RecvPc}
    (hpc : pc ≠ .select) :
    ∃ ch' out, ch.recvStep d timeout pc .go = some (ch', out) ∧ out ≠ .goto pc := by
  cases pc with
  | tryRecv =>
      cases hpop : ch.fifo.pop d with
      | none => exact ⟨_, _, by rw [Chan.recvStep, hpop], by simp⟩
      | some r => exact ⟨_, _, by rw [Chan.recvStep, hpop], by simp⟩
  | arm =>
      cases htimeout : checkTimeout timeout with
      | error e => exact ⟨_, _, by rw [Chan.recvStep, htimeout], by simp⟩
      | ok q => exact ⟨_, _, by rw [Chan.recvStep, htimeout], by simp⟩
  | select => exact (hpc rfl).elim
  | recheck =>
      cases hpop : ch.fifo.pop d with
      | none => exact ⟨_, _, by rw [Chan.recvStep, hpop], by simp⟩
      | some r => exact ⟨_, _, by rw [Chan.recvStep, hpop], by simp⟩

/-- What is ready can be chosen. -/
theorem selectArm_of_ready {chan : Ch → Chan C C T} {j : ℕ} (hj : j < (register parsed).count)
    (hready : notReady chan parsed j = false) : ∃ r, selectArm chan c parsed j = some r := by
  obtain ⟨hcount, hmain, hclose⟩ := register_spec parsed
  unfold notReady at hready
  unfold selectArm
  simp only [hcount, hmain, hclose] at hj hready ⊢
  rw [if_neg (by omega)]
  have hlt : j / 2 < parsed.length := by omega
  by_cases hodd : j % 2 = 1
  · rw [if_pos hodd, List.getElem?_eq_getElem hlt] at hready ⊢
    simp only [Option.map_some, List.getElem?_eq_getElem hlt] at hready ⊢
    simp [hready]
  · rw [if_neg hodd, if_pos ⟨by omega, hlt⟩] at hready ⊢
    simp only [List.getElem?_eq_getElem hlt] at hready ⊢
    cases hop : parsed[j / 2] with
    | recv x =>
        simp only [hop, decide_eq_false_iff_not] at hready ⊢
        rw [if_neg hready]
        exact ⟨_, rfl⟩
    | send x item =>
        simp only [hop] at hready ⊢
        cases item with
        | none => exact ⟨_, rfl⟩
        | some v =>
            cases hpush : (chan x).fifo.push c v with
            | none =>
                rw [Fifo.push_eq_none.mp hpush] at hready
                cases hready
            | some f =>
                simp only [hpush, Option.map_some]
                exact ⟨_, rfl⟩

/-- Where a call waits for ever if nothing comes: in its `select!` or its `Select`, with no timeout. -/
inductive Call.Waiting : Call Ch C T → Prop
  | send {x : Ch} {item : T} : Waiting (.run (.send x item none) (.send .select))
  | recv {x : Ch} : Waiting (.run (.recv x none) (.recv .select))
  | next {x : Ch} : Waiting (.run (.next x) (.recv .select))
  | select {ops : List (Operand Ch C T)} {parsed : List (OpType Ch T)} {missed : Finset ℕ} :
      Waiting (.run (.select ops none) (.select (.choose parsed missed)))

theorem canMove_chosen [DecidableEq T] {j : ℕ}
    (hc : s.calls c = .run (.select ops timeout) (.select (.choose parsed missed)))
    (hj : j < (register parsed).count) (hready : notReady s.chan parsed j = false) : CanMove s c := by
  obtain ⟨⟨chan', pc⟩, harm⟩ := selectArm_of_ready (c := c) hj hready
  refine canMove_select (.op j) hc (by rw [selectStep, harm]; rfl) ?_
  rintro ⟨⟩
  exact selectArm_ne_choose harm rfl

/-- A `select` with a timeout goes on trying until it gives up. -/
theorem canMove_timed [DecidableEq T] {q : PyFloat}
    (hc : s.calls c = .run (.select ops (some q)) (.select (.choose parsed missed))) :
    CanMove s c := by
  by_cases hall : ∀ j < (register parsed).count, j ∈ missed
  · exact canMove_select .timer hc (by rw [selectStep, if_pos ⟨rfl, hall⟩]) (by simp)
  · obtain ⟨j, hj⟩ := not_forall.mp hall
    obtain ⟨hj, hmem⟩ := Classical.not_imp.mp hj
    cases hready : notReady s.chan parsed j with
    | false => exact canMove_chosen hc hj hready
    | true =>
        refine canMove_select (.miss j) hc (by rw [selectStep, if_pos hready]) ?_
        intro h
        injection h with h
        injection h with hparsed hmissed
        rw [← hmissed] at hmem
        exact hmem (Finset.mem_insert_self _ _)

theorem canMove_or_waiting [DecidableEq T] (hfits : (s.calls c).Fits) (hc : s.calls c = .run m pc) :
    CanMove s c ∨ (s.calls c).Waiting := by
  have hruns := hfits m pc hc
  cases m with
  | send x item timeout =>
      cases pc with
      | send pc =>
          by_cases hpc : pc = .select
          · subst hpc
            cases timeout with
            | none => exact .inr (hc ▸ .send)
            | some q =>
                have hstep : (s.chan x).sendStep c item (some q) .select .timer = some
                    (s.chan x, .goto (.drop (.error sendTimeoutErr))) := rfl
                exact .inl (canMove_send .timer hc hstep (by simp))
          · obtain ⟨ch, out, hstep, hne⟩ := sendStep_go (s.chan x) item hpc
            exact .inl (canMove_send .go hc hstep hne)
      | _ => exact hruns.elim
  | recv x timeout =>
      cases pc with
      | recv pc =>
          by_cases hpc : pc = .select
          · subst hpc
            cases timeout with
            | none => exact .inr (hc ▸ .recv)
            | some q =>
                have hstep : (s.chan x).recvStep c (some q) .select .timer = some
                    (s.chan x, .ret (.error recvTimeoutErr)) := rfl
                exact .inl (canMove_recv .timer hc hstep (by simp))
          · obtain ⟨ch, out, hstep, hne⟩ := recvStep_go (s.chan x) hpc
            exact .inl (canMove_recv .go hc hstep hne)
      | _ => exact hruns.elim
  | next x =>
      cases pc with
      | recv pc =>
          by_cases hpc : pc = .select
          · subst hpc
            exact .inr (hc ▸ .next)
          · obtain ⟨ch, out, hstep, hne⟩ := recvStep_go (s.chan x) hpc
            exact .inl (canMove_nextRecv .go hc hstep hne)
      | next e isClosed =>
          cases isClosed with
          | none => exact .inl (canMove_of_step .go hc rfl (by simp))
          | some isClosed => exact .inl (canMove_of_step .go hc rfl (by simp))
      | _ => exact hruns.elim
  | trySend x item | tryRecv x | close x | sendOp x item =>
      cases pc with
      | once => exact .inl (canMove_of_step .go hc rfl (by simp))
      | closeTx => first
          | exact hruns.elim
          | exact .inl (canMove_of_step .go hc rfl (by simp))
      | _ => exact hruns.elim
  | select ops timeout =>
      cases pc with
      | select pc =>
          cases pc with
          | choose parsed missed =>
              cases timeout with
              | none => exact .inr (hc ▸ .select)
              | some q => exact .inl (canMove_timed hc)
          | recheck parsed i =>
              obtain ⟨x, hop⟩ := hruns.2 parsed i rfl
              exact .inl (canMove_select .go hc (by rw [selectStep, hop]) (by simp))
          | drop parsed r => exact .inl (canMove_select .go hc rfl (by simp))
      | _ => exact hruns.elim

/-- What a call of the method waits for is not there: no channel that it uses is closed, those it would
send into are full, and those it would take from are empty but not abandoned by their senders. -/
structure Method.Starved (s : State Ch C T) (m : Method Ch C T) : Prop where
  open_tx : ∀ x, m.SendsVia x ∨ m.ReceivesFrom x → (s.chan x).closeTx = true
  full : ∀ x, m.SendsVia x → (s.chan x).fifo.hasRoom = false
  empty : ∀ x, m.ReceivesFrom x → (s.chan x).fifo.queue = [] ∧ ¬ (s.chan x).disconnected

theorem sendStep_waiting (ch : Chan C C T) (c : C) (item : T)
    (h : ∀ arm ch' out, ch.sendStep c item none .select arm = some (ch', out) → out = .goto .select) :
    ch.closeTx = true ∧ ch.fifo.hasRoom = false := by
  constructor
  · by_contra hclose
    have hstep : ch.sendStep c item none .select .close
        = some (ch, .goto (.drop (.error closedErr))) := by rw [Chan.sendStep, if_neg hclose]
    cases h _ _ _ hstep
  · cases hpush : ch.fifo.push c item with
    | none => exact Fifo.push_eq_none.mp hpush
    | some f =>
        have hstep : ch.sendStep c item none .select .data
            = some (ch.setFifo f, .goto (.drop (.ok ()))) := by rw [Chan.sendStep, hpush]; rfl
        cases h _ _ _ hstep

theorem recvStep_waiting (ch : Chan C C T) (c : C)
    (h : ∀ arm ch' out, ch.recvStep c none .select arm = some (ch', out) → out = .goto .select) :
    ch.closeTx = true ∧ ch.fifo.queue = [] ∧ ¬ ch.disconnected := by
  have hpop : ch.fifo.pop c = none := by
    cases hpop : ch.fifo.pop c with
    | none => rfl
    | some r =>
        have hstep : ch.recvStep c none .select .data
            = some (ch.setFifo r.2, .ret (.ok r.1)) := by rw [Chan.recvStep, hpop]
        cases h _ _ _ hstep
  refine ⟨?_, Fifo.pop_eq_none.mp hpop, fun hdisc => ?_⟩
  · by_contra hclose
    have hstep : ch.recvStep c none .select .close = some (ch, .goto .recheck) := by
      rw [Chan.recvStep, if_neg hclose]
    cases h _ _ _ hstep
  · have hstep : ch.recvStep c none .select .data
        = some (ch.conclude, .ret (.error closedAndEmptyErr)) := by
      rw [Chan.recvStep, hpop]
      exact if_pos hdisc
    cases h _ _ _ hstep

omit [DecidableEq Ch] in
/-- The data handle and the close signal of an operation that are both not ready. -/
theorem notReady_waiting {chan : Ch → Chan C C T} {i : ℕ} {op : OpType Ch T}
    (hop : parsed[i]? = some op) (h : ∀ j < (register parsed).count, notReady chan parsed j = true) :
    (chan op.chan).closeTx = true ∧ match op with
      | .recv x => (chan x).fifo.queue = [] ∧ ¬ (chan x).disconnected
      | .send x _ => (chan x).fifo.hasRoom = false := by
  obtain ⟨hcount, -, hclose⟩ := register_spec parsed
  have hlt := (List.getElem?_eq_some_iff.mp hop).1
  constructor
  · have hnot := h (2 * i + 1) (by omega)
    have hdiv : (2 * i + 1) / 2 = i := by omega
    simpa [notReady, hclose, hdiv, hop] using hnot
  · have hnot := h (2 * i) (by omega)
    simp only [notReady, closeOpMap_double, mainOpMap_double hlt, hop] at hnot
    cases op with
    | recv x => exact of_decide_eq_true hnot
    | send x item => simpa using hnot

/-- A call that cannot move lacks what it waits for. -/
theorem starved_of_stuck [DecidableEq T] (hfits : (s.calls c).Fits) (hc : s.calls c = .run m pc)
    (hwait : (s.calls c).Waiting) (hstuck : ¬ CanMove s c) : m.Starved s := by
  have hruns := hfits m pc hc
  rw [hc] at hwait
  cases hwait with
  | @send x item =>
      obtain ⟨hopen, hfull⟩ := sendStep_waiting (s.chan x) c item
        fun arm ch' out hstep => by
          by_contra hne
          exact hstuck (canMove_send arm hc hstep hne)
      refine ⟨?_, ?_, fun y hy => hy.elim⟩
      · rintro y (rfl | hy)
        · exact hopen
        · exact hy.elim
      · rintro y rfl
        exact hfull
  | @recv x =>
      have hwaits := recvStep_waiting (s.chan x) c fun arm ch' out hstep => by
        by_contra hne
        exact hstuck (canMove_recv arm hc hstep hne)
      refine ⟨?_, fun y hy => hy.elim, ?_⟩
      · rintro y (hy | rfl)
        · exact hy.elim
        · exact hwaits.1
      · rintro y rfl
        exact hwaits.2
  | @next x =>
      have hwaits := recvStep_waiting (s.chan x) c fun arm ch' out hstep => by
        by_contra hne
        exact hstuck (canMove_nextRecv arm hc hstep hne)
      refine ⟨?_, fun y hy => hy.elim, ?_⟩
      · rintro y (hy | rfl)
        · exact hy.elim
        · exact hwaits.1
      · rintro y rfl
        exact hwaits.2
  | @select ops parsed missed =>
      have hnot : ∀ j < (register parsed).count, notReady s.chan parsed j = true := by
        intro j hj
        by_contra hready
        exact hstuck (canMove_chosen hc hj (by simpa using hready))
      have hsend : ∀ x, (Method.select ops none : Method Ch C T).SendsVia x →
          (s.chan x).closeTx = true ∧ (s.chan x).fifo.hasRoom = false := by
        rintro x ⟨o, item, hmem⟩
        obtain ⟨i, hi⟩ := List.mem_iff_getElem?.mp hmem
        obtain ⟨p, hp, hop⟩ := getElem_parseOps hruns.1 hi
        cases hp
        exact notReady_waiting hop hnot
      have hrecv : ∀ x, (Method.select ops none : Method Ch C T).ReceivesFrom x →
          (s.chan x).closeTx = true ∧ (s.chan x).fifo.queue = [] ∧ ¬ (s.chan x).disconnected := by
        intro x hmem
        obtain ⟨i, hi⟩ := List.mem_iff_getElem?.mp hmem
        obtain ⟨p, hp, hop⟩ := getElem_parseOps hruns.1 hi
        cases hp
        exact notReady_waiting hop hnot
      exact ⟨fun x hx => hx.elim (fun h => (hsend x h).1) fun h => (hrecv x h).1,
        fun x hx => (hsend x hx).2, fun x hx => (hrecv x hx).2⟩

omit [DecidableEq Ch] [DecidableEq C] in
/-- A waiting call that sends into `x` has an arm to hand its item over with. -/
theorem Call.Waiting.offer (hruns : m.Runs pc) (h : (Call.run m pc).Waiting) (hx : m.SendsVia x) :
    ∃ arm item k, (Call.run m pc).offer s.chan arm = some (x, item, true, k) ∧ k ≠ .run m pc := by
  cases h with
  | send =>
      obtain rfl := hx
      exact ⟨.data, _, _, rfl, by simp⟩
  | recv => exact hx.elim
  | next => exact hx.elim
  | select =>
      obtain ⟨o, item, hmem⟩ := hx
      obtain ⟨i, hi⟩ := List.mem_iff_getElem?.mp hmem
      obtain ⟨p, hp, hop⟩ := getElem_parseOps hruns.1 hi
      cases hp
      exact ⟨.op (2 * i), _, _, offer_select hop, by simp⟩

omit [DecidableEq Ch] [DecidableEq C] in
/-- A waiting call that receives from `x` has an arm to take an item with. -/
theorem Call.Waiting.want (hruns : m.Runs pc) (h : (Call.run m pc).Waiting)
    (hx : m.ReceivesFrom x) : ∃ arm k, (Call.run m pc).want arm = some (x, true, k) := by
  cases h with
  | send => exact hx.elim
  | recv =>
      obtain rfl := hx
      exact ⟨.data, _, rfl⟩
  | next =>
      obtain rfl := hx
      exact ⟨.data, _, rfl⟩
  | @select ops parsed missed =>
      obtain ⟨i, hi⟩ := List.mem_iff_getElem?.mp hx
      obtain ⟨p, hp, hop⟩ := getElem_parseOps hruns.1 hi
      cases hp
      refine ⟨.op (2 * i), fun v =>
        .run (.select ops none) (.select (.drop parsed (.recvSuccess i v))), ?_⟩
      have hi := mainOpMap_double (List.getElem?_eq_some_iff.mp hop).1
      simp only [SelectPc.parsed] at hi hop
      simp only [Call.want, hi, hop]

/-- A waiting sender and a waiting receiver of a channel without a buffer can meet. -/
theorem canMove_handoff [DecidableEq T] (hne : c ≠ d) {pc' : Pc Ch T} (hc : s.calls c = .run m pc)
    (hd : s.calls d = .run m' pc') (hruns : m.Runs pc) (hruns' : m'.Runs pc')
    (hwait : (Call.run m pc).Waiting) (hwait' : (Call.run m' pc').Waiting) (hx : m.SendsVia x)
    (hx' : m'.ReceivesFrom x) (hcap : (s.chan x).fifo.capacity = some 0)
    (hqueue : (s.chan x).fifo.queue = []) : CanMove s c := by
  obtain ⟨arm, item, k, hoffer, hk⟩ := hwait.offer (s := s) hruns hx
  obtain ⟨arm', k', hwant⟩ := hwait'.want hruns' hx'
  have hpass : ∃ f, (s.chan x).fifo.pass c d item = some f := by
    rw [Fifo.pass, dif_pos hqueue]
    exact ⟨_, rfl⟩
  obtain ⟨f, hf⟩ := hpass
  have hhand := Chan.handoff_eq_some.mpr ⟨hcap, f, hf, rfl⟩
  have hn : next s (.handoff c arm d arm') = some
      (((s.setChan x ((s.chan x).setFifo f)).setCall c k).setCall d (k' item)) := by
    rw [next, hc, hd]
    simp only [hoffer, hwant]
    rw [if_pos ⟨hne, trivial, rfl⟩, hhand]
    rfl
  refine canMove_of_next hn ?_
  rw [State.calls_setCall_ne _ _ hne, State.calls_setCall_self, hc]
  exact hk

end CanMove

variable [DecidableEq T]

/-- A call that has returned stays as it is. -/
theorem done_next {r : PyResult (Ret T)} (hc : s.calls c = .done m r) (hn : next s a = some t) :
    t.calls c = .done m r := by
  cases next_moves hn c with
  | stays hsame => rw [hsame, hc]
  | begins h₀ => simp [hc] at h₀
  | steps h₀ => simp [hc] at h₀
  | offers h₀ hoffer =>
      subst h₀
      rw [hc] at hoffer
      cases hoffer
  | wants h₀ hwant =>
      subst h₀
      rw [hc] at hwant
      cases hwant

theorem CloseReturned.next (h : CloseReturned s x) (hn : next s a = some t) : CloseReturned t x := by
  obtain ⟨d, hd⟩ := h
  refine ⟨d, ?_⟩
  cases hcall : s.calls d with
  | done m r =>
      rw [done_next hcall hn]
      rwa [hcall] at hd
  | _ =>
      rw [hcall] at hd
      exact hd.elim

theorem method_next (hc : (s.calls c).method = some m) (hn : next s a = some t) :
    (t.calls c).method = some m := by
  cases next_moves hn c with
  | stays hsame => rw [hsame, hc]
  | begins h₀ =>
      rw [h₀] at hc
      cases hc
  | steps h₀ hstep _ hk =>
      rw [h₀] at hc
      rw [hk, hstep.method]
      exact hc
  | offers h₀ hoffer hk => rw [hk, hoffer.method, ← h₀, hc]
  | wants h₀ hwant hk => rw [hk, hwant.method, ← h₀, hc]

/-- A step that moves the call takes away one of the moves left to it. -/
theorem left_advances (hc : (s.calls c).method = some m) (hn : next s a = some t) :
    (t.calls c).left + (advances c s a).toNat ≤ (s.calls c).left := by
  cases hcall : s.calls c with
  | idle =>
      rw [hcall] at hc
      cases hc
  | run m pc =>
      have hadv : advances c s a = decide (t.calls c ≠ s.calls c) := by rw [advances, hn]
      rw [hadv, ← hcall]
      rcases left_next hcall hn with hsame | hlt
      · simp [hsame]
      · have hle := Bool.toNat_le (decide (t.calls c ≠ s.calls c))
        omega
  | done m r =>
      have hadv : advances c s a = decide (t.calls c ≠ s.calls c) := by rw [advances, hn]
      rw [hadv, hcall, done_next hcall hn]
      simp

omit [DecidableEq Ch] [DecidableEq C] [DecidableEq T] in
theorem left_le_mostMoves {pc : Pc Ch T} (hfits : (s.calls c).Fits) (hc : s.calls c = .run m pc) :
    (s.calls c).left ≤ m.mostMoves := by
  rw [hc]
  exact left_le (hfits m pc hc)

/-- From its first step to its last, a call moves only so often. -/
theorem few_moves {pc : Pc Ch T} (hfits : (s.calls c).Fits) (hc : s.calls c = .run m pc)
    {bs : List (Act Ch C T)} (h : Run next s bs t) :
    countSteps next (advances c) s bs ≤ m.mostMoves := by
  let Inv : State Ch C T → Prop := fun u => (u.calls c).method = some m
  have h0 : Inv s := by
    show (s.calls c).method = some m
    rw [hc]
    rfl
  have hle : countSteps next (advances c) s bs + (t.calls c).left ≤ (s.calls c).left :=
    (h.countSteps_le (fun u : State Ch C T => (u.calls c).left) h0
      fun u a v hu _ hn => ⟨method_next hu hn, left_advances hu hn⟩).2
  have hmost := left_le_mostMoves hfits hc
  omega

/-- A call that cannot move waits, without a timeout, for what is not there. -/
theorem canMove_or_starved {pc : Pc Ch T} (hfits : (s.calls c).Fits) (hc : s.calls c = .run m pc) :
    CanMove s c ∨ (s.calls c).Waiting ∧ m.Starved s := by
  by_cases hmove : CanMove s c
  · exact .inl hmove
  · have hwait := (canMove_or_waiting hfits hc).resolve_left hmove
    exact .inr ⟨hwait, starved_of_stuck hfits hc hwait hmove⟩

/-- In every run, a call that cannot move waits, without a timeout, for what is not there: no channel
that it uses is closed, those that it sends into are full, and those that it receives from are empty
though not abandoned. A sender and a receiver never wait for each other, not even on a channel without
a buffer. And no call moves more often than its method allows. -/
theorem waits_rightly (capacity : Ch → Option ℕ) (as : List (Act Ch C T)) (s : State Ch C T)
    (hrun : Run next (State.init capacity) as s) :
    (∀ c m pc, s.calls c = .run m pc → CanMove s c ∨ (s.calls c).Waiting ∧ m.Starved s) ∧
    (∀ c d m m' pc pc' x, c ≠ d → s.calls c = .run m pc → s.calls d = .run m' pc' →
      m.SendsVia x → m'.ReceivesFrom x → CanMove s c ∨ CanMove s d) ∧
    ∀ c m pc bs t, s.calls c = .run m pc → Run next s bs t →
      countSteps next (advances c) s bs ≤ m.mostMoves := by
  have hfits : ∀ c, (s.calls c).Fits := fits_run_of hrun
  refine ⟨fun c m pc hc => canMove_or_starved (hfits c) hc, ?_,
    fun c m pc bs t hc hbs => few_moves (hfits c) hc hbs⟩
  intro c d m m' pc pc' x hne hc hd hx hx'
  rcases canMove_or_starved (hfits c) hc with hmove | ⟨hwait, hstarved⟩
  · exact .inl hmove
  rcases canMove_or_starved (hfits d) hd with hmove | ⟨hwait', hstarved'⟩
  · exact .inr hmove
  obtain ⟨n, hn, hle⟩ := Fifo.hasRoom_eq_false.mp (hstarved.full x hx)
  obtain ⟨hqueue, -⟩ := hstarved'.empty x hx'
  rw [hqueue] at hle
  obtain rfl : n = 0 := Nat.le_zero.mp hle
  rw [hc] at hwait
  rw [hd] at hwait'
  exact .inl (canMove_handoff hne hc hd (hfits c m pc hc) (hfits d m' pc' hd) hwait hwait' hx hx' hn
    hqueue)

/-- On a channel without a buffer a receive waits, and then a send. -/
def meetingTrace : List (Act Unit ℕ ℕ) :=
  [.invoke 0 (.recv () none), .step 0 .go, .invoke 1 (.send () 7 none), .step 1 .go, .step 1 .go]

theorem meetingTrace_exec :
    (exec next (fun _ _ => True) (State.init fun _ => some 0) meetingTrace).map (fun s =>
      decide (s.calls 0 = .run (.recv () none) (.recv .select) ∧
        s.calls 1 = .run (.send () 7 none) (.send .select))) = some true := by
  decide +kernel

theorem waits_rightly_meetingTrace :
    ∃ s : State Unit ℕ ℕ, Run next (State.init fun _ => some 0) meetingTrace s ∧
      (s.calls 0).Waiting ∧ (s.calls 1).Waiting ∧ (CanMove s 1 ∨ CanMove s 0) := by
  obtain ⟨s, hrun, hs⟩ := exists_runWith_of_exec meetingTrace_exec
  obtain ⟨hrecv, hsend⟩ := of_decide_eq_true hs
  obtain ⟨-, hmeet, -⟩ := waits_rightly (fun _ => some 0) meetingTrace s hrun
  exact ⟨s, hrun, hrecv ▸ .recv, hsend ▸ .send,
    hmeet 1 0 _ _ _ _ () (by decide) hsend hrecv rfl rfl⟩

/-- Once a `close` of `x` has returned, every call that is in progress and uses `x` comes to its end, in
at most as many moves as its method allows and whatever the other calls do meanwhile. -/
theorem close_releases (capacity : Ch → Option ℕ) (as : List (Act Ch C T)) (s : State Ch C T)
    (hrun : Run next (State.init capacity) as s) (hclose : CloseReturned s x)
    (hx : m.SendsVia x ∨ m.ReceivesFrom x) {pc : Pc Ch T} (hc : s.calls c = .run m pc) :
    Settles next (fun _ _ => True) (advances c) m.mostMoves (fun t => ∃ r, t.calls c = .done m r) s := by
  let Inv : State Ch C T → Prop := fun u =>
    (∃ bs, Run next (State.init capacity) bs u) ∧ (u.calls c).method = some m ∧ CloseReturned u x
  have h0 : Inv s := ⟨⟨as, hrun⟩, by rw [hc]; rfl, hclose⟩
  refine (settles_of_measure (fun u => (u.calls c).left) h0 (fun u a t hu _ hn => ?_)
    fun u hu => ?_).mono (left_le_mostMoves (fits_run_of hrun c) hc)
  · obtain ⟨⟨bs, hbs⟩, hmethod, hclosed⟩ := hu
    exact ⟨⟨⟨bs ++ [a], .snoc hbs trivial hn⟩, method_next hmethod hn, hclosed.next hn⟩,
      left_advances hmethod hn⟩
  · obtain ⟨⟨bs, hbs⟩, hmethod, d, hd⟩ := hu
    cases hcall : u.calls c with
    | idle =>
        rw [hcall] at hmethod
        cases hmethod
    | done m' r =>
        rw [hcall] at hmethod
        cases hmethod
        exact .inl ⟨r, rfl⟩
    | run m' pc' =>
        rw [hcall] at hmethod
        cases hmethod
        refine .inr ((canMove_or_starved (fits_run_of hbs c) hcall).resolve_right ?_)
        rintro ⟨-, hstarved⟩
        have hclose := ((closedInOrder_run hbs).knows d).closed x hd
        rw [hstarved.open_tx x hx] at hclose
        cases hclose

/-- A receive waits at one channel and a send for room in another, which is then closed. -/
def releaseTrace : List (Act Bool ℕ ℕ) :=
  [.invoke 0 (.recv false none), .step 0 .go, .invoke 1 (.trySend true 7), .step 1 .go,
   .invoke 2 (.send true 8 none), .step 2 .go, .step 2 .go, .invoke 3 (.close true), .step 3 .go,
   .step 3 .go]

theorem releaseTrace_exec :
    (exec next (fun _ _ => True) (State.init fun _ => some 1) releaseTrace).map (fun s =>
      decide (s.calls 2 = .run (.send true 8 none) (.send .select) ∧
        s.calls 3 = .done (.close true) (.ok .unit))) = some true := by
  decide +kernel

theorem close_releases_releaseTrace :
    ∃ s : State Bool ℕ ℕ, Run next (State.init fun _ => some 1) releaseTrace s ∧
      ∃ bs t r, RunWith next (fun u a => True ∧ advances 2 u a = true) s bs t ∧ bs.length ≤ 5 ∧
        t.calls 2 = .done (.send true 8 none) r := by
  obtain ⟨s, hrun, hs⟩ := exists_runWith_of_exec releaseTrace_exec
  obtain ⟨hsend, hclosed⟩ := of_decide_eq_true hs
  have hclose : CloseReturned s true := ⟨3, by rw [hclosed]; exact Eq.refl true⟩
  obtain ⟨bs, t, hbs, hlen, r, hr⟩ :=
    (close_releases (m := .send true 8 none) (fun _ => some 1) releaseTrace s hrun hclose
      (.inl (Eq.refl true)) hsend).reaches
  exact ⟨s, hrun, bs, t, r, hbs, hlen, hr⟩

end Pysync.Channel
