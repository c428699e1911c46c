import Pysync.ChannelFinal
import Pysync.ChannelReport

/-!
A finished channel: closed, empty, and no send or `select` in progress. `recv` learns of the close from
the close signal, `try_recv` only from the queue, which is disconnected when the last clone of the
sender has been dropped. The clones that are left then are those of `SendOp`s.
-/

namespace Pysync.Channel
open Queue Transition

variable {Ch C T : Type} [DecidableEq Ch]
variable {s t u : State Ch C T} {a : Act Ch C T} {c d : C} {x y : Ch} {chan chan' : Ch → Chan C C T}
variable {k k' : Call Ch C T} {m : Method Ch C T}

/-- The call is a `send_op` of `x` that has returned. -/
def Call.IsOp (x : Ch) : Call Ch C T → Prop
  | .done (.sendOp y _) (.ok _) => y = x
  | _ => False

/-- The call may have a clone of the sender of `x`: it is sending with one, or it is a `SendOp`. -/
def Call.MayHold (x : Ch) (k : Call Ch C T) : Prop := k.Holds x ∨ k.IsOp x

/-- A step that changes the clones of one channel only. -/
theorem mem_update {ch : Chan C C T} (h : c ∈ (Function.update chan x ch y).senders) :
    (y = x ∧ c ∈ ch.senders) ∨ (y ≠ x ∧ c ∈ (chan y).senders) := by
  by_cases hy : y = x
  · subst hy
    rw [Function.update_self] at h
    exact .inl ⟨rfl, h⟩
  · rw [Function.update_of_ne hy] at h
    exact .inr ⟨hy, h⟩

variable [DecidableEq C]

theorem Chan.SendStep.ne_clone {ch ch' : Chan C C T} {item : T} {timeout : Option PyFloat}
    {pc pc' : SendPc} (h : Chan.SendStep ch c item timeout pc ch' (.goto pc')) : pc' ≠ .clone := by
  rintro rfl
  generalize hout : (.goto .clone : Out SendPc Unit) = out at h
  cases h with
  | cloned => split at hout <;> cases hout
  | _ => cases hout

theorem Chan.RecvStep.senders {ch ch' : Chan C C T} {timeout : Option PyFloat} {pc : RecvPc}
    {out : Out RecvPc T} (h : Chan.RecvStep ch c timeout pc ch' out) : ch'.senders = ch.senders := by
  cases h <;> rfl

/-- Who has a clone after a step of its own has gone on with it, or has just been given it. -/
theorem CallStep.mayHold {pc : Pc Ch T} (h : CallStep s c m pc chan' k)
    (hold : c ∈ (s.chan x).senders → (Call.run m pc).MayHold x) (hx : c ∈ (chan' x).senders) :
    k.MayHold x := by
  have hnot : ¬ (Call.run m pc : Call Ch C T).MayHold x →
      (chan' x).senders = (s.chan x).senders → k.MayHold x :=
    fun hno hsame => (hno (hold (hsame ▸ hx))).elim
  cases h with
  | sendGoto hstep =>
      rcases mem_update hx with ⟨rfl, -⟩ | ⟨hne, hx⟩
      · exact .inl ⟨rfl, hstep.ne_clone⟩
      · exact ((hold hx).elim (fun h => hne h.1.symm) id).elim
  | sendRet hstep =>
      cases hstep with
      | refused =>
          exact hnot (fun h => h.elim (fun h => h.2 rfl) id) (field_update Chan.senders (by rfl) x)
      | dropped =>
          rcases mem_update hx with ⟨rfl, hmem⟩ | ⟨hne, hx⟩
          · exact absurd rfl (Finset.ne_of_mem_erase hmem)
          · exact ((hold hx).elim (fun h => hne h.1.symm) id).elim
  | recvGoto hstep => exact hnot (fun h => h.elim id id) (field_update Chan.senders hstep.senders x)
  | recvRet hstep => exact hnot (fun h => h.elim id id) (field_update Chan.senders hstep.senders x)
  | trySend hstep =>
      exact hnot (fun h => h.elim id id) (field_update Chan.senders (by cases hstep <;> rfl) x)
  | tryRecv hstep =>
      exact hnot (fun h => h.elim id id) (field_update Chan.senders (by cases hstep <;> rfl) x)
  | nextGoto hstep => exact hnot (fun h => h.elim id id) (field_update Chan.senders hstep.senders x)
  | nextItem hstep => exact hnot (fun h => h.elim id id) (field_update Chan.senders hstep.senders x)
  | nextErr hstep => exact hnot (fun h => h.elim id id) (field_update Chan.senders hstep.senders x)
  | nextSender => exact hnot (fun h => h.elim id id) rfl
  | nextRaise => exact hnot (fun h => h.elim id id) rfl
  | dropSender => exact hnot (fun h => h.elim id id) (field_update Chan.senders (by rfl) x)
  | dropCloseTx => exact hnot (fun h => h.elim id id) (field_update Chan.senders (by rfl) x)
  | sendOp hsender =>
      rcases mem_update hx with ⟨rfl, -⟩ | ⟨-, hx⟩
      · exact .inr rfl
      · exact ((hold hx).elim id id).elim
  | sendOpClosed => exact hnot (fun h => h.elim id id) rfl
  | selectGoto hstep =>
      rw [hstep.senders_eq] at hx
      obtain hholds | hop := hold hx
      · refine .inl ?_
        rw [Call.Holds, hstep.parsed_eq]
        exact hholds
      · exact hop.elim
  | selectRet hstep =>
      cases hstep with
      | dropped =>
          unfold releaseAll at hx
          split at hx
          · exact absurd rfl (Finset.ne_of_mem_erase hx)
          · rename_i hsend
            exact ((hold hx).elim (fun h => hsend h) id).elim

theorem StartStep.mayHold (hold : c ∈ (s.chan x).senders → (.idle : Call Ch C T).MayHold x)
    (h : StartStep s c m chan' k) (hx : c ∈ (chan' x).senders) : k.MayHold x := by
  have hno : c ∉ (s.chan x).senders := fun hmem => (hold hmem).elim id id
  cases h with
  | select hparsed =>
      unfold holdAll at hx
      split at hx
      · rename_i hsend
        exact .inl hsend
      · exact (hno hx).elim
  | _ => exact (hno hx).elim

variable [DecidableEq T]

/-- Whoever has a clone of a sender is sending with it or is a `SendOp`. -/
def HoldersKnown (s : State Ch C T) : Prop :=
  ∀ x c, c ∈ (s.chan x).senders → (s.calls c).MayHold x

theorem HoldersKnown.next (h : HoldersKnown s) (hn : next s a = some t) : HoldersKnown t := by
  intro x e he
  rcases next_cases hn with ⟨c, chan', k, hstep, rfl⟩ |
    ⟨c, d, y, item, b, b', k, k', f, hne, hoffer, hwant, -, rfl⟩ | ⟨o, y, item, r, ho, rfl⟩
  · by_cases hec : e = c
    · subst hec
      rw [State.calls_setCall_self]
      have hold := h x e
      cases hstep with
      | start h₀ _ hstart =>
          rw [h₀] at hold
          exact hstart.mayHold hold he
      | step h₀ hstep =>
          rw [h₀] at hold
          exact hstep.mayHold hold he
    · rw [State.calls_setCall_ne _ _ hec]
      exact h x e (((hstep.follows x).senders e hec).mp he)
  · have hsame : ((s.setChan y ((s.chan y).setFifo f)).chan x).senders = (s.chan x).senders :=
      field_update Chan.senders (by rfl) x
    rw [State.chan_setCall, State.chan_setCall, hsame] at he
    have hold := h x e he
    by_cases hed : e = d
    · subst hed
      rw [State.calls_setCall_self]
      generalize s.calls e = k₀ at hold hwant
      cases hwant with
      | select hpc =>
          refine hold.imp (fun hholds => ?_) id
          rcases hpc with ⟨missed, rfl⟩ | rfl <;> exact hholds
      | _ => exact (hold.elim id id).elim
    rw [State.calls_setCall_ne _ _ hed]
    by_cases hec : e = c
    · subst hec
      rw [State.calls_setCall_self]
      generalize s.calls e = k₀ at hold hoffer
      cases hoffer with
      | send => exact hold.imp (fun hholds => ⟨hholds.1, by simp⟩) id
      | trySend => exact (hold.elim id id).elim
      | select => exact hold
    · rwa [State.calls_setCall_ne _ _ hec]
  · rcases mem_update he with ⟨rfl, hmem⟩ | ⟨-, hmem⟩
    · exact h _ e (Finset.mem_of_mem_erase hmem)
    · exact h _ e hmem

theorem holdersKnown_run {capacity : Ch → Option ℕ} {as : List (Act Ch C T)}
    (h : Run next (State.init capacity) as s) : HoldersKnown s :=
  h.invariant (fun _ _ hmem => absurd hmem (Finset.notMem_empty _)) fun _ _ _ h _ hn => h.next hn

/-- Called in `s` and then run alone, the call `c` of `m` returns `r`. -/
def Returns (s : State Ch C T) (c : C) (m : Method Ch C T) (r : PyResult (Ret T)) : Prop :=
  ∃ u as t, next s (.invoke c m) = some u ∧
    RunWith next (fun _ a => ∃ arm, a = .step c arm) u as t ∧ t.calls c = .done m r

/-- `close` has returned, the buffer is empty, and no send into `x` and no `select` is in progress. -/
structure Finished (s : State Ch C T) (x : Ch) : Prop where
  close : CloseReturned s x
  queue : (s.chan x).fifo.queue = []
  quiet : ∀ c m pc, s.calls c = .run m pc →
    (∀ item timeout, m ≠ .send x item timeout) ∧ ∀ ops timeout, m ≠ .select ops timeout

/-- A `recv` and a `try_recv` that begin now both raise that the channel is closed and empty. -/
def Alike (s : State Ch C T) (c : C) (x : Ch) : Prop :=
  (∀ r, Returns s c (.recv x none) r ↔ r = .error closedAndEmptyErr) ∧
    ∀ r, Returns s c (.tryRecv x) r ↔ r = .error closedAndEmptyErr

/-- On its own, a `recv` of a closed and empty channel goes nowhere else. -/
theorem recv_ends {as : List (Act Ch C T)}
    (h : RunWith next (fun _ a => ∃ arm, a = .step c arm) u as t)
    (hqueue : (u.chan x).fifo.queue = []) (hu : u.calls c = .run (.recv x none) (.recv .tryRecv)) :
    (t.chan x).fifo.queue = [] ∧ ((∃ pc, pc ≠ .arm ∧ t.calls c = .run (.recv x none) (.recv pc)) ∨
      t.calls c = .done (.recv x none) (.error closedAndEmptyErr)) := by
  induction h with
  | nil => exact ⟨hqueue, .inl ⟨_, by simp, hu⟩⟩
  | snoc _ hp hn ih =>
      obtain ⟨arm, rfl⟩ := hp
      obtain ⟨hempty, ⟨pc, hpc, hs⟩ | hs⟩ := ih
      · obtain ⟨m, pc', chan', k, h₀, hstep, rfl⟩ := next_step hn
        rw [hs] at h₀
        cases h₀
        rw [State.calls_setCall_self, State.chan_setCall]
        cases hstep with
        | recvGoto hstep =>
            dsimp only
            rw [Function.update_self]
            cases hstep with
            | missed => exact ⟨hempty, .inl ⟨_, by simp, rfl⟩⟩
            | armed => exact (hpc rfl).elim
            | closed => exact ⟨hempty, .inl ⟨_, by simp, rfl⟩⟩
        | recvRet hstep =>
            dsimp only
            rw [Function.update_self]
            cases hstep with
            | received _ hpop =>
                rw [Fifo.pop_eq_none.mpr hempty] at hpop
                cases hpop
            | rejected => exact (hpc rfl).elim
            | disconnected => exact ⟨hempty, .inr rfl⟩
            | timedOut htimeout => cases htimeout
            | drained => exact ⟨hempty, .inr rfl⟩
      · obtain ⟨m, pc', chan', k, h₀, -, -⟩ := next_step hn
        rw [hs] at h₀
        cases h₀

theorem next_recv {timeout : Option PyFloat} {pc : RecvPc} {arm : Arm} {ch : Chan C C T}
    {out : Out RecvPc T} (h₀ : u.calls c = .run (.recv x timeout) (.recv pc))
    (hstep : (u.chan x).recvStep c timeout pc arm = some (ch, out)) :
    next u (.step c arm) = some ((u.setChan x ch).resume c (.recv x timeout) .recv .item out) := by
  simp only [next, h₀, stepCall, hstep, Option.map_some]

/-- A `recv` goes on to another statement and leaves the channel as it is. -/
theorem next_recv_goto {timeout : Option PyFloat} {pc pc' : RecvPc} {arm : Arm}
    (h₀ : u.calls c = .run (.recv x timeout) (.recv pc))
    (hstep : (u.chan x).recvStep c timeout pc arm = some (u.chan x, .goto pc')) :
    ∃ t, next u (.step c arm) = some t ∧ t.chan x = u.chan x ∧
      t.calls c = .run (.recv x timeout) (.recv pc') :=
  ⟨_, next_recv h₀ hstep, State.chan_setChan_self _ _ _, State.calls_setCall_self _ _ _⟩

theorem recv_returns_iff (hclose : (s.chan x).closeTx = false)
    (hqueue : (s.chan x).fifo.queue = []) (hc : s.calls c = .idle) (r : PyResult (Ret T)) :
    Returns s c (.recv x none) r ↔ r = .error closedAndEmptyErr := by
  have hinvoke : next s (.invoke c (.recv x none))
      = some (s.setCall c (.run (.recv x none) (.recv .tryRecv))) := by
    simp [next, hc, State.usable, State.start, RecvPc.start]
  constructor
  · rintro ⟨u, as, t, hu, hrun, ht⟩
    rw [hinvoke] at hu
    cases hu
    obtain ⟨-, ⟨pc, -, hpc⟩ | hdone⟩ := recv_ends hrun hqueue (State.calls_setCall_self _ _ _)
    · rw [ht] at hpc
      cases hpc
    · rw [ht] at hdone
      injection hdone
  · rintro rfl
    have hpop : (s.chan x).fifo.pop c = none := Fifo.pop_eq_none.mpr hqueue
    -- it misses the item, takes the close arm, and looks once more
    obtain ⟨s₁, hn₁, hchan₁, hc₁⟩ := next_recv_goto (State.calls_setCall_self s c _)
      (show (s.chan x).recvStep c none .tryRecv .go = some (s.chan x, .goto .select) by
        simp only [Chan.recvStep, hpop])
    rw [State.chan_setCall] at hchan₁
    obtain ⟨s₂, hn₂, hchan₂, hc₂⟩ := next_recv_goto hc₁
      (show (s₁.chan x).recvStep c none .select .close = some (s₁.chan x, .goto .recheck) by
        simp [Chan.recvStep, hchan₁, hclose])
    have hn₃ := next_recv hc₂
      (show (s₂.chan x).recvStep c none .recheck .go
          = some ((s₂.chan x).conclude, .ret (.error closedAndEmptyErr)) by
        simp only [Chan.recvStep, hchan₂, hchan₁, hpop])
    refine ⟨_, _, _, hinvoke, .snoc (.snoc (.snoc .nil ⟨_, rfl⟩ hn₁) ⟨_, rfl⟩ hn₂) ⟨_, rfl⟩ hn₃, ?_⟩
    exact State.calls_setCall_self _ _ _

/-- What `try_recv` says of an empty channel. -/
def emptyReport (ch : Chan C C T) : PyErr := if ch.disconnected then closedAndEmptyErr else emptyErr

omit [DecidableEq T] in
theorem Chan.TryRecvStep.report {ch ch' : Chan C C T} {r : PyResult T}
    (h : Chan.TryRecvStep ch c (ch', r)) (hqueue : ch.fifo.queue = []) :
    r = .error (emptyReport ch) := by
  unfold emptyReport
  cases h with
  | received hpop =>
      rw [Fifo.pop_eq_none.mpr hqueue] at hpop
      cases hpop
  | disconnected _ hdisc => rw [if_pos hdisc]
  | empty _ hdisc => rw [if_neg hdisc]

/-- The one step of a `try_recv` of an empty channel. -/
theorem next_tryRecv (hqueue : (u.chan x).fifo.queue = [])
    (h₀ : u.calls c = .run (.tryRecv x) .once) : ∃ t, next u (.step c .go) = some t ∧
      t.calls c = .done (.tryRecv x) (.error (emptyReport (u.chan x))) := by
  have hreport : ((u.chan x).tryRecv c).2 = .error (emptyReport (u.chan x)) :=
    (Chan.tryRecv_cases (u.chan x) c).report hqueue
  simp only [next, h₀, stepCall]
  refine ⟨_, rfl, ?_⟩
  rw [State.calls_setCall_self, hreport]
  rfl

/-- On its own, a `try_recv` of an empty channel takes that step and no other. -/
theorem tryRecv_ends {as : List (Act Ch C T)}
    (h : RunWith next (fun _ a => ∃ arm, a = .step c arm) u as t)
    (hqueue : (u.chan x).fifo.queue = []) (hu : u.calls c = .run (.tryRecv x) .once) :
    t = u ∨ t.calls c = .done (.tryRecv x) (.error (emptyReport (u.chan x))) := by
  induction h with
  | nil => exact .inl rfl
  | snoc _ hp hn ih =>
      obtain ⟨arm, rfl⟩ := hp
      obtain ⟨m, pc, chan', k, h₀, hstep, rfl⟩ := next_step hn
      right
      rcases ih with rfl | hs
      · rw [hu] at h₀
        cases h₀
        rw [State.calls_setCall_self]
        cases hstep with
        | tryRecv hstep =>
            rw [hstep.report hqueue]
            rfl
      · rw [hs] at h₀
        cases h₀

/-- What a `try_recv` of an empty channel returns tells whether a clone of the sender is left. -/
theorem tryRecv_returns_iff (hqueue : (s.chan x).fifo.queue = []) (hc : s.calls c = .idle)
    (r : PyResult (Ret T)) :
    Returns s c (.tryRecv x) r ↔ r = .error (emptyReport (s.chan x)) := by
  have hinvoke : next s (.invoke c (.tryRecv x)) = some (s.setCall c (.run (.tryRecv x) .once)) := by
    simp [next, hc, State.usable, State.start]
  have hself : (s.setCall c (.run (.tryRecv x) .once)).calls c = .run (.tryRecv x) .once :=
    State.calls_setCall_self _ _ _
  constructor
  · rintro ⟨u, as, t, hu, hrun, ht⟩
    rw [hinvoke] at hu
    cases hu
    rcases tryRecv_ends hrun hqueue hself with rfl | hdone
    · rw [hself] at ht
      cases ht
    · rw [ht] at hdone
      injection hdone
  · rintro rfl
    obtain ⟨t, hn, ht⟩ := next_tryRecv (u := s.setCall c _) hqueue hself
    exact ⟨_, _, _, hinvoke, .snoc .nil ⟨_, rfl⟩ hn, ht⟩

omit [DecidableEq C] [DecidableEq T] in
/-- Once a channel is finished, its queue is disconnected exactly when no `SendOp` of it is left. -/
theorem Finished.disconnected_iff (h : Finished s x) (hclosed : ClosedInOrder s)
    (hknown : HoldersKnown s) :
    (s.chan x).disconnected ↔ ∀ o, (s.calls o).IsOp x → o ∉ (s.chan x).senders := by
  constructor
  · rintro ⟨-, hsenders⟩ o -
    rw [hsenders]
    exact Finset.notMem_empty o
  · intro hops
    refine ⟨h.close.sender hclosed, ?_⟩
    apply Finset.eq_empty_of_forall_notMem
    intro o ho
    rcases hknown x o ho with hholds | hop
    · cases hk : s.calls o with
      | idle =>
          rw [hk] at hholds
          exact hholds
      | done m r =>
          rw [hk] at hholds
          exact hholds
      | run m pc =>
          obtain ⟨hsend, hselect⟩ := h.quiet o m pc hk
          rw [hk] at hholds
          unfold Call.Holds at hholds
          split at hholds
          · rename_i hrun
            cases hrun
            obtain ⟨rfl, -⟩ := hholds
            exact hsend _ _ rfl
          · rename_i hrun
            cases hrun
            exact hselect _ _ rfl
          · exact hholds
    · exact hops o hop ho

/-- In every reachable state in which a channel is finished, a `recv` that begins raises that it is
closed and empty, and a `try_recv` raises the same if and only if no `SendOp` made from the channel is
left. -/
theorem alike_iff (capacity : Ch → Option ℕ) (x : Ch) (as : List (Act Ch C T)) (s : State Ch C T)
    (hrun : Run next (State.init capacity) as s) (hfinished : Finished s x) (c : C)
    (hc : s.calls c = .idle) :
    Alike s c x ↔ ∀ o, (s.calls o).IsOp x → o ∉ (s.chan x).senders := by
  have hclosed := closedInOrder_run hrun
  have hclose : (s.chan x).closeTx = false := by
    obtain ⟨d, hd⟩ := hfinished.close
    exact (hclosed.knows d).closed x hd
  rw [← hfinished.disconnected_iff hclosed (holdersKnown_run hrun)]
  constructor
  · intro halike
    by_contra hdisc
    have hempty : Returns s c (.tryRecv x) (.error emptyErr) := by
      rw [tryRecv_returns_iff hfinished.queue hc, emptyReport, if_neg hdisc]
    have hsame := (halike.2 _).mp hempty
    simp [emptyErr, closedAndEmptyErr] at hsame
  · intro hdisc
    refine ⟨recv_returns_iff hclose hfinished.queue hc, fun r => ?_⟩
    rw [tryRecv_returns_iff hfinished.queue hc, emptyReport, if_pos hdisc]

/-- A channel is closed while nothing else is going on. -/
def closedTrace : List (Act Unit ℕ ℕ) := [.invoke 0 (.close ()), .step 0 .go, .step 0 .go]

theorem closedTrace_exec :
    (exec next (fun _ _ => True) (State.init fun _ => none) closedTrace).map (fun s => decide
      (s.calls 0 = .done (.close ()) (.ok .unit) ∧ s.calls 1 = .idle ∧
        (s.chan ()).fifo.queue = [] ∧ (s.chan ()).senders = ∅)) = some true := by
  decide +kernel

/-- When a run has begun no send and no `select`, none is in progress. -/
theorem finished_of_invoked {capacity : Ch → Option ℕ} {as : List (Act Ch C T)}
    (hrun : Run next (State.init capacity) as s) (hclose : CloseReturned s x)
    (hqueue : (s.chan x).fifo.queue = [])
    (has : ∀ c m, .invoke c m ∈ as →
      (∀ item timeout, m ≠ .send x item timeout) ∧ ∀ ops timeout, m ≠ .select ops timeout) :
    Finished s x where
  close := hclose
  queue := hqueue
  quiet c m pc hc := has c m (invoked_run hrun (by rw [hc]; rfl))

theorem alike_closedTrace :
    ∃ s : State Unit ℕ ℕ, Run next (State.init fun _ => none) closedTrace s ∧ Finished s () ∧
      Alike s 1 () := by
  obtain ⟨s, hrun, hs⟩ := exists_runWith_of_exec closedTrace_exec
  obtain ⟨hclosed, hidle, hqueue, hsenders⟩ := of_decide_eq_true hs
  have hfinished : Finished s () := by
    refine finished_of_invoked hrun ⟨0, by rw [hclosed]; exact Eq.refl ()⟩ hqueue ?_
    intro c m hm
    simp only [closedTrace, List.mem_cons, List.not_mem_nil, or_false, Act.invoke.injEq,
      reduceCtorEq] at hm
    obtain ⟨-, rfl⟩ := hm
    exact ⟨by simp, by simp⟩
  refine ⟨s, hrun, hfinished, (alike_iff (fun _ => none) () closedTrace s hrun hfinished 1 hidle).mpr ?_⟩
  intro o _
  rw [hsenders]
  exact Finset.notMem_empty o

theorem closedWithOpTrace_left :
    (exec next (fun _ _ => True) (State.init fun _ => none) closedWithOpTrace).map (fun s => decide
      (s.calls 1 = .done (.close ()) (.ok .unit) ∧ s.calls 2 = .idle ∧
        (s.chan ()).fifo.queue = [] ∧ 0 ∈ (s.chan ()).senders)) = some true := by
  decide +kernel

/-- With a `SendOp` left, a `try_recv` of a finished channel says that it is empty, not closed. -/
theorem not_always_alike :
    ¬ ∀ (Ch C T : Type) [DecidableEq Ch] [DecidableEq C] [DecidableEq T]
      (capacity : Ch → Option ℕ) (x : Ch) (as : List (Act Ch C T)) (s : State Ch C T),
      Run next (State.init capacity) as s → Finished s x → ∀ c, s.calls c = .idle → Alike s c x := by
  intro h
  obtain ⟨s, hrun, hs⟩ := exists_runWith_of_exec closedWithOpTrace_left
  obtain ⟨hclosed, hidle, hqueue, hleft⟩ := of_decide_eq_true hs
  have hfinished : Finished s () := by
    refine finished_of_invoked hrun ⟨1, by rw [hclosed]; exact Eq.refl ()⟩ hqueue ?_
    intro c m hm
    simp only [closedWithOpTrace, List.mem_cons, List.not_mem_nil, or_false, Act.invoke.injEq,
      reduceCtorEq, false_or] at hm
    rcases hm with ⟨-, rfl⟩ | ⟨-, rfl⟩ <;> exact ⟨by simp, by simp⟩
  have hdisc : ¬ (s.chan ()).disconnected := by
    rintro ⟨-, hsenders⟩
    rw [hsenders] at hleft
    exact absurd hleft (Finset.notMem_empty 0)
  have halike := h Unit ℕ ℕ (fun _ => none) () closedWithOpTrace s hrun hfinished 2 hidle
  have hempty : Returns s 2 (.tryRecv ()) (.error emptyErr) := by
    rw [tryRecv_returns_iff hqueue hidle, emptyReport, if_neg hdisc]
  have hsame := (halike.2 _).mp hempty
  simp [emptyErr, closedAndEmptyErr] at hsame

end Pysync.Channel
