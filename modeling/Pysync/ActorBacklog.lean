import Pysync.ActorSurvival

/-!
What the worker of an actor has executed by the time it exits, under clients that cancel no futures,
and the two ways in which it can leave accepted messages behind.
-/

namespace Pysync.Actor
open Queue Channel Transition

variable {C E V : Type} [DecidableEq C] {s t s' : State C E V} {a : Act C E V} {c d : C}
variable {m : Method C} {arm : Arm} {pc : Pc} {k : Call C} {msg : Msg C} {why : Why C}
variable {batch : List (Msg C)}

/-- The plain loop over the mailbox: what is accepted before the first sentinel is executed, in order;
without a sentinel, what is accepted before the mailbox is closed, and maybe more. -/
structure Complete (s : State C E V) : Prop where
  sentinel : Msg.stop ∈ s.sent → s.executed = s.sent.takeWhile (· ≠ .stop)
  closed : Msg.stop ∉ s.sent → s.executed <+: s.sent ∧
    ∀ n, s.closedAt = some n → s.sent.take n <+: s.executed

/-- The worker has left its loop because of a closed mailbox, with `batch` in hand. -/
def State.LeftWith (s : State C E V) (batch : List (Msg C)) : Prop :=
  s.worker = .onStop (.closed batch) ∨ s.worker = .exited (.closed batch)

/-- A message accepted before the close has not been executed, or one before the first sentinel is
still waiting. -/
def Leaves (s : State C E V) : Prop :=
  (∃ n, s.closedAt = some n ∧ s.executed.length < n) ∨
  Msg.stop ∈ s.mailbox.fifo.queue ∧ ∃ c b rest, s.mailbox.fifo.queue = .call c b :: rest

/-- A worker that has left because of a closed mailbox leaves nothing behind. -/
def Kept (s : State C E V) : Prop := ∀ batch, s.LeftWith batch → ¬ Leaves s

/-- The worker, filling its batch, finds the mailbox disconnected, with messages in hand that were
accepted before the close. -/
def DropsBatch (s : State C E V) : Act C E V → Prop
  | .work _ => (∃ batch, s.worker = .drain batch) ∧ s.mailbox.fifo.queue = [] ∧
      s.mailbox.disconnected ∧ ∃ n, s.closedAt = some n ∧ s.executed.length < n
  | _ => False

/-- The sentinel of a `stop` is about to be accepted after the worker has left because of a closed
mailbox, and a message of a call is first in line. -/
def LateSentinel (s : State C E V) : Act C E V → Prop
  | .step c arm => (∃ timeout pc, s.calls c = .run (.stop timeout) (.send pc) ∧
      (pc.offer arm).isSome = true) ∧ s.mailbox.fifo.hasRoom = true ∧ (∃ batch, s.LeftWith batch) ∧
      ∃ d b rest, s.mailbox.fifo.queue = .call d b :: rest
  | _ => False

def Keeps (s : State C E V) (a : Act C E V) : Prop := ¬ DropsBatch s a ∧ ¬ LateSentinel s a

/-- What is known of a worker that has left because of a closed mailbox. -/
structure LeftClosed (s : State C E V) (batch : List (Msg C)) : Prop where
  sender : s.mailbox.sender = false
  dropped : batch ≠ [] → s.mailbox.fifo.queue = [] ∧ s.mailbox.senders = ∅
  kept : batch = [] → ∀ n, s.closedAt = some n → n ≤ s.executed.length

theorem UserStep.leftWith (h : UserStep s t) (ht : t.LeftWith batch) : s.LeftWith batch :=
  h.left ht

theorem UserStep.closedAt (h : UserStep s t) : t.closedAt = s.closedAt := by
  cases h <;> rfl

theorem CallStep.leftWith (h : CallStep s c m arm pc s' k) :
    s'.LeftWith batch ↔ s.LeftWith batch := by
  unfold State.LeftWith
  rcases h.worker with hworker | ⟨-, habsent, hstart⟩
  · rw [hworker]
  · rw [habsent, hstart]
    simp

omit [DecidableEq C] in
theorem Takes.not_leftWith {w w' : Worker C E V} (h : Takes w msg w') :
    ¬ (w' = .onStop (.closed batch) ∨ w' = .exited (.closed batch)) := fun hw => by
  cases (h.left hw).1

/-- Once the mailbox is closed, closing it again changes nothing. -/
theorem CallStep.closedAt (h : CallStep s c m arm pc s' k) (hc : Closing s)
    (hsender : s.mailbox.sender = false) : s'.closedAt = s.closedAt := by
  cases h with
  | dropSender =>
      show s.closedAt.or _ = _
      cases hclosed : s.closedAt with
      | none =>
          rw [hc.closedAt.mp hclosed] at hsender
          cases hsender
      | some n => rfl
  | _ => rfl

/-- How a worker comes to have left because of a closed mailbox: it had already, or it found the
mailbox closed in `recv` or in `try_recv`. -/
theorem WorkStep.leftWith (h : WorkStep s t) (ht : t.LeftWith batch) :
    t.executed = s.executed ∧ t.closedAt = s.closedAt ∧ t.mailbox = s.mailbox.conclude ∧
    s.mailbox.fifo.queue = [] ∧
    ((∃ pc, s.worker = .recv pc ∧ (pc = .recheck ∨ s.mailbox.disconnected)) ∧ batch = [] ∨
      s.worker = .drain batch ∧ s.mailbox.disconnected) := by
  cases h with
  | take htakes => exact (htakes.not_leftWith ht).elim
  | recvClosed hworker hqueue hclosed =>
      rcases ht with ht | ht <;> cases ht
      exact ⟨rfl, rfl, rfl, hqueue, .inl ⟨⟨_, hworker, hclosed⟩, rfl⟩⟩
  | drainClosed hworker hqueue hdisc =>
      rcases ht with ht | ht <;> cases ht
      exact ⟨rfl, rfl, rfl, hqueue, .inr ⟨hworker, hdisc⟩⟩
  | _ => rcases ht with ht | ht <;> cases ht

omit [DecidableEq C] in
theorem LeftClosed.aside (h : LeftClosed s batch) (hsender : t.mailbox.sender = false)
    (hdropped : batch ≠ [] → s.mailbox.fifo.queue = [] → s.mailbox.senders = ∅ →
      t.mailbox.fifo.queue = [] ∧ t.mailbox.senders = ∅)
    (hexec : t.executed = s.executed) (hclosedAt : t.closedAt = s.closedAt) :
    LeftClosed t batch := by
  refine ⟨hsender, fun hne => ?_, fun hnil n hn => ?_⟩
  · obtain ⟨hqueue, hsenders⟩ := h.dropped hne
    exact hdropped hne hqueue hsenders
  · rw [hexec]
    exact h.kept hnil n (hclosedAt ▸ hn)

/-- Nothing comes into a mailbox that is disconnected. -/
theorem CallStep.disconnected (h : CallStep s c m arm pc s' k) (hcall : s.calls c = .run m pc)
    (hclones : Clones s) (hsender : s.mailbox.sender = false) (hsenders : s.mailbox.senders = ∅) :
    s'.mailbox.fifo = s.mailbox.fifo ∧ s'.mailbox.senders = ∅ := by
  constructor
  · rcases h.mailbox with hfifo | ⟨pc₀, msg, rfl, hmsg, hoffer, -, -⟩
    · exact hfifo
    · have hmem : c ∈ s.mailbox.senders := by
        refine hclones c m pc₀ hcall ?_
        rintro rfl
        cases hoffer
      simp [hsenders] at hmem
  · cases h with
    | cloned hopen =>
        rw [hsender] at hopen
        cases hopen
    | sent =>
        show s.mailbox.senders.erase c = ∅
        rw [hsenders]
        rfl
    | _ => exact hsenders

theorem LeftClosed.next (hl : Ledger s) (hc : Closing s) (hclones : Clones s)
    (h : ∀ batch, s.LeftWith batch → LeftClosed s batch) (hn : next s a = some t)
    (ht : t.LeftWith batch) : LeftClosed t batch := by
  have hsender' := sender_next hn
  cases next_cases hn with
  | invoke => exact (h batch ht).aside (h batch ht).sender (fun _ hq hs => ⟨hq, hs⟩) rfl rfl
  | call hcall hstep =>
      have hleft := h batch (hstep.leftWith.mp ht)
      refine hleft.aside (hsender' hleft.sender) (fun hne hqueue hsenders => ?_) hstep.executed
        (hstep.closedAt hc hleft.sender)
      obtain ⟨hfifo, hnone⟩ := hstep.disconnected hcall hclones hleft.sender hsenders
      exact ⟨(congrArg Fifo.queue hfifo).trans hqueue, hnone⟩
  | work hstep =>
      obtain ⟨hexec, hclosedAt, hmailbox, hqueue, hfrom⟩ := hstep.leftWith ht
      have hclosed : s.mailbox.sender = false := by
        rcases hfrom with ⟨⟨pc, hworker, rfl | hdisc⟩, -⟩ | ⟨-, hdisc⟩
        · exact hc.sender (hc.recheck hworker)
        · exact hdisc.1
        · exact hdisc.1
      refine ⟨hsender' hclosed, fun hne => ?_, fun hnil n hn => ?_⟩
      · rcases hfrom with ⟨-, hnil⟩ | ⟨-, hdisc⟩
        · exact (hne hnil).elim
        · rw [hmailbox]
          exact ⟨hqueue, hdisc.2⟩
      · have hacc := hl.accepted
        have hbound := hc.bound n (hclosedAt ▸ hn)
        have hholding : s.worker.holding = [] := by
          rcases hfrom with ⟨⟨pc, hworker, -⟩, -⟩ | ⟨hworker, -⟩
          · rw [hworker]
            rfl
          · rw [hworker, hnil]
            rfl
        rw [hqueue, hholding, List.append_nil, List.append_nil] at hacc
        rw [hexec, ← hacc, List.length_map]
        exact hbound
  | user ha hstep =>
      have hleft := h batch (hstep.leftWith ht)
      refine hleft.aside (hsender' hleft.sender) (fun _ hq hs => ?_) hstep.executed hstep.closedAt
      rw [hstep.mailbox]
      exact ⟨hq, hs⟩
  | handoff hcall hmsg hoffer htakes hcap hpass => exact (htakes.not_leftWith ht).elim
  | cancel => exact (h batch ht).aside (h batch ht).sender (fun _ hq hs => ⟨hq, hs⟩) rfl rfl

theorem leftClosed_run {capacity : Option ℕ} {P : State C E V → Act C E V → Prop}
    {as : List (Act C E V)} (h : RunWith next P (State.init capacity) as s)
    (hleft : s.LeftWith batch) : LeftClosed s batch := by
  induction h generalizing batch with
  | nil => rcases hleft with hw | hw <;> cases hw
  | snoc hr _ hn ih =>
      exact LeftClosed.next (ledger_run hr) (closing_run hr) (clones_run hr) (fun _ => ih) hn hleft

omit [DecidableEq C] in
theorem Leaves.mono (h : Leaves s) (hexec : t.executed = s.executed)
    (hclosedAt : ∀ n, s.closedAt = some n → t.closedAt = some n)
    (hqueue : s.mailbox.fifo.queue <+: t.mailbox.fifo.queue) : Leaves t := by
  rcases h with ⟨n, hn, hlt⟩ | ⟨hstop, c, b, rest, hrest⟩
  · exact .inl ⟨n, hclosedAt n hn, hexec ▸ hlt⟩
  · obtain ⟨post, hpost⟩ := hqueue
    refine .inr ⟨hpost ▸ List.mem_append_left _ hstop, c, b, rest ++ post, ?_⟩
    rw [← hpost, hrest]
    rfl

theorem CallStep.closedAt_keep (h : CallStep s c m arm pc s' k) {n : ℕ}
    (hn : s.closedAt = some n) : s'.closedAt = some n := by
  cases h with
  | dropSender =>
      show s.closedAt.or _ = _
      rw [hn]
      rfl
  | _ => exact hn

theorem CallStep.queue_prefix (h : CallStep s c m arm pc s' k) :
    s.mailbox.fifo.queue <+: s'.mailbox.fifo.queue := by
  rcases h.mailbox with hfifo | ⟨_, msg, _, _, _, hpush, _⟩
  · rw [hfifo]
  · rw [(Fifo.push_eq_some.mp hpush).2.2.1]
    exact List.prefix_append _ _

/-- What has been left behind stays behind. -/
theorem kept_of_next (hn : next s a = some t) (h : Kept t) : Kept s := by
  intro batch hleft hleaves
  cases next_cases hn with
  | call hcall hstep =>
      exact h batch (hstep.leftWith.mpr hleft) (hleaves.mono hstep.executed
        (fun n => hstep.closedAt_keep) hstep.queue_prefix)
  | work hstep =>
      cases hstep with
      | take htakes =>
          rcases hleft with hw | hw <;> rw [hw] at htakes <;> cases htakes
      | _ hworker => rcases hleft with hw | hw <;> rw [hw] at hworker <;> cases hworker
  | user ha hstep =>
      cases hstep with
      | onStop hworker =>
          rcases hleft with hw | hw <;> rw [hw] at hworker <;> cases hworker
          exact h batch (.inr rfl) (hleaves.mono rfl (fun _ => id) List.prefix_rfl)
      | ready hworker =>
          rcases hleft with hw | hw <;> rw [hw] at hworker <;> rcases hworker with hw' | hw' <;>
            cases hw'
      | _ hworker => rcases hleft with hw | hw <;> rw [hw] at hworker <;> cases hworker
  | handoff hcall hmsg hoffer htakes hcap hpass =>
      rcases hleft with hw | hw <;> rw [hw] at htakes <;> cases htakes
  | _ => exact h batch hleft (hleaves.mono rfl (fun _ => id) List.prefix_rfl)

/-- A message that comes in after the worker has left does harm only if it is a sentinel behind the
message of a call. -/
theorem kept_call (hc : Closing s) (hleftClosed : ∀ batch, s.LeftWith batch → LeftClosed s batch)
    (hkept : Kept s) (hcall : s.calls c = .run m pc) (hstep : CallStep s c m arm pc s' k)
    (hlate : ¬ LateSentinel s (.step c arm)) : Kept (s'.setCall c k) := by
  intro batch hleft hleaves
  have hs := hstep.leftWith.mp hleft
  have hclosedAt := hstep.closedAt hc (hleftClosed batch hs).sender
  have hbefore : (∃ n, s'.closedAt = some n ∧ s'.executed.length < n) → False := by
    rintro ⟨n, hn, hlt⟩
    exact hkept batch hs (.inl ⟨n, hclosedAt ▸ hn, hstep.executed ▸ hlt⟩)
  rcases hleaves with hclosed | ⟨hstop, d, b, rest, hrest⟩
  · exact hbefore hclosed
  change Msg.stop ∈ s'.mailbox.fifo.queue at hstop
  change s'.mailbox.fifo.queue = _ at hrest
  rcases hstep.mailbox with hfifo | ⟨pc₀, msg, rfl, hmsg, hoffer, hpush, rfl⟩
  · rw [hfifo] at hstop hrest
    exact hkept batch hs (.inr ⟨hstop, d, b, rest, hrest⟩)
  · obtain ⟨hroom, -, hqueue, -, -⟩ := Fifo.push_eq_some.mp hpush
    rw [hqueue] at hstop hrest
    cases hold : s.mailbox.fifo.queue with
    | nil =>
        rw [hold] at hstop hrest
        cases hrest
        simp at hstop
    | cons x queue =>
        rw [hold] at hrest
        obtain ⟨rfl, -⟩ := List.cons.inj hrest
        rcases List.mem_append.mp hstop with hstop | hstop
        · exact hkept batch hs (.inr ⟨hstop, d, b, queue, hold⟩)
        · rw [List.mem_singleton] at hstop
          subst hstop
          have hm : ∃ timeout, m = .stop timeout := by
            cases m <;> cases hmsg
            exact ⟨_, rfl⟩
          obtain ⟨timeout, rfl⟩ := hm
          exact hlate ⟨⟨timeout, pc₀, hcall, hoffer⟩, hroom, ⟨batch, hs⟩, d, b, queue, hold⟩

/-- A late sentinel leaves the messages before it behind. -/
theorem not_kept_of_late (hlate : LateSentinel s (.step c arm))
    (hn : next s (.step c arm) = some t) : ¬ Kept t := by
  obtain ⟨⟨timeout, pc, hcall, hoffer⟩, hroom, ⟨batch, hleft⟩, d, b, rest, hqueue⟩ := hlate
  cases hpush : s.mailbox.fifo.push c .stop with
  | none =>
      rw [Fifo.push_eq_none.mp hpush] at hroom
      cases hroom
  | some f =>
      rw [next_send hcall rfl hoffer hpush] at hn
      cases hn
      have hf : f.queue = .call d b :: (rest ++ [.stop]) := by
        rw [(Fifo.push_eq_some.mp hpush).2.2.1, hqueue]
        rfl
      refine fun hkept => hkept batch hleft (.inr ⟨?_, d, b, rest ++ [.stop], ?_⟩)
      · show Msg.stop ∈ f.queue
        simp [hf]
      · exact hf

theorem kept_work (hleftClosed : ∀ batch, t.LeftWith batch → LeftClosed t batch)
    (hstep : WorkStep s t) : Keeps s (.work arm) ↔ Kept t := by
  constructor
  · rintro ⟨hdrop, -⟩ batch hleft hleaves
    obtain ⟨hexec, hclosedAt, hmailbox, hqueue, hfrom⟩ := hstep.leftWith hleft
    rcases hleaves with ⟨n, hn, hlt⟩ | ⟨hstop, -⟩
    · rcases hfrom with ⟨-, hnil⟩ | ⟨hworker, hdisc⟩
      · exact (Nat.not_lt.mpr ((hleftClosed batch hleft).kept hnil n hn)) hlt
      · exact hdrop ⟨⟨batch, hworker⟩, hqueue, hdisc, n, hclosedAt ▸ hn, hexec ▸ hlt⟩
    · rw [hmailbox] at hstop
      change Msg.stop ∈ s.mailbox.fifo.queue at hstop
      rw [hqueue] at hstop
      cases hstop
  · intro hkept
    refine ⟨?_, id⟩
    rintro ⟨⟨batch, hdrain⟩, hqueue, hdisc, n, hn, hlt⟩
    cases hstep with
    | take htakes hpop =>
        have hcons := (Fifo.pop_eq_some.mp hpop).2.1
        rw [hqueue] at hcons
        cases hcons
    | drainEmpty hworker hqueue hopen => exact hopen hdisc
    | drainClosed hworker => exact hkept _ (.inl rfl) (.inl ⟨n, hn, hlt⟩)
    | _ hworker =>
        rw [hdrain] at hworker
        cases hworker

theorem kept_next (hc : Closing s) (hleftClosed : ∀ batch, s.LeftWith batch → LeftClosed s batch)
    (hleftClosed' : ∀ batch, t.LeftWith batch → LeftClosed t batch) (hkept : Kept s)
    (hn : next s a = some t) : Keeps s a ↔ Kept t := by
  cases next_cases hn with
  | invoke => exact ⟨fun _ => hkept, fun _ => ⟨id, id⟩⟩
  | call hcall hstep =>
      exact ⟨fun h => kept_call hc hleftClosed hkept hcall hstep h.2,
        fun h => ⟨id, fun hlate => not_kept_of_late hlate hn h⟩⟩
  | work hstep => exact kept_work hleftClosed' hstep
  | user ha hstep =>
      refine ⟨fun _ batch hleft hleaves => hkept batch (hstep.leftWith hleft) ?_, fun _ => ?_⟩
      · exact hleaves.mono hstep.executed.symm (fun n hn => hstep.closedAt ▸ hn)
          (by rw [hstep.mailbox])
      · cases a <;> first | exact ⟨id, id⟩ | cases ha
  | handoff hcall hmsg hoffer htakes =>
      exact ⟨fun _ batch hleft => (htakes.not_leftWith hleft).elim, fun _ => ⟨id, id⟩⟩
  | cancel => exact ⟨fun _ => hkept, fun _ => ⟨id, id⟩⟩

theorem takeWhile_stop {pre post : List (Msg C)} (h : Msg.stop ∉ pre) :
    (pre ++ .stop :: post).takeWhile (· ≠ .stop) = pre := by
  rw [List.takeWhile_append_of_pos fun x hx => by simpa using fun (hstop : x = .stop) => h (hstop ▸ hx)]
  simp

/-- Once the worker has left for a sentinel, it has executed all that was accepted before it. -/
theorem complete_of_sentinel (hl : Ledger s) (hworker : s.worker = .exited .sentinel) :
    Complete s := by
  have hsent : s.sent = s.executed ++ .stop :: s.mailbox.fifo.queue := by
    have hacc := hl.accepted
    rw [hworker] at hacc
    simpa [State.sent, Worker.holding, Why.holding] using hacc
  constructor
  · intro _
    rw [hsent, takeWhile_stop hl.executed]
  · intro hnone
    rw [hsent] at hnone
    simp at hnone

/-- A worker that has left because of a closed mailbox has done its part if and only if it has left
nothing behind. -/
theorem complete_closed (hl : Ledger s) (hc : Closing s) (hleft : LeftClosed s batch)
    (hworker : s.worker = .exited (.closed batch)) : Complete s ↔ ¬ Leaves s := by
  have hacc : s.sent = s.executed ++ (batch ++ s.mailbox.fifo.queue) := by
    have hacc := hl.accepted
    rw [hworker] at hacc
    simpa [State.sent, Worker.holding, Why.holding] using hacc
  have hbatch : Msg.stop ∉ batch := by
    have htidy := hl.tidy
    rwa [hworker] at htidy
  have hempty : s.mailbox.fifo.queue ≠ [] → batch = [] := fun hne => by
    by_contra hbatch
    exact hne (hleft.dropped hbatch).1
  have hqueue : Msg.stop ∈ s.sent ↔ Msg.stop ∈ s.mailbox.fifo.queue := by
    rw [hacc]
    simp [hl.executed, hbatch]
  constructor
  · rintro ⟨hsentinel, hclosed⟩ (⟨n, hn, hlt⟩ | ⟨hstop, d, b, rest, hrest⟩)
    · by_cases hstop : Msg.stop ∈ s.sent
      · have hnil := hempty (List.ne_nil_of_mem (hqueue.mp hstop))
        exact Nat.not_lt.mpr (hleft.kept hnil n hn) hlt
      · have hle := ((hclosed hstop).2 n hn).length_le
        have hbound := hc.bound n hn
        rw [List.length_take, State.sent, List.length_map, min_eq_left hbound] at hle
        exact Nat.not_lt.mpr hle hlt
    · have hnil := hempty (List.ne_nil_of_mem hstop)
      have hall := hsentinel (hqueue.mpr hstop)
      rw [hacc, hnil, hrest, List.nil_append,
        List.takeWhile_append_of_pos fun x hx => by
          simpa using fun (hstop : x = .stop) => hl.executed (hstop ▸ hx)] at hall
      simp at hall
  · intro hleaves
    constructor
    · intro hstop
      have hstop := hqueue.mp hstop
      have hnil := hempty (List.ne_nil_of_mem hstop)
      cases hrest : s.mailbox.fifo.queue with
      | nil =>
          rw [hrest] at hstop
          cases hstop
      | cons x rest =>
          cases x with
          | stop => rw [hacc, hnil, hrest, List.nil_append, takeWhile_stop hl.executed]
          | call d b => exact (hleaves (.inr ⟨hstop, d, b, rest, hrest⟩)).elim
    · intro _
      refine ⟨⟨_, hacc.symm⟩, fun n hn => ?_⟩
      have hle : n ≤ s.executed.length := Nat.not_lt.mp fun hlt => hleaves (.inl ⟨n, hn, hlt⟩)
      rw [hacc, List.take_append_of_le_length hle]
      exact List.take_prefix _ _

/-- With any mailbox and under any clients that cancel no futures, any timeouts of `stop`, and any
outcomes of the method bodies and hooks: when the worker has exited it has done what the plain loop
does, if and only if no step of the run has dropped a batch that was accepted before the close or has
brought a sentinel after the worker had left. -/
theorem complete_iff (capacity : Option ℕ) (as : List (Act C E V)) (s : State C E V)
    (hrun : RunWith next (fun _ a => NoCancel a) (State.init capacity) as s) (why : Why C)
    (hexit : s.worker = .exited why) :
    Complete s ↔
      RunWith next (fun s a => NoCancel a ∧ Keeps s a) (State.init capacity) as s := by
  have hkept : Complete s ↔ Kept s := by
    cases why with
    | sentinel =>
        refine ⟨fun _ batch hleft => ?_, fun _ => complete_of_sentinel (ledger_run hrun) hexit⟩
        rcases hleft with hw | hw <;> rw [hexit] at hw <;> cases hw
    | closed batch =>
        have hleft := leftClosed_run hrun (.inr hexit)
        rw [complete_closed (ledger_run hrun) (closing_run hrun) hleft hexit]
        refine ⟨fun h batch' hleft' => h, fun h => h batch (.inr hexit)⟩
    | escaped rest => exact (leftInOrder_run hrun _ (.inr hexit)).elim
  rw [hkept]
  refine last_iff_runWith (fun batch hleft => ?_) (fun as s a t hr hs ha hn => ?_)
    (fun as s a t _ _ hn => kept_of_next hn) hrun
  · rcases hleft with hw | hw <;> cases hw
  · exact kept_next (closing_run hr) (fun _ => leftClosed_run hr)
      (fun _ => leftClosed_run (.snoc hr ha hn)) hs hn

/-- A mailbox with room for one message. While the worker is in `on_start` a call fills it, and
`stop(0)` gives up its sentinel, then its join, and closes. The worker takes the message, finds the
mailbox disconnected, and exits with the message in hand. -/
def dropTrace : List (Act ℕ Unit ℕ) :=
  [.invoke 0 .call false, .step 0 .go, .step 0 .go, .step 0 .go, .step 0 .go, .step 0 .go,
   .step 0 .go,
   .invoke 1 (.stop (some (.fin 0))) false, .step 1 .go, .step 1 .go, .step 1 .go, .step 1 .go,
   .step 1 .timer, .step 1 .go, .step 1 .timer, .step 1 .go, .step 1 .go,
   .onStart false, .work .go, .work .go, .onStop]

theorem dropTrace_exec :
    (exec next (fun _ a => NoCancel a) (State.init (some 1)) dropTrace).map (fun s => decide
      (s.worker = .exited (.closed [.call 0 true]) ∧ s.sent = [.call 0 true] ∧
        s.executed = [] ∧ s.closedAt = some 1)) = some true := by
  decide +kernel

theorem complete_iff_dropTrace :
    ∃ s, RunWith next (fun _ a => NoCancel a) (State.init (some 1)) dropTrace s ∧
      (Complete s ↔
        RunWith next (fun s a => NoCancel a ∧ Keeps s a) (State.init (some 1)) dropTrace s) := by
  obtain ⟨s, hrun, hs⟩ := exists_runWith_of_exec dropTrace_exec
  exact ⟨s, hrun, complete_iff (some 1) dropTrace s hrun _ (of_decide_eq_true hs).1⟩

/-- The worker can exit with an accepted message in hand that it never executes. -/
theorem not_always_complete :
    ¬ ∀ (C E V : Type) [DecidableEq C] (capacity : Option ℕ) (as : List (Act C E V))
      (s : State C E V), RunWith next (fun _ a => NoCancel a) (State.init capacity) as s →
      ∀ why, s.worker = .exited why → Complete s := by
  intro h
  obtain ⟨s, hrun, hs⟩ := exists_runWith_of_exec dropTrace_exec
  obtain ⟨hexit, hsent, hexec, hclosed⟩ := of_decide_eq_true hs
  have hc := (h ℕ Unit ℕ (some 1) _ s hrun _ hexit).closed (by simp [hsent])
  have hprefix := hc.2 1 hclosed
  rw [hsent, hexec] at hprefix
  simp at hprefix

end Pysync.Actor
