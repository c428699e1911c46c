import Pysync.MapSection

/-!
What a call that raises leaves behind. A locked section that does not return gives its slot back as it
found it, and a comparison runs outside the lock; so only the last section of a call that returns
writes, and a call that raises could be left out of the run.
-/

namespace Pysync.Map
open Transition ConcurrentMap

/-- Where the section does not return it gives back the slot that it found. -/
def Section.Quiet {K V : Type} (f : Section K V) : Prop :=
  ∀ slot, (f slot).2 = none → (f slot).1 = slot

section Sections

variable {K V : Type} [DecidableEq K]

theorem quiet_setFast (key : K) (value : V) : (setFast key value).Quiet := by
  intro slot h
  cases slot with
  | none => cases h
  | some list =>
      rw [setFast] at h ⊢
      split
      · rename_i hempty
        rw [if_pos hempty] at h
        cases h
      · rename_i hempty
        rw [if_neg hempty] at h
        cases hpos : position list key with
        | none => rfl
        | some pos =>
            rw [hpos] at h
            cases h

theorem quiet_setHit (value : V) (k : K) : (setHit value k).Quiet := by
  intro slot h
  cases slot with
  | none => rfl
  | some list =>
      rw [setHit] at h ⊢
      cases hpos : position list k with
      | none => rfl
      | some pos =>
          rw [hpos] at h
          cases h

/-- An entry that is still to be compared is one of a bucket that is there. -/
theorem some_of_hasUnboundCandidate {checkedKeys : List K} {slot : Option (Bucket K V)}
    (h : hasUnboundCandidate checkedKeys (slot.getD []) = true) : some (slot.getD []) = slot := by
  cases slot with
  | none => cases h
  | some list => rfl

theorem quiet_setLast (key : K) (value : V) (checkedKeys : List K) :
    (setLast key value checkedKeys).Quiet := by
  intro slot h
  simp only [setLast] at h ⊢
  split
  · rename_i hun
    exact some_of_hasUnboundCandidate hun
  · rename_i hun
    rw [if_neg hun] at h
    cases hpos : position (slot.getD []) key with
    | none =>
        rw [hpos] at h
        cases h
    | some pos =>
        rw [hpos] at h
        cases h

theorem quiet_removeFast (absent : Ret K V) (present : V → Ret K V) (key : K) :
    (removeFast absent present key).Quiet := by
  intro slot h
  cases slot with
  | none => rfl
  | some list =>
      rw [removeFast] at h ⊢
      split
      · rfl
      · rename_i hempty
        rw [if_neg hempty] at h
        cases hpos : position list key with
        | none => rfl
        | some pos =>
            rw [hpos] at h
            cases h

theorem quiet_removeHit (present : V → Ret K V) (k : K) : (removeHit present k).Quiet := by
  intro slot h
  cases slot with
  | none => rfl
  | some list =>
      rw [removeHit] at h ⊢
      cases hpos : position list k with
      | none => rfl
      | some pos =>
          rw [hpos] at h
          cases h

theorem quiet_removeLast (absent : Ret K V) (present : V → Ret K V) (key : K)
    (checkedKeys : List K) : (removeLast absent present key checkedKeys).Quiet := by
  intro slot h
  cases slot with
  | none => rfl
  | some list =>
      rw [removeLast] at h ⊢
      split
      · rfl
      · rename_i hun
        rw [if_neg hun] at h
        cases hpos : position list key with
        | none => rfl
        | some pos =>
            rw [hpos] at h
            cases h

theorem quiet_getOrInsertLast (key : K) (dflt : V) (checkedKeys : List K) :
    (getOrInsertLast key dflt checkedKeys).Quiet := by
  intro slot h
  simp only [getOrInsertLast] at h ⊢
  split
  · rename_i hun
    exact some_of_hasUnboundCandidate hun
  · rename_i hun
    rw [if_neg hun] at h
    cases hpos : position (slot.getD []) key with
    | none =>
        rw [hpos] at h
        cases h
    | some pos =>
        rw [hpos] at h
        cases h

variable {pc pc' : Pc K V} {slot slot' : Option (Bucket K V)}

omit [DecidableEq K] in
theorem leave_goto {f : Section K V} (hf : f.Quiet)
    (h : KeyOp.leave (f slot) pc = (slot', .goto pc')) : slot' = slot := by
  rw [KeyOp.leave, Prod.mk.injEq] at h
  obtain ⟨rfl, hctl⟩ := h
  refine hf slot ?_
  cases hret : (f slot).2 with
  | none => rfl
  | some r =>
      rw [hret] at hctl
      cases hctl

theorem retry_goto {fast : Section K V} {hit : K → Section K V} {last : List K → Section K V}
    (hfast : fast.Quiet) (hhit : ∀ k, (hit k).Quiet) (hlast : ∀ checkedKeys, (last checkedKeys).Quiet)
    (h : KeyOp.retry fast hit last pc slot = some (slot', .goto pc')) : slot' = slot := by
  cases pc with
  | fast => exact leave_goto hfast (Option.some.inj h)
  | collect checkedKeys =>
      cases h
      rfl
  | hit checkedKeys k => exact leave_goto (hhit k) (Option.some.inj h)
  | compare checkedKeys candidates =>
      cases candidates with
      | nil => exact leave_goto (hlast checkedKeys) (Option.some.inj h)
      | cons e rest => cases h

omit [DecidableEq K] in
theorem lookup_goto {op : KeyOp K V} (h : op.lookup pc slot = some (slot', .goto pc')) :
    slot' = slot := by
  cases pc with
  | collect checkedKeys =>
      cases h
      rfl
  | compare checkedKeys candidates => cases candidates <;> cases h
  | _ => cases h

/-- A section after which the call goes on leaves its slot as it was. -/
theorem lock_goto {op : KeyOp K V} (h : op.lock pc slot = some (slot', .goto pc')) :
    slot' = slot := by
  cases op with
  | get key => exact lookup_goto h
  | getVal key => exact lookup_goto h
  | containsKey key => exact lookup_goto h
  | getOrInsert key dflt =>
      have hquiet : Section.Quiet fun slot : Option (Bucket K V) => (slot, none) := fun _ _ => rfl
      cases pc with
      | fast => cases h
      | hit checkedKeys k => cases h
      | collect checkedKeys =>
          cases h
          rfl
      | compare checkedKeys candidates =>
          exact retry_goto hquiet (fun _ => hquiet) (quiet_getOrInsertLast key dflt) h
  | set key value =>
      exact retry_goto (quiet_setFast key value) (quiet_setHit value) (quiet_setLast key value) h
  | delete key =>
      exact retry_goto (quiet_removeFast _ _ key) (quiet_removeHit _) (quiet_removeLast _ _ key) h
  | popVal key =>
      exact retry_goto (quiet_removeFast _ _ key) (quiet_removeHit _) (quiet_removeLast _ _ key) h

end Sections

/-- Rewriting a slot by itself changes nothing. -/
theorem setSlot_slot {K V : Type} (m : ConcurrentMap K V) (h : UInt64) :
    m.setSlot h (m.slot h) = m := by
  have hlookup : ∀ (i : Fin m.shardCount) (h' : UInt64),
      ((m.setSlot h (m.slot h)).shards i).lookup h' = (m.shards i).lookup h' := by
    intro i h'
    rw [lookup_setSlot]
    split
    · rename_i hi
      rw [hi.1, hi.2]
      rfl
    · rfl
  have hshards : (m.setSlot h (m.slot h)).shards = m.shards :=
    funext fun (i : Fin m.shardCount) => Finmap.ext_lookup (hlookup i)
  obtain ⟨n, hn, shards⟩ := m
  exact congrArg (ConcurrentMap.mk n hn) hshards

variable {C K V : Type} [DecidableEq C] [DecidableEq K] {hash : K → UInt64}
variable {s s₀ t u : State C K V} {a : Act C K V} {as : List (Act C K V)} {c : C}

/-- The call works on one key, and has not returned a value. -/
def Unreturned (x : CallState K V) : Prop :=
  x = .idle ∨ (∃ op pc, x = .keyed op pc) ∨ ∃ op e, x = .done (.keyed op) (.error e)

theorem next_lock_slot (h : next hash s (.lock c) = some t) :
    ∃ op pc slot ctl, s.calls c = .keyed op pc ∧
      op.lock pc (s.map.slot (hash op.key)) = some (slot, ctl) ∧
      t = State.resume { s with map := s.map.setSlot (hash op.key) slot } c op ctl := by
  simp only [next] at h
  split at h
  · obtain ⟨⟨slot, ctl⟩, hlock, rfl⟩ := Option.map_eq_some_iff.mp h
    exact ⟨_, _, slot, ctl, ‹_›, hlock, rfl⟩
  · cases h

/-- A call that has not returned a value by the end of a step had not before it, and if the step is its
own the map is as it was. -/
theorem unreturned_next (h : next hash s a = some t) (ht : Unreturned (t.calls c)) :
    Unreturned (s.calls c) ∧ (a.call = c → t.map = s.map) := by
  by_cases hca : c = a.call
  swap
  · rw [next_frame h hca] at ht
    exact ⟨ht, fun hac => absurd hac.symm hca⟩
  subst hca
  cases a with
  | invoke c op =>
      obtain ⟨hidle, ⟨_, -, rfl⟩ | ⟨_, -, rfl⟩⟩ := next_invoke h <;> exact ⟨.inl hidle, fun _ => rfl⟩
  | unhashable c op =>
      obtain ⟨hidle, rfl⟩ := next_unhashable h
      exact ⟨.inl hidle, fun _ => rfl⟩
  | lock c =>
      obtain ⟨op, pc, slot, ctl, hc, hlock, rfl⟩ := next_lock_slot h
      refine ⟨.inr (.inl ⟨op, pc, hc⟩), fun _ => ?_⟩
      cases ctl with
      | goto pc' =>
          rw [State.map_resume, lock_goto hlock]
          exact setSlot_slot s.map (hash op.key)
      | ret r =>
          rw [Act.call, State.calls_resume_self] at ht
          rcases ht with ht | ⟨_, _, ht⟩ | ⟨_, _, ht⟩ <;> cases ht
  | eq c answer =>
      obtain ⟨op, checkedKeys, e, rest, hc, ⟨-, rfl⟩ | ⟨b, -, rfl⟩⟩ := next_eq h
      · exact ⟨.inr (.inl ⟨_, _, hc⟩), fun _ => rfl⟩
      · exact ⟨.inr (.inl ⟨_, _, hc⟩), fun _ => State.map_resume _ _ _ _⟩
  | visit c order =>
      obtain ⟨_, _, _, _, -, -, -, ⟨r, hr⟩ | ⟨acc, hacc⟩⟩ := next_visit h
      · rw [Act.call, hr] at ht
        rcases ht with ht | ⟨_, _, ht⟩ | ⟨_, _, ht⟩ <;> cases ht
      · rw [Act.call, hacc] at ht
        rcases ht with ht | ⟨_, _, ht⟩ | ⟨_, _, ht⟩ <;> cases ht

theorem unreturned_run {P : State C K V → Act C K V → Prop} (h : RunWith (next hash) P s₀ as s)
    (hs : Unreturned (s.calls c)) : Unreturned (s₀.calls c) := by
  induction h with
  | nil => exact hs
  | snoc _ _ hn ih => exact ih (unreturned_next hn hs).1

section Others

variable {d : C} {x y : CallState K V}

omit [DecidableEq K] in
theorem setCall_comm (s : State C K V) (hcd : c ≠ d) (x y : CallState K V) :
    (s.setCall c x).setCall d y = (s.setCall d y).setCall c x := by
  unfold State.setCall
  rw [Function.update_comm hcd]

omit [DecidableEq K] in
theorem resume_setCall (s : State C K V) (hcd : c ≠ d) (x : CallState K V) (op : KeyOp K V)
    (ctl : Ctl K V) : (s.setCall c x).resume d op ctl = (s.resume d op ctl).setCall c x := by
  cases ctl <;> exact setCall_comm s hcd x _

/-- What a call does depends on no other call. -/
theorem next_setCall (h : next hash s a = some t) (hca : c ≠ a.call) (x : CallState K V) :
    next hash (s.setCall c x) a = some (t.setCall c x) := by
  have hcalls : ∀ d, c ≠ d → (s.setCall c x).calls d = s.calls d := fun d hcd =>
    State.calls_setCall_ne s x (Ne.symm hcd)
  cases a with
  | invoke d op =>
      obtain ⟨hidle, ⟨kop, rfl, rfl⟩ | ⟨wop, rfl, rfl⟩⟩ := next_invoke h
      · simp only [next, hcalls d hca, hidle]
        exact congrArg some (setCall_comm s hca x _)
      · simp only [next, hcalls d hca, hidle]
        exact congrArg some (setCall_comm s hca x _)
  | unhashable d op =>
      obtain ⟨hidle, rfl⟩ := next_unhashable h
      simp only [next, hcalls d hca, hidle]
      exact congrArg some (setCall_comm s hca x _)
  | lock d =>
      obtain ⟨op, pc, slot, ctl, hd, hlock, rfl⟩ := next_lock_slot h
      simp only [next, hcalls d hca, hd, State.map_setCall, hlock, Option.map_some]
      exact congrArg some
        (resume_setCall { s with map := s.map.setSlot (hash op.key) slot } hca x op ctl)
  | eq d answer =>
      obtain ⟨op, checkedKeys, e, rest, hd, ⟨rfl, rfl⟩ | ⟨b, rfl, rfl⟩⟩ := next_eq h
      · simp only [next, hcalls d hca, hd]
        exact congrArg some (setCall_comm s hca x _)
      · simp only [next, hcalls d hca, hd]
        exact congrArg some (resume_setCall s hca x op _)
  | visit d order =>
      simp only [next] at h
      split at h
      · rename_i op i acc hd
        split at h
        · rename_i hi
          split at h
          · rename_i horder
            cases h
            simp only [next, hcalls d hca, hd, State.map_setCall, hi, ↓reduceDIte, horder, and_self,
              ↓reduceIte]
            exact congrArg some (setCall_comm { s with map := _ } hca x _)
          · cases h
        · cases h
      · cases h

omit [DecidableEq K] in
/-- Two states that differ in one call are the same without it. -/
theorem setCall_eq (hmap : t.map = s.map) (hcalls : ∀ d, d ≠ c → t.calls d = s.calls d)
    (x : CallState K V) : t.setCall c x = s.setCall c x := by
  have hupdate : Function.update t.calls c x = Function.update s.calls c x := by
    ext d : 1
    by_cases hdc : d = c
    · rw [hdc, Function.update_self, Function.update_self]
    · rw [Function.update_of_ne hdc, Function.update_of_ne hdc, hcalls d hdc]
  unfold State.setCall
  rw [hupdate, hmap]

end Others

/-- The run without the steps of a call that has not returned a value. -/
theorem run_without (h : Run (next hash) s₀ as s) (h0 : s₀.calls c = .idle)
    (hs : Unreturned (s.calls c)) :
    Run (next hash) s₀ (as.filter fun a => a.call ≠ c) (s.setCall c .idle) := by
  induction h with
  | nil =>
      have hsame : s₀.setCall c .idle = s₀ := by
        unfold State.setCall
        rw [← h0, Function.update_eq_self]
      rw [hsame]
      exact .nil
  | @snoc as s a t hr _ hn ih =>
      obtain ⟨hback, hmap⟩ := unreturned_next hn hs
      rw [List.filter_append, List.filter_singleton]
      by_cases hac : a.call = c
      · have hsame := setCall_eq (hmap hac) (fun d hd => next_frame hn (hac ▸ hd)) .idle
        rw [hsame]
        simpa [hac] using ih hback
      · have hlast := next_setCall hn (Ne.symm hac) .idle
        simpa [hac] using (ih hback).snoc trivial hlast

/-- No step of the call `c` changed the map, and without its steps the run `as` reaches the same map
and the same other calls. -/
def NoTrace (hash : K → UInt64) (s₀ : State C K V) (as : List (Act C K V)) (s : State C K V) (c : C) :
    Prop :=
  (∀ pre a u t, pre ++ [a] <+: as → a.call = c → Run (next hash) s₀ pre u → next hash u a = some t →
    t.map = u.map) ∧
  Run (next hash) s₀ (as.filter fun a => a.call ≠ c) (s.setCall c .idle)

/-- A call on one key that raises leaves no trace. -/
theorem raised_noTrace {m : ConcurrentMap K V} {op : KeyOp K V} {e : PyErr}
    (h : Run (next hash) (State.init m) as s) (hc : s.calls c = .done (.keyed op) (.error e)) :
    NoTrace hash (State.init m) as s c := by
  have hraised : Unreturned (s.calls c) := .inr (.inr ⟨op, e, hc⟩)
  refine ⟨?_, run_without h rfl hraised⟩
  rintro pre a u t ⟨post, rfl⟩ hac hu hn
  obtain ⟨t', ht', hpost⟩ := h.split
  obtain rfl := ht'.unique (hu.snoc trivial hn)
  exact (unreturned_next hn (unreturned_run hpost hraised)).2 hac

/-- A `set` whose bucket grows while it compares, and whose second pass raises. -/
def raisingTrace : List (Act ℕ ℕ ℕ) :=
  [.invoke 0 (.keyed (.set 0 0)), .lock 0, .invoke 1 (.keyed (.set 1 1)), .lock 1, .lock 1,
   .eq 1 (some false), .invoke 2 (.keyed (.set 2 2)), .lock 2, .lock 2, .eq 2 (some false), .lock 2,
   .lock 1, .lock 1, .eq 1 none]

theorem raisingTrace_exec :
    (exec (next fun _ : ℕ => 0) (fun _ _ => True) (State.init (.empty 1 (by decide)))
      raisingTrace).map (fun s => decide
        (s.calls 1 = .done (.keyed (.set 1 1)) (.error .user) ∧
          s.map.bucket 0 = [(0, 0), (2, 2)])) = some true := by
  decide +kernel

theorem raised_noTrace_raisingTrace :
    ∃ s, Run (next fun _ : ℕ => 0) (State.init (.empty 1 (by decide))) raisingTrace s ∧
      s.map.bucket 0 = [(0, 0), (2, 2)] ∧
      NoTrace (fun _ => 0) (State.init (.empty 1 (by decide))) raisingTrace s 1 := by
  obtain ⟨s, hrun, hs⟩ := exists_runWith_of_exec raisingTrace_exec
  obtain ⟨hc, hbucket⟩ := of_decide_eq_true hs
  exact ⟨s, hrun, hbucket, raised_noTrace hrun hc⟩

end Pysync.Map
