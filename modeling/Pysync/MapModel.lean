import Mathlib.Data.Finmap
import Mathlib.Logic.Function.Basic
import Pysync.PyErr
import Pysync.TransitionRun

/-!
The sharded map. A locked section of a method reads and rewrites the slot of one hash in one shard;
it is a function from the slot to the new slot and, when the method returns inside the section, the
result. Python's `__eq__` runs between the sections and may answer anything, or raise.
-/

namespace Pysync.Map

/-- The entries with one full hash, in insertion order: `Vec<(Py<PyAny>, Py<PyAny>)>`. -/
abbrev Bucket (K V : Type) := List (K × V)

/-- The table behind one shard lock: `HashMap<u64, Vec<(Py<PyAny>, Py<PyAny>)>>`. -/
abbrev Shard (K V : Type) := Finmap fun _ : UInt64 => Bucket K V

/-- Keys are objects: equality of `K` is `is`, Python's `==` is asked of the caller. -/
structure ConcurrentMap (K V : Type) where
  shardCount : ℕ
  shardCount_pos : 0 < shardCount
  shards : Fin shardCount → Shard K V

namespace ConcurrentMap

variable {K V : Type}

/-- A map of `n` empty shards. -/
def empty (n : ℕ) (hn : 0 < n) : ConcurrentMap K V := ⟨n, hn, fun _ => ∅⟩

theorem defaultShards_pos (parallelism : Option ℕ) :
    0 < max ((parallelism.map Nat.nextPowerOfTwo).getD 16) 16 := by
  omega

/-- `parallelism` is what `available_parallelism` reports, if it reports anything. -/
def new (shardCount parallelism : Option ℕ) : PyResult (ConcurrentMap K V) :=
  match shardCount with
  | some n =>
      if hn : n = 0 then .error (.valueError "shard_count must be greater than zero")
      else .ok (empty n (Nat.pos_of_ne_zero hn))
  | none => .ok (empty (max ((parallelism.map Nat.nextPowerOfTwo).getD 16) 16)
      (defaultShards_pos parallelism))

/-- `(h as usize) % self.shards.len()`. -/
def index (m : ConcurrentMap K V) (h : UInt64) : Fin m.shardCount :=
  ⟨h.toNat % m.shardCount, Nat.mod_lt _ m.shardCount_pos⟩

/-- The bucket of hash `h` in its shard, if the table has one. -/
def slot (m : ConcurrentMap K V) (h : UInt64) : Option (Bucket K V) :=
  (m.shards (m.index h)).lookup h

/-- The table with the slot of `h` rewritten; `none` removes the hash from the table. -/
def setSlot (m : ConcurrentMap K V) (h : UInt64) (b : Option (Bucket K V)) : ConcurrentMap K V :=
  { m with
    shards := Function.update m.shards (m.index h)
      (match b with
        | some list => (m.shards (m.index h)).insert h list
        | none => (m.shards (m.index h)).erase h) }

/-- `shard.lock().clear()`. -/
def clearShard (m : ConcurrentMap K V) (i : Fin m.shardCount) : ConcurrentMap K V :=
  { m with shards := Function.update m.shards i ∅ }

/-- The entries stored under hash `h`. -/
def bucket (m : ConcurrentMap K V) (h : UInt64) : Bucket K V := (m.slot h).getD []

theorem lookup_setSlot (m : ConcurrentMap K V) (h : UInt64) (b : Option (Bucket K V))
    (i : Fin m.shardCount) (h' : UInt64) :
    ((m.setSlot h b).shards i).lookup h' =
      if i = m.index h ∧ h' = h then b else (m.shards i).lookup h' := by
  unfold setSlot
  by_cases hi : i = m.index h
  · subst hi
    by_cases hh : h' = h
    · subst hh
      cases b <;> simp
    · cases b <;> simp [hh, Finmap.lookup_insert_of_ne, Finmap.lookup_erase_ne]
  · simp [hi]

@[simp] theorem index_setSlot (m : ConcurrentMap K V) (h h' : UInt64) (b : Option (Bucket K V)) :
    (m.setSlot h b).index h' = m.index h' := rfl

@[simp] theorem slot_setSlot (m : ConcurrentMap K V) (h : UInt64) (b : Option (Bucket K V)) :
    (m.setSlot h b).slot h = b := by
  unfold slot
  rw [index_setSlot, lookup_setSlot]
  simp

theorem slot_setSlot_ne (m : ConcurrentMap K V) {h h' : UInt64} (b : Option (Bucket K V))
    (hne : h' ≠ h) : (m.setSlot h b).slot h' = m.slot h' := by
  unfold slot
  rw [index_setSlot, lookup_setSlot]
  simp [hne]

theorem lookup_clearShard (m : ConcurrentMap K V) (j i : Fin m.shardCount) (h : UInt64) :
    ((m.clearShard j).shards i).lookup h = if i = j then none else (m.shards i).lookup h := by
  unfold clearShard
  by_cases hi : i = j
  · subst hi
    simp
  · simp [hi]

theorem slot_clearShard (m : ConcurrentMap K V) (j : Fin m.shardCount) (h : UInt64) :
    (m.clearShard j).slot h = if m.index h = j then none else m.slot h :=
  lookup_clearShard m j (m.index h) h

theorem bucket_setSlot (m : ConcurrentMap K V) (h h' : UInt64) (b : Option (Bucket K V)) :
    (m.setSlot h b).bucket h' = if h' = h then b.getD [] else m.bucket h' := by
  unfold bucket
  split
  · rename_i heq
    rw [heq, slot_setSlot]
  · rename_i hne
    rw [slot_setSlot_ne m b hne]

theorem bucket_clearShard (m : ConcurrentMap K V) (j : Fin m.shardCount) (h : UInt64) :
    (m.clearShard j).bucket h = if m.index h = j then [] else m.bucket h := by
  unfold bucket
  rw [slot_clearShard]
  split <;> rfl

end ConcurrentMap

/-- What the methods return; `found none` is `(false, None)`. -/
inductive Ret (K V : Type) where
  | opt (v : Option V)
  | found (v : Option V)
  | value (v : V)
  | bool (b : Bool)
  | unit
  | len (n : ℕ)
  | keys (ks : List K)
  | values (vs : List V)
  | items (es : List (K × V))
  deriving DecidableEq

/-- A locked section: the slot before to the slot after, and the result if the method returns here. -/
abbrev Section (K V : Type) := Option (Bucket K V) → Option (Bucket K V) × Option (Ret K V)

section Sections

variable {K V : Type} [DecidableEq K]

/-- `list.iter().position(|(k, _)| k.is(key))`. -/
def position (list : Bucket K V) (key : K) : Option (Fin list.length) :=
  list.findFinIdx? fun e => e.1 = key

/-- `list[pos].1 = value`. -/
def writeAt (list : Bucket K V) (pos : Fin list.length) (value : V) : Bucket K V :=
  list.set pos (list[pos].1, value)

/-- `list.remove(pos)`, and the hash leaves the table with its last entry. -/
def removeAt (list : Bucket K V) (pos : Fin list.length) : Option (Bucket K V) :=
  if (list.eraseIdx pos).isEmpty then none else some (list.eraseIdx pos)

/-- Some entry of `list` has not been compared yet. -/
def hasUnboundCandidate (checkedKeys : List K) (list : Bucket K V) : Bool :=
  list.any fun e => !checkedKeys.contains e.1

/-- The entries to compare in this pass. -/
def newCandidates (checkedKeys : List K) (slot : Option (Bucket K V)) : List (K × V) :=
  (slot.getD []).filter fun e => !checkedKeys.contains e.1

def setFast (key : K) (value : V) : Section K V
  | none => (some [(key, value)], some .unit)
  | some list =>
      if list.isEmpty then (some [(key, value)], some .unit)
      else match position list key with
        | some pos => (some (writeAt list pos value), some .unit)
        | none => (some list, none)

/-- `k` compared equal outside the lock; it may be gone by now. -/
def setHit (value : V) (k : K) : Section K V
  | none => (none, none)
  | some list => match position list k with
      | some pos => (some (writeAt list pos value), some .unit)
      | none => (some list, none)

def setLast (key : K) (value : V) (checkedKeys : List K) : Section K V := fun slot =>
  let list := slot.getD []
  if hasUnboundCandidate checkedKeys list then (some list, none)
  else match position list key with
    | some pos => (some (writeAt list pos value), some .unit)
    | none => (some (list ++ [(key, value)]), some .unit)

/-- The first section shared by `delete` and `pop_val`, which differ in what they return. -/
def removeFast (absent : Ret K V) (present : V → Ret K V) (key : K) : Section K V
  | none => (none, some absent)
  | some list =>
      if list.isEmpty then (some list, some absent)
      else match position list key with
        | some pos => (removeAt list pos, some (present list[pos].2))
        | none => (some list, none)

def removeHit (present : V → Ret K V) (k : K) : Section K V
  | none => (none, none)
  | some list => match position list k with
      | some pos => (removeAt list pos, some (present list[pos].2))
      | none => (some list, none)

def removeLast (absent : Ret K V) (present : V → Ret K V) (key : K) (checkedKeys : List K) :
    Section K V
  | none => (none, some absent)
  | some list =>
      if hasUnboundCandidate checkedKeys list then (some list, none)
      else match position list key with
        | some pos => (removeAt list pos, some (present list[pos].2))
        | none => (some list, some absent)

def getOrInsertLast (key : K) (dflt : V) (checkedKeys : List K) : Section K V := fun slot =>
  let list := slot.getD []
  if hasUnboundCandidate checkedKeys list then (some list, none)
  else match position list key with
    | some pos => (some list, some (.value list[pos].2))
    | none => (some (list ++ [(key, dflt)]), some (.value dflt))

end Sections

/-- The methods that work on one key. -/
inductive KeyOp (K V : Type) where
  | get (key : K)
  | getVal (key : K)
  | containsKey (key : K)
  | getOrInsert (key : K) (dflt : V)
  | set (key : K) (value : V)
  | delete (key : K)
  | popVal (key : K)
  deriving DecidableEq

/-- The methods that visit one shard after another. -/
inductive WholeOp where
  | len
  | clear
  | keys
  | values
  | items
  deriving DecidableEq

inductive Op (K V : Type) where
  | keyed (op : KeyOp K V)
  | whole (op : WholeOp)
  deriving DecidableEq

/-- Where a call on one key stands. The values of the candidates are used by the methods that return
them; the others clone the keys only. -/
inductive Pc (K V : Type) where
  | fast
  | collect (checkedKeys : List K)
  /-- Outside the lock; with no candidate left the next section is the last one of the pass. -/
  | compare (checkedKeys : List K) (candidates : List (K × V))
  | hit (checkedKeys : List K) (k : K)
  deriving DecidableEq

/-- How a step of a call ends: the call goes on, or it returns. -/
inductive Ctl (K V : Type) where
  | goto (pc : Pc K V)
  | ret (r : Ret K V)
  deriving DecidableEq

/-- The objects the call has compared so far. -/
def Pc.checkedKeys {K V : Type} : Pc K V → List K
  | fast => []
  | collect checkedKeys | compare checkedKeys _ | hit checkedKeys _ => checkedKeys

namespace KeyOp

variable {K V : Type}

def key : KeyOp K V → K
  | get key | getVal key | containsKey key | getOrInsert key _ | set key _ | delete key
  | popVal key => key

/-- What a lookup returns for the value it found, or for nothing. -/
def lookupRet : KeyOp K V → Option V → Ret K V
  | get _, v => .opt v
  | containsKey _, v => .bool v.isSome
  | _, v => .found v

/-- The first thing the method does under a lock. -/
def start : KeyOp K V → Pc K V
  | get _ | getVal _ | containsKey _ | getOrInsert _ _ => .collect []
  | set _ _ | delete _ | popVal _ => .fast

/-- Leave a locked section: with the result, or on to `pc`. -/
def leave (r : Option (Bucket K V) × Option (Ret K V)) (pc : Pc K V) :
    Option (Bucket K V) × Ctl K V :=
  (r.1, match r.2 with
    | some ret => .ret ret
    | none => .goto pc)

variable [DecidableEq K]

/-- The sections of a method with a retry loop, in the order of the loop. -/
def retry (fast : Section K V) (hit : K → Section K V) (last : List K → Section K V) (pc : Pc K V)
    (slot : Option (Bucket K V)) : Option (Option (Bucket K V) × Ctl K V) :=
  match pc with
  | .fast => some (leave (fast slot) (.collect []))
  | .collect checkedKeys =>
      some (slot, .goto (.compare checkedKeys (newCandidates checkedKeys slot)))
  | .hit checkedKeys k => some (leave (hit k slot) (.compare checkedKeys []))
  | .compare checkedKeys [] => some (leave (last checkedKeys slot) (.collect checkedKeys))
  | .compare _ (_ :: _) => none

/-- A lookup locks once, to clone the bucket; when the copies are used up it returns. -/
def lookup (op : KeyOp K V) (pc : Pc K V) (slot : Option (Bucket K V)) :
    Option (Option (Bucket K V) × Ctl K V) :=
  match pc with
  | .collect _ => some (slot, .goto (.compare [] (slot.getD [])))
  | .compare _ [] => some (slot, .ret (op.lookupRet none))
  | _ => none

/-- The next locked section of a call, if the call is not in the middle of comparing. -/
def lock (op : KeyOp K V) (pc : Pc K V) (slot : Option (Bucket K V)) :
    Option (Option (Bucket K V) × Ctl K V) :=
  match op with
  | get _ | getVal _ | containsKey _ => op.lookup pc slot
  | getOrInsert key dflt => match pc with
      -- `get_or_insert` has neither a first section nor one for a match
      | .fast | .hit _ _ => none
      | _ => retry (fun slot => (slot, none)) (fun _ slot => (slot, none)) (getOrInsertLast key dflt)
          pc slot
  | set key value => retry (setFast key value) (setHit value) (setLast key value) pc slot
  | delete key =>
      retry (removeFast (.bool false) (fun _ => .bool true) key) (removeHit fun _ => .bool true)
        (removeLast (.bool false) (fun _ => .bool true) key) pc slot
  | popVal key =>
      retry (removeFast (.found none) (fun v => .found (some v)) key)
        (removeHit fun v => .found (some v))
        (removeLast (.found none) (fun v => .found (some v)) key) pc slot

/-- Where the call goes when `k == key` answers `answer`. -/
def onEq (op : KeyOp K V) (checkedKeys : List K) (e : K × V) (rest : List (K × V)) (answer : Bool) :
    Ctl K V :=
  match op with
  | get _ | getVal _ | containsKey _ =>
      if answer then .ret (op.lookupRet (some e.2)) else .goto (.compare checkedKeys rest)
  | getOrInsert _ _ =>
      if answer then .ret (.value e.2) else .goto (.compare (checkedKeys ++ [e.1]) rest)
  | set _ _ | delete _ | popVal _ =>
      if answer then .goto (.hit (checkedKeys ++ [e.1]) e.1)
      else .goto (.compare (checkedKeys ++ [e.1]) rest)

end KeyOp

/-- What a scan returns for the entries it has cloned. -/
def WholeOp.ret {K V : Type} : WholeOp → List (K × V) → Ret K V
  | len, acc => .len acc.length
  | clear, _ => .unit
  | keys, acc => .keys (acc.map Prod.fst)
  | values, acc => .values (acc.map Prod.snd)
  | items, acc => .items acc

inductive CallState (K V : Type) where
  | idle
  | keyed (op : KeyOp K V) (pc : Pc K V)
  /-- A scan that has visited the shards below `i`. -/
  | whole (op : WholeOp) (i : ℕ) (acc : List (K × V))
  | done (op : Op K V) (r : PyResult (Ret K V))
  deriving DecidableEq

/-- The map and all calls ever made on it, by any number of threads. -/
structure State (C K V : Type) where
  map : ConcurrentMap K V
  calls : C → CallState K V

/-- One step of one call. -/
inductive Act (C K V : Type) where
  | invoke (c : C) (op : Op K V)
  /-- `key.hash()` raises. -/
  | unhashable (c : C) (op : KeyOp K V)
  /-- The next locked section of a call on one key. -/
  | lock (c : C)
  /-- The pending `k == key` returns a boolean, or raises. -/
  | eq (c : C) (answer : Option Bool)
  /-- The next shard of a scan; `order` is the iteration order of its table. -/
  | visit (c : C) (order : List UInt64)
  deriving DecidableEq

/-- The call that takes the step. -/
def Act.call {C K V : Type} : Act C K V → C
  | invoke c _ | unhashable c _ | lock c | eq c _ | visit c _ => c

namespace State

variable {C K V : Type} [DecidableEq C]

def init (m : ConcurrentMap K V) : State C K V := ⟨m, fun _ => .idle⟩

def setCall (s : State C K V) (c : C) (x : CallState K V) : State C K V :=
  { s with calls := Function.update s.calls c x }

/-- Apply the outcome of a step of call `c`. -/
def resume (s : State C K V) (c : C) (op : KeyOp K V) : Ctl K V → State C K V
  | .goto pc => s.setCall c (.keyed op pc)
  | .ret r => s.setCall c (.done (.keyed op) (.ok r))

@[simp] theorem map_setCall (s : State C K V) (c : C) (x : CallState K V) :
    (s.setCall c x).map = s.map := rfl

@[simp] theorem calls_setCall_self (s : State C K V) (c : C) (x : CallState K V) :
    (s.setCall c x).calls c = x := by simp [setCall]

theorem calls_setCall_ne (s : State C K V) {c d : C} (x : CallState K V) (h : d ≠ c) :
    (s.setCall c x).calls d = s.calls d := by simp [setCall, h]

@[simp] theorem map_resume (s : State C K V) (c : C) (op : KeyOp K V) (ctl : Ctl K V) :
    (s.resume c op ctl).map = s.map := by cases ctl <;> rfl

theorem calls_resume_self (s : State C K V) (c : C) (op : KeyOp K V) (ctl : Ctl K V) :
    (s.resume c op ctl).calls c = match ctl with
      | .goto pc => .keyed op pc
      | .ret r => .done (.keyed op) (.ok r) := by
  cases ctl <;> exact calls_setCall_self s c _

theorem calls_resume_ne (s : State C K V) {c d : C} (op : KeyOp K V) (ctl : Ctl K V) (h : d ≠ c) :
    (s.resume c op ctl).calls d = s.calls d := by
  cases ctl <;> exact calls_setCall_ne s _ h

end State

section Step

variable {C K V : Type} [DecidableEq C] [DecidableEq K]

/-- The step of the map under its callers; `hash` is Python's `__hash__`, which is stable. -/
def next (hash : K → UInt64) (s : State C K V) : Act C K V → Option (State C K V)
  | .invoke c op => match s.calls c, op with
      | .idle, .keyed op => some (s.setCall c (.keyed op op.start))
      | .idle, .whole op => some (s.setCall c (.whole op 0 []))
      | _, _ => none
  | .unhashable c op => match s.calls c with
      | .idle => some (s.setCall c (.done (.keyed op) (.error .user)))
      | _ => none
  | .lock c => match s.calls c with
      | .keyed op pc => (op.lock pc (s.map.slot (hash op.key))).map fun r =>
          State.resume { s with map := s.map.setSlot (hash op.key) r.1 } c op r.2
      | _ => none
  | .eq c answer => match s.calls c with
      | .keyed op (.compare checkedKeys (e :: rest)) => match answer with
          | none => some (s.setCall c (.done (.keyed op) (.error .user)))
          | some b => some (s.resume c op (op.onEq checkedKeys e rest b))
      | _ => none
  | .visit c order => match s.calls c with
      | .whole op i acc =>
          if hi : i < s.map.shardCount then
            let shard := s.map.shards ⟨i, hi⟩
            if order.Nodup ∧ order.toFinset = shard.keys then
              let acc := acc ++ order.flatMap fun h => (shard.lookup h).getD []
              let m := if op = .clear then s.map.clearShard ⟨i, hi⟩ else s.map
              some (State.setCall { s with map := m } c
                (if i + 1 = s.map.shardCount then .done (.whole op) (.ok (op.ret acc))
                  else .whole op (i + 1) acc))
            else none
          else none
      | _ => none

end Step

end Pysync.Map
