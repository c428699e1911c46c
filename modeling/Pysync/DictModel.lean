import Pysync.MapSolo

/-!
The methods of `ConcurrentDict`. Each is a small machine: at a program counter it asks a map, its own or
that of the dictionary it creates, for one call, and the answer says where it goes on or how it ends.
-/

namespace Pysync.Dict
open Map

/-- An exception that a method raises. -/
inductive Exc (K : Type) where
  | keyError (key : K)
  | emptyError (msg : String)
  | py (err : PyErr)
  deriving DecidableEq

def popitemErr {K : Type} : Exc K := .emptyError "popitem(): dictionary is empty"

/-- What a method returns. -/
inductive Result (K V : Type) where
  | value (v : V)
  /-- `None`, of a method that returns nothing. -/
  | unit
  | bool (b : Bool)
  | len (n : ℕ)
  | keys (ks : List K)
  | values (vs : List V)
  | items (es : List (K × V))
  | pair (e : K × V)
  | dict (d : ConcurrentMap K V)

/-- What a `for` loop over an iterable gets, with an error where the iteration raises. -/
abbrev Iter (K A : Type) := List (Except (Exc K) A)

/-- What `update` looks at in its argument `other`. -/
inductive Source (K V : Type) where
  /-- `None`. -/
  | absent
  /-- The dictionary itself, which has `keys`. -/
  | self
  /-- Another object with `keys`. -/
  | mapping (keys : Iter K K) (getitem : K → Except (Exc K) V)
  /-- An object without `keys` that has `items`; an element that is no pair is an error. -/
  | items (es : Iter K (K × V))
  /-- An iterable of pairs. -/
  | pairs (es : Iter K (K × V))

/-- The methods that are one call on the map; `default` of `pop` may be missing. -/
inductive Single (K V : Type) where
  | getitem (key : K)
  | setitem (key : K) (value : V)
  | delitem (key : K)
  | contains (key : K)
  | len
  | get (key : K) (default : V)
  | pop (key : K) (default : Option V)
  | setdefault (key : K) (default : V)
  | clear
  | keys
  | values
  | items

inductive Method (K V : Type) where
  | single (m : Single K V)
  | update (other : Source K V) (kwargs : List (K × V))
  | popitem
  | copy
  | fromkeys (iterable : Iter K K) (value : V)

/-- The dictionary that a call on the map is made on. -/
inductive Target where
  | self
  | new
  deriving DecidableEq

inductive Pc (K V : Type) where
  | single (m : Single K V)
  /-- `other.keys()`, where `other` is the dictionary itself. -/
  | updateKeys (kwargs : List (K × V))
  /-- `other[k]`. -/
  | updateGet (key : K) (rest : List K) (kwargs : List (K × V))
  /-- `self.set(k, other[k])`. -/
  | updateOwn (key : K) (value : V) (rest : List K) (kwargs : List (K × V))
  | updateSet (key : K) (value : V) (rest : Iter K (K × V))
  | popitemItems
  | popitemPop (key : K) (rest : List (K × V))
  | copyItems
  /-- `new_dict.set(k, v)` in `copy`, `d[k] = value` in `fromkeys`. -/
  | fill (key : K) (value : V) (rest : Iter K (K × V))

inductive Ctl (K V : Type) where
  | goto (pc : Pc K V)
  | stop (r : Except (Exc K) (Result K V))
  /-- The method returns the new dictionary. -/
  | created

section Code

variable {K V : Type}

/-- The pairs that the loop over `other` sets, where `other` is not the dictionary. -/
def Source.each : Source K V → Iter K (K × V)
  | absent | self => []
  | mapping keys getitem => keys.map fun key => do
      let k ← key
      let v ← getitem k
      return (k, v)
  | items es | pairs es => es

namespace Single

def op : Single K V → Op K V
  | getitem key | get key _ => .keyed (.getVal key)
  | setitem key value => .keyed (.set key value)
  | delitem key => .keyed (.delete key)
  | contains key => .keyed (.containsKey key)
  | pop key _ => .keyed (.popVal key)
  | setdefault key default => .keyed (.getOrInsert key default)
  | len => .whole .len
  | clear => .whole .clear
  | keys => .whole .keys
  | values => .whole .values
  | items => .whole .items

/-- How the method ends when the map has answered. -/
def answer : Single K V → Ret K V → Option (Except (Exc K) (Result K V))
  | getitem _, .found (some v) => some (.ok (.value v))
  | getitem key, .found none => some (.error (.keyError key))
  | setitem _ _, .unit => some (.ok .unit)
  | delitem key, .bool b => some (if b then .ok .unit else .error (.keyError key))
  | contains _, .bool b => some (.ok (.bool b))
  | len, .len n => some (.ok (.len n))
  | get _ default, .found v => some (.ok (.value (v.getD default)))
  | pop _ _, .found (some v) => some (.ok (.value v))
  | pop _ (some default), .found none => some (.ok (.value default))
  | pop key none, .found none => some (.error (.keyError key))
  | setdefault _ _, .value v => some (.ok (.value v))
  | clear, .unit => some (.ok .unit)
  | keys, .keys ks => some (.ok (.keys ks))
  | values, .values vs => some (.ok (.values vs))
  | items, .items es => some (.ok (.items es))
  | _, _ => none

end Single

/-- The next turn of a loop that sets pairs in the dictionary itself. -/
def setEach : Iter K (K × V) → Ctl K V
  | [] => .stop (.ok .unit)
  | .ok (key, value) :: rest => .goto (.updateSet key value rest)
  | .error e :: _ => .stop (.error e)

/-- The next turn of the loop over the keys of the dictionary itself. -/
def ownEach (kwargs : List (K × V)) : List K → Ctl K V
  | [] => setEach (kwargs.map .ok)
  | key :: rest => .goto (.updateGet key rest kwargs)

/-- The next candidate of `popitem`; when all were taken by others it starts again. -/
def popEach : List (K × V) → Ctl K V
  | [] => .goto .popitemItems
  | (key, _) :: rest => .goto (.popitemPop key rest)

/-- The next turn of a loop that fills the new dictionary. -/
def fillEach : Iter K (K × V) → Ctl K V
  | [] => .created
  | .ok (key, value) :: rest => .goto (.fill key value rest)
  | .error e :: _ => .stop (.error e)

/-- What a method does before its first call on a map. -/
def Method.start : Method K V → Ctl K V
  | single m => .goto (.single m)
  | update .self kwargs => .goto (.updateKeys kwargs)
  | update other kwargs => setEach (other.each ++ kwargs.map .ok)
  | popitem => .goto .popitemItems
  | copy => .goto .copyItems
  | fromkeys iterable value => fillEach (iterable.map fun key => key.map fun k => (k, value))

namespace Pc

/-- The call that the method makes next, and on which map. -/
def ask : Pc K V → Target × Op K V
  | single m => (.self, m.op)
  | updateKeys _ => (.self, .whole .keys)
  | updateGet key _ _ => (.self, .keyed (.getVal key))
  | updateOwn key value _ _ | updateSet key value _ => (.self, .keyed (.set key value))
  | popitemItems | copyItems => (.self, .whole .items)
  | popitemPop key _ => (.self, .keyed (.popVal key))
  | fill key value _ => (.new, .keyed (.set key value))

/-- Where the method goes when the call has returned. -/
def answer : Pc K V → Ret K V → Option (Ctl K V)
  | single m, r => (m.answer r).map .stop
  | updateKeys kwargs, .keys ks => some (ownEach kwargs ks)
  | updateGet key rest kwargs, .found (some v) => some (.goto (.updateOwn key v rest kwargs))
  | updateGet key _ _, .found none => some (.stop (.error (.keyError key)))
  | updateOwn _ _ rest kwargs, .unit => some (ownEach kwargs rest)
  | updateSet _ _ rest, .unit => some (setEach rest)
  | popitemItems, .items [] => some (.stop (.error popitemErr))
  | popitemItems, .items es => some (popEach es)
  | popitemPop key _, .found (some v) => some (.stop (.ok (.pair (key, v))))
  | popitemPop _ rest, .found none => some (popEach rest)
  | copyItems, .items es => some (fillEach (es.map .ok))
  | fill _ _ rest, .unit => some (fillEach rest)
  | _, _ => none

end Pc

end Code

/-- The map of the dictionary and that of the dictionary that the method creates. -/
structure Maps (K V : Type) where
  self : ConcurrentMap K V
  new : ConcurrentMap K V

namespace Maps

variable {K V : Type}

def get (M : Maps K V) : Target → ConcurrentMap K V
  | .self => M.self
  | .new => M.new

def set (M : Maps K V) (m : ConcurrentMap K V) : Target → Maps K V
  | .self => { M with self := m }
  | .new => { M with new := m }

end Maps

section Exec

variable {K V : Type} [DecidableEq K]

/-- A method of a dictionary with a single caller, from where it stands to its end. -/
inductive Exec (hash : K → UInt64) (eqv : K → K → Bool) :
    Maps K V → Ctl K V → Maps K V → Except (Exc K) (Result K V) → Prop
  | stop {M : Maps K V} {r : Except (Exc K) (Result K V)} : Exec hash eqv M (.stop r) M r
  | created {M : Maps K V} : Exec hash eqv M .created M (.ok (.dict M.new))
  | goto {M M' : Maps K V} {pc : Pc K V} {m' : ConcurrentMap K V} {r : Ret K V} {ctl : Ctl K V}
      {out : Except (Exc K) (Result K V)} :
      Call hash eqv (M.get pc.ask.1) pc.ask.2 m' (.ok r) → pc.answer r = some ctl →
      Exec hash eqv (M.set m' pc.ask.1) ctl M' out → Exec hash eqv M (.goto pc) M' out

/-- A sequence of method calls by one caller: the results in order, and the map at the end. A new
dictionary has the default number of shards. -/
inductive Session (hash : K → UInt64) (eqv : K → K → Bool) (parallelism : Option ℕ) :
    ConcurrentMap K V → List (Method K V) → ConcurrentMap K V →
      List (Except (Exc K) (Result K V)) → Prop
  | nil {m : ConcurrentMap K V} : Session hash eqv parallelism m [] m []
  | cons {m new m'' : ConcurrentMap K V} {method : Method K V} {ms : List (Method K V)}
      {M : Maps K V} {out : Except (Exc K) (Result K V)} {outs : List (Except (Exc K) (Result K V))} :
      ConcurrentMap.new none parallelism = .ok new →
      Exec hash eqv ⟨m, new⟩ method.start M out → Session hash eqv parallelism M.self ms m'' outs →
      Session hash eqv parallelism m (method :: ms) m'' (out :: outs)

end Exec

end Pysync.Dict
