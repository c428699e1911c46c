import Pysync.DictRefine

/-!
`__eq__` of two `ConcurrentDict`s. It compares the sizes and then looks up each entry of the one in the
other; as no class of keys has two entries, this is equality of finite maps.
-/

namespace Pysync.Dict
open Map

/-- The dictionary that a call of `d == other` is made on. -/
inductive Side where
  | self
  | other
  deriving DecidableEq

/-- Where `d == other` stands, `other` being a `ConcurrentDict`. -/
inductive EqPc (K V : Type) where
  | len
  | lenOther (n : ℕ)
  | items
  /-- `k not in other`. -/
  | contains (key : K) (value : V) (rest : List (K × V))
  /-- `other[k] != v`. -/
  | getitem (key : K) (value : V) (rest : List (K × V))

inductive EqCtl (K V : Type) where
  | goto (pc : EqPc K V)
  | stop (r : Except (Exc K) Bool)

section Code

variable {K V N : Type}

/-- The next turn of the loop over the items of the dictionary itself. -/
def eqEach : List (K × V) → EqCtl K V
  | [] => .stop (.ok true)
  | (key, value) :: rest => .goto (.contains key value rest)

namespace EqPc

def ask : EqPc K V → Side × Op K V
  | len => (.self, .whole .len)
  | lenOther _ => (.other, .whole .len)
  | items => (.self, .whole .items)
  | contains key _ _ => (.other, .keyed (.containsKey key))
  | getitem key _ _ => (.other, .keyed (.getVal key))

/-- Where `__eq__` goes when the call has returned; `vne` is `!=` of the values. -/
def answer (vne : V → V → Bool) : EqPc K V → Ret K V → Option (EqCtl K V)
  | len, .len n => some (.goto (.lenOther n))
  | lenOther n, .len n' => some (if n ≠ n' then .stop (.ok false) else .goto .items)
  | items, .items es => some (eqEach es)
  | contains key value rest, .bool b =>
      some (if b then .goto (.getitem key value rest) else .stop (.ok false))
  | getitem _ value rest, .found (some v) =>
      some (if vne v value then .stop (.ok false) else eqEach rest)
  | getitem key _ _, .found none => some (.stop (.error (.keyError key)))
  | _, _ => none

end EqPc

/-- The dictionaries have names; `d == e` may compare one with itself. -/
def Side.of (d e : N) : Side → N
  | self => d
  | other => e

/-- `d == e` with a single caller, from where it stands to its end. -/
inductive Compare [DecidableEq K] [DecidableEq N] (hash : K → UInt64) (eqv : K → K → Bool)
    (vne : V → V → Bool) (d e : N) : (N → ConcurrentMap K V) → EqCtl K V →
      (N → ConcurrentMap K V) → Except (Exc K) Bool → Prop
  | stop {M : N → ConcurrentMap K V} {out : Except (Exc K) Bool} :
      Compare hash eqv vne d e M (.stop out) M out
  | goto {M M' : N → ConcurrentMap K V} {pc : EqPc K V} {m' : ConcurrentMap K V} {r : Ret K V}
      {ctl : EqCtl K V} {out : Except (Exc K) Bool} :
      Call hash eqv (M (pc.ask.1.of d e)) pc.ask.2 m' (.ok r) → pc.answer vne r = some ctl →
      Compare hash eqv vne d e (Function.update M (pc.ask.1.of d e) m') ctl M' out →
      Compare hash eqv vne d e M (.goto pc) M' out

/-- `d == e` returns `b`. -/
def Equals [DecidableEq K] [DecidableEq N] (hash : K → UInt64) (eqv : K → K → Bool)
    (vne : V → V → Bool) (M : N → ConcurrentMap K V) (d e : N) (b : Bool) : Prop :=
  ∃ M', Compare hash eqv vne d e M (.goto .len) M' (.ok b)

/-- The dictionaries that one caller can make: by `ConcurrentDict(shard_count)`, by any sequence of
method calls on one, and by the methods that return a new one. -/
inductive Built [DecidableEq K] (hash : K → UInt64) (eqv : K → K → Bool) (parallelism : Option ℕ) :
    ConcurrentMap K V → Prop
  | new {shardCount : Option ℕ} {m : ConcurrentMap K V} :
      ConcurrentMap.new shardCount parallelism = .ok m → Built hash eqv parallelism m
  | session {m m' : ConcurrentMap K V} {ms : List (Method K V)}
      {outs : List (Except (Exc K) (Result K V))} : Built hash eqv parallelism m →
      Session hash eqv parallelism m ms m' outs → Built hash eqv parallelism m'
  | created {m fresh m' : ConcurrentMap K V} {method : Method K V} {M : Maps K V} :
      Built hash eqv parallelism m → ConcurrentMap.new none parallelism = .ok fresh →
      Exec hash eqv ⟨m, fresh⟩ method.start M (.ok (.dict m')) → Built hash eqv parallelism m'

/-- The two maps hold the same classes of keys, with equal values. -/
def SameEntries (eqv : K → K → Bool) (veq : V → V → Bool) (m m' : ConcurrentMap K V) : Prop :=
  (∀ e ∈ m.entries, ∃ e' ∈ m'.entries, eqv e.1 e'.1 = true ∧ veq e.2 e'.2 = true) ∧
    ∀ e' ∈ m'.entries, ∃ e ∈ m.entries, eqv e.1 e'.1 = true ∧ veq e.2 e'.2 = true

/-- Values whose `==` is an equivalence, and whose `!=` is its negation. -/
structure LawfulValues (veq vne : V → V → Bool) : Prop where
  refl : ∀ v, veq v v = true
  symm : ∀ {v w}, veq v w = true → veq w v = true
  trans : ∀ {u v w}, veq u v = true → veq v w = true → veq u w = true
  ne : ∀ v w, vne v w = !veq v w

end Code

section Correctness

variable {K V N : Type} [DecidableEq K] [DecidableEq N] {hash : K → UInt64} {eqv : K → K → Bool}
variable {veq vne : V → V → Bool} {d e : N} {M M' : N → ConcurrentMap K V} {ctl : EqCtl K V}
variable {pc : EqPc K V} {hk : LawfulKeys hash eqv} {A : N → ClassMap hk.setoid V} {b : Bool}
variable {parallelism : Option ℕ} {m m' : ConcurrentMap K V} {out : Except (Exc K) Bool}

/-- A total correctness judgement: when the dictionaries hold `A`, `__eq__` ends with `b`, whichever way
it goes, and they hold `A` still. -/
def Decides (vne : V → V → Bool) (d e : N) (A : N → ClassMap hk.setoid V) (ctl : EqCtl K V)
    (b : Bool) : Prop :=
  ∀ M, (∀ n, Represents hk (M n) (A n)) → (∃ M' out, Compare hash eqv vne d e M ctl M' out) ∧
    ∀ M' out, Compare hash eqv vne d e M ctl M' out →
      out = .ok b ∧ ∀ n, Represents hk (M' n) (A n)

theorem decides_stop : Decides vne d e A (.stop (.ok b)) b := by
  intro M hM
  refine ⟨⟨M, _, .stop⟩, fun M' out h => ?_⟩
  cases h
  exact ⟨rfl, hM⟩

omit [DecidableEq K] in
theorem represents_update {n : N} (hM : ∀ n, Represents hk (M n) (A n))
    (hm : Represents hk m (A n)) : ∀ n', Represents hk (Function.update M n m n') (A n') := by
  intro n'
  by_cases h : n' = n
  · subst h
    rwa [Function.update_self]
  · rw [Function.update_of_ne h]
    exact hM n'

/-- The rule of a call: it keeps what its dictionary holds, and whatever it returns decides. -/
theorem decides_goto {n : N} {op : Op K V} (hside : pc.ask.1.of d e = n) (hop : pc.ask.2 = op)
    (hcall : ∀ m m' x, Represents hk m (A n) → Call hash eqv m op m' x →
      Represents hk m' (A n) ∧ ∃ r ctl, x = .ok r ∧ pc.answer vne r = some ctl ∧
        Decides vne d e A ctl b) : Decides vne d e A (.goto pc) b := by
  subst hside hop
  intro M hM
  constructor
  · obtain ⟨m', x, hm'⟩ := call_exists hash eqv (M (pc.ask.1.of d e)) pc.ask.2
    obtain ⟨hA, r, ctl, rfl, hanswer, hdecides⟩ := hcall _ m' x (hM _) hm'
    obtain ⟨⟨M', out, hrest⟩, -⟩ := hdecides _ (represents_update hM hA)
    exact ⟨M', out, .goto hm' hanswer hrest⟩
  · intro M' out h
    cases h with
    | goto hm' hanswer hrest =>
        obtain ⟨hA, r, ctl, hr, hanswer', hdecides⟩ := hcall _ _ _ (hM _) hm'
        cases hr
        obtain rfl := Option.some.inj (hanswer.symm.trans hanswer')
        exact (hdecides _ (represents_update hM hA)).2 _ _ hrest

theorem decides_lookup {n : N} {op : KeyOp K V} (hside : pc.ask.1.of d e = n)
    (hop : pc.ask.2 = .keyed op) (hlookup : op.IsLookup)
    (hanswer : pc.answer vne (op.lookupRet ((A n).value op.key)) = some ctl)
    (h : Decides vne d e A ctl b) : Decides vne d e A (.goto pc) b := by
  refine decides_goto hside hop fun m m' x hA hcall => ?_
  obtain ⟨hA', rfl⟩ := hcall.keyed hA
  rw [apply_lookup hlookup] at hA' ⊢
  exact ⟨hA', _, ctl, rfl, hanswer, h⟩

theorem decides_scan {n : N} {op : WholeOp} (hside : pc.ask.1.of d e = n)
    (hop : pc.ask.2 = .whole op) (hclear : op ≠ .clear)
    (h : ∀ es : List (K × V), (es : Multiset (K × V)) = (A n).items →
      ∃ ctl, pc.answer vne (op.ret es) = some ctl ∧ Decides vne d e A ctl b) :
    Decides vne d e A (.goto pc) b := by
  refine decides_goto hside hop fun m m' x hA hcall => ?_
  obtain ⟨rfl, es, hes, rfl⟩ := hcall.scan hclear hA
  obtain ⟨ctl, hanswer, hdecides⟩ := h es hes
  exact ⟨hA, _, ctl, rfl, hanswer, hdecides⟩

/-- The entry is found in the other dictionary, with no unequal value. -/
def FoundIn (vne : V → V → Bool) (B : ClassMap hk.setoid V) (x : K × V) : Bool :=
  (B.value x.1).any fun w => !vne w x.2

/-- The loop over the items. -/
theorem decides_each (es : List (K × V)) :
    Decides vne d e A (eqEach es) (es.all (FoundIn vne (A e))) := by
  induction es with
  | nil => exact decides_stop
  | cons x rest ih =>
      obtain ⟨key, value⟩ := x
      have hin : (KeyOp.containsKey key : KeyOp K V).IsLookup := trivial
      have hget : (KeyOp.getVal key : KeyOp K V).IsLookup := trivial
      rw [List.all_cons, FoundIn]
      dsimp only
      cases hw : (A e).value key with
      | none =>
          have hanswer : (EqPc.contains key value rest).answer vne
              (KeyOp.lookupRet (.containsKey key) ((A e).value key)) = some (.stop (.ok false)) := by
            rw [hw]
            rfl
          exact decides_lookup rfl rfl hin hanswer decides_stop
      | some w =>
          have hanswer : (EqPc.contains key value rest).answer vne
              (KeyOp.lookupRet (.containsKey key) ((A e).value key)) =
                some (.goto (.getitem key value rest)) := by
            rw [hw]
            rfl
          have hgot : (EqPc.getitem key value rest).answer vne
              (KeyOp.lookupRet (.getVal key) ((A e).value key)) =
                some (if vne w value then .stop (.ok false) else eqEach rest) := by
            rw [hw]
            rfl
          refine decides_lookup rfl rfl hin hanswer (decides_lookup rfl rfl hget hgot ?_)
          rw [Option.any_some]
          cases vne w value with
          | true => exact decides_stop
          | false => exact ih

omit [DecidableEq K] in
theorem foundIn_iff (hv : LawfulValues veq vne) {B : ClassMap hk.setoid V} {x : K × V} :
    FoundIn vne B x = true ↔ ∃ w, B.value x.1 = some w ∧ veq x.2 w = true := by
  unfold FoundIn
  rw [Option.any_eq_true]
  refine exists_congr fun w => and_congr Iff.rfl ?_
  rw [hv.ne, Bool.not_not]
  exact ⟨hv.symm, hv.symm⟩

/-- `d == e` ends with whether the two finite maps agree. -/
theorem decides_eq (hv : LawfulValues veq vne) (A : N → ClassMap hk.setoid V) (d e : N)
    (hb : b = true ↔ ClassMap.Agree (fun v w => veq v w = true) (A d) (A e)) :
    Decides vne d e A (.goto .len) b := by
  refine decides_scan (n := d) rfl rfl (by decide) fun es hes => ⟨_, rfl, ?_⟩
  refine decides_scan (n := e) rfl rfl (by decide) fun es' hes' => ⟨_, rfl, ?_⟩
  have hlen : es.length = (A d).items.card := by rw [← hes, Multiset.coe_card]
  have hlen' : es'.length = (A e).items.card := by rw [← hes', Multiset.coe_card]
  split
  · rename_i hne
    have hfalse : b = false := by
      rw [← Bool.not_eq_true, hb]
      intro hagree
      exact hne (hlen.trans (hagree.card.trans hlen'.symm))
    rw [hfalse]
    exact decides_stop
  · rename_i hsame
    have hcard : (A d).items.card = (A e).items.card := by
      rw [← hlen, ← hlen']
      exact not_not.mp hsame
    refine decides_scan (n := d) rfl rfl (by decide) fun xs hxs => ⟨_, rfl, ?_⟩
    have hall : b = xs.all (FoundIn vne (A e)) := by
      rw [Bool.eq_iff_iff, hb, List.all_eq_true]
      have hmem : ∀ x, x ∈ xs ↔ x ∈ (A d).items := fun x => by rw [← hxs, Multiset.mem_coe]
      constructor
      · intro hagree x hx
        have hrel := hagree x.1
        rw [ClassMap.value_of_mem ((hmem x).mp hx) (hk.setoid.refl _)] at hrel
        generalize hw : (A e).value x.1 = y at hrel
        cases hrel with
        | some hr => exact (foundIn_iff hv).mpr ⟨_, hw, hr⟩
      · intro hfound
        refine ClassMap.agree_of_card hcard fun x hx => ?_
        exact (foundIn_iff hv).mp (hfound x ((hmem x).mpr hx))
    rw [hall]
    exact decides_each xs

omit [DecidableEq K] in
theorem sameEntries_iff {B C : ClassMap hk.setoid V} (hB : Represents hk m B)
    (hC : Represents hk m' C) :
    SameEntries eqv veq m m' ↔ ClassMap.Agree (fun v w => veq v w = true) B C := by
  rw [ClassMap.agree_iff, hB.items, hC.items]
  exact Iff.rfl

theorem Built.represents (hk : LawfulKeys hash eqv) (h : Built hash eqv parallelism m) :
    ∃ B, Represents hk m B := by
  induction h with
  | new hnew => exact ⟨∅, represents_new hk hnew⟩
  | session _ hsession ih =>
      obtain ⟨B, hB⟩ := ih
      obtain ⟨B', -, -, hB', -⟩ := hsession.refines hB
      exact ⟨B', hB'⟩
  | @created m fresh m' method M _ hfresh hexec ih =>
      obtain ⟨B, hB⟩ := ih
      obtain ⟨_, out', -, -, hshows⟩ :=
        (ends_method hB (represents_new hk hfresh) method).sound hexec
      cases hshows with
      | dict hdict => exact ⟨_, hdict⟩

/-- A copy holds what the dictionary holds. -/
theorem copy_represents {fresh : ConcurrentMap K V} {M : Maps K V} {B : ClassMap hk.setoid V}
    (hB : Represents hk m B) (hfresh : ConcurrentMap.new none parallelism = .ok fresh)
    (h : Exec hash eqv ⟨m, fresh⟩ Method.copy.start M (.ok (.dict m'))) :
    Represents hk M.self B ∧ Represents hk m' B := by
  obtain ⟨_, out', hspec, hself, hshows⟩ :=
    (ends_method hB (represents_new hk hfresh) .copy).sound h
  cases hspec with
  | copy =>
      cases hshows with
      | dict hdict => exact ⟨hself, hdict⟩

/-- `d[k] = v` for each of the pairs. -/
def setAll (es : List (K × V)) : List (Method K V) := es.map fun x => .single (.setitem x.1 x.2)

omit [DecidableEq K] in
theorem SpecSession.setAll {B B' : ClassMap hk.setoid V} {es : List (K × V)}
    {outs : List (Except (Exc K) (Answer hk.setoid V))} (h : SpecSession B (setAll es) B' outs) :
    B' = es.foldl (fun B x => B.put x.1 x.2) B := by
  induction es generalizing B outs with
  | nil =>
      cases h
      rfl
  | cons x es ih =>
      cases h with
      | cons hspec h =>
          cases hspec with
          | single => exact ih h

/-- Pairs of distinct classes that are set in a new dictionary are its entries. -/
theorem setAll_represents {n : Option ℕ} {es : List (K × V)}
    {outs : List (Except (Exc K) (Result K V))} (hk : LawfulKeys hash eqv)
    (hdistinct : es.Pairwise fun x y => eqv y.1 x.1 = false)
    (hnew : ConcurrentMap.new n parallelism = .ok m)
    (h : Session hash eqv parallelism m (setAll es) m' outs) :
    ∃ B : ClassMap hk.setoid V, Represents hk m' B ∧ B.items = (es : Multiset (K × V)) := by
  obtain ⟨B, _, hspec, hB, -⟩ := h.refines (represents_new hk hnew)
  refine ⟨B, hB, ?_⟩
  rw [hspec.setAll, ClassMap.items_foldl_put, ClassMap.items_empty, zero_add]
  · exact fun x _ => rfl
  · refine hdistinct.imp fun {x y} hne hxy => ?_
    have heq : eqv y.1 x.1 = true := hxy
    exact Bool.false_ne_true (hne.symm.trans heq)

/-- What a comparison returns, of dictionaries that represent the maps `A`. -/
theorem Equals.iff_agree {d e : N} {A : N → ClassMap hk.setoid V} {M : N → ConcurrentMap K V} {b : Bool}
    (h : Equals hash eqv vne M d e b) (hv : LawfulValues veq vne)
    (hA : ∀ n, Represents hk (M n) (A n)) :
    b = true ↔ ClassMap.Agree (fun v w => veq v w = true) (A d) (A e) := by
  obtain ⟨M', h⟩ := h
  by_cases hab : ClassMap.Agree (fun v w => veq v w = true) (A d) (A e)
  · have hb : true = true ↔ ClassMap.Agree (fun v w => veq v w = true) (A d) (A e) :=
      iff_of_true rfl hab
    obtain ⟨hout, -⟩ := (decides_eq hv A d e hb M hA).2 _ _ h
    cases hout
    exact hb
  · have hb : false = true ↔ ClassMap.Agree (fun v w => veq v w = true) (A d) (A e) :=
      iff_of_false Bool.false_ne_true hab
    obtain ⟨hout, -⟩ := (decides_eq hv A d e hb M hA).2 _ _ h
    cases hout
    exact hb

/-- Neither the order of insertion nor the number of shards makes a difference to the entries. -/
theorem setAll_sameEntries {n n' : Option ℕ} {m₁ m₁' m₂ m₂' : ConcurrentMap K V} {es es' : List (K × V)}
    {outs outs' : List (Except (Exc K) (Result K V))} (hk : LawfulKeys hash eqv)
    (hv : LawfulValues veq vne) (hperm : es.Perm es')
    (hdistinct : es.Pairwise fun x y => eqv y.1 x.1 = false)
    (hnew : ConcurrentMap.new n parallelism = .ok m₁) (hnew' : ConcurrentMap.new n' parallelism = .ok m₁')
    (h : Session hash eqv parallelism m₁ (setAll es) m₂ outs)
    (h' : Session hash eqv parallelism m₁' (setAll es') m₂' outs') : SameEntries eqv veq m₂ m₂' := by
  have hdistinct' : es'.Pairwise fun x y => eqv y.1 x.1 = false :=
    hdistinct.perm hperm fun {x y} hne => by
      rw [← Bool.not_eq_true] at hne ⊢
      exact fun h => hne (hk.symm h)
  obtain ⟨B, hB, hitems⟩ := setAll_represents hk hdistinct hnew h
  obtain ⟨B', hB', hitems'⟩ := setAll_represents hk hdistinct' hnew' h'
  obtain rfl : B = B' := ClassMap.ext_items (by rw [hitems, hitems', Multiset.coe_eq_coe.mpr hperm])
  exact (sameEntries_iff hB hB').mpr (.refl hv.refl B)

/-- A copy has the entries of its original. -/
theorem copy_sameEntries {m' fresh : ConcurrentMap K V} {M₁ : Maps K V} (hk : LawfulKeys hash eqv)
    (hv : LawfulValues veq vne) (hm : Built hash eqv parallelism m)
    (hfresh : ConcurrentMap.new none parallelism = .ok fresh)
    (h : Exec hash eqv ⟨m, fresh⟩ Method.copy.start M₁ (.ok (.dict m'))) :
    SameEntries eqv veq m' M₁.self := by
  obtain ⟨B, hB⟩ := hm.represents hk
  obtain ⟨hself, hnew⟩ := copy_represents hB hfresh h
  exact (sameEntries_iff hnew hself).mpr (.refl hv.refl B)

/-- `==` on the dictionaries `M` is equality of maps. -/
structure IsMapEquality (hash : K → UInt64) (eqv : K → K → Bool) (veq vne : V → V → Bool)
    (parallelism : Option ℕ) (M : N → ConcurrentMap K V) : Prop where
  /-- It returns, never raises, and leaves the dictionaries as they are. -/
  returns : ∀ d e, (∃ b, Equals hash eqv vne M d e b) ∧
    ∀ M' out, Compare hash eqv vne d e M (.goto .len) M' out →
      (∃ b, out = .ok b) ∧ ∀ n, (M' n).entries = (M n).entries
  iff : ∀ d e b, Equals hash eqv vne M d e b → (b = true ↔ SameEntries eqv veq (M d) (M e))
  refl : ∀ d b, Equals hash eqv vne M d d b → b = true
  symm : ∀ d e b b', Equals hash eqv vne M d e b → Equals hash eqv vne M e d b' → b = b'
  trans : ∀ d e f b, Equals hash eqv vne M d e true → Equals hash eqv vne M e f true →
    Equals hash eqv vne M d f b → b = true
  /-- What has been set in new dictionaries, in whatever order and with whatever numbers of shards. -/
  order : ∀ d e es es' n n' m m' outs outs' b, List.Perm es es' →
    es.Pairwise (fun x y => eqv y.1 x.1 = false) → ConcurrentMap.new n parallelism = .ok m →
    ConcurrentMap.new n' parallelism = .ok m' →
    Session hash eqv parallelism m (setAll es) (M d) outs →
    Session hash eqv parallelism m' (setAll es') (M e) outs' →
    Equals hash eqv vne M d e b → b = true
  copy : ∀ d e m fresh M₁ b, Built hash eqv parallelism m →
    ConcurrentMap.new none parallelism = .ok fresh →
    Exec hash eqv ⟨m, fresh⟩ Method.copy.start M₁ (.ok (.dict (M e))) → M d = M₁.self →
    Equals hash eqv vne M e d b → b = true

/-- With lawful keys and values and one caller: `d == e` is `True` if and only if the two dictionaries
hold the same classes of keys with equal values; so it is an equivalence, does not see the order of
insertion or the numbers of shards, and finds a copy equal. -/
theorem eq_isMapEquality (hk : LawfulKeys hash eqv) (hv : LawfulValues veq vne)
    (parallelism : Option ℕ) (M : N → ConcurrentMap K V)
    (hbuilt : ∀ n, Built hash eqv parallelism (M n)) :
    IsMapEquality hash eqv veq vne parallelism M := by
  choose A hA using fun n => (hbuilt n).represents hk
  have hsame : ∀ d e b, Equals hash eqv vne M d e b → (b = true ↔ SameEntries eqv veq (M d) (M e)) :=
    fun d e b h => (h.iff_agree hv hA).trans (sameEntries_iff (hA d) (hA e)).symm
  have hsymm : ∀ d e, ClassMap.Agree (fun v w => veq v w = true) (A d) (A e) →
      ClassMap.Agree (fun v w => veq v w = true) (A e) (A d) :=
    fun d e h => h.symm fun _ _ => hv.symm
  refine ⟨fun d e => ?_, hsame, fun d b h => ?_, fun d e b b' h h' => ?_, fun d e f b h h' h'' => ?_,
    ?_, ?_⟩
  · obtain ⟨b, hb⟩ : ∃ b, b = true ↔ ClassMap.Agree (fun v w => veq v w = true) (A d) (A e) := by
      classical
      exact ⟨decide _, decide_eq_true_iff⟩
    obtain ⟨⟨M', out, h⟩, hout⟩ := decides_eq hv A d e hb M hA
    refine ⟨⟨b, M', (hout _ _ h).1 ▸ h⟩, fun M' out h => ?_⟩
    obtain ⟨hb, hM'⟩ := hout M' out h
    exact ⟨⟨b, hb⟩, fun n => (hM' n).items.symm.trans (hA n).items⟩
  · exact (h.iff_agree hv hA).mpr (.refl hv.refl _)
  · rw [Bool.eq_iff_iff, h.iff_agree hv hA, h'.iff_agree hv hA]
    exact ⟨hsymm d e, hsymm e d⟩
  · have hde := (h.iff_agree hv hA).mp rfl
    have hef := (h'.iff_agree hv hA).mp rfl
    exact (h''.iff_agree hv hA).mpr (hde.trans (fun _ _ _ => hv.trans) hef)
  · intro d e es es' n n' m m' outs outs' b hperm hdistinct hm hm' h h' heq
    exact (hsame d e b heq).mpr (setAll_sameEntries hk hv hperm hdistinct hm hm' h h')
  · intro d e m fresh M₁ b hm hfresh hcopy hd heq
    exact (hsame e d b heq).mpr (hd ▸ copy_sameEntries hk hv hm hfresh hcopy)

theorem lawful_beq : LawfulValues (fun v w : ℕ => v == w) fun v w => v != w where
  refl v := beq_self_eq_true v
  symm h := by rw [beq_iff_eq] at h ⊢; exact h.symm
  trans h h' := by rw [beq_iff_eq] at h h' ⊢; exact h.trans h'
  ne v w := rfl

/-- The same two pairs, in either order, on three shards and on the default number of shards. -/
theorem eq_isMapEquality_lastDigit : ∃ M : Bool → ConcurrentMap ℕ ℕ,
    IsMapEquality parity lastDigit (fun v w => v == w) (fun v w => v != w) none M ∧
      (M true).entries ≠ 0 ∧ Equals parity lastDigit (fun v w => v != w) M true false true := by
  obtain ⟨m, hm⟩ : ∃ m : ConcurrentMap ℕ ℕ, ConcurrentMap.new (some 3) none = .ok m := ⟨_, rfl⟩
  obtain ⟨m', hm'⟩ : ∃ m' : ConcurrentMap ℕ ℕ, ConcurrentMap.new none none = .ok m' := ⟨_, rfl⟩
  obtain ⟨d, outs, h⟩ := session_exists none (represents_new lawful_lastDigit hm) (setAll [(1, 7), (3, 9)])
  obtain ⟨e, outs', h'⟩ := session_exists none (represents_new lawful_lastDigit hm')
    (setAll [(3, 9), (1, 7)])
  have hdistinct : ([(1, 7), (3, 9)] : List (ℕ × ℕ)).Pairwise fun x y => lastDigit y.1 x.1 = false := by
    decide
  have heq := eq_isMapEquality lawful_lastDigit lawful_beq none (Bool.rec e d)
    (Bool.rec (.session (.new hm') h') (.session (.new hm) h))
  refine ⟨_, heq, ?_, ?_⟩
  · obtain ⟨B, hB, hitems⟩ := setAll_represents lawful_lastDigit hdistinct hm h
    rw [← hB.items, hitems]
    simp
  · obtain ⟨b, hb⟩ := (heq.returns true false).1
    obtain rfl := heq.order true false _ _ _ _ m m' outs outs' b (.swap (3, 9) (1, 7) []) hdistinct hm
      hm' h h' hb
    exact hb

end Correctness

end Pysync.Dict
