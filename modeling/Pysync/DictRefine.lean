import Pysync.DictModel
import Pysync.MapRefine

/-!
A dictionary with one caller is a finite map from the classes of equal keys to values, for every
sequence of method calls and every number of shards.
-/

namespace Pysync.Dict
open Map

section Specification

/-- What the finite map answers; what has no order is a multiset. -/
inductive Answer {K : Type} (S : Setoid K) (V : Type) where
  | value (v : V)
  | unit
  | bool (b : Bool)
  | len (n : ℕ)
  | keys (ks : Multiset K)
  | values (vs : Multiset V)
  | items (es : Multiset (K × V))
  | pair (e : K × V)
  | dict (A : ClassMap S V)

variable {K V : Type} {S : Setoid K} [DecidableEq (Quotient S)]

/-- Store pair after pair, up to the first error. -/
def putEach : Iter K (K × V) → ClassMap S V → ClassMap S V × Except (Exc K) Unit
  | [], A => (A, .ok ())
  | .ok (key, value) :: rest, A => putEach rest (A.put key value)
  | .error e :: _, A => (A, .error e)

/-- Store `value key` under key after key, up to the first error of the keys or of `value`. -/
def putKeys (value : K → Except (Exc K) V) :
    Iter K K → ClassMap S V → ClassMap S V × Except (Exc K) Unit
  | [], A => (A, .ok ())
  | .error e :: _, A => (A, .error e)
  | .ok key :: rest, A => match value key with
      | .ok v => putKeys value rest (A.put key v)
      | .error e => (A, .error e)

/-- Store pair after pair. -/
def putAll (es : List (K × V)) (A : ClassMap S V) : ClassMap S V :=
  es.foldl (fun A e => A.put e.1 e.2) A

/-- What `update` stores from its first argument: nothing from `None`; from a mapping what it holds
under its keys, so that the dictionary itself brings nothing new; or the pairs it is asked for. -/
def Source.store (A : ClassMap S V) : Source K V → ClassMap S V × Except (Exc K) Unit
  | absent | self => (A, .ok ())
  | mapping keys getitem => putKeys getitem keys A
  | items es => putEach es A
  | pairs es => putEach es A

/-- A method on a finite map. -/
def Single.spec (A : ClassMap S V) : Single K V → ClassMap S V × Except (Exc K) (Answer S V)
  | getitem key => (A, match A.value key with
      | some v => .ok (.value v)
      | none => .error (.keyError key))
  | setitem key value => (A.put key value, .ok .unit)
  | delitem key => (A.drop key,
      if (A.value key).isSome then .ok .unit else .error (.keyError key))
  | contains key => (A, .ok (.bool (A.value key).isSome))
  | len => (A, .ok (.len A.items.card))
  | get key default => (A, .ok (.value ((A.value key).getD default)))
  | pop key default => (A.drop key, match A.value key, default with
      | some v, _ => .ok (.value v)
      | none, some v => .ok (.value v)
      | none, none => .error (.keyError key))
  | setdefault key default => match A.value key with
      | some v => (A, .ok (.value v))
      | none => (A.put key default, .ok (.value default))
  | clear => (∅, .ok .unit)
  | keys => (A, .ok (.keys (A.items.map Prod.fst)))
  | values => (A, .ok (.values (A.items.map Prod.snd)))
  | items => (A, .ok (.items A.items))

/-- A method turns the finite map `A` into `A'` and ends as `out`; only `popitem` has a choice. -/
inductive Spec (A : ClassMap S V) :
    Method K V → ClassMap S V → Except (Exc K) (Answer S V) → Prop
  | single (m : Single K V) : Spec A (.single m) (m.spec A).1 (m.spec A).2
  /-- The keyword arguments are stored last. -/
  | update (other : Source K V) (kwargs : List (K × V)) {A' : ClassMap S V} :
      other.store A = (A', .ok ()) → Spec A (.update other kwargs) (putAll kwargs A') (.ok .unit)
  /-- What has been stored before the error stays. -/
  | updateRaises (other : Source K V) (kwargs : List (K × V)) {A' : ClassMap S V} {e : Exc K} :
      other.store A = (A', .error e) → Spec A (.update other kwargs) A' (.error e)
  | popitem {e : K × V} : e ∈ A.items → Spec A .popitem (A.drop e.1) (.ok (.pair e))
  | popitemEmpty : A = ∅ → Spec A .popitem A (.error popitemErr)
  | copy : Spec A .copy A (.ok (.dict A))
  | fromkeys (iterable : Iter K K) (value : V) {B : ClassMap S V} :
      putKeys (fun _ => .ok value) iterable ∅ = (B, .ok ()) →
      Spec A (.fromkeys iterable value) A (.ok (.dict B))
  | fromkeysRaises (iterable : Iter K K) (value : V) {B : ClassMap S V} {e : Exc K} :
      putKeys (fun _ => .ok value) iterable ∅ = (B, .error e) →
      Spec A (.fromkeys iterable value) A (.error e)

inductive SpecSession : ClassMap S V → List (Method K V) → ClassMap S V →
    List (Except (Exc K) (Answer S V)) → Prop
  | nil {A : ClassMap S V} : SpecSession A [] A []
  | cons {A A' A'' : ClassMap S V} {method : Method K V} {ms : List (Method K V)}
      {out : Except (Exc K) (Answer S V)} {outs : List (Except (Exc K) (Answer S V))} :
      Spec A method A' out → SpecSession A' ms A'' outs →
      SpecSession A (method :: ms) A'' (out :: outs)

/-- Apart from `popitem` a method leaves no choice. -/
theorem Spec.unique {A A₁ A₂ : ClassMap S V} {method : Method K V}
    {out₁ out₂ : Except (Exc K) (Answer S V)} (h₁ : Spec A method A₁ out₁)
    (h₂ : Spec A method A₂ out₂) (hm : method ≠ .popitem) : A₁ = A₂ ∧ out₁ = out₂ := by
  cases h₁ with
  | popitem => exact absurd rfl hm
  | popitemEmpty => exact absurd rfl hm
  | single =>
      cases h₂
      exact ⟨rfl, rfl⟩
  | copy =>
      cases h₂
      exact ⟨rfl, rfl⟩
  | update _ _ h₁ =>
      cases h₂ with
      | update _ _ h₂ =>
          cases h₁.symm.trans h₂
          exact ⟨rfl, rfl⟩
      | updateRaises _ _ h₂ => cases h₁.symm.trans h₂
  | updateRaises _ _ h₁ =>
      cases h₂ with
      | update _ _ h₂ => cases h₁.symm.trans h₂
      | updateRaises _ _ h₂ =>
          cases h₁.symm.trans h₂
          exact ⟨rfl, rfl⟩
  | fromkeys _ _ h₁ =>
      cases h₂ with
      | fromkeys _ _ h₂ =>
          cases h₁.symm.trans h₂
          exact ⟨rfl, rfl⟩
      | fromkeysRaises _ _ h₂ => cases h₁.symm.trans h₂
  | fromkeysRaises _ _ h₁ =>
      cases h₂ with
      | fromkeys _ _ h₂ => cases h₁.symm.trans h₂
      | fromkeysRaises _ _ h₂ =>
          cases h₁.symm.trans h₂
          exact ⟨rfl, rfl⟩

theorem SpecSession.unique {A A₁ A₂ : ClassMap S V} {ms : List (Method K V)}
    {outs₁ outs₂ : List (Except (Exc K) (Answer S V))} (h₁ : SpecSession A ms A₁ outs₁)
    (h₂ : SpecSession A ms A₂ outs₂) (hm : .popitem ∉ ms) : A₁ = A₂ ∧ outs₁ = outs₂ := by
  induction h₁ generalizing A₂ outs₂ with
  | nil =>
      cases h₂
      exact ⟨rfl, rfl⟩
  | cons hspec _ ih =>
      have hmethod := List.ne_of_not_mem_cons hm
      have hrest := List.not_mem_of_not_mem_cons hm
      cases h₂ with
      | cons hspec₂ h₂ =>
          obtain ⟨rfl, rfl⟩ := hspec.unique hspec₂ (Ne.symm hmethod)
          obtain ⟨rfl, rfl⟩ := ih h₂ hrest
          exact ⟨rfl, rfl⟩

/-- A loop over keys that makes a pair of each. -/
theorem putEach_keys {f : Except (Exc K) K → Except (Exc K) (K × V)}
    {value : K → Except (Exc K) V} (hok : ∀ k, f (.ok k) = (value k).map fun v => (k, v))
    (herror : ∀ e, f (.error e) = .error e) (keys : Iter K K) (A : ClassMap S V) :
    putEach (keys.map f) A = putKeys value keys A := by
  induction keys generalizing A with
  | nil => rfl
  | cons key rest ih =>
      rw [List.map_cons]
      cases key with
      | error e =>
          rw [herror]
          rfl
      | ok k =>
          rw [hok, putKeys]
          cases value k with
          | error e => rfl
          | ok v => exact ih (A.put k v)

/-- The keyword arguments come after the rest, if that raises nothing. -/
theorem putEach_append (es : Iter K (K × V)) (kwargs : List (K × V)) (A : ClassMap S V) :
    putEach (es ++ kwargs.map .ok) A = match putEach es A with
      | (A', .ok ()) => (putAll kwargs A', .ok ())
      | (A', .error e) => (A', .error e) := by
  induction es generalizing A with
  | nil =>
      rw [List.nil_append]
      induction kwargs generalizing A with
      | nil => rfl
      | cons e kwargs ih => exact ih (A.put e.1 e.2)
  | cons x rest ih =>
      cases x with
      | error e => rfl
      | ok e => exact ih (A.put e.1 e.2)

/-- The loop of the code over `other` stores what it is to store. -/
theorem putEach_each (other : Source K V) (A : ClassMap S V) :
    putEach other.each A = other.store A := by
  cases other with
  | absent | self | items | pairs => rfl
  | mapping keys getitem =>
      refine putEach_keys (fun k => ?_) (fun _ => rfl) keys A
      cases hv : getitem k with
      | error e => simp [bind, Except.bind, Except.map, hv]
      | ok v => simp [bind, Except.bind, Except.map, hv, pure, Except.pure]

/-- Storing the entries of a finite map one after another makes this map. -/
theorem putEach_items {A B : ClassMap S V} {es : List (K × V)} (h : B.items + es = A.items) :
    putEach (es.map .ok) B = (A, .ok ()) := by
  induction es generalizing B with
  | nil =>
      obtain rfl := ClassMap.ext_items ((add_zero _).symm.trans h)
      rfl
  | cons e es ih =>
      have hmem : ∀ e' ∈ B.items, e' ∈ A.items := fun e' he' =>
        h ▸ Multiset.mem_add.mpr (.inl he')
      have he : e ∈ A.items := h ▸ Multiset.mem_add.mpr (.inr List.mem_cons_self)
      have hnone : B.find e.1 = none := by
        refine ClassMap.find_eq_none.mpr fun e' he' hkey => ?_
        obtain rfl := Option.some.inj
          ((ClassMap.find_of_mem (hmem e' he') hkey).symm.trans (ClassMap.mem_items.mp he))
        have hdisjoint := Multiset.nodup_add.mp (h ▸ A.nodup_items)
        exact Multiset.disjoint_left.mp hdisjoint.2.2 he' List.mem_cons_self
      refine ih ?_
      rw [ClassMap.items_put hnone, ← h, Multiset.cons_add, ← Multiset.add_cons]
      rfl

end Specification

section Correctness

variable {K V : Type} [DecidableEq K] {hash : K → UInt64} {eqv : K → K → Bool}

/-- A total correctness judgement: from `M` a method ends, and whichever way it goes `Post` holds of the
maps and of its outcome. -/
inductive Ends (hash : K → UInt64) (eqv : K → K → Bool)
    (Post : Maps K V → Except (Exc K) (Result K V) → Prop) : Maps K V → Ctl K V → Prop
  | stop {M : Maps K V} {out : Except (Exc K) (Result K V)} :
      Post M out → Ends hash eqv Post M (.stop out)
  | created {M : Maps K V} : Post M (.ok (.dict M.new)) → Ends hash eqv Post M .created
  | goto {M : Maps K V} {pc : Pc K V} :
      (∀ m' x, Call hash eqv (M.get pc.ask.1) pc.ask.2 m' x →
        ∃ r ctl, x = .ok r ∧ pc.answer r = some ctl) →
      (∀ m' r ctl, Call hash eqv (M.get pc.ask.1) pc.ask.2 m' (.ok r) → pc.answer r = some ctl →
        Ends hash eqv Post (M.set m' pc.ask.1) ctl) →
      Ends hash eqv Post M (.goto pc)

variable {Post : Maps K V → Except (Exc K) (Result K V) → Prop} {M M' : Maps K V}
variable {ctl : Ctl K V} {pc : Pc K V} {out : Except (Exc K) (Result K V)}

theorem Ends.sound (h : Ends hash eqv Post M ctl) (hexec : Exec hash eqv M ctl M' out) :
    Post M' out := by
  induction hexec with
  | stop =>
      cases h with
      | stop hpost => exact hpost
  | created =>
      cases h with
      | created hpost => exact hpost
  | goto hcall hanswer _ ih =>
      cases h with
      | goto _ hnext => exact ih (hnext _ _ _ hcall hanswer)

theorem Ends.returns (h : Ends hash eqv Post M ctl) :
    ∃ M' out, Exec hash eqv M ctl M' out := by
  induction h with
  | stop => exact ⟨_, _, .stop⟩
  | created => exact ⟨_, _, .created⟩
  | @goto M pc hanswers _ ih =>
      obtain ⟨m', x, hcall⟩ := call_exists hash eqv (M.get pc.ask.1) pc.ask.2
      obtain ⟨r, ctl, rfl, hanswer⟩ := hanswers m' x hcall
      obtain ⟨M', out, hexec⟩ := ih m' r ctl hcall hanswer
      exact ⟨M', out, .goto hcall hanswer hexec⟩

variable {hk : LawfulKeys hash eqv} {A B : ClassMap hk.setoid V} {op : KeyOp K V} {w : Target}

/-- The rule of a call on one key. -/
theorem Ends.keyed (hask : pc.ask = (w, .keyed op)) (hA : Represents hk (M.get w) A)
    (hanswer : pc.answer (op.apply A).2 = some ctl)
    (hnext : ∀ m', Represents hk m' (op.apply A).1 → Ends hash eqv Post (M.set m' w) ctl) :
    Ends hash eqv Post M (.goto pc) := by
  refine .goto ?_ ?_
  · rw [hask]
    intro m' x hcall
    exact ⟨_, _, (hcall.keyed hA).2, hanswer⟩
  · rw [hask]
    intro m' r ctl' hcall hctl
    obtain ⟨hA', hr⟩ := hcall.keyed hA
    cases hr
    obtain rfl := Option.some.inj (hanswer.symm.trans hctl)
    exact hnext m' hA'

/-- The rule of a scan of the dictionary itself, which may read its entries in any order. -/
theorem Ends.scan {op : WholeOp} (hask : pc.ask = (.self, .whole op)) (hop : op ≠ .clear)
    (hA : Represents hk M.self A)
    (hnext : ∀ es : List (K × V), (es : Multiset (K × V)) = A.items →
      ∃ ctl, pc.answer (op.ret es) = some ctl ∧ Ends hash eqv Post M ctl) :
    Ends hash eqv Post M (.goto pc) := by
  refine .goto ?_ ?_
  · rw [hask]
    intro m' x hcall
    obtain ⟨-, es, hes, rfl⟩ := hcall.scan hop hA
    obtain ⟨ctl, hctl, -⟩ := hnext es hes
    exact ⟨_, ctl, rfl, hctl⟩
  · rw [hask]
    intro m' r ctl' hcall hctl'
    obtain ⟨rfl, es, hes, hr⟩ := hcall.scan hop hA
    cases hr
    obtain ⟨ctl, hctl, hends⟩ := hnext es hes
    obtain rfl := Option.some.inj (hctl.symm.trans hctl')
    exact hends

theorem Ends.clear (hask : pc.ask = (.self, .whole .clear)) (hA : Represents hk M.self A)
    (hanswer : pc.answer .unit = some ctl)
    (hnext : ∀ m', Represents hk m' (∅ : ClassMap hk.setoid V) →
      Ends hash eqv Post (M.set m' .self) ctl) : Ends hash eqv Post M (.goto pc) := by
  refine .goto ?_ ?_
  · rw [hask]
    intro m' x hcall
    exact ⟨_, _, (hcall.clear hA).2, hanswer⟩
  · rw [hask]
    intro m' r ctl' hcall hctl
    obtain ⟨hA', hr⟩ := hcall.clear hA
    cases hr
    obtain rfl := Option.some.inj (hanswer.symm.trans hctl)
    exact hnext m' hA'

/-- What a method returns shows what the finite map answers. -/
inductive Shows (hk : LawfulKeys hash eqv) :
    Except (Exc K) (Result K V) → Except (Exc K) (Answer hk.setoid V) → Prop
  | error (e : Exc K) : Shows hk (.error e) (.error e)
  | value (v : V) : Shows hk (.ok (.value v)) (.ok (.value v))
  | unit : Shows hk (.ok .unit) (.ok .unit)
  | bool (b : Bool) : Shows hk (.ok (.bool b)) (.ok (.bool b))
  | len (n : ℕ) : Shows hk (.ok (.len n)) (.ok (.len n))
  | keys (ks : List K) : Shows hk (.ok (.keys ks)) (.ok (.keys ks))
  | values (vs : List V) : Shows hk (.ok (.values vs)) (.ok (.values vs))
  | items (es : List (K × V)) : Shows hk (.ok (.items es)) (.ok (.items es))
  | pair (e : K × V) : Shows hk (.ok (.pair e)) (.ok (.pair e))
  | dict {d : ConcurrentMap K V} {A : ClassMap hk.setoid V} :
      Represents hk d A → Shows hk (.ok (.dict d)) (.ok (.dict A))

/-- The method ends as the finite map allows. -/
def Refines (hk : LawfulKeys hash eqv) (A : ClassMap hk.setoid V) (method : Method K V)
    (M : Maps K V) (out : Except (Exc K) (Result K V)) : Prop :=
  ∃ A' out', Spec A method A' out' ∧ Represents hk M.self A' ∧ Shows hk out out'

omit [DecidableEq K] in
/-- The answer to a call on one key, put into the words of the method. -/
theorem Single.keyed {m : Single K V} (hop : m.op = .keyed op) (A : ClassMap hk.setoid V) :
    ∃ out, m.answer (op.apply A).2 = some out ∧ (op.apply A).1 = (m.spec A).1 ∧
      Shows hk out (m.spec A).2 := by
  cases m with
  | getitem key =>
      cases hop
      rw [apply_getVal]
      unfold Single.spec
      dsimp only
      cases A.value key with
      | none => exact ⟨_, rfl, rfl, .error _⟩
      | some v => exact ⟨_, rfl, rfl, .value v⟩
  | get key default =>
      cases hop
      rw [apply_getVal]
      exact ⟨_, rfl, rfl, .value _⟩
  | setitem key value =>
      cases hop
      exact ⟨_, rfl, rfl, .unit⟩
  | delitem key =>
      cases hop
      rw [apply_delete]
      unfold Single.spec
      dsimp only
      cases (A.value key).isSome with
      | true => exact ⟨_, rfl, rfl, .unit⟩
      | false => exact ⟨_, rfl, rfl, .error _⟩
  | contains key =>
      cases hop
      rw [apply_containsKey]
      exact ⟨_, rfl, rfl, .bool _⟩
  | pop key default =>
      cases hop
      rw [apply_popVal]
      unfold Single.spec
      dsimp only
      cases A.value key with
      | some v => exact ⟨_, rfl, rfl, .value v⟩
      | none =>
          cases default with
          | some v => exact ⟨_, rfl, rfl, .value v⟩
          | none => exact ⟨_, rfl, rfl, .error _⟩
  | setdefault key default =>
      cases hop
      rw [apply_getOrInsert]
      unfold Single.spec
      dsimp only
      cases A.value key with
      | some v => exact ⟨_, rfl, rfl, .value v⟩
      | none => exact ⟨_, rfl, rfl, .value _⟩
  | _ => cases hop

/-- A loop that sets pairs in the dictionary itself. -/
theorem ends_setEach {es : Iter K (K × V)} (hA : Represents hk M.self A)
    (hpost : ∀ m', Represents hk m' (putEach es A).1 →
      Post ⟨m', M.new⟩ ((putEach es A).2.map fun _ => .unit)) :
    Ends hash eqv Post M (setEach es) := by
  induction es generalizing M A with
  | nil => exact .stop (hpost M.self hA)
  | cons x rest ih =>
      cases x with
      | error e => exact .stop (hpost M.self hA)
      | ok e =>
          refine .keyed rfl hA rfl fun m' hA' => ?_
          exact ih hA' hpost

/-- A loop that fills the new dictionary. -/
theorem ends_fillEach {es : Iter K (K × V)} (hB : Represents hk M.new B)
    (hpost : ∀ m', Represents hk m' (putEach es B).1 →
      Post ⟨M.self, m'⟩ ((putEach es B).2.map fun _ => .dict m')) :
    Ends hash eqv Post M (fillEach es) := by
  induction es generalizing M B with
  | nil => exact .created (hpost M.new hB)
  | cons x rest ih =>
      cases x with
      | error e => exact .stop (hpost M.new hB)
      | ok e =>
          refine .keyed rfl hB rfl fun m' hB' => ?_
          exact ih hB' hpost

/-- The loop that sets the dictionary's own entries changes nothing. -/
theorem ends_ownEach {ks : List K} {kwargs : List (K × V)} (hA : Represents hk M.self A)
    (hks : ∀ k ∈ ks, ∃ v, A.value k = some v)
    (hend : ∀ m', Represents hk m' A → Ends hash eqv Post ⟨m', M.new⟩ (setEach (kwargs.map .ok))) :
    Ends hash eqv Post M (ownEach kwargs ks) := by
  induction ks generalizing M with
  | nil => exact hend M.self hA
  | cons key rest ih =>
      obtain ⟨v, hv⟩ := hks key List.mem_cons_self
      have hgot : (Pc.updateGet key rest kwargs).answer (KeyOp.apply (.getVal key) A).2 =
          some (.goto (.updateOwn key v rest kwargs)) := by
        rw [apply_getVal, hv]
        rfl
      refine .keyed rfl hA hgot fun m₁ h₁ => ?_
      rw [apply_getVal] at h₁
      refine .keyed rfl h₁ rfl fun m₂ h₂ => ?_
      rw [apply_set, ClassMap.put_value hv] at h₂
      exact ih h₂ (fun k hmem => hks k (List.mem_cons_of_mem _ hmem)) hend

theorem ends_single {m : ConcurrentMap K V} {new : ConcurrentMap K V} (hA : Represents hk m A)
    (s : Single K V) : Ends hash eqv (Refines hk A (.single s)) ⟨m, new⟩ (.goto (.single s)) := by
  have hscan : ∀ op : WholeOp, op ≠ .clear → s.op = .whole op → (s.spec A).1 = A →
      (∀ es : List (K × V), (es : Multiset (K × V)) = A.items →
        ∃ out, s.answer (op.ret es) = some out ∧ Shows hk out (s.spec A).2) →
      Ends hash eqv (Refines hk A (.single s)) ⟨m, new⟩ (.goto (.single s)) := by
    intro op hop hs hsame hanswer
    refine .scan (congrArg (Target.self, ·) hs) hop hA fun es hes => ?_
    obtain ⟨out, hout, hshows⟩ := hanswer es hes
    refine ⟨.stop out, congrArg (Option.map Ctl.stop) hout, .stop ⟨_, _, .single s, ?_, hshows⟩⟩
    rw [hsame]
    exact hA
  cases hs : s.op with
  | keyed op =>
      obtain ⟨out, hanswer, happly, hshows⟩ := s.keyed hs A
      refine .keyed (congrArg (Target.self, ·) hs) hA (congrArg (Option.map Ctl.stop) hanswer) ?_
      intro m' hA'
      rw [happly] at hA'
      exact .stop ⟨_, _, .single s, hA', hshows⟩
  | whole op =>
      cases s with
      | len =>
          refine hscan .len (by decide) rfl rfl fun es hes => ⟨_, rfl, ?_⟩
          simp only [Single.spec]
          rw [← hes]
          exact .len _
      | clear => exact .clear rfl hA rfl fun m' hempty => .stop ⟨_, _, .single _, hempty, .unit⟩
      | keys =>
          refine hscan .keys (by decide) rfl rfl fun es hes => ⟨_, rfl, ?_⟩
          simp only [Single.spec]
          rw [← hes]
          exact .keys _
      | values =>
          refine hscan .values (by decide) rfl rfl fun es hes => ⟨_, rfl, ?_⟩
          simp only [Single.spec]
          rw [← hes]
          exact .values _
      | items =>
          refine hscan .items (by decide) rfl rfl fun es hes => ⟨_, rfl, ?_⟩
          simp only [Single.spec]
          rw [← hes]
          exact .items _
      | _ => cases hs

theorem ends_update (other : Source K V) (kwargs : List (K × V)) (hA : Represents hk M.self A) :
    Ends hash eqv (Refines hk A (.update other kwargs)) M (Method.start (.update other kwargs)) := by
  have hset : ∀ m' es, Represents hk m' A → es = other.each ++ kwargs.map .ok →
      Ends hash eqv (Refines hk A (.update other kwargs)) ⟨m', M.new⟩ (setEach es) := by
    rintro m' es hm' rfl
    refine ends_setEach hm' fun m'' hA' => ?_
    rw [putEach_append, putEach_each] at hA' ⊢
    cases hstore : other.store A with
    | mk A' out =>
        rw [hstore] at hA'
        cases out with
        | ok u => exact ⟨_, _, .update other kwargs hstore, hA', .unit⟩
        | error e => exact ⟨_, _, .updateRaises other kwargs hstore, hA', .error e⟩
  cases other with
  | self =>
      refine .scan rfl (by decide) hA fun es hes => ⟨_, rfl, ?_⟩
      refine ends_ownEach hA (fun k hmem => ?_) fun m' hm' => hset m' _ hm' rfl
      obtain ⟨e, he, rfl⟩ := List.mem_map.mp hmem
      have hfind := ClassMap.mem_items.mp (hes ▸ Multiset.mem_coe.mpr he)
      exact ⟨e.2, by rw [ClassMap.value, hfind]; rfl⟩
  | absent => exact hset M.self _ hA rfl
  | mapping => exact hset M.self _ hA rfl
  | items => exact hset M.self _ hA rfl
  | pairs => exact hset M.self _ hA rfl

/-- A `popitem` with no one else about gets its first candidate. -/
theorem ends_popitem (hA : Represents hk M.self A) :
    Ends hash eqv (Refines hk A .popitem) M (Method.start .popitem) := by
  refine .scan rfl (by decide) hA fun es hes => ?_
  cases es with
  | nil =>
      have hempty : A = ∅ := ClassMap.eq_empty_of_items hes.symm
      exact ⟨_, rfl, .stop ⟨A, _, .popitemEmpty hempty, hA, .error _⟩⟩
  | cons e rest =>
      have he : e ∈ A.items := hes ▸ Multiset.mem_coe.mpr List.mem_cons_self
      have hvalue : A.value e.1 = some e.2 := by
        rw [ClassMap.value, ClassMap.mem_items.mp he]
        rfl
      have hgot : (Pc.popitemPop e.1 rest).answer (KeyOp.apply (.popVal e.1) A).2 =
          some (.stop (.ok (.pair e))) := by
        rw [apply_popVal, hvalue]
        rfl
      refine ⟨_, rfl, .keyed rfl hA hgot fun m' hA' => ?_⟩
      exact .stop ⟨_, _, .popitem he, hA', .pair e⟩

/-- Whatever a method does, it ends as the finite map allows. -/
theorem ends_method {m new : ConcurrentMap K V} (hA : Represents hk m A)
    (hnew : Represents hk new (∅ : ClassMap hk.setoid V)) (method : Method K V) :
    Ends hash eqv (Refines hk A method) ⟨m, new⟩ method.start := by
  cases method with
  | single s => exact ends_single hA s
  | update other kwargs => exact ends_update other kwargs hA
  | popitem => exact ends_popitem hA
  | copy =>
      refine .scan rfl (by decide) hA fun es hes => ⟨_, rfl, ?_⟩
      have hput : putEach (es.map .ok) (∅ : ClassMap hk.setoid V) = (A, .ok ()) :=
        putEach_items (by rw [hes, ClassMap.items_empty, zero_add])
      refine ends_fillEach hnew fun m' hm' => ?_
      rw [hput] at hm' ⊢
      exact ⟨A, _, .copy, hA, .dict hm'⟩
  | fromkeys iterable value =>
      refine ends_fillEach hnew fun m' hm' => ?_
      have hkeys : putEach (iterable.map fun key => key.map fun k => (k, value))
          (∅ : ClassMap hk.setoid V) = putKeys (fun _ => .ok value) iterable ∅ :=
        putEach_keys (fun _ => rfl) (fun _ => rfl) iterable ∅
      rw [hkeys] at hm' ⊢
      cases hstore : putKeys (fun _ => .ok value) iterable (∅ : ClassMap hk.setoid V) with
      | mk B out =>
          rw [hstore] at hm'
          cases out with
          | ok u => exact ⟨A, _, .fromkeys iterable value hstore, hA, .dict hm'⟩
          | error e => exact ⟨A, _, .fromkeysRaises iterable value hstore, hA, .error e⟩

end Correctness

section Sessions

variable {K V : Type} {hash : K → UInt64} {eqv : K → K → Bool}
variable {parallelism : Option ℕ} {m m' m₁ m₂ : ConcurrentMap K V} {ms : List (Method K V)}
variable {outs outs₁ outs₂ : List (Except (Exc K) (Result K V))}

/-- A new dictionary is empty, whatever its number of shards. -/
theorem represents_new (hk : LawfulKeys hash eqv) {shardCount : Option ℕ}
    (h : ConcurrentMap.new shardCount parallelism = .ok m) :
    Represents hk m (∅ : ClassMap hk.setoid V) := by
  cases shardCount with
  | none =>
      cases h
      exact represents_empty hk _ _
  | some n =>
      unfold ConcurrentMap.new at h
      dsimp only at h
      split at h
      · cases h
      · cases h
        exact represents_empty hk n _

variable {hk : LawfulKeys hash eqv} {A : ClassMap hk.setoid V}

theorem Session.refines [DecidableEq K] (hA : Represents hk m A)
    (h : Session hash eqv parallelism m ms m' outs) :
    ∃ A' outs', SpecSession A ms A' outs' ∧ Represents hk m' A' ∧
      List.Forall₂ (Shows hk) outs outs' := by
  induction h generalizing A with
  | nil => exact ⟨A, [], .nil, hA, .nil⟩
  | @cons m new _ method _ M _ _ hnew hexec _ ih =>
      have hends := ends_method hA (represents_new hk hnew) method
      obtain ⟨B, out', hspec, hB, hshows⟩ := hends.sound hexec
      obtain ⟨A', outs', hsession, hA', houts⟩ := ih hB
      exact ⟨A', out' :: outs', .cons hspec hsession, hA', .cons hshows houts⟩

/-- Every sequence of method calls comes to its end. -/
theorem session_exists [DecidableEq K] (parallelism : Option ℕ) (hA : Represents hk m A)
    (ms : List (Method K V)) : ∃ m' outs, Session hash eqv parallelism m ms m' outs := by
  induction ms generalizing m A with
  | nil => exact ⟨m, [], .nil⟩
  | cons method ms ih =>
      obtain ⟨new, hnew⟩ : ∃ new : ConcurrentMap K V,
          ConcurrentMap.new none parallelism = .ok new := ⟨_, rfl⟩
      have hends := ends_method hA (represents_new hk hnew) method
      obtain ⟨M, out, hexec⟩ := hends.returns
      obtain ⟨B, -, -, hB, -⟩ := hends.sound hexec
      obtain ⟨m', outs, hsession⟩ := ih hB
      exact ⟨m', out :: outs, .cons hnew hexec hsession⟩

/-- The same outcome up to the order in which a map is scanned. -/
inductive Same : Except (Exc K) (Result K V) → Except (Exc K) (Result K V) → Prop
  | refl (out : Except (Exc K) (Result K V)) : Same out out
  | keys {ks ks' : List K} : ks.Perm ks' → Same (.ok (.keys ks)) (.ok (.keys ks'))
  | values {vs vs' : List V} : vs.Perm vs' → Same (.ok (.values vs)) (.ok (.values vs'))
  | items {es es' : List (K × V)} : es.Perm es' → Same (.ok (.items es)) (.ok (.items es'))
  | dict {d d' : ConcurrentMap K V} : d.entries = d'.entries → Same (.ok (.dict d)) (.ok (.dict d'))

theorem Shows.same {out₁ out₂ : Except (Exc K) (Result K V)}
    {out : Except (Exc K) (Answer hk.setoid V)} (h₁ : Shows hk out₁ out) (h₂ : Shows hk out₂ out) :
    Same out₁ out₂ := by
  cases h₁ with
  | keys ks =>
      generalize hks : (ks : Multiset K) = ks' at h₂
      cases h₂ with
      | keys ks₂ => exact .keys (Multiset.coe_eq_coe.mp hks)
  | values vs =>
      generalize hvs : (vs : Multiset V) = vs' at h₂
      cases h₂ with
      | values vs₂ => exact .values (Multiset.coe_eq_coe.mp hvs)
  | items es =>
      generalize hes : (es : Multiset (K × V)) = es' at h₂
      cases h₂ with
      | items es₂ => exact .items (Multiset.coe_eq_coe.mp hes)
  | dict hd =>
      cases h₂ with
      | dict hd' => exact .dict (hd.items.symm.trans hd'.items)
  | _ =>
      cases h₂
      exact .refl _

theorem forall₂_same {outs : List (Except (Exc K) (Answer hk.setoid V))}
    (h₁ : List.Forall₂ (Shows hk) outs₁ outs) (h₂ : List.Forall₂ (Shows hk) outs₂ outs) :
    List.Forall₂ Same outs₁ outs₂ := by
  induction h₁ generalizing outs₂ with
  | nil =>
      cases h₂
      exact .nil
  | cons hshow _ ih =>
      cases h₂ with
      | cons hshow₂ h₂ => exact .cons (hshow.same hshow₂) (ih h₂)

variable [DecidableEq K]

/-- With keys whose `__eq__` is an equivalence consistent with `__hash__`, and one caller, a dictionary
of any number of shards is a finite map from the classes of keys to values; and the number of shards
does not show. -/
theorem sequential_refinement (hk : LawfulKeys hash eqv) (parallelism : Option ℕ) :
    (∀ shardCount (m : ConcurrentMap K V), ConcurrentMap.new shardCount parallelism = .ok m →
      Represents hk m ∅) ∧
    (∀ (m : ConcurrentMap K V) (A : ClassMap hk.setoid V), Represents hk m A →
      m.entries = A.items ∧ ∀ ms,
        (∃ m' outs, Session hash eqv parallelism m ms m' outs) ∧
        ∀ m' outs, Session hash eqv parallelism m ms m' outs →
          ∃ A' outs', SpecSession A ms A' outs' ∧ Represents hk m' A' ∧
            List.Forall₂ (Shows hk) outs outs') ∧
    ∀ shardCount₁ shardCount₂ (m₁ m₂ : ConcurrentMap K V),
      ConcurrentMap.new shardCount₁ parallelism = .ok m₁ →
      ConcurrentMap.new shardCount₂ parallelism = .ok m₂ →
      ∀ ms, .popitem ∉ ms → ∀ m₁' m₂' outs₁ outs₂,
        Session hash eqv parallelism m₁ ms m₁' outs₁ →
        Session hash eqv parallelism m₂ ms m₂' outs₂ →
        List.Forall₂ Same outs₁ outs₂ ∧ m₁'.entries = m₂'.entries := by
  refine ⟨fun _ _ hnew => represents_new hk hnew, fun m A hA => ⟨hA.items.symm, fun ms => ?_⟩, ?_⟩
  · exact ⟨session_exists parallelism hA ms, fun _ _ h => h.refines hA⟩
  · intro _ _ m₁ m₂ hnew₁ hnew₂ ms hms m₁' m₂' outs₁ outs₂ h₁ h₂
    obtain ⟨A₁, answers₁, hspec₁, hA₁, hshows₁⟩ := h₁.refines (represents_new hk hnew₁)
    obtain ⟨A₂, answers₂, hspec₂, hA₂, hshows₂⟩ := h₂.refines (represents_new hk hnew₂)
    obtain ⟨rfl, rfl⟩ := hspec₁.unique hspec₂ hms
    exact ⟨forall₂_same hshows₁ hshows₂, hA₁.items.symm.trans hA₂.items⟩

/-- Numbers are equal keys when their last digits are; the hash tells even from odd. -/
def lastDigit (k k' : ℕ) : Bool := k % 10 = k' % 10

def parity (k : ℕ) : UInt64 := UInt64.ofNat (k % 2)

theorem lawful_lastDigit : LawfulKeys parity lastDigit where
  refl k := by simp [lastDigit]
  symm h := by
    simp only [lastDigit, decide_eq_true_eq] at h ⊢
    exact h.symm
  trans h h' := by
    simp only [lastDigit, decide_eq_true_eq] at h h' ⊢
    exact h.trans h'
  hash_eq {k k'} h := by
    simp only [lastDigit, decide_eq_true_eq] at h
    unfold parity
    have hparity : k % 2 = k' % 2 := by omega
    rw [hparity]

/-- Two keys of one class, a third of the same hash, and a `popitem`, on three shards. -/
theorem sequential_refinement_lastDigit :
    ∃ (m m' : ConcurrentMap ℕ ℕ) (outs : List (Except (Exc ℕ) (Result ℕ ℕ)))
      (A' : ClassMap lawful_lastDigit.setoid ℕ)
      (outs' : List (Except (Exc ℕ) (Answer lawful_lastDigit.setoid ℕ))),
      ConcurrentMap.new (some 3) none = .ok m ∧
      Session parity lastDigit none m [.single (.setitem 1 7), .single (.setitem 21 8),
        .single (.setitem 3 9), .popitem] m' outs ∧
      SpecSession ∅ [.single (.setitem 1 7), .single (.setitem 21 8),
        .single (.setitem 3 9), .popitem] A' outs' ∧
      List.Forall₂ (Shows lawful_lastDigit) outs outs' := by
  obtain ⟨hnew, hrefines, -⟩ := sequential_refinement (V := ℕ) lawful_lastDigit none
  obtain ⟨m, hm⟩ : ∃ m : ConcurrentMap ℕ ℕ, ConcurrentMap.new (some 3) none = .ok m := ⟨_, rfl⟩
  obtain ⟨-, hsession⟩ := hrefines m ∅ (hnew _ m hm)
  obtain ⟨⟨m', outs, hrun⟩, hspec⟩ := hsession [.single (.setitem 1 7), .single (.setitem 21 8),
    .single (.setitem 3 9), .popitem]
  obtain ⟨A', outs', hA', -, hshows⟩ := hspec m' outs hrun
  exact ⟨m, m', outs, A', outs', hm, hrun, hA', hshows⟩

end Sessions

end Pysync.Dict
