import MemKey.Theorems.Abstraction

/-! The operations on a keyspace that stands for a store. An operation that loses nothing does to the store what it is
    meant to do: it changes the content of its key, and the key goes with its last element. -/

namespace MemKey
open Probing Outcome Listing

/-! ### Views -/

section Views
variable {o : Option Content} {f : Finmap fun _ : Bytes => Bytes} {l : List Bytes} {t : Finset Bytes} {v : Option Bytes}
  {s : Store} {key key' : Bytes} {c c' : Option Content}

theorem asStr_eq_some : Content.asStr o = some v ↔ o = v.map .str := by
  rcases o with _ | (_ | _ | _ | _) <;> cases v <;> simp [Content.asStr, eq_comm]

theorem asHash_eq_some : Content.asHash o = some f ↔ o = none ∧ f = ∅ ∨ o = some (.hash f) := by
  rcases o with _ | (_ | _ | _ | _) <;> simp [Content.asHash, eq_comm]

theorem asList_eq_some : Content.asList o = some l ↔ o = none ∧ l = [] ∨ o = some (.list l) := by
  rcases o with _ | (_ | _ | _ | _) <;> simp [Content.asList, eq_comm]

theorem asSet_eq_some : Content.asSet o = some t ↔ o = none ∧ t = ∅ ∨ o = some (.set t) := by
  rcases o with _ | (_ | _ | _ | _) <;> simp [Content.asSet, eq_comm]

theorem asHash_none (h : Content.asHash o = some f) (hnone : o = none) : f = ∅ := by
  subst hnone
  exact (Option.some.inj h).symm

theorem asHash_some {c : Content} (h : Content.asHash o = some f) (hc : o = some c) : c = .hash f :=
  (asHash_eq_some.mp h).elim (fun hnone => nomatch hnone.1.symm.trans hc) fun hsome => Option.some.inj (hc.symm.trans hsome)

theorem asList_none (h : Content.asList o = some l) (hnone : o = none) : l = [] := by
  subst hnone
  exact (Option.some.inj h).symm

theorem asList_some {c : Content} (h : Content.asList o = some l) (hc : o = some c) : c = .list l :=
  (asList_eq_some.mp h).elim (fun hnone => nomatch hnone.1.symm.trans hc) fun hsome => Option.some.inj (hc.symm.trans hsome)

theorem asSet_none (h : Content.asSet o = some t) (hnone : o = none) : t = ∅ := by
  subst hnone
  exact (Option.some.inj h).symm

theorem asSet_some {c : Content} (h : Content.asSet o = some t) (hc : o = some c) : c = .set t :=
  (asSet_eq_some.mp h).elim (fun hnone => nomatch hnone.1.symm.trans hc) fun hsome => Option.some.inj (hc.symm.trans hsome)

@[simp] theorem asHash_ofHash : Content.asHash (Content.ofHash f) = some f := by
  unfold Content.ofHash
  split
  · exact congrArg some (Eq.symm ‹_›)
  · rfl

@[simp] theorem asList_ofList : Content.asList (Content.ofList l) = some l := by
  unfold Content.ofList
  split
  · exact congrArg some (Eq.symm ‹_›)
  · rfl

@[simp] theorem asSet_ofSet : Content.asSet (Content.ofSet t) = some t := by
  unfold Content.ofSet
  split
  · exact congrArg some (Eq.symm ‹_›)
  · rfl

theorem ofHash_eq_some {c : Content} : Content.ofHash f = some c ↔ f ≠ ∅ ∧ c = .hash f := by
  unfold Content.ofHash
  split <;> simp [*, eq_comm]

theorem ofList_eq_some {c : Content} : Content.ofList l = some c ↔ l ≠ [] ∧ c = .list l := by
  unfold Content.ofList
  split <;> simp [*, eq_comm]

theorem ofSet_eq_some {c : Content} : Content.ofSet t = some c ↔ t ≠ ∅ ∧ c = .set t := by
  unfold Content.ofSet
  split <;> simp [*, eq_comm]

theorem keys_eq_empty : f.keys = ∅ ↔ f = ∅ := by
  constructor
  · intro hkeys
    refine Finmap.ext_lookup fun k => ?_
    rw [Finmap.lookup_empty, Finmap.lookup_eq_none, ← Finmap.mem_keys, hkeys]
    exact Finset.notMem_empty k
  · rintro rfl
    exact Finmap.keys_empty

@[simp] theorem Store.lookup_put_self : (s.put key c).lookup key = c := by
  cases c with
  | none => exact Finmap.lookup_erase key s
  | some c => exact Finmap.lookup_insert s

theorem Store.lookup_put_ne (hne : key' ≠ key) : (s.put key c).lookup key' = s.lookup key' := by
  cases c with
  | none => exact Finmap.lookup_erase_ne hne
  | some c => exact Finmap.lookup_insert_of_ne s hne

@[simp] theorem Store.put_put : (s.put key c).put key c' = s.put key c' := by
  refine Finmap.ext_lookup fun k => ?_
  by_cases hk : k = key
  · subst hk
    rw [lookup_put_self, lookup_put_self]
  · rw [lookup_put_ne hk, lookup_put_ne hk, lookup_put_ne hk]

theorem Store.put_lookup : s.put key (s.lookup key) = s := by
  refine Finmap.ext_lookup fun k => ?_
  by_cases hk : k = key
  · subst hk
    exact lookup_put_self
  · exact lookup_put_ne hk

end Views

/-! ### Items -/

section Items
variable {m : IntMode} {a : HashTableItem Value} {c : Content} {f : Finmap fun _ : Bytes => Bytes} {l : List Bytes}
  {t : Finset Bytes} {s : Bytes}

theorem Shows.type (h : Shows m a c) : a.type = c.type := by cases h <;> rfl

theorem Shows.of_str (h : Shows m a (.str s)) : a.value = .str s := by
  cases h
  rfl

theorem Shows.of_hash (h : Shows m a (.hash f)) : ∃ tmp, a = ⟨.HASH_T, a.key, .hash tmp⟩ ∧ Maps m Entry tmp f ∧ f ≠ ∅ := by
  cases h with
  | hash hmaps hne => exact ⟨_, rfl, hmaps, hne⟩

theorem Shows.of_list (h : Shows m a (.list l)) : ∃ ls, a = ⟨.LIST_T, a.key, .list ls⟩ ∧ Strings ls l ∧ l ≠ [] := by
  cases h with
  | list hls hne => exact ⟨_, rfl, hls, hne⟩

theorem Shows.of_set (h : Shows m a (.set t)) : ∃ st, a = ⟨.SET_T, a.key, .set st⟩ ∧ Collects m st t ∧ t ≠ ∅ := by
  cases h with
  | set hst hne => exact ⟨_, rfl, hst, hne⟩

end Items

/-! ### Operations that lose nothing -/

namespace HtableOp

/-- What the operation puts into or moves in the value finds a free slot, and it finds the member of a set that it
    inserts again. -/
def Spares (m : IntMode) (v : Value) : HtableOp → Prop
  | hset _ field value => ∀ tmp, v = .hash tmp → htableFind m tmp field = .ok none →
      tmp.Admits m HashTableItem.key false ⟨.STR_T, field, .str value⟩
  | hdel _ field => ∀ tmp, v = .hash tmp → tmp.ShrinkMoves m HashTableItem.key false field
  | sadd _ value => ∀ st, v = .set st → st.Admits m id true value ∧ Clear m st value
  | srem _ value => ∀ st, v = .set st → st.ShrinkMoves m id true value
  | _ => True

/-- The operation loses no key, field or member, and stores no member twice. -/
structure Lossless (m : IntMode) (ht : HashTable Value) (op : HtableOp) : Prop where
  insert : ∀ a, op.create m = .ok (some a) → htableFind m ht op.key = .ok none →
    ht.Admits m HashTableItem.key false a
  delete : op.Deletes m ht → ht.ShrinkMoves m HashTableItem.key false op.key
  value : ∀ ix a, htableFind m ht op.key = .ok (some (ix, a)) → op.Spares m a.value

instance (m : IntMode) (v : Value) : (op : HtableOp) → Decidable (op.Spares m v)
  | .hset _ field value => inferInstanceAs (Decidable (∀ tmp, v = .hash tmp → htableFind m tmp field = .ok none →
      tmp.Admits m HashTableItem.key false ⟨.STR_T, field, .str value⟩))
  | .hdel _ field => inferInstanceAs (Decidable (∀ tmp, v = .hash tmp → tmp.ShrinkMoves m HashTableItem.key false field))
  | .sadd _ value => inferInstanceAs (Decidable (∀ st, v = .set st → st.Admits m id true value ∧ Clear m st value))
  | .srem _ value => inferInstanceAs (Decidable (∀ st, v = .set st → st.ShrinkMoves m id true value))
  | .set .. | .push .. | .del .. | .pop .. | .lrem .. | .lset .. => .isTrue trivial

instance (m : IntMode) (ht : HashTable Value) (op : HtableOp) : Decidable (op.Lossless m ht) :=
  decidable_of_iff
    ((∀ a, op.create m = .ok (some a) → htableFind m ht op.key = .ok none → ht.Admits m HashTableItem.key false a) ∧
      (op.Deletes m ht → ht.ShrinkMoves m HashTableItem.key false op.key) ∧
      ∀ ix a, htableFind m ht op.key = .ok (some (ix, a)) → op.Spares m a.value)
    ⟨fun h => ⟨h.1, h.2.1, h.2.2⟩, fun h => ⟨h.insert, h.delete, h.value⟩⟩

end HtableOp

section Operations
variable {m : IntMode} {ht : Keyspace} {s : Store} {key field value : Bytes} {c c₀ : Content} {ρ β : Type} {Q : ρ → Prop}
  {f : Finmap fun _ : Bytes => Bytes} {l : List Bytes} {t : Finset Bytes} {dir : ListDirection}

theorem Maps.content (h : Represents m ht s) (hc : s.lookup key = some c) :
    ∃ a, htableSearch m ht key = .ok (some a) ∧ Shows m a c := by
  obtain ⟨a, ha, hk, hshows⟩ := h.items.of_lookup hc
  exact ⟨a, h.keyed.search_iff.mpr ⟨ha, hk⟩, hshows⟩

/-! ### The three kinds of operation -/

theorem Maps.update_spec (h : Represents m ht s) (hc₀ : s.lookup key = some c₀) {act : Value → Except Fault (Value × ρ)}
    {missing : ρ} (hact : ∀ ix a, htableFind m ht key = .ok (some (ix, a)) → Shows m a c₀ →
      Ensures (act a.value) (fun r => Shows m { a with value := r.1 } c ∧ Q r.2) (Escapes m)) :
    Ensures (htableUpdate m ht key act missing) (fun r => Represents m r.1 (s.put key (some c)) ∧ Q r.2) (Escapes m) := by
  refine (h.find_spec key).bind fun r hfind hr => ?_
  rcases hr with ⟨rfl, hnone⟩ | ⟨ix, a, c', rfl, hk, hc', hshows⟩
  · cases hnone.symm.trans hc₀
  · obtain rfl : c' = c₀ := Option.some.inj (hc'.symm.trans hc₀)
    exact (hact ix a hfind hshows).bind fun r _ hr => ⟨h.put hfind hk hr.1, hr.2⟩

/-- A write works on the value of the key if there is one, and inserts a new value otherwise. -/
theorem Maps.write_spec (h : Represents m ht s) (act : Value → Except Fault (Value × ρ)) {missing first : ρ}
    {new : Except Fault β} (item : β → HashTableItem Value) (hitem : ∀ b, (item b).key = key)
    (hact : ∀ c₀, s.lookup key = some c₀ → ∀ ix a, htableFind m ht key = .ok (some (ix, a)) → Shows m a c₀ →
      Ensures (act a.value) (fun r => Shows m { a with value := r.1 } c ∧ Q r.2) (Escapes m))
    (hnew : s.lookup key = none → htableFind m ht key = .ok none →
      Ensures new (fun b => Shows m (item b) c ∧ ht.Admits m HashTableItem.key false (item b)) (Escapes m))
    (hfirst : s.lookup key = none → Q first) :
    Ensures (do if ← htableExists m ht key then htableUpdate m ht key act missing
                else do
                  let b ← new
                  .ok (← htableInsert m ht (item b).type key (item b).value, first))
      (fun r => Represents m r.1 (s.put key (some c)) ∧ Q r.2) (Escapes m) := by
  have hspec := h.find_spec key
  unfold htableExists htableSearch
  cases hfind : htableFind m ht key with
  | error e => exact hspec.of_error hfind
  | ok r =>
    rcases hspec.of_ok hfind with ⟨rfl, hnone⟩ | ⟨ix, a, c₀, rfl, -, hc₀, -⟩
    · refine (hnew hnone hfind).bind fun b _ hb => ?_
      have hinsert := h.insert_spec (a := item b) (by rw [hitem]; exact hnone) hb.2 hb.1
      rw [show item b = ⟨(item b).type, key, (item b).value⟩ by rw [← hitem b]] at hinsert
      refine Ensures.bind (Q := fun t => Represents m t (s.put key (some c))) ?_ fun _ _ ht' => ⟨ht', hfirst hnone⟩
      exact hinsert.bind fun _ _ ht' => ht'
    · exact h.update_spec hc₀ (hact c₀ hc₀)

/-- A removal works on the value of the key if there is one, and the key goes if its value is then empty. -/
theorem Maps.shrink_spec (h : Represents m ht s) {act : Value → Except Fault (Value × Bool × ρ)} {missing : ρ}
    {c : Option Content}
    (hact : ∀ c₀, s.lookup key = some c₀ → ∀ ix a, htableFind m ht key = .ok (some (ix, a)) → Shows m a c₀ →
      Ensures (act a.value) (fun r => (r.2.1 = true ↔ c = none) ∧ (∀ c', c = some c' → Shows m { a with value := r.1 } c') ∧
        Q r.2.2) (Escapes m))
    (hs : ∀ ix a v r, htableFind m ht key = .ok (some (ix, a)) → act a.value = .ok (v, true, r) →
      ht.ShrinkMoves m HashTableItem.key false key)
    (hmissing : s.lookup key = none → c = none ∧ Q missing) :
    Ensures (htableShrink m ht key act missing) (fun r => Represents m r.1 (s.put key c) ∧ Q r.2) (Escapes m) := by
  refine (h.find_spec key).bind fun r hfind hr => ?_
  rcases hr with ⟨rfl, hnone⟩ | ⟨ix, a, c₀, rfl, hk, hc₀, hshows⟩
  · obtain ⟨rfl, hQ⟩ := hmissing hnone
    refine ⟨?_, hQ⟩
    rw [← hnone, Store.put_lookup]
    exact h
  · refine (hact c₀ hc₀ ix a hfind hshows).bind fun ⟨v, empty, reply⟩ hrun hr => ?_
    obtain ⟨hempty, hshow, hQ⟩ := hr
    cases empty with
    | true =>
      obtain rfl := hempty.mp rfl
      have hkey : ({ a with value := v } : HashTableItem Value).key = key := hk
      exact (h.drop_spec hfind hkey (hs ix a v reply hfind hrun)).bind fun _ _ ht' => ⟨ht', hQ⟩
    | false =>
      obtain ⟨c', rfl⟩ := Option.ne_none_iff_exists'.mp fun hc => Bool.noConfusion (hempty.mpr hc)
      exact ⟨h.put hfind hk (hshow c' rfl), hQ⟩

/-! ### The operations -/

theorem Maps.keyspace_set_spec (h : Represents m ht s) (hl : (HtableOp.set key value).Lossless m ht) :
    Ensures (htableSet m ht key value)
      (fun r => Represents m r.1 (s.insert key (.str value)) ∧ (r.2 = true ↔ key ∉ s)) (Escapes m) :=
  h.set_spec .str fun hfind => hl.insert _ rfl hfind

theorem Maps.keyspace_del_spec (h : Represents m ht s) (hl : (HtableOp.del key).Lossless m ht) :
    Ensures (htableDel m ht key) (fun r => Represents m r.1 (s.erase key) ∧ (r.2 = true ↔ key ∈ s)) (Escapes m) :=
  h.del_spec (hl.delete trivial)

theorem insert_ne_empty (f : Finmap fun _ : Bytes => Bytes) : f.insert field value ≠ ∅ := by
  intro h
  have hmem : field ∈ f.insert field value := Finmap.mem_insert.mpr (.inl rfl)
  rw [h] at hmem
  exact Finmap.notMem_empty hmem

theorem Maps.hset_spec (h : Represents m ht s) (hl : (HtableOp.hset key field value).Lossless m ht)
    (hv : Content.asHash (s.lookup key) = some f) :
    Ensures (htableHset m ht key field value)
      (fun r => Represents m r.1 (s.put key (Content.ofHash (f.insert field value))) ∧ (r.2 = true ↔ field ∉ f))
      (Escapes m) := by
  rw [Content.ofHash, if_neg (insert_ne_empty f)]
  refine h.write_spec (Q := fun new => new = true ↔ field ∉ f) (hsetValue m field value)
    (fun r : HashTable Value × Bool => ⟨.HASH_T, key, .hash r.1⟩) (fun _ => rfl) ?_ ?_ ?_
  · intro c₀ hc₀ ix a hfind hshows
    obtain rfl := asHash_some hv hc₀
    obtain ⟨tmp, ha, hmaps, -⟩ := hshows.of_hash
    have hspares := hl.value ix a hfind
    rw [ha] at hspares ⊢
    have hset : Ensures (htableSet m tmp field value) _ _ := hmaps.set_spec ⟨rfl, rfl⟩ fun hnone => hspares tmp rfl hnone
    exact hset.bind fun r _ hr => ⟨.hash hr.1 (insert_ne_empty f), hr.2⟩
  · intro hnone hfind
    obtain rfl := asHash_none hv hnone
    have hset : Ensures (htableSet m (htableInit htBaseSize) field value) _ _ :=
      Maps.init.set_spec (R := Entry) ⟨rfl, rfl⟩ fun _ => init_admits
    refine hset.result fun r hr => ⟨.hash (hset.of_ok hr).1 (insert_ne_empty ∅), hl.insert _ ?_ hfind⟩
    rw [HtableOp.create, hr]
    rfl
  · intro hnone
    obtain rfl := asHash_none hv hnone
    exact iff_of_true rfl Finmap.notMem_empty

theorem Maps.sadd_spec (h : Represents m ht s) (hl : (HtableOp.sadd key value).Lossless m ht)
    (hv : Content.asSet (s.lookup key) = some t) :
    Ensures (htableSadd m ht key value)
      (fun r => Represents m r.1 (s.put key (Content.ofSet (insert value t))) ∧ (r.2 = true ↔ value ∉ t)) (Escapes m) := by
  rw [Content.ofSet, if_neg (Finset.insert_ne_empty value t)]
  refine h.write_spec (Q := fun new => new = true ↔ value ∉ t) (saddValue m value)
    (fun r : CSet × Bool => ⟨.SET_T, key, .set r.1⟩) (fun _ => rfl) ?_ ?_ ?_
  · intro c₀ hc₀ ix a hfind hshows
    obtain rfl := asSet_some hv hc₀
    obtain ⟨st, ha, hst, -⟩ := hshows.of_set
    have hspares := hl.value ix a hfind
    rw [ha] at hspares ⊢
    obtain ⟨hadm, hclear⟩ := hspares st rfl
    exact (hst.add_spec hadm hclear).bind fun r _ hr => ⟨.set hr.1 (Finset.insert_ne_empty value t), hr.2⟩
  · intro hnone hfind
    obtain rfl := asSet_none hv hnone
    have hclear : Clear m (setInit htBaseSize) value := fun hmem => by
      rw [setMembers, setInit, Table.entries_init] at hmem
      cases hmem
    have hadd : Ensures (setAdd m (setInit htBaseSize) value) _ _ := Collects.init.add_spec init_admits hclear
    refine hadd.result fun r hr => ⟨.set (hadd.of_ok hr).1 (Finset.insert_ne_empty value ∅), hl.insert _ ?_ hfind⟩
    rw [HtableOp.create, hr]
    rfl
  · intro hnone
    obtain rfl := asSet_none hv hnone
    exact iff_of_true rfl (Finset.notMem_empty value)

theorem pushed_ne_nil : Store.pushed dir l value ≠ [] := by
  cases dir <;> simp [Store.pushed]

theorem Maps.push_spec (h : Represents m ht s) (hl : (HtableOp.push key value dir).Lossless m ht)
    (hv : Content.asList (s.lookup key) = some l) :
    Ensures (htablePush m ht key value dir)
      (fun r => Represents m r.1 (s.put key (Content.ofList (Store.pushed dir l value))) ∧
        r.2 = (Store.pushed dir l value).length) (Escapes m) := by
  rw [Content.ofList, if_neg pushed_ne_nil]
  refine h.write_spec (Q := fun len : Int => len = (Store.pushed dir l value).length) (pushValue value dir)
    (fun ls : CList => ⟨.LIST_T, key, .list ls⟩) (fun _ => rfl) ?_ ?_ ?_
  · intro c₀ hc₀ ix a hfind hshows
    obtain rfl := asList_some hv hc₀
    obtain ⟨ls, ha, hls, -⟩ := hshows.of_list
    obtain ⟨ls', hpush, hls'⟩ := hls.push_spec value dir
    rw [ha]
    change Ensures (do let tmp ← listPush ls value dir; .ok (Value.list tmp, tmp.len)) _ _
    rw [hpush]
    exact ⟨.list hls' pushed_ne_nil, hls'.len⟩
  · intro hnone hfind
    obtain rfl := asList_none hv hnone
    obtain ⟨new, hpush, hnew⟩ := Strings.init.push_spec value dir
    rw [hpush]
    refine ⟨.list hnew pushed_ne_nil, hl.insert _ ?_ hfind⟩
    rw [HtableOp.create, hpush]
    rfl
  · intro hnone
    obtain rfl := asList_none hv hnone
    cases dir <;> rfl

theorem Maps.pop_spec (h : Represents m ht s) (hl : (HtableOp.pop key dir).Lossless m ht)
    (hv : Content.asList (s.lookup key) = some l) :
    Ensures (htablePop m ht key dir)
      (fun r => Represents m r.1 (s.put key (Content.ofList (Store.popped dir l).1)) ∧ r.2 = (Store.popped dir l).2)
      (Escapes m) := by
  refine h.shrink_spec (Q := (· = (Store.popped dir l).2)) ?_ ?_ ?_
  · intro c₀ hc₀ ix a hfind hshows
    obtain rfl := asList_some hv hc₀
    obtain ⟨ls, ha, hls, hne⟩ := hshows.of_list
    obtain ⟨ls', x, v, hpop, hls', hread, hv'⟩ := hls.pop_spec hne dir
    rw [ha, popValue, Value.asList, ok_bind, hpop, ok_bind]
    dsimp only
    rw [hread]
    refine ⟨?_, fun c' hc' => ?_, hv'.symm⟩
    · rw [decide_eq_true_iff, hls'.len, Nat.cast_eq_zero, List.length_eq_zero_iff, Content.ofList]
      split <;> simp [*]
    · obtain ⟨hne', rfl⟩ := ofList_eq_some.mp hc'
      exact .list hls' hne'
  · exact fun ix a v r hfind hrun => hl.delete ⟨ix, a, hfind, v, r, hrun⟩
  · intro hnone
    obtain rfl := asList_none hv hnone
    cases dir <;> exact ⟨rfl, rfl⟩

theorem Maps.lrem_spec (h : Represents m ht s) {count : Int} (hl : (HtableOp.lrem key count value).Lossless m ht)
    (hv : Content.asList (s.lookup key) = some l) :
    Ensures (htableLrem m ht key count value)
      (fun r => Represents m r.1 (s.put key (Content.ofList (removal count value l))) ∧
        r.2 = l.length - (removal count value l).length) (Escapes m) := by
  refine h.shrink_spec (Q := fun n : Int => n = l.length - (removal count value l).length) ?_ ?_ ?_
  · intro c₀ hc₀ ix a hfind hshows
    obtain rfl := asList_some hv hc₀
    obtain ⟨ls, ha, hls, hne⟩ := hshows.of_list
    obtain ⟨ls', hrem, hls', hle⟩ := hls.rem_spec count value
    rw [ha, lremValue, Value.asList, ok_bind, hrem]
    refine ⟨?_, fun c' hc' => ?_, ?_⟩
    · change decide (ls'.len = 0) = true ↔ _
      rw [decide_eq_true_iff, hls'.len, Nat.cast_eq_zero, List.length_eq_zero_iff, Content.ofList]
      split <;> simp [*]
    · obtain ⟨hne', rfl⟩ := ofList_eq_some.mp hc'
      exact .list hls' hne'
    · exact Nat.cast_sub hle
  · exact fun ix a v r hfind hrun => hl.delete ⟨ix, a, hfind, v, r, hrun⟩
  · intro hnone
    obtain rfl := asList_none hv hnone
    have hnil : removal count value [] = [] := by
      have hlen := (Strings.init.rem_spec count value).choose_spec.2.2
      exact List.length_eq_zero_iff.mp (Nat.le_zero.mp hlen)
    rw [hnil]
    exact ⟨rfl, rfl⟩

theorem Maps.hdel_spec (h : Represents m ht s) (hl : (HtableOp.hdel key field).Lossless m ht)
    (hv : Content.asHash (s.lookup key) = some f) :
    Ensures (htableHdel m ht key field)
      (fun r => Represents m r.1 (s.put key (Content.ofHash (f.erase field))) ∧ (r.2 = true ↔ field ∈ f)) (Escapes m) := by
  refine h.shrink_spec (Q := fun res => res = true ↔ field ∈ f) ?_ ?_ ?_
  · intro c₀ hc₀ ix a hfind hshows
    obtain rfl := asHash_some hv hc₀
    obtain ⟨tmp, ha, hmaps, -⟩ := hshows.of_hash
    have hspares := hl.value ix a hfind
    rw [ha] at hspares ⊢
    refine (hmaps.del_spec (hspares tmp rfl)).bind fun r _ hr => ⟨?_, fun c' hc' => ?_, hr.2⟩
    · rw [decide_eq_true_iff, hr.1.used, Nat.cast_eq_zero, Finset.card_eq_zero, keys_eq_empty, Content.ofHash]
      split <;> simp [*]
    · obtain ⟨hne', rfl⟩ := ofHash_eq_some.mp hc'
      exact .hash hr.1 hne'
  · exact fun ix a v r hfind hrun => hl.delete ⟨ix, a, hfind, v, r, hrun⟩
  · intro hnone
    obtain rfl := asHash_none hv hnone
    rw [erase_of_absent Finmap.notMem_empty]
    exact ⟨rfl, by simp [Finmap.notMem_empty]⟩

theorem Maps.srem_spec (h : Represents m ht s) (hl : (HtableOp.srem key value).Lossless m ht)
    (hv : Content.asSet (s.lookup key) = some t) :
    Ensures (htableSrem m ht key value)
      (fun r => Represents m r.1 (s.put key (Content.ofSet (t.erase value))) ∧ (r.2 = true ↔ value ∈ t)) (Escapes m) := by
  refine h.shrink_spec (Q := fun res => res = true ↔ value ∈ t) ?_ ?_ ?_
  · intro c₀ hc₀ ix a hfind hshows
    obtain rfl := asSet_some hv hc₀
    obtain ⟨st, ha, hst, -⟩ := hshows.of_set
    have hspares := hl.value ix a hfind
    rw [ha] at hspares ⊢
    refine (hst.rem_spec (hspares st rfl)).bind fun r _ hr => ⟨?_, fun c' hc' => ?_, hr.2⟩
    · rw [decide_eq_true_iff, hr.1.used, Nat.cast_eq_zero, Finset.card_eq_zero, Content.ofSet]
      split <;> simp [*]
    · obtain ⟨hne', rfl⟩ := ofSet_eq_some.mp hc'
      exact .set hr.1 hne'
  · exact fun ix a v r hfind hrun => hl.delete ⟨ix, a, hfind, v, r, hrun⟩
  · intro hnone
    obtain rfl := asSet_none hv hnone
    exact ⟨rfl, by simp⟩

theorem Maps.lset_spec (h : Represents m ht s) (hc : s.lookup key = some (.list l)) {id : Int} (value : Bytes) :
    Ensures (htableLset m ht key id value)
      (fun r => Represents m r.1 (s.put key (Content.ofList (l.set id.toNat value)))) (Escapes m) := by
  have hspec : Ensures (htableLset m ht key id value)
      (fun r => Represents m r.1 (s.put key (some (.list (l.set id.toNat value)))) ∧ True) (Escapes m) := by
    refine h.update_spec (Q := fun _ => True) hc fun ix a hfind hshows => ?_
    obtain ⟨ls, ha, hls, hne⟩ := hshows.of_list
    obtain ⟨ls', hset, hls'⟩ := hls.set_spec id value
    change Ensures (lsetValue id value a.value) _ _
    rw [ha, lsetValue, Value.asList, ok_bind, hset]
    exact ⟨.list hls' (by simpa using hne), trivial⟩
  refine hspec.post fun r hr => ?_
  have hne : l ≠ [] := (h.content hc).choose_spec.2.of_list.choose_spec.2.2
  rw [Content.ofList, if_neg (by simpa using hne)]
  exact hr.1

end Operations

end MemKey
