import MemKey.Theorems.Pointer.Htable

/-! The keyspace in memory: what its values own, and what each operation does to them. -/

namespace MemKey.Pointer
open Probing Memory Outcome

/-! ### Values -/

/-- The values of a hash. -/
inductive StringAt : Values
  | mk {a : ℕ} {s : Bytes} : StringAt a .STR_T (.str s) (own a (.chars s))

/-- The values of the keyspace. -/
inductive ValueAt : Values
  | str {a : ℕ} {s : Bytes} : ValueAt a .STR_T (.str s) (own a (.chars s))
  | hash {a : ℕ} {tmp : HashTable Value} {m : Owned} (h : IsHtable StringAt a tmp m) : ValueAt a .HASH_T (.hash tmp) m
  | list {a : ℕ} {ls : CList} {cells : List (ℕ × ℕ × Bytes)} (h : Mirrors ls cells) :
      ValueAt a .LIST_T (.list ls) (listAt a cells)
  | set {a : ℕ} {st : CSet} {m : Owned} (h : IsSet a st m) : ValueAt a .SET_T (.set st) m

/-- The blocks are the keyspace. -/
abbrev IsKeyspace (p : ℕ) (ht : HashTable Value) (m : Owned) : Prop := IsHtable ValueAt p ht m

theorem frees_string (depth : ℕ) : Frees StringAt depth := by
  rintro ⟨a, type, value, m, h⟩
  cases h
  exact .release (add_zero _).symm rfl

theorem frees_value : Frees ValueAt 1 := by
  rintro ⟨a, type, value, m, h⟩
  cases h with
  | str => exact .release (add_zero _).symm rfl
  | hash h => exact h.free (frees_string 0)
  | list h => exact listFree_does
  | set h => exact setFree_does h

section Keyspace
variable {mode : IntMode} {p : ℕ} {ht ht' : HashTable Value} {m : Owned} {key field value : Bytes} {r : Bool}
  {dir : ListDirection} {op : HtableOp} {ix : ℕ} {a a' : HashTableItem Value}
  {C : Prop}

/-! ### Operations that lose no value -/

/-- What the operation inserts into the keyspace or a hash finds a free slot, and so does every entry that a resize of
    one of them moves; the percentage that makes one of them shrink does not overflow. -/
structure Retains (mode : IntMode) (ht : HashTable Value) (op : HtableOp) : Prop where
  insert : ∀ a, op.create mode = .ok (some a) → htableFind mode ht op.key = .ok none →
    ht.Admits mode HashTableItem.key false a
  delete : op.Deletes mode ht → ht.ShrinkMoves mode HashTableItem.key false op.key
  fields : ∀ ix a, htableFind mode ht op.key = .ok (some (ix, a)) → ∀ tmp, a.value = .hash tmp → op.Spares mode (.hash tmp)

instance : Decidable (Retains mode ht op) :=
  decidable_of_iff
    ((∀ a, op.create mode = .ok (some a) → htableFind mode ht op.key = .ok none →
        ht.Admits mode HashTableItem.key false a) ∧
      (op.Deletes mode ht → ht.ShrinkMoves mode HashTableItem.key false op.key) ∧
      ∀ ix a, htableFind mode ht op.key = .ok (some (ix, a)) → ∀ tmp, a.value = .hash tmp → op.Spares mode (.hash tmp))
    ⟨fun h => ⟨h.1, h.2.1, h.2.2⟩, fun h => ⟨h.insert, h.delete, h.fields⟩⟩

/-- The operation loses no value, and the values of the keyspace are what their tags say. -/
def Safe (mode : IntMode) (ht : HashTable Value) (op : HtableOp) : Prop := Sound mode (Tagged mode) ht ∧ Retains mode ht op

theorem Safe.stores (h : Safe mode ht op) (hfind : htableFind mode ht op.key = .ok none)
    (hcreate : op.create mode = .ok (some a)) : Stores mode ht a := ⟨h.1.keyed.1, h.2.insert a hcreate hfind⟩

theorem Safe.shrinks (h : Safe mode ht op) (hfind : htableFind mode ht op.key = .ok (some (ix, a)))
    (hact : op.act mode a = .ok (a', true)) : Shrinks mode (ht.put ix a') op.key := by
  have hkey := HtableOp.act_key hact (htableFind_key hfind)
  have hshrink := h.2.delete (HtableOp.act_deletes hfind hact)
  exact ⟨(h.1.keyed.put hfind hkey).1, ShrinkMoves.put h.1.keyed hshrink hfind hkey⟩

theorem Safe.hash (h : Safe mode ht op) (hfind : htableFind mode ht op.key = .ok (some (ix, a))) {tmp : HashTable Value}
    (htmp : a.value = .hash tmp) : tmp.WF mode HashTableItem.key := by
  have htag : Tagged mode a := h.1.items a (mem_entries.mpr ⟨ix, (Table.find_some hfind).1⟩)
  obtain ⟨type, k, value⟩ := a
  obtain rfl : value = .hash tmp := htmp
  cases htag with
  | hash hsound => exact hsound.keyed.1

/-! ### Actions on values -/

/-- The strings of a hash are values of the keyspace once they are lost. -/
theorem Strays.strings {x : Owned} (h : Strays StringAt C x) : Strays ValueAt C x := by
  obtain ⟨lost, rfl, hnone⟩ := h
  have hvalue (v : Held StringAt) : ValueAt v.ptr v.type v.value v.blocks := by
    obtain ⟨a, type, value, m, h⟩ := v
    cases h
    exact .str
  refine ⟨lost.map fun v => ⟨v.ptr, v.type, v.value, v.blocks, hvalue v⟩, ?_, fun hC => by rw [hnone hC, List.map_nil]⟩
  rw [heldBlocks, heldBlocks, List.map_map]
  rfl

/-- A reply that is the reply of the model, and values that nothing points at unless `C`. -/
def Replies {ρ : Type} (C : Prop) (r' r : ρ) (x : Owned) : Prop := r' = r ∧ Strays ValueAt C x

theorem Replies.plain {ρ : Type} {C : Prop} {r : ρ} : Replies C r r 0 := ⟨rfl, .zero⟩

theorem htableUpdateHash_acts (v : Held ValueAt) {value' : Value}
    (hact : hsetValue mode field value v.value = .ok (value', r))
    (hC : C → ∀ tmp, v.value = .hash tmp → htableFind mode tmp field = .ok none →
      Stores mode tmp ⟨.STR_T, field, .str value⟩) :
    Acts ValueAt (Replies C) (htableSet mode v.ptr field value) v value' r := by
  obtain ⟨a, type, v, m, h⟩ := v
  cases h with
  | hash h =>
    obtain ⟨_, htmp, hact⟩ := bind_eq_ok.mp hact
    cases htmp
    obtain ⟨⟨tmp', r'⟩, hset, heq⟩ := bind_eq_ok.mp hact
    cases heq
    refine (htableSet_does h (frees_string 1) (fun _ => .mk) hset).mono ?_
    rintro _ _ ⟨rfl, n, x, hn, rfl, hx⟩
    exact ⟨n, x, .hash hn, rfl, rfl, (hx.mono fun hc => hC hc _ rfl).strings⟩
  | str | list | set => cases hact

theorem pushValue_acts (v : Held ValueAt) {value' : Value} {r : Int}
    (hact : MemKey.pushValue value dir v.value = .ok (value', r)) :
    Acts ValueAt (Replies C) (pushValue value dir v.ptr) v value' r := by
  obtain ⟨a, type, v, m, h⟩ := v
  cases h with
  | list h =>
    obtain ⟨_, hls, hact⟩ := bind_eq_ok.mp hact
    cases hls
    obtain ⟨ls', hpush, heq⟩ := bind_eq_ok.mp hact
    cases heq
    refine .seq ((does_listPush h hpush).mono ?_)
    rintro _ _ ⟨cells', rfl, hm⟩
    refine .seq (.loadAs rfl rfl (.pure ⟨_, 0, .list hm, (add_zero _).symm, ?_, .zero⟩))
    rw [Strings.len hm, texts, List.length_map]
  | str | hash | set => cases hact

theorem setAdd_acts (v : Held ValueAt) {value' : Value} (hact : saddValue mode value v.value = .ok (value', r)) :
    Acts ValueAt (Replies C) (setAdd mode v.ptr value) v value' r := by
  obtain ⟨a, type, v, m, h⟩ := v
  cases h with
  | set h =>
    obtain ⟨_, hst, hact⟩ := bind_eq_ok.mp hact
    cases hst
    obtain ⟨⟨st', r'⟩, hadd, heq⟩ := bind_eq_ok.mp hact
    cases heq
    refine (setAdd_does h hadd).mono ?_
    rintro _ m' ⟨rfl, hm⟩
    exact ⟨m', 0, .set hm, (add_zero _).symm, .plain⟩
  | str | hash | list => cases hact

theorem listSet_acts (v : Held ValueAt) {value' : Value} {id : Int} (hact : lsetValue id value v.value = .ok (value', r)) :
    Acts ValueAt (Replies C) (listSet v.ptr id value) v value' r := by
  obtain ⟨a, type, v, m, h⟩ := v
  cases h with
  | list h =>
    obtain ⟨_, hls, hact⟩ := bind_eq_ok.mp hact
    cases hls
    obtain ⟨⟨ls', r'⟩, hset, heq⟩ := bind_eq_ok.mp hact
    cases heq
    refine (does_listSet h hset).mono ?_
    rintro _ _ ⟨rfl, cells', rfl, hm⟩
    exact ⟨_, 0, .list hm, (add_zero _).symm, .plain⟩
  | str | hash | set => cases hact

/-- A popped node stays in memory, with the string that the pop replies. -/
inductive Pops : Option ℕ → Option Bytes → Owned → Prop
  | none : Pops none none 0
  | some {a v : ℕ} {s : Bytes} : Pops (some v) (some s) (loneAt a v s)

/-- The reply of an action that tells whether the value is then empty. -/
def Tells {ρ ρ' : Type} (S : ρ' → ρ → Owned → Prop) (r' : Bool × ρ') (r : Bool × ρ) (x : Owned) : Prop :=
  r'.1 = r.1 ∧ S r'.2 r.2 x

theorem popValue_acts (v : Held ValueAt) {value' : Value} {r : Bool × Option Bytes}
    (hact : MemKey.popValue dir v.value = .ok (value', r)) :
    Acts ValueAt (Tells Pops) (popValue dir v.ptr) v value' r := by
  obtain ⟨a, type, v, m, h⟩ := v
  cases h with
  | list h =>
    obtain ⟨_, hls, hact⟩ := bind_eq_ok.mp hact
    cases hls
    obtain ⟨⟨ls', nd⟩, hpop, hact⟩ := bind_eq_ok.mp hact
    obtain ⟨⟨b, nd⟩, hread, heq⟩ := bind_eq_ok.mp hact
    cases heq
    refine .seq ((does_listPop h hpop hread).mono ?_)
    rintro _ _ ⟨b, w, cells', rfl, rfl, hm⟩
    refine .seq (.pure (.seq (.loadAs ((add_comm ..).trans (add_assoc ..)) rfl ?_)))
    refine .seq (.loadAs (add_assoc ..) rfl (.pure ⟨_, _, .list hm, rfl, ?_, .some⟩))
    rw [Strings.len hm, texts, List.length_map]
  | str | hash | set => cases hact

theorem hdelValue_acts (v : Held ValueAt) {value' : Value} {r : Bool × Bool}
    (hact : MemKey.hdelValue mode field v.value = .ok (value', r))
    (hC : C → ∀ tmp, v.value = .hash tmp → Shrinks mode tmp field) :
    Acts ValueAt (Tells (Replies C)) (hdelValue mode field v.ptr) v value' r := by
  obtain ⟨a, type, v, m, h⟩ := v
  cases h with
  | hash h =>
    obtain ⟨_, htmp, hact⟩ := bind_eq_ok.mp hact
    cases htmp
    obtain ⟨⟨tmp', r'⟩, hdel, heq⟩ := bind_eq_ok.mp hact
    cases heq
    refine .seq ((htableDel_does h (frees_string 1) hdel).mono ?_)
    rintro _ _ ⟨rfl, n, x, hn, rfl, hx⟩
    obtain ⟨arr, f, hm⟩ := hn.head
    refine .seq (.loadAs ((congrArg (· + x) hm).trans (add_assoc ..)) rfl (.pure ?_))
    exact ⟨n, x, .hash hn, rfl, rfl, rfl, (hx.mono fun hc => hC hc _ rfl).strings⟩
  | str | list | set => cases hact

theorem lremValue_acts (v : Held ValueAt) {value' : Value} {count : Int} {r : Bool × Int}
    (hact : MemKey.lremValue count value v.value = .ok (value', r)) :
    Acts ValueAt (Tells (Replies C)) (lremValue count value v.ptr) v value' r := by
  obtain ⟨a, type, v, m, h⟩ := v
  cases h with
  | list h =>
    obtain ⟨_, hls, hact⟩ := bind_eq_ok.mp hact
    cases hls
    obtain ⟨⟨ls', r'⟩, hrem, heq⟩ := bind_eq_ok.mp hact
    cases heq
    refine .seq ((listRem_does h hrem).mono ?_)
    rintro _ _ ⟨rfl, cells', rfl, hm⟩
    refine .seq (.loadAs rfl rfl (.pure ⟨_, 0, .list hm, (add_zero _).symm, ?_, .plain⟩))
    rw [Strings.len hm, texts, List.length_map]
  | str | hash | set => cases hact

theorem sremValue_acts (v : Held ValueAt) {value' : Value} {r : Bool × Bool}
    (hact : MemKey.sremValue mode value v.value = .ok (value', r)) :
    Acts ValueAt (Tells (Replies C)) (sremValue mode value v.ptr) v value' r := by
  obtain ⟨a, type, v, m, h⟩ := v
  cases h with
  | set h =>
    obtain ⟨_, hst, hact⟩ := bind_eq_ok.mp hact
    cases hst
    obtain ⟨⟨st', r'⟩, hrem, heq⟩ := bind_eq_ok.mp hact
    cases heq
    refine .seq ((setRem_does h hrem).mono ?_)
    rintro _ m' ⟨rfl, hm⟩
    obtain ⟨arr, f, rfl⟩ := IsTable.head hm
    exact .seq (.loadAs rfl rfl (.pure ⟨_, 0, .set hm, (add_zero _).symm, rfl, .plain⟩))
  | str | hash | list => cases hact

/-! ### Operations -/

/-- The reply and the keyspace of the model, with values that nothing points at any more unless `C`. -/
abbrev Done {ρ : Type} (C : Prop) (p : ℕ) (ht' : HashTable Value) (r r' : ρ) (m : Owned) : Prop :=
  r' = r ∧ Leaves ValueAt (IsKeyspace p ht') C m

/-- A change in place. -/
theorem does_update {ρ : Type} {act : Value → Except Fault (Value × ρ)} {actP : ℕ → Prog ρ} {missing r : ρ} (C : Prop)
    (h : IsKeyspace p ht m) (hupd : MemKey.htableUpdate mode ht key act missing = .ok (ht', r))
    (hact : ∀ (v : Held ValueAt) ix value, htableFind mode ht key = .ok (some (ix, ⟨v.type, key, v.value⟩)) →
      act v.value = .ok (value, r) → Acts ValueAt (Replies C) (actP v.ptr) v value r) :
    Does (htableUpdate mode p key actP missing) m (Done C p ht' r) := by
  refine (htableUpdate_does h hupd .plain hact).mono ?_
  rintro _ _ ⟨n, x, hn, rfl, rfl, hx⟩
  exact ⟨rfl, n, x, hn, rfl, hx⟩

/-- An insertion of what the operation creates for a missing key. -/
theorem does_create (op : HtableOp) (h : IsKeyspace p ht m) (hfind : htableFind mode ht op.key = .ok none)
    (b : Binding ValueAt) (hcreate : op.create mode = .ok (some b.item))
    (hins : MemKey.htableInsert mode ht b.held.type b.key b.held.value = .ok ht') :
    Does (htableInsert mode p b.held.type b.key (some b.held.ptr)) (b.held.blocks + m) fun _ m' =>
      Leaves ValueAt (IsKeyspace p ht') (Safe mode ht op) m' := by
  rw [add_comm]
  exact (htableInsert_does h b hins).mono fun _ _ hm => hm.mono fun hs => hs.stores hfind hcreate

theorem htableHset_does (h : IsKeyspace p ht m) (hset : MemKey.htableHset mode ht key field value = .ok (ht', r)) :
    Does (htableHset mode p key field value) m (Done (Safe mode ht (.hset key field value)) p ht' r) := by
  rcases exists_cases hset with ⟨⟨s, hfind⟩, hupd⟩ | ⟨hfind, hnew⟩
  · refine h.present hfind (does_update _ h hupd fun v ix _ hfind hact => ?_)
    exact htableUpdateHash_acts v hact fun hs tmp htmp hnone =>
      ⟨hs.hash hfind htmp, hs.2.fields ix _ hfind tmp htmp tmp rfl hnone⟩
  · obtain ⟨⟨new, b⟩, hfirst, hnew⟩ := bind_eq_ok.mp hnew
    obtain ⟨t, hins, heq⟩ := bind_eq_ok.mp hnew
    cases heq
    refine h.absent hfind (.seq (.call (does_htableInit (R := StringAt) htBaseSize) (zero_add _).symm fun a n hn => ?_))
    refine .seq (.call (htableSet_does hn (frees_string 1) (fun _ => .mk) hfirst) rfl ?_)
    rintro _ _ ⟨rfl, n', x, hn', rfl, hx⟩
    have hcreate : (HtableOp.hset key field value).create mode = .ok (some ⟨.HASH_T, key, .hash new⟩) := by
      rw [HtableOp.create, hfirst]
      rfl
    have hadmits : Stores mode (MemKey.htableInit htBaseSize) ⟨.STR_T, field, .str value⟩ :=
      ⟨htableInit_keyed.1, init_admits⟩
    have hinsert := does_create (.hset key field value) h hfind ⟨key, a, .HASH_T, .hash new, n', .hash hn'⟩ hcreate hins
    refine .seq (.call hinsert (add_right_comm ..) fun _ n₂ hn₂ => ?_)
    exact .pure ⟨rfl, hn₂.add (hx.mono fun _ _ => hadmits).strings⟩

theorem htablePush_does {n : Int} (h : IsKeyspace p ht m) (hpush : MemKey.htablePush mode ht key value dir = .ok (ht', n)) :
    Does (htablePush mode p key value dir) m (Done (Safe mode ht (.push key value dir)) p ht' n) := by
  rcases exists_cases hpush with ⟨⟨s, hfind⟩, hupd⟩ | ⟨hfind, hnew⟩
  · exact h.present hfind (does_update _ h hupd fun v _ _ _ hact => pushValue_acts v hact)
  · obtain ⟨new, hfirst, hnew⟩ := bind_eq_ok.mp hnew
    obtain ⟨t, hins, heq⟩ := bind_eq_ok.mp hnew
    cases heq
    refine h.absent hfind (.seq (.call does_listInit (zero_add _).symm ?_))
    rintro a _ rfl
    refine .seq (.call (does_listPush mirrors_init hfirst) rfl ?_)
    rintro _ _ ⟨cells, rfl, hnew⟩
    have hcreate : (HtableOp.push key value dir).create mode = .ok (some ⟨.LIST_T, key, .list new⟩) := by
      rw [HtableOp.create, hfirst]
      rfl
    have hinsert := does_create (.push key value dir) h hfind ⟨key, a, .LIST_T, .list new, _, .list hnew⟩ hcreate hins
    exact .seq (hinsert.mono fun _ _ hm => .pure ⟨rfl, hm⟩)

theorem htableSadd_does (h : IsKeyspace p ht m) (hadd : MemKey.htableSadd mode ht key value = .ok (ht', r)) :
    Does (htableSadd mode p key value) m (Done (Safe mode ht (.sadd key value)) p ht' r) := by
  rcases exists_cases hadd with ⟨⟨s, hfind⟩, hupd⟩ | ⟨hfind, hnew⟩
  · exact h.present hfind (does_update _ h hupd fun v _ _ _ hact => setAdd_acts v hact)
  · obtain ⟨⟨new, b⟩, hfirst, hnew⟩ := bind_eq_ok.mp hnew
    obtain ⟨t, hins, heq⟩ := bind_eq_ok.mp hnew
    cases heq
    refine h.absent hfind (.seq (.call (setInit_does htBaseSize) (zero_add _).symm fun a n hn => ?_))
    refine .seq (.call (setAdd_does hn hfirst) rfl ?_)
    rintro _ n' ⟨rfl, hn'⟩
    have hcreate : (HtableOp.sadd key value).create mode = .ok (some ⟨.SET_T, key, .set new⟩) := by
      rw [HtableOp.create, hfirst]
      rfl
    have hinsert := does_create (.sadd key value) h hfind ⟨key, a, .SET_T, .set new, n', .set hn'⟩ hcreate hins
    exact .seq (hinsert.mono fun _ _ hm => .pure ⟨rfl, hm⟩)

/-- A change of a value that may leave it empty. -/
theorem does_shrink {ρ : Type} {act : Value → Except Fault (Value × Bool × ρ)} {actP : ℕ → Prog (Bool × ρ)} {missing r : ρ}
    (op : HtableOp) (h : IsKeyspace p ht m) (hop : ∀ a, op.act mode a = shrunk a (act a.value))
    (hshr : MemKey.htableShrink mode ht op.key act missing = .ok (ht', r))
    (hact : ∀ (v : Held ValueAt) ix value empty, htableFind mode ht op.key = .ok (some (ix, ⟨v.type, op.key, v.value⟩)) →
      act v.value = .ok (value, empty, r) →
        Acts ValueAt (Tells (Replies (Safe mode ht op))) (actP v.ptr) v value (empty, r)) :
    Does (htableShrink mode p op.key actP missing) m (Done (Safe mode ht op) p ht' r) := by
  refine (htableShrink_does h frees_value hshr .plain hact).mono ?_
  rintro _ _ ⟨n, x, rfl, ⟨rfl, hx⟩, hn⟩
  refine ⟨rfl, (hn.mono fun hs ix a value hfind hrun => hs.shrinks hfind ?_).add hx⟩
  rw [hop, shrunk, hrun]
  rfl

theorem htableHdel_does (h : IsKeyspace p ht m) (hdel : MemKey.htableHdel mode ht key field = .ok (ht', r)) :
    Does (htableHdel mode p key field) m (Done (Safe mode ht (.hdel key field)) p ht' r) :=
  does_shrink (.hdel key field) h (fun _ => rfl) hdel fun v ix _ _ hfind hact =>
    hdelValue_acts v hact fun hs tmp htmp => ⟨hs.hash hfind htmp, hs.2.fields ix _ hfind tmp htmp tmp rfl⟩

theorem htableLrem_does {count n : Int} (h : IsKeyspace p ht m)
    (hrem : MemKey.htableLrem mode ht key count value = .ok (ht', n)) :
    Does (htableLrem mode p key count value) m (Done (Safe mode ht (.lrem key count value)) p ht' n) :=
  does_shrink (.lrem key count value) h (fun _ => rfl) hrem fun v _ _ _ _ hact => lremValue_acts v hact

theorem htableSrem_does (h : IsKeyspace p ht m) (hrem : MemKey.htableSrem mode ht key value = .ok (ht', r)) :
    Does (htableSrem mode p key value) m (Done (Safe mode ht (.srem key value)) p ht' r) :=
  does_shrink (.srem key value) h (fun _ => rfl) hrem fun v _ _ _ _ hact => sremValue_acts v hact

theorem htableLset_does {id : Int} (h : IsKeyspace p ht m) (hset : MemKey.htableLset mode ht key id value = .ok (ht', r)) :
    Does (htableLset mode p key id value) m (Done (Safe mode ht (.lset key id value)) p ht' r) :=
  does_update _ h hset fun v _ _ _ hact => listSet_acts v hact

theorem htableSet_keyspace_does (h : IsKeyspace p ht m) (hset : MemKey.htableSet mode ht key value = .ok (ht', r)) :
    Does (htableSet mode p key value) m (Done (Safe mode ht (.set key value)) p ht' r) := by
  refine (htableSet_does h frees_value (fun _ => .str) hset).mono ?_
  rintro _ _ ⟨rfl, hm⟩
  exact ⟨rfl, hm.mono fun hs hfind => hs.stores hfind rfl⟩

theorem htableDel_keyspace_does (h : IsKeyspace p ht m) (hdel : MemKey.htableDel mode ht key = .ok (ht', r)) :
    Does (htableDel mode p key) m (Done (Safe mode ht (.del key)) p ht' r) := by
  refine (htableDel_does h frees_value hdel).mono ?_
  rintro _ _ ⟨rfl, hm⟩
  exact ⟨rfl, hm.mono fun hs => ⟨hs.1.keyed.1, hs.2.delete trivial⟩⟩

theorem htablePop_does {s : Option Bytes} (h : IsKeyspace p ht m) (hpop : MemKey.htablePop mode ht key dir = .ok (ht', s)) :
    Does (htablePop mode p key dir) m fun q m' => ∃ n x, m' = n + x ∧ Pops q s x ∧
      Leaves ValueAt (IsKeyspace p ht') (Safe mode ht (.pop key dir)) n := by
  refine (htableShrink_does h frees_value hpop .none fun v _ _ _ _ hact => popValue_acts v hact).mono ?_
  rintro q _ ⟨n, x, rfl, hx, hn⟩
  refine ⟨n, x, rfl, hx, hn.mono fun hs ix a value hfind hrun => hs.shrinks hfind ?_⟩
  rw [HtableOp.act, shrunk, hrun]
  rfl

end Keyspace

end MemKey.Pointer
