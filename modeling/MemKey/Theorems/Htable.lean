import MemKey.Theorems.Set

/-! Runs of the operations on a `HashTable`: what one operation can do to the table, and from it that every
    entry stays on the probe path of its key and that no key has two entries. -/

namespace MemKey
open Probing Outcome

/-- The operations that change a table. -/
inductive HtableOp where
  | set (key value : Bytes)
  | hset (key field value : Bytes)
  | push (key value : Bytes) (dir : ListDirection)
  | sadd (key value : Bytes)
  | del (key : Bytes)
  | pop (key : Bytes) (dir : ListDirection)
  | hdel (key field : Bytes)
  | lrem (key : Bytes) (count : Int) (value : Bytes)
  | srem (key value : Bytes)
  | lset (key : Bytes) (id : Int) (value : Bytes)

namespace HtableOp

def key : HtableOp → Bytes
  | set key _ | hset key _ _ | push key _ _ | sadd key _ | del key | pop key _ | hdel key _ | lrem key _ _
  | srem key _ | lset key _ _ => key

def step (m : IntMode) (ht : HashTable Value) : HtableOp → Except Fault (HashTable Value)
  | set key value => do .ok (← htableSet m ht key value).1
  | hset key field value => do .ok (← htableHset m ht key field value).1
  | push key value dir => do .ok (← htablePush m ht key value dir).1
  | sadd key value => do .ok (← htableSadd m ht key value).1
  | del key => do .ok (← htableDel m ht key).1
  | pop key dir => do .ok (← htablePop m ht key dir).1
  | hdel key field => do .ok (← htableHdel m ht key field).1
  | lrem key count value => do .ok (← htableLrem m ht key count value).1
  | srem key value => do .ok (← htableSrem m ht key value).1
  | lset key id value => do .ok (← htableLset m ht key id value).1

/-- The operation inserts its key when it is missing. -/
def Inserts : HtableOp → Prop
  | set .. | hset .. | push .. | sadd .. => True
  | _ => False

/-- The operation leaves the value empty. -/
def Empties (m : IntMode) (v : Value) : HtableOp → Prop
  | pop _ dir => ∃ v' r, popValue dir v = .ok (v', true, r)
  | hdel _ field => ∃ v' r, hdelValue m field v = .ok (v', true, r)
  | lrem _ count value => ∃ v' r, lremValue count value v = .ok (v', true, r)
  | srem _ value => ∃ v' r, sremValue m value v = .ok (v', true, r)
  | _ => False

/-- The operation deletes its key: `htable_del` itself, and the ones that delete a key whose value they
    leave empty. -/
def Deletes (m : IntMode) (ht : HashTable Value) : HtableOp → Prop
  | del _ => True
  | op => ∃ ix a, htableFind m ht op.key = .ok (some (ix, a)) ∧ op.Empties m a.value

instance (op : HtableOp) : Decidable op.Inserts := by
  unfold Inserts
  split <;> infer_instance

instance (m : IntMode) (v : Value) (op : HtableOp) : Decidable (op.Empties m v) := by
  unfold Empties
  split <;> infer_instance

instance (m : IntMode) (ht : HashTable Value) (op : HtableOp) : Decidable (op.Deletes m ht) := by
  unfold Deletes
  split <;> infer_instance

end HtableOp

instance Value.decidableOfHash {P : HashTable Value → Prop} [DecidablePred P] (v : Value) :
    Decidable (∀ tmp, v = .hash tmp → P tmp) :=
  match v with
  | .hash tmp => decidable_of_iff (P tmp) (by simp)
  | .str _ | .list _ | .set _ => isTrue (by simp)

instance Value.decidableOfSet {P : CSet → Prop} [DecidablePred P] (v : Value) :
    Decidable (∀ st, v = .set st → P st) :=
  match v with
  | .set st => decidable_of_iff (P st) (by simp)
  | .str _ | .hash _ | .list _ => isTrue (by simp)

/-! ### The item of the key -/

/-- An action on the value of an item, in place. -/
def updated {ρ : Type} (a : HashTableItem Value) (acted : Except Fault (Value × ρ)) :
    Except Fault (HashTableItem Value × Bool) := do .ok ({ a with value := (← acted).1 }, false)

/-- An action on the value of an item that tells whether the value is then empty. -/
def shrunk {ρ : Type} (a : HashTableItem Value) (acted : Except Fault (Value × Bool × ρ)) :
    Except Fault (HashTableItem Value × Bool) := do
  let (value, empty, _) ← acted
  .ok ({ a with value }, empty)

/-- What `htable_update_hash` does with the value. -/
def hsetValue (m : IntMode) (field value : Bytes) (v : Value) : Except Fault (Value × Bool) := do
  let tmp ← v.asHash
  let (tmp, new) ← htableSet m tmp field value
  .ok (.hash tmp, new)

/-- What `htable_update_list` does with the value. -/
def pushValue (value : Bytes) (dir : ListDirection) (v : Value) : Except Fault (Value × Int) := do
  let tmp ← listPush (← v.asList) value dir
  .ok (.list tmp, tmp.len)

/-- What `htable_update_set` does with the value. -/
def saddValue (m : IntMode) (value : Bytes) (v : Value) : Except Fault (Value × Bool) := do
  let (tmp, new) ← setAdd m (← v.asSet) value
  .ok (.set tmp, new)

/-- What `htable_lset` does with the value. -/
def lsetValue (id : Int) (value : Bytes) (v : Value) : Except Fault (Value × Bool) := do
  let (tmp, res) ← listSet (← v.asList) id value
  .ok (.list tmp, res)

namespace HtableOp

/-- The type of the values that the operation works on and inserts; `htable_del` works on any. -/
def type : HtableOp → Option ItemType
  | set .. => some .STR_T
  | hset .. | hdel .. => some .HASH_T
  | push .. | pop .. | lrem .. | lset .. => some .LIST_T
  | sadd .. | srem .. => some .SET_T
  | del _ => none

/-- What the operation makes of the item of its key, and whether the item then goes. -/
def act (m : IntMode) (a : HashTableItem Value) : HtableOp → Except Fault (HashTableItem Value × Bool)
  | set key value => .ok (⟨.STR_T, key, .str value⟩, false)
  | hset _ field value => updated a (hsetValue m field value a.value)
  | push _ value dir => updated a (pushValue value dir a.value)
  | sadd _ value => updated a (saddValue m value a.value)
  | del _ => .ok (a, true)
  | pop _ dir => shrunk a (popValue dir a.value)
  | hdel _ field => shrunk a (hdelValue m field a.value)
  | lrem _ count value => shrunk a (lremValue count value a.value)
  | srem _ value => shrunk a (sremValue m value a.value)
  | lset _ id value => updated a (lsetValue id value a.value)

/-- The item that the operation inserts for a missing key, if any. -/
def create (m : IntMode) : HtableOp → Except Fault (Option (HashTableItem Value))
  | set key value => .ok (some ⟨.STR_T, key, .str value⟩)
  | hset key field value => do .ok (some ⟨.HASH_T, key, .hash (← htableSet m (htableInit htBaseSize) field value).1⟩)
  | push key value dir => do .ok (some ⟨.LIST_T, key, .list (← listPush listInit value dir)⟩)
  | sadd key value => do .ok (some ⟨.SET_T, key, .set (← setAdd m (setInit htBaseSize) value).1⟩)
  | _ => .ok none

end HtableOp

/-- The tables that runs from `htable_init(2)` reach whose operations all meet `P`. -/
abbrev HtableReached (m : IntMode) (P : HashTable Value → HtableOp → Prop) : HashTable Value → Prop :=
  Runs.Reached (HtableOp.step m) (htableInit htBaseSize) P

/-! ### What an operation does to the table -/

/-- The changes that an operation on `key` can make: none, one new entry, another entry in the slot of the
    key, or the removal of the key, which can follow such a change. -/
inductive Effect (m : IntMode) (op : HtableOp) (ht ht' : HashTable Value) : Prop
  | stay (h : ht' = ht)
  | insert {a : HashTableItem Value} {b : Bool} (hop : op.Inserts) (hk : a.key = op.key)
      (hfind : htableFind m ht op.key = .ok none)
      (hadd : Table.add m HashTableItem.key false Table.depth ht a = .ok (ht', b))
  | put {ix : ℕ} {a a' : HashTableItem Value} (hfind : htableFind m ht op.key = .ok (some (ix, a)))
      (hk : a'.key = op.key) (h : ht' = ht.put ix a')
  | del {b : Bool} (hop : op.Deletes m ht) (hdel : htableDel m ht op.key = .ok (ht', b))
  | drop {ix : ℕ} {a a' : HashTableItem Value} {b : Bool} (hop : op.Deletes m ht)
      (hfind : htableFind m ht op.key = .ok (some (ix, a))) (hk : a'.key = op.key)
      (hdel : htableDel m (ht.put ix a') op.key = .ok (ht', b))

/-- The same, with what becomes of the item of the key. -/
inductive Change (m : IntMode) (op : HtableOp) (ht ht' : HashTable Value) : Prop
  | stay (hfind : htableFind m ht op.key = .ok none) (h : ht' = ht)
  | insert {a : HashTableItem Value} {b : Bool} (hfind : htableFind m ht op.key = .ok none)
      (hcreate : op.create m = .ok (some a))
      (hadd : Table.add m HashTableItem.key false Table.depth ht a = .ok (ht', b))
  | put {ix : ℕ} {a a' : HashTableItem Value} (hfind : htableFind m ht op.key = .ok (some (ix, a)))
      (hact : op.act m a = .ok (a', false)) (h : ht' = ht.put ix a')
  | drop {ix : ℕ} {a a' : HashTableItem Value} {b : Bool} (hfind : htableFind m ht op.key = .ok (some (ix, a)))
      (hact : op.act m a = .ok (a', true)) (hdel : htableDel m (ht.put ix a') op.key = .ok (ht', b))

section Htable
variable {m : IntMode} {ht ht' : HashTable Value} {key : Bytes} {op : HtableOp} {ρ : Type}

theorem htableFind_key {V : Type} {t : HashTable V} {ix : ℕ} {a : HashTableItem V}
    (h : htableFind m t key = .ok (some (ix, a))) : a.key = key := (Table.find_some h).2

theorem htableExists_eq_ok {b : Bool} :
    htableExists m ht key = .ok b ↔ ∃ r, htableFind m ht key = .ok r ∧ b = r.isSome := by
  unfold htableExists htableSearch
  simp only [bind_eq_ok, Except.ok.injEq]
  constructor
  · rintro ⟨_, ⟨r, hr, rfl⟩, rfl⟩
    exact ⟨r, hr, by simp⟩
  · rintro ⟨r, hr, rfl⟩
    exact ⟨_, ⟨r, hr, rfl⟩, by simp⟩

theorem htableFind_of_search {a : HashTableItem Value} (h : htableSearch m ht key = .ok (some a)) :
    ∃ ix, htableFind m ht key = .ok (some (ix, a)) := by
  obtain ⟨r, hfind, heq⟩ := bind_eq_ok.mp h
  obtain ⟨⟨ix, b⟩, rfl, rfl⟩ := Option.map_eq_some_iff.mp (Except.ok.inj heq)
  exact ⟨ix, hfind⟩

theorem htableUpdate_cases {act : Value → Except Fault (Value × ρ)} {missing r : ρ}
    (h : htableUpdate m ht key act missing = .ok (ht', r)) :
    htableFind m ht key = .ok none ∧ ht' = ht ∧ r = missing ∨
    ∃ ix item item', htableFind m ht key = .ok (some (ix, item)) ∧ act item.value = .ok (item'.value, r) ∧
      item'.key = key ∧ item'.type = item.type ∧ ht' = ht.put ix item' := by
  obtain ⟨found, hfind, h⟩ := bind_eq_ok.mp h
  cases found with
  | none =>
    cases h
    exact .inl ⟨hfind, rfl, rfl⟩
  | some p =>
    have hk : p.2.key = key := htableFind_key hfind
    obtain ⟨⟨value, reply⟩, hact, h⟩ := bind_eq_ok.mp h
    cases h
    exact .inr ⟨p.1, p.2, ⟨p.2.type, p.2.key, value⟩, hfind, hact, hk, rfl, rfl⟩

theorem htableShrink_cases {act : Value → Except Fault (Value × Bool × ρ)} {missing r : ρ}
    (h : htableShrink m ht key act missing = .ok (ht', r)) :
    htableFind m ht key = .ok none ∧ ht' = ht ∧ r = missing ∨
    ∃ ix item item' empty, htableFind m ht key = .ok (some (ix, item)) ∧
      act item.value = .ok (item'.value, empty, r) ∧ item'.key = key ∧ item'.type = item.type ∧
      if empty then ∃ b, htableDel m (ht.put ix item') key = .ok (ht', b) else ht' = ht.put ix item' := by
  obtain ⟨found, hfind, h⟩ := bind_eq_ok.mp h
  cases found with
  | none =>
    cases h
    exact .inl ⟨hfind, rfl, rfl⟩
  | some p =>
    have hk : p.2.key = key := htableFind_key hfind
    obtain ⟨⟨value, empty, reply⟩, hact, h⟩ := bind_eq_ok.mp h
    refine .inr ⟨p.1, p.2, ⟨p.2.type, p.2.key, value⟩, empty, hfind, ?_⟩
    cases empty with
    | false =>
      cases h
      exact ⟨hact, hk, rfl, rfl⟩
    | true =>
      obtain ⟨⟨ht'', b⟩, hdel, h⟩ := bind_eq_ok.mp h
      cases h
      exact ⟨hact, hk, rfl, b, hdel⟩

theorem exists_cases {β : Type} {x y : Except Fault β} {b : β}
    (h : (do if ← htableExists m ht key then x else y) = .ok b) :
    (∃ p, htableFind m ht key = .ok (some p)) ∧ x = .ok b ∨ htableFind m ht key = .ok none ∧ y = .ok b := by
  obtain ⟨ex, hex, h⟩ := bind_eq_ok.mp h
  obtain ⟨r, hr, rfl⟩ := htableExists_eq_ok.mp hex
  cases r with
  | none => exact .inr ⟨hr, h⟩
  | some p => exact .inl ⟨⟨p, hr⟩, h⟩

theorem htableInsert_eq_ok {type : ItemType} {value : Value} :
    htableInsert m ht type key value = .ok ht' ↔
      ∃ b, Table.add m HashTableItem.key false Table.depth ht ⟨type, key, value⟩ = .ok (ht', b) := by
  unfold htableInsert
  simp only [bind_eq_ok, Except.ok.injEq, Prod.exists]
  constructor
  · rintro ⟨t, b, h, rfl⟩
    exact ⟨b, h⟩
  · rintro ⟨b, h⟩
    exact ⟨ht', b, h, rfl⟩

theorem htableSet_some {ix : ℕ} {a : HashTableItem Value} {value : Bytes}
    (h : htableFind m ht key = .ok (some (ix, a))) :
    htableSet m ht key value = .ok (ht.put ix ⟨.STR_T, key, .str value⟩, false) := by
  rw [htableSet, htableExists, htableSearch, htableUpdateStr, h]
  rfl

theorem htableSet_none {value : Bytes} (h : htableFind m ht key = .ok none) :
    htableSet m ht key value = (do .ok (← htableInsert m ht .STR_T key (.str value), true)) := by
  rw [htableSet, htableExists, htableSearch, h]
  rfl

theorem htableSet_cases {value : Bytes} {new : Bool} (h : htableSet m ht key value = .ok (ht', new)) :
    (∃ ix a, htableFind m ht key = .ok (some (ix, a)) ∧ ht' = ht.put ix ⟨.STR_T, key, .str value⟩ ∧ new = false) ∨
    htableFind m ht key = .ok none ∧ htableInsert m ht .STR_T key (.str value) = .ok ht' ∧ new = true := by
  rcases exists_cases h with ⟨⟨⟨ix, a⟩, hfind⟩, -⟩ | ⟨hfind, -⟩
  · cases (htableSet_some hfind).symm.trans h
    exact .inl ⟨ix, a, hfind, rfl, rfl⟩
  · obtain ⟨t, hins, heq⟩ := bind_eq_ok.mp ((htableSet_none hfind).symm.trans h)
    cases heq
    exact .inr ⟨hfind, hins, rfl⟩

theorem Change.of_update {act : Value → Except Fault (Value × ρ)} {missing r : ρ}
    (h : htableUpdate m ht op.key act missing = .ok (ht', r))
    (hact : ∀ a, a.key = op.key → op.act m a = updated a (act a.value)) : Change m op ht ht' := by
  rcases htableUpdate_cases h with ⟨hfind, rfl, -⟩ | ⟨ix, ⟨type, k, v⟩, ⟨type', k', v'⟩, hfind, hv, hk, htype, rfl⟩
  · exact .stay hfind rfl
  · obtain rfl : k = op.key := htableFind_key hfind
    obtain rfl : k' = op.key := hk
    obtain rfl : type' = type := htype
    refine .put hfind ?_ rfl
    rw [hact _ rfl, updated, hv]
    rfl

theorem Change.of_insert {type : ItemType} {value : Value} (hfind : htableFind m ht op.key = .ok none)
    (hcreate : op.create m = .ok (some ⟨type, op.key, value⟩)) (h : htableInsert m ht type op.key value = .ok ht') :
    Change m op ht ht' := by
  obtain ⟨b, hadd⟩ := htableInsert_eq_ok.mp h
  exact .insert hfind hcreate hadd

/-- A write changes the value of its key if there is one, and inserts a new value otherwise. -/
theorem Change.of_write {β : Type} {act : Value → Except Fault (Value × ρ)} {missing first : ρ} {r : HashTable Value × ρ}
    {type : ItemType} {new : Except Fault β} (value : β → Value)
    (h : (do if ← htableExists m ht op.key then htableUpdate m ht op.key act missing
             else do
               let b ← new
               .ok (← htableInsert m ht type op.key (value b), first)) = .ok r)
    (hact : ∀ a, a.key = op.key → op.act m a = updated a (act a.value))
    (hcreate : ∀ b, new = .ok b → op.create m = .ok (some ⟨type, op.key, value b⟩)) : Change m op ht r.1 := by
  rcases exists_cases h with ⟨-, h⟩ | ⟨hfind, h⟩
  · exact .of_update h hact
  · obtain ⟨b, hnew, h⟩ := bind_eq_ok.mp h
    obtain ⟨t, hins, heq⟩ := bind_eq_ok.mp h
    cases heq
    exact .of_insert hfind (hcreate b hnew) hins

theorem Change.of_shrink {act : Value → Except Fault (Value × Bool × ρ)} {missing r : ρ}
    (h : htableShrink m ht op.key act missing = .ok (ht', r))
    (hact : ∀ a, a.key = op.key → op.act m a = shrunk a (act a.value)) : Change m op ht ht' := by
  rcases htableShrink_cases h with
    ⟨hfind, rfl, -⟩ | ⟨ix, ⟨type, k, v⟩, ⟨type', k', v'⟩, empty, hfind, hv, hk, htype, h⟩
  · exact .stay hfind rfl
  · obtain rfl : k = op.key := htableFind_key hfind
    obtain rfl : k' = op.key := hk
    obtain rfl : type' = type := htype
    have hact' : op.act m ⟨type', op.key, v⟩ = .ok (⟨type', op.key, v'⟩, empty) := by
      rw [hact _ rfl, shrunk, hv]
      rfl
    cases empty with
    | false => exact .put hfind hact' h
    | true =>
      obtain ⟨b, hdel⟩ := h
      exact .drop hfind hact' hdel

theorem Change.of_del {b : Bool} (h : htableDel m ht key = .ok (ht', b)) : Change m (.del key) ht ht' := by
  obtain ⟨r, hfind, hrem⟩ := bind_eq_ok.mp h
  cases r with
  | none =>
    cases hrem
    exact .stay hfind rfl
  | some p =>
    obtain ⟨ix, a⟩ := p
    have hix := (Table.find_some hfind).1
    obtain ⟨hlt, hget⟩ := List.getElem?_eq_some_iff.mp hix
    have hput : ht.put ix a = ht := by rw [Table.put, ← hget, List.set_getElem_self]
    refine .drop hfind rfl (b := b) ?_
    rw [hput]
    exact h

theorem HtableOp.change (h : op.step m ht = .ok ht') : Change m op ht ht' := by
  cases op with
  | set key value =>
    obtain ⟨⟨t, new⟩, hset, heq⟩ := bind_eq_ok.mp h
    cases heq
    rcases htableSet_cases hset with ⟨ix, a, hfind, rfl, -⟩ | ⟨hfind, hins, -⟩
    · exact .put hfind rfl rfl
    · exact .of_insert hfind rfl hins
  | hset key field value =>
    obtain ⟨r, hset, heq⟩ := bind_eq_ok.mp h
    cases heq
    refine .of_write (fun p : HashTable Value × Bool => .hash p.1) hset (fun _ _ => rfl) fun new hnew => ?_
    rw [create, hnew]
    rfl
  | push key value dir =>
    obtain ⟨r, hpush, heq⟩ := bind_eq_ok.mp h
    cases heq
    refine .of_write .list hpush (fun _ _ => rfl) fun new hnew => ?_
    rw [create, hnew]
    rfl
  | sadd key value =>
    obtain ⟨r, hsadd, heq⟩ := bind_eq_ok.mp h
    cases heq
    refine .of_write (fun p : CSet × Bool => .set p.1) hsadd (fun _ _ => rfl) fun new hnew => ?_
    rw [create, hnew]
    rfl
  | del key =>
    obtain ⟨⟨t, b⟩, hdel, heq⟩ := bind_eq_ok.mp h
    cases heq
    exact .of_del hdel
  | pop key dir =>
    obtain ⟨r, hpop, heq⟩ := bind_eq_ok.mp h
    cases heq
    exact .of_shrink hpop fun _ _ => rfl
  | hdel key field =>
    obtain ⟨r, hdel, heq⟩ := bind_eq_ok.mp h
    cases heq
    exact .of_shrink hdel fun _ _ => rfl
  | lrem key count value =>
    obtain ⟨r, hrem, heq⟩ := bind_eq_ok.mp h
    cases heq
    exact .of_shrink hrem fun _ _ => rfl
  | srem key value =>
    obtain ⟨r, hrem, heq⟩ := bind_eq_ok.mp h
    cases heq
    exact .of_shrink hrem fun _ _ => rfl
  | lset key id value =>
    obtain ⟨r, hset, heq⟩ := bind_eq_ok.mp h
    cases heq
    exact .of_update hset fun _ _ => rfl

/-! ### Items -/

theorem updated_eq_ok {a a' : HashTableItem Value} {acted : Except Fault (Value × ρ)} {empty : Bool}
    (h : updated a acted = .ok (a', empty)) : ∃ r, acted = .ok (a'.value, r) ∧ a' = { a with value := a'.value } ∧
      empty = false := by
  obtain ⟨⟨v, r⟩, hacted, heq⟩ := bind_eq_ok.mp h
  cases heq
  exact ⟨r, hacted, rfl, rfl⟩

theorem shrunk_eq_ok {a a' : HashTableItem Value} {acted : Except Fault (Value × Bool × ρ)} {empty : Bool}
    (h : shrunk a acted = .ok (a', empty)) : ∃ r, acted = .ok (a'.value, empty, r) ∧ a' = { a with value := a'.value } := by
  obtain ⟨⟨v, e, r⟩, hacted, heq⟩ := bind_eq_ok.mp h
  cases heq
  exact ⟨r, hacted, rfl⟩

/-- An operation other than `htable_set` changes at most the value of its item. -/
theorem HtableOp.act_item {a a' : HashTableItem Value} {empty : Bool} (h : op.act m a = .ok (a', empty))
    (hset : ∀ key value, op ≠ .set key value) : a' = { a with value := a'.value } := by
  cases op with
  | set key value => exact absurd rfl (hset key value)
  | hset | push | sadd | lset =>
    obtain ⟨r, -, ha', -⟩ := updated_eq_ok h
    exact ha'
  | del key =>
    cases h
    rfl
  | pop | hdel | lrem | srem =>
    obtain ⟨r, -, ha'⟩ := shrunk_eq_ok h
    exact ha'

theorem HtableOp.act_key {a a' : HashTableItem Value} {empty : Bool} (h : op.act m a = .ok (a', empty))
    (ha : a.key = op.key) : a'.key = op.key := by
  by_cases hset : ∃ key value, op = .set key value
  · obtain ⟨key, value, rfl⟩ := hset
    cases h
    rfl
  · rw [HtableOp.act_item h fun key value heq => hset ⟨key, value, heq⟩]
    exact ha

theorem HtableOp.create_key {a : HashTableItem Value} (h : op.create m = .ok (some a)) :
    a.key = op.key ∧ op.Inserts := by
  cases op with
  | set key value =>
    cases h
    exact ⟨rfl, trivial⟩
  | hset | push | sadd =>
    obtain ⟨_, -, heq⟩ := bind_eq_ok.mp h
    cases heq
    exact ⟨rfl, trivial⟩
  | del | pop | hdel | lrem | srem | lset => cases h

theorem HtableOp.create_type {a : HashTableItem Value} (h : op.create m = .ok (some a)) : op.type = some a.type := by
  cases op with
  | set key value =>
    cases h
    rfl
  | hset | push | sadd =>
    obtain ⟨_, -, heq⟩ := bind_eq_ok.mp h
    cases heq
    rfl
  | del | pop | hdel | lrem | srem | lset => cases h

theorem HtableOp.act_type {a a' : HashTableItem Value} {empty : Bool} (h : op.act m a = .ok (a', empty)) :
    a'.type = a.type ∨ op.type = some a'.type := by
  by_cases hset : ∃ key value, op = .set key value
  · obtain ⟨key, value, rfl⟩ := hset
    cases h
    exact .inr rfl
  · rw [HtableOp.act_item h fun key value heq => hset ⟨key, value, heq⟩]
    exact .inl rfl

theorem HtableOp.act_deletes {ix : ℕ} {a a' : HashTableItem Value} (hfind : htableFind m ht op.key = .ok (some (ix, a)))
    (h : op.act m a = .ok (a', true)) : op.Deletes m ht := by
  cases op with
  | del key => trivial
  | pop | hdel | lrem | srem =>
    obtain ⟨r, hacted, -⟩ := shrunk_eq_ok h
    exact ⟨ix, a, hfind, a'.value, r, hacted⟩
  | set key value => cases h
  | hset | push | sadd | lset =>
    obtain ⟨_, -, -, hempty⟩ := updated_eq_ok h
    cases hempty

theorem HtableOp.effect (h : op.step m ht = .ok ht') : Effect m op ht ht' := by
  cases HtableOp.change h with
  | stay hfind h => exact .stay h
  | insert hfind hcreate hadd => exact .insert (create_key hcreate).2 (create_key hcreate).1 hfind hadd
  | put hfind hact h => exact .put hfind (act_key hact (htableFind_key hfind)) h
  | drop hfind hact hdel =>
    exact .drop (act_deletes hfind hact) hfind (act_key hact (htableFind_key hfind)) hdel

/-! ### The representation invariant -/

/-- The probe-path invariant, with one entry for each key. -/
def Keyed (m : IntMode) {V : Type} (ht : HashTable V) : Prop :=
  ht.WF m HashTableItem.key ∧ Distinct HashTableItem.key ht.entries

theorem htableInit_keyed {V : Type} : Keyed m (htableInit htBaseSize : HashTable V) :=
  ⟨Table.init_wf fun _ => by decide, by rw [htableInit, Table.entries_init]; exact List.nodup_nil⟩

section Primitive
variable {V : Type} {t t' : HashTable V} {a a' : HashTableItem V} {b : Bool}

theorem Keyed.insert (h : Keyed m t) (hfind : htableFind m t a.key = .ok none)
    (hadd : Table.add m HashTableItem.key false Table.depth t a = .ok (t', b)) : Keyed m t' := by
  have hr := (h.1.add_spec 0 a).of_ok hadd
  exact ⟨hr.wf, hr.distinct h.2 fun _ => h.1.find_none hfind⟩

theorem Keyed.put (h : Keyed m t) {ix : ℕ} (hfind : htableFind m t key = .ok (some (ix, a)))
    (hk : a'.key = key) : Keyed m (t.put ix a') := by
  obtain ⟨hix, rfl⟩ := Table.find_some hfind
  exact ⟨h.1.put hix hk, Table.put_distinct h.2 hix hk⟩

theorem Keyed.del (h : Keyed m t) (hdel : htableDel m t key = .ok (t', b)) : Keyed m t' := by
  have hr := (h.1.remove_spec key).of_ok hdel
  exact ⟨hr.wf, hr.distinct h.2⟩

end Primitive

theorem Effect.keyed (h : Effect m op ht ht') (hk : Keyed m ht) : Keyed m ht' := by
  cases h with
  | stay h => exact h ▸ hk
  | insert _ ha hfind hadd => exact hk.insert (ha ▸ hfind) hadd
  | put hfind ha h => exact h ▸ hk.put hfind ha
  | del _ hdel => exact hk.del hdel
  | drop _ hfind ha hdel => exact (hk.put hfind ha).del hdel

theorem HtableReached.keyed {P : HashTable Value → HtableOp → Prop} (h : HtableReached m P ht) : Keyed m ht :=
  h.invariant (Keyed m) htableInit_keyed fun _ _ _ hk _ hs => (HtableOp.effect hs).keyed hk

theorem Keyed.find {V : Type} {t : HashTable V} (h : Keyed m t) {ix : ℕ} {a : HashTableItem V}
    (ha : t.slots[ix]? = some (.live a)) : htableFind m t a.key = .ok (some (ix, a)) := by
  obtain ⟨jx, hfind⟩ := h.1.find_eq h.2 (mem_entries.mpr ⟨ix, ha⟩)
  obtain rfl : jx = ix := h.2.slots_inj (Table.find_some hfind).1 ha rfl
  exact hfind

/-- In a table with distinct keys, an item is found exactly when it is there. -/
theorem Keyed.search_iff {V : Type} {t : HashTable V} (hk : Keyed m t) {key : Bytes} {a : HashTableItem V} :
    htableSearch m t key = .ok (some a) ↔ a ∈ t.entries ∧ a.key = key := by
  unfold htableSearch
  simp only [bind_eq_ok, Except.ok.injEq, Option.map_eq_some_iff]
  constructor
  · rintro ⟨_, hfind, ⟨ix, _⟩, rfl, rfl⟩
    obtain ⟨hix, ha⟩ := Table.find_some hfind
    exact ⟨mem_entries.mpr ⟨ix, hix⟩, ha⟩
  · rintro ⟨ha, rfl⟩
    obtain ⟨ix, hfind⟩ := hk.1.find_eq hk.2 ha
    exact ⟨_, hfind, (ix, a), rfl, rfl⟩

theorem Keyed.search_put {V : Type} {t : HashTable V} (hk : Keyed m t) {ix : ℕ} {a a' : HashTableItem V}
    (hfind : htableFind m t key = .ok (some (ix, a))) (ha : a'.key = key) :
    htableSearch m (t.put ix a') key = .ok (some a') := by
  have hix := (List.getElem?_eq_some_iff.mp (Table.find_some hfind).1).1
  exact (hk.put hfind ha).search_iff.mpr ⟨mem_entries.mpr ⟨ix, List.getElem?_set_self hix⟩, ha⟩

theorem htableSearch_spec {V : Type} {t : HashTable V} (hw : t.WF m HashTableItem.key) (k : Bytes) :
    Ensures (htableSearch m t k) (fun r => r.isSome = true ↔ ∃ a ∈ t.entries, a.key = k) (Escapes m) := by
  refine (hw.find_spec k).bind fun r _ hr => ?_
  simpa using hr

end Htable

/-! ### The probe-path invariant -/

/-- Slot `ix` is probe `j` of the key, and no probe before it meets NULL. -/
def OnProbePath {α : Type} (m : IntMode) (t : Table α) (key : Bytes) (ix : ℕ) : Prop :=
  ∃ j < t.size, hashFunc m key t.size j = ix ∧
    ∀ i < j, ∃ (jx : ℕ) (b : Slot α), hashFunc m key t.size i = jx ∧ t.slots[jx]? = some b ∧ b ≠ .null

theorem Table.WF.onProbePath {α : Type} {m : IntMode} {key : α → Bytes} {t : Table α} (hw : t.WF m key)
    {ix : ℕ} {a : α} (ha : t.slots[ix]? = some (.live a)) : OnProbePath m t (key a) ix := by
  obtain ⟨j, hj, hp, hbefore⟩ := hw.reaches ix a ha
  refine ⟨j, hj, probePath_eq_some.mp hp, fun i hi => ?_⟩
  obtain ⟨jx, b, hlook, hne⟩ := hbefore i hi
  obtain ⟨hp, hb⟩ := look_eq_some.mp hlook
  exact ⟨jx, b, probePath_eq_some.mp hp, hb, hne⟩

/-- In every table that a run reaches, and in every set, each entry is on the probe path of its key with no
    NULL before it, so that a search finds exactly the keys that are there; a table has one entry for each
    key, and search, update and removal act on that one. -/
theorem entries_on_probe_path {P : HashTable Value → HtableOp → Prop} {Q : CSet → SetOp → Prop}
    {ht : HashTable Value} {st : CSet} (hht : HtableReached .exact P ht) (hst : SetReached .exact Q st) :
    ((∀ ix a, ht.slots[ix]? = some (.live a) → OnProbePath .exact ht a.key ix) ∧
      (∀ key, ∃ r, htableSearch .exact ht key = .ok r ∧
        (r.isSome = true ↔ ∃ (ix : ℕ) (a : _), ht.slots[ix]? = some (.live a) ∧ a.key = key)) ∧
      (∀ (ix jx : ℕ) a b, ht.slots[ix]? = some (.live a) → ht.slots[jx]? = some (.live b) → a.key = b.key →
        ix = jx) ∧
      ∀ (ix : ℕ) a, ht.slots[ix]? = some (.live a) →
        htableSearch .exact ht a.key = .ok (some a) ∧
        (∀ value, htableSet .exact ht a.key value = .ok (ht.put ix ⟨.STR_T, a.key, .str value⟩, false)) ∧
        (∀ ρ (act : Value → Except Fault (Value × ρ)) missing, htableUpdate .exact ht a.key act missing =
          do let (value, reply) ← act a.value
             .ok (ht.put ix { a with value }, reply)) ∧
        htableDel .exact ht a.key =
          do .ok (← (ht.bury ix).resizeDown .exact (Table.add .exact HashTableItem.key false Table.depth), true)) ∧
    (∀ ix key, st.slots[ix]? = some (.live key) → OnProbePath .exact st key ix) ∧
    ∀ key, ∃ b, setIsmember .exact st key = .ok b ∧ (b = true ↔ ∃ ix : ℕ, st.slots[ix]? = some (.live key)) := by
  have hk := hht.keyed
  have hw := hst.wf
  refine ⟨⟨fun ix a ha => hk.1.onProbePath ha, fun key => ?_, fun ix jx a b => hk.2.slots_inj, ?_⟩,
    fun ix key ha => hw.onProbePath ha, fun key => ?_⟩
  · have hspec := htableSearch_spec hk.1 key
    cases hs : htableSearch .exact ht key with
    | error e => exact (hspec.of_error hs).exact.elim
    | ok r =>
      refine ⟨r, rfl, (hspec.of_ok hs).trans ?_⟩
      exact ⟨fun ⟨a, ha, hak⟩ => (mem_entries.mp ha).imp fun ix hix => ⟨a, hix, hak⟩,
        fun ⟨ix, a, hix, hak⟩ => ⟨a, mem_entries.mpr ⟨ix, hix⟩, hak⟩⟩
  · intro ix a ha
    have hfind := hk.find ha
    refine ⟨?_, fun value => ?_, fun ρ act missing => ?_, ?_⟩
    · rw [htableSearch, hfind]
      rfl
    · exact htableSet_some hfind
    · rw [htableUpdate, hfind]
      rfl
    · have hfind' : ht.find .exact HashTableItem.key a.key = .ok (some (ix, a)) := hfind
      rw [htableDel, Table.remove, hfind']
      rfl
  · have hspec := setIsmember_spec hw key
    cases hs : setIsmember .exact st key with
    | error e => exact (hspec.of_error hs).exact.elim
    | ok b => exact ⟨b, rfl, (hspec.of_ok hs).trans mem_entries⟩

/-- The table of two slots that `SET key value` leaves when slot `ix` is the home of the key. -/
def oneString (ix : ℕ) (key value : Bytes) : HashTable Value :=
  (htableInit htBaseSize).place ix ⟨.STR_T, key, .str value⟩

/-- The table that `SET a 1; SET f 2` leaves. It has grown, and the first slot on the path of `f` is that of `a`. -/
def twoStrings : HashTable Value :=
  ⟨5, 2, [.live ⟨.STR_T, str "a", .str (str "1")⟩, .null, .live ⟨.STR_T, str "f", .str (str "2")⟩, .null, .null]⟩

/-- The same two keys, in a hash table and in a set: `f` is found at its second probe. -/
theorem entries_on_probe_path_grown :
    (OnProbePath .exact twoStrings (str "f") 2 ∧
      htableSearch .exact twoStrings (str "f") = .ok (some ⟨.STR_T, str "f", .str (str "2")⟩)) ∧
    OnProbePath .exact (⟨5, 2, [.live (str "a"), .null, .live (str "f"), .null, .null]⟩ : CSet) (str "f") 2 := by
  have hone : HtableReached .exact (fun _ _ => True) (oneString 0 (str "a") (str "1")) :=
    .step .init trivial (show HtableOp.step .exact _ (.set (str "a") (str "1")) = _ from rfl)
  have hht : HtableReached .exact (fun _ _ => True) twoStrings :=
    .step hone trivial (show HtableOp.step .exact _ (.set (str "f") (str "2")) = _ from rfl)
  have hrun : Runs.run (SetOp.step .exact) (setInit htBaseSize) [.add (str "a"), .add (str "f")] =
      .ok ⟨5, 2, [.live (str "a"), .null, .live (str "f"), .null, .null]⟩ := rfl
  have hst := Runs.Reached.init.run (P := fun _ _ => True) (fun _ _ => trivial) hrun
  obtain ⟨hpath, -, -, hfound⟩ := (entries_on_probe_path hht hst).1
  exact ⟨⟨hpath 2 _ rfl, (hfound 2 _ rfl).1⟩, (entries_on_probe_path hht hst).2.1 2 _ rfl⟩

end MemKey
