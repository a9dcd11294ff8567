import MemKey.Theorems.Moves

/-! The tables inside the values. An operation on a hash or a set of the keyspace is one operation on the table in it;
    what these keep of the tables, the operations on the keyspace keep of all values. -/

namespace MemKey
open Outcome

namespace HtableOp

/-- What the operation does to the hash that is its value. -/
def fieldOp : HtableOp → Option HtableOp
  | hset _ field value => some (.set field value)
  | hdel _ field => some (.del field)
  | _ => none

/-- What the operation does to the set that is its value. -/
def memberOp : HtableOp → Option SetOp
  | sadd _ value => some (.add value)
  | srem _ value => some (.rem value)
  | _ => none

end HtableOp

/-- A hash in the item satisfies `H`, and a set in it `S`. -/
structure Nests (H : HashTable Value → Prop) (S : CSet → Prop) (a : HashTableItem Value) : Prop where
  hash : ∀ tmp, a.value = .hash tmp → H tmp
  set : ∀ st, a.value = .set st → S st

section Nested
variable {m : IntMode} {ht ht' : HashTable Value} {op : HtableOp} {a a' : HashTableItem Value} {H : HashTable Value → Prop}
  {S : CSet → Prop} {I I' : HashTableItem Value → Prop}

theorem Nests.of_str {s : Bytes} (h : a.value = .str s) : Nests H S a where
  hash _ hv := nomatch h.symm.trans hv
  set _ hv := nomatch h.symm.trans hv

theorem Nests.of_list {ls : CList} (h : a.value = .list ls) : Nests H S a where
  hash _ hv := nomatch h.symm.trans hv
  set _ hv := nomatch h.symm.trans hv

theorem Nests.of_hash {tmp : HashTable Value} (h : a.value = .hash tmp) (htmp : H tmp) : Nests H S a where
  hash _ hv := Value.hash.inj (h.symm.trans hv) ▸ htmp
  set _ hv := nomatch h.symm.trans hv

theorem Nests.of_set {st : CSet} (h : a.value = .set st) (hst : S st) : Nests H S a where
  hash _ hv := nomatch h.symm.trans hv
  set _ hv := Value.set.inj (h.symm.trans hv) ▸ hst

theorem Nests.mono {H' : HashTable Value → Prop} {S' : CSet → Prop} (h : Nests H S a) (hH : ∀ tmp, H tmp → H' tmp)
    (hS : ∀ st, S st → S' st) : Nests H' S' a where
  hash tmp hv := hH tmp (h.hash tmp hv)
  set st hv := hS st (h.set st hv)

theorem step_set {tmp tmp' : HashTable Value} {field value : Bytes} {new : Bool}
    (h : htableSet m tmp field value = .ok (tmp', new)) : (HtableOp.set field value).step m tmp = .ok tmp' := by
  rw [HtableOp.step, h]
  rfl

theorem step_del {tmp tmp' : HashTable Value} {field : Bytes} {res : Bool} (h : htableDel m tmp field = .ok (tmp', res)) :
    (HtableOp.del field).step m tmp = .ok tmp' := by
  rw [HtableOp.step, h]
  rfl

theorem step_apply {st st' : CSet} {op : SetOp} {res : Bool} (h : op.apply m st = .ok (st', res)) :
    op.step m st = .ok st' := by
  rw [SetOp.step, h]
  rfl

/-- The item that an operation inserts, from the first operation on the table in it. -/
theorem create_nests (hH : ∀ o tmp, op.fieldOp = some o → o.step m (htableInit htBaseSize) = .ok tmp → H tmp)
    (hS : ∀ o st, op.memberOp = some o → o.step m (setInit htBaseSize) = .ok st → S st)
    (h : op.create m = .ok (some a)) : Nests H S a := by
  cases op with
  | set key value =>
    cases h
    exact .of_str rfl
  | hset key field value =>
    obtain ⟨⟨tmp, new⟩, hset, heq⟩ := bind_eq_ok.mp h
    cases heq
    exact .of_hash rfl (hH _ tmp rfl (step_set hset))
  | push key value dir =>
    obtain ⟨ls, -, heq⟩ := bind_eq_ok.mp h
    cases heq
    exact .of_list rfl
  | sadd key value =>
    obtain ⟨⟨st, new⟩, hadd, heq⟩ := bind_eq_ok.mp h
    cases heq
    exact .of_set rfl (hS (.add value) st rfl (step_apply hadd))
  | del | pop | hdel | lrem | srem | lset => cases h

/-- What an operation makes of its item, from what it does to the table in it. -/
theorem act_nests (hH : ∀ o tmp tmp', op.fieldOp = some o → a.value = .hash tmp → o.step m tmp = .ok tmp' → H tmp')
    (hS : ∀ o st st', op.memberOp = some o → a.value = .set st → o.step m st = .ok st' → S st')
    (h : op.act m a = .ok (a', false)) : Nests H S a' := by
  cases op with
  | set key value =>
    cases h
    exact .of_str rfl
  | hset key field value =>
    obtain ⟨tmp, tmp', new, hval, hset, hval', -⟩ := HtableOp.act_hset h
    exact .of_hash hval' (hH _ tmp tmp' rfl hval (step_set hset))
  | push key value dir =>
    obtain ⟨ls, ls', -, -, hval', -⟩ := HtableOp.act_push h
    exact .of_list hval'
  | sadd key value =>
    obtain ⟨st, st', new, hval, hadd, hval', -⟩ := HtableOp.act_sadd h
    exact .of_set hval' (hS (.add value) st st' rfl hval (step_apply hadd))
  | del key => cases h
  | pop key dir =>
    obtain ⟨ls, ls', nd, -, -, hval', -⟩ := HtableOp.act_pop h
    exact .of_list hval'
  | hdel key field =>
    obtain ⟨tmp, tmp', res, hval, hdel, hval', -⟩ := HtableOp.act_hdel h
    exact .of_hash hval' (hH _ tmp tmp' rfl hval (step_del hdel))
  | lrem key count value =>
    obtain ⟨ls, ls', res, -, -, hval', -⟩ := HtableOp.act_lrem h
    exact .of_list hval'
  | srem key value =>
    obtain ⟨st, st', res, hval, hrem, hval', -⟩ := HtableOp.act_srem h
    exact .of_set hval' (hS (.rem value) st st' rfl hval (step_apply hrem))
  | lset key id value =>
    obtain ⟨ls, ls', res, -, -, hval', -⟩ := HtableOp.act_lset h
    exact .of_list hval'

/-- An operation may change what holds of the items. -/
theorem Sound.step_to (h : Sound m I ht) (hs : op.step m ht = .ok ht') (hmono : ∀ a, I a → I' a)
    (hcreate : ∀ a, op.create m = .ok (some a) → I' a)
    (hact : ∀ ix a a', htableFind m ht op.key = .ok (some (ix, a)) → I a → op.act m a = .ok (a', false) → I' a') :
    Sound m I' ht' := by
  refine ⟨(HtableOp.effect hs).keyed h.keyed, fun c hc => ?_⟩
  rcases (HtableOp.change hs).mem h.keyed hc with hc | hc | ⟨ix, a, hfind, hc⟩
  · exact hmono c (h.items c hc)
  · exact hcreate c hc
  · exact hact ix a c hfind (h.items a (Probing.mem_entries.mpr ⟨ix, (Table.find_some hfind).1⟩)) hc

end Nested
end MemKey
