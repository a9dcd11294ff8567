import MemKey.Theorems.Resize
import MemKey.Theorems.Keyspace

/-! What the operations do with the values of the keyspace. As long as every entry that a resize moves finds a free
    slot, the counters of the hashes and sets tell when one is empty, and an operation changes no key but its own. -/

namespace MemKey
open Probing Outcome

/-! ### What an operation does with a value -/

namespace HtableOp
section Values
variable {m : IntMode} {a a' : HashTableItem Value} {key field value : Bytes} {dir : ListDirection} {count id : Int}
  {empty : Bool}

theorem act_hset (h : (hset key field value).act m a = .ok (a', empty)) : ∃ tmp tmp' new, a.value = .hash tmp ∧
    htableSet m tmp field value = .ok (tmp', new) ∧ a'.value = .hash tmp' ∧ empty = false := by
  obtain ⟨r, hacted, -, hempty⟩ := updated_eq_ok h
  obtain ⟨tmp, htmp, h⟩ := bind_eq_ok.mp hacted
  obtain ⟨⟨tmp', new⟩, hset, heq⟩ := bind_eq_ok.mp h
  obtain ⟨hv, -⟩ := Prod.mk.inj (Except.ok.inj heq)
  exact ⟨tmp, tmp', new, asHash_eq_ok htmp, hset, hv.symm, hempty⟩

theorem act_push (h : (push key value dir).act m a = .ok (a', empty)) : ∃ ls ls', a.value = .list ls ∧
    listPush ls value dir = .ok ls' ∧ a'.value = .list ls' ∧ empty = false := by
  obtain ⟨r, hacted, -, hempty⟩ := updated_eq_ok h
  obtain ⟨ls, hls, h⟩ := bind_eq_ok.mp hacted
  obtain ⟨ls', hpush, heq⟩ := bind_eq_ok.mp h
  obtain ⟨hv, -⟩ := Prod.mk.inj (Except.ok.inj heq)
  exact ⟨ls, ls', asList_eq_ok hls, hpush, hv.symm, hempty⟩

theorem act_sadd (h : (sadd key value).act m a = .ok (a', empty)) : ∃ st st' new, a.value = .set st ∧
    setAdd m st value = .ok (st', new) ∧ a'.value = .set st' ∧ empty = false := by
  obtain ⟨r, hacted, -, hempty⟩ := updated_eq_ok h
  obtain ⟨st, hst, h⟩ := bind_eq_ok.mp hacted
  obtain ⟨⟨st', new⟩, hadd, heq⟩ := bind_eq_ok.mp h
  obtain ⟨hv, -⟩ := Prod.mk.inj (Except.ok.inj heq)
  exact ⟨st, st', new, asSet_eq_ok hst, hadd, hv.symm, hempty⟩

theorem act_pop (h : (pop key dir).act m a = .ok (a', empty)) : ∃ ls ls' nd, a.value = .list ls ∧
    listPop ls dir = .ok (ls', nd) ∧ a'.value = .list ls' ∧ empty = decide (ls'.len = 0) := by
  obtain ⟨r, hacted, -⟩ := shrunk_eq_ok h
  obtain ⟨ls, hls, h⟩ := bind_eq_ok.mp hacted
  obtain ⟨⟨ls', nd⟩, hpop, h⟩ := bind_eq_ok.mp h
  obtain ⟨nd', -, heq⟩ := bind_eq_ok.mp h
  simp only [Except.ok.injEq, Prod.mk.injEq] at heq
  exact ⟨ls, ls', nd, asList_eq_ok hls, hpop, heq.1.symm, heq.2.1.symm⟩

theorem act_hdel (h : (hdel key field).act m a = .ok (a', empty)) : ∃ tmp tmp' res, a.value = .hash tmp ∧
    htableDel m tmp field = .ok (tmp', res) ∧ a'.value = .hash tmp' ∧ empty = decide (tmp'.used = 0) := by
  obtain ⟨r, hacted, -⟩ := shrunk_eq_ok h
  obtain ⟨tmp, htmp, h⟩ := bind_eq_ok.mp hacted
  obtain ⟨⟨tmp', res⟩, hdel, heq⟩ := bind_eq_ok.mp h
  simp only [Except.ok.injEq, Prod.mk.injEq] at heq
  exact ⟨tmp, tmp', res, asHash_eq_ok htmp, hdel, heq.1.symm, heq.2.1.symm⟩

theorem act_lrem (h : (lrem key count value).act m a = .ok (a', empty)) : ∃ ls ls' res, a.value = .list ls ∧
    listRem ls count value = .ok (ls', res) ∧ a'.value = .list ls' ∧ empty = decide (ls'.len = 0) := by
  obtain ⟨r, hacted, -⟩ := shrunk_eq_ok h
  obtain ⟨ls, hls, h⟩ := bind_eq_ok.mp hacted
  obtain ⟨⟨ls', res⟩, hrem, heq⟩ := bind_eq_ok.mp h
  simp only [Except.ok.injEq, Prod.mk.injEq] at heq
  exact ⟨ls, ls', res, asList_eq_ok hls, hrem, heq.1.symm, heq.2.1.symm⟩

theorem act_srem (h : (srem key value).act m a = .ok (a', empty)) : ∃ st st' res, a.value = .set st ∧
    setRem m st value = .ok (st', res) ∧ a'.value = .set st' ∧ empty = decide (st'.used = 0) := by
  obtain ⟨r, hacted, -⟩ := shrunk_eq_ok h
  obtain ⟨st, hst, h⟩ := bind_eq_ok.mp hacted
  obtain ⟨⟨st', res⟩, hrem, heq⟩ := bind_eq_ok.mp h
  simp only [Except.ok.injEq, Prod.mk.injEq] at heq
  exact ⟨st, st', res, asSet_eq_ok hst, hrem, heq.1.symm, heq.2.1.symm⟩

theorem act_lset (h : (lset key id value).act m a = .ok (a', empty)) : ∃ ls ls' res, a.value = .list ls ∧
    listSet ls id value = .ok (ls', res) ∧ a'.value = .list ls' ∧ empty = false := by
  obtain ⟨r, hacted, -, hempty⟩ := updated_eq_ok h
  obtain ⟨ls, hls, h⟩ := bind_eq_ok.mp hacted
  obtain ⟨⟨ls', res⟩, hset, heq⟩ := bind_eq_ok.mp h
  obtain ⟨hv, -⟩ := Prod.mk.inj (Except.ok.inj heq)
  exact ⟨ls, ls', res, asList_eq_ok hls, hset, hv.symm, hempty⟩

end Values

/-! ### Soundness of single operations -/

section Tagged
variable {m : IntMode} {ht ht' : HashTable Value} {a a' : HashTableItem Value} {op : HtableOp}

theorem create_tagged (h : op.create m = .ok (some a)) : Tagged m a := by
  cases op with
  | set key value =>
    cases h
    exact Holds.str value
  | hset key field value =>
    obtain ⟨r, hset, heq⟩ := bind_eq_ok.mp h
    cases heq
    exact Holds.hash ((Sound.init.set_spec (IsString.item field value)).of_ok hset)
  | push key value dir =>
    obtain ⟨ls, hpush, heq⟩ := bind_eq_ok.mp h
    cases heq
    obtain ⟨ls', cells, hpush', hrep, hne⟩ := listPush_spec Rep.init value dir
    obtain rfl : ls' = ls := Except.ok.inj (hpush'.symm.trans hpush)
    exact Holds.list hrep hne
  | sadd key value =>
    obtain ⟨r, hadd, heq⟩ := bind_eq_ok.mp h
    cases heq
    exact Holds.set ((setInit_wf.add_spec 0 value).of_ok hadd).wf
  | del | pop | hdel | lrem | srem | lset => cases h

/-- What an operation makes of a sound item is sound, unless it then goes. -/
theorem act_tagged (ha : Tagged m a) (h : op.act m a = .ok (a', false)) : Tagged m a' := by
  by_cases hset : ∃ key value, op = .set key value
  · obtain ⟨key, value, rfl⟩ := hset
    cases h
    exact Holds.str value
  · have hitem := act_item h fun key value heq => hset ⟨key, value, heq⟩
    have htype : a'.type = a.type := by rw [hitem]
    change Holds m a'.type a'.value
    rw [htype]
    have hv : Holds m a.type a.value := ha
    cases op with
    | set key value => exact absurd ⟨key, value, rfl⟩ hset
    | hset key field value =>
      obtain ⟨r, hacted, -⟩ := updated_eq_ok h
      exact (hsetValue_holds hv field value).of_ok hacted
    | push key value dir =>
      obtain ⟨r, hacted, -⟩ := updated_eq_ok h
      exact (pushValue_holds hv value dir).of_ok hacted
    | sadd key value =>
      obtain ⟨r, hacted, -⟩ := updated_eq_ok h
      exact (saddValue_holds hv value).of_ok hacted
    | del key => cases h
    | pop key dir =>
      obtain ⟨r, hacted, -⟩ := shrunk_eq_ok h
      exact (popValue_holds hv dir).of_ok hacted rfl
    | hdel key field =>
      obtain ⟨r, hacted, -⟩ := shrunk_eq_ok h
      exact (hdelValue_holds hv field).of_ok hacted rfl
    | lrem key count value =>
      obtain ⟨r, hacted, -⟩ := shrunk_eq_ok h
      exact (lremValue_holds hv count value).of_ok hacted rfl
    | srem key value =>
      obtain ⟨r, hacted, -⟩ := shrunk_eq_ok h
      exact (sremValue_holds hv value).of_ok hacted rfl
    | lset key id value =>
      obtain ⟨r, hacted, -⟩ := updated_eq_ok h
      exact (lsetValue_holds hv id value).of_ok hacted

/-- A sound item that stays is of the type that the operation works on. -/
theorem act_own_type (ha : Tagged m a) (h : op.act m a = .ok (a', false)) : op.type = some a'.type := by
  have ha' : Holds m a'.type a'.value := act_tagged ha h
  cases op with
  | set key value =>
    cases h
    rfl
  | del key => cases h
  | hset key field value =>
    obtain ⟨_, tmp, _, -, -, hval, -⟩ := act_hset h
    rw [hval] at ha'
    exact congrArg some (Holds.of_hash ha').1.symm
  | hdel key field =>
    obtain ⟨_, tmp, _, -, -, hval, -⟩ := act_hdel h
    rw [hval] at ha'
    exact congrArg some (Holds.of_hash ha').1.symm
  | push key value dir =>
    obtain ⟨_, ls, -, -, hval, -⟩ := act_push h
    rw [hval] at ha'
    exact congrArg some (Holds.of_list ha').1.symm
  | pop key dir =>
    obtain ⟨_, ls, _, -, -, hval, -⟩ := act_pop h
    rw [hval] at ha'
    exact congrArg some (Holds.of_list ha').1.symm
  | lrem key count value =>
    obtain ⟨_, ls, _, -, -, hval, -⟩ := act_lrem h
    rw [hval] at ha'
    exact congrArg some (Holds.of_list ha').1.symm
  | lset key id value =>
    obtain ⟨_, ls, _, -, -, hval, -⟩ := act_lset h
    rw [hval] at ha'
    exact congrArg some (Holds.of_list ha').1.symm
  | sadd key value =>
    obtain ⟨_, st, _, -, -, hval, -⟩ := act_sadd h
    rw [hval] at ha'
    exact congrArg some (Holds.of_set ha').1.symm
  | srem key value =>
    obtain ⟨_, st, _, -, -, hval, -⟩ := act_srem h
    rw [hval] at ha'
    exact congrArg some (Holds.of_set ha').1.symm

end Tagged

/-! ### Counters of hashes and sets -/

/-- Every field that the operation makes a resize of the hash `v` move finds a free slot. -/
def HashMoves (m : IntMode) (v : Value) : HtableOp → Prop
  | hset _ field value => ∀ tmp, v = .hash tmp → htableFind m tmp field = .ok none →
      tmp.GrowMoves m HashTableItem.key false ⟨.STR_T, field, .str value⟩
  | hdel _ field => ∀ tmp, v = .hash tmp → tmp.ShrinkMoves m HashTableItem.key false field
  | _ => True

/-- Every member that the operation makes a resize of the set `v` move finds a free slot. -/
def SetMoves (m : IntMode) (v : Value) : HtableOp → Prop
  | sadd _ value => ∀ st, v = .set st → st.GrowMoves m id true value
  | srem _ value => ∀ st, v = .set st → st.ShrinkMoves m id true value
  | _ => True

instance (m : IntMode) (v : Value) : (op : HtableOp) → Decidable (op.HashMoves m v)
  | .hset _ field value => inferInstanceAs (Decidable (∀ tmp, v = .hash tmp → htableFind m tmp field = .ok none →
      tmp.GrowMoves m HashTableItem.key false ⟨.STR_T, field, .str value⟩))
  | .hdel _ field => inferInstanceAs (Decidable (∀ tmp, v = .hash tmp → tmp.ShrinkMoves m HashTableItem.key false field))
  | .set .. | .push .. | .sadd .. | .del .. | .pop .. | .lrem .. | .srem .. | .lset .. => .isTrue trivial

/-- Every field that the operation makes a resize of a hash move finds a free slot. -/
def KeepsFields (m : IntMode) (ht : HashTable Value) (op : HtableOp) : Prop :=
  ∀ ix a, htableFind m ht op.key = .ok (some (ix, a)) → op.HashMoves m a.value

instance (m : IntMode) (ht : HashTable Value) (op : HtableOp) : Decidable (op.KeepsFields m ht) := by
  unfold KeepsFields
  infer_instance

end HtableOp

/-- A hash counts its fields and has one. -/
def HashFilled (v : Value) : Prop := ∀ tmp, v = .hash tmp → tmp.Filled

/-- A set counts its members and has one. -/
def SetFilled (v : Value) : Prop := ∀ st, v = .set st → st.Filled

namespace HtableOp
section Filled
variable {m : IntMode} {a a' : HashTableItem Value} {op : HtableOp}

theorem create_hashFilled (h : op.create m = .ok (some a)) : HashFilled a.value := by
  intro tmp hv
  have htype := create_type h
  rw [(Holds.of_hash (hv ▸ create_tagged h : Holds m a.type (.hash tmp))).1] at htype
  cases op with
  | hset key field value =>
    obtain ⟨⟨tmp', new⟩, hset, heq⟩ := bind_eq_ok.mp h
    cases heq
    cases hv
    rcases htableSet_cases hset with ⟨ix, a, hfind, -, -⟩ | ⟨-, hins, -⟩
    · have hmem : a ∈ (htableInit htBaseSize : HashTable Value).entries :=
        mem_entries.mpr ⟨ix, (Table.find_some hfind).1⟩
      rw [htableInit, Table.entries_init] at hmem
      cases hmem
    · obtain ⟨b, hadd⟩ := htableInsert_eq_ok.mp hins
      exact Table.init_add_filled 0 hadd
  | hdel => cases h
  | set | push | sadd | del | pop | lrem | srem | lset => cases htype

theorem create_setFilled (h : op.create m = .ok (some a)) : SetFilled a.value := by
  intro st hv
  have htype := create_type h
  rw [(Holds.of_set (hv ▸ create_tagged h : Holds m a.type (.set st))).1] at htype
  cases op with
  | sadd key value =>
    obtain ⟨⟨st', new⟩, hadd, heq⟩ := bind_eq_ok.mp h
    cases heq
    cases hv
    exact Table.init_add_filled 0 hadd
  | srem => cases h
  | set | hset | push | del | pop | hdel | lrem | lset => cases htype

theorem act_hashFilled (ha : Tagged m a) (hf : HashFilled a.value) (hm : op.HashMoves m a.value)
    (h : op.act m a = .ok (a', false)) : HashFilled a'.value := by
  intro tmp' hv'
  have htype := act_own_type ha h
  rw [(Holds.of_hash (hv' ▸ act_tagged ha h : Holds m a'.type (.hash tmp'))).1] at htype
  cases op with
  | hset key field value =>
    obtain ⟨tmp, tmp₁, new, hval, hset, hval', -⟩ := act_hset h
    have htmp : Sound m IsString tmp := (Holds.of_hash (hval ▸ ha : Holds m a.type (.hash tmp))).2
    obtain rfl : tmp₁ = tmp' := Value.hash.inj (hval'.symm.trans hv')
    rcases htableSet_cases hset with ⟨ix, b, hfind, rfl, -⟩ | ⟨hfind, hins, -⟩
    · exact Table.put_filled (hf tmp hval) (Table.find_some hfind).1
    · obtain ⟨b, hadd⟩ := htableInsert_eq_ok.mp hins
      exact htmp.keyed.1.add_filled (hf tmp hval) (hm tmp hval hfind) 0 hadd
  | hdel key field =>
    obtain ⟨tmp, tmp₁, res, hval, hdel, hval', hempty⟩ := act_hdel h
    have htmp : Sound m IsString tmp := (Holds.of_hash (hval ▸ ha : Holds m a.type (.hash tmp))).2
    obtain rfl : tmp₁ = tmp' := Value.hash.inj (hval'.symm.trans hv')
    exact htmp.keyed.1.remove_filled (hf tmp hval) (hm tmp hval) hdel (of_decide_eq_false hempty.symm)
  | set | push | sadd | del | pop | lrem | srem | lset => cases htype

theorem act_setFilled (ha : Tagged m a) (hf : SetFilled a.value) (hm : op.SetMoves m a.value)
    (h : op.act m a = .ok (a', false)) : SetFilled a'.value := by
  intro st' hv'
  have htype := act_own_type ha h
  rw [(Holds.of_set (hv' ▸ act_tagged ha h : Holds m a'.type (.set st'))).1] at htype
  cases op with
  | sadd key value =>
    obtain ⟨st, st₁, new, hval, hadd, hval', -⟩ := act_sadd h
    have hst : st.WF m id := (Holds.of_set (hval ▸ ha : Holds m a.type (.set st))).2
    obtain rfl : st₁ = st' := Value.set.inj (hval'.symm.trans hv')
    exact hst.add_filled (hf st hval) (hm st hval) 0 hadd
  | srem key value =>
    obtain ⟨st, st₁, res, hval, hrem, hval', hempty⟩ := act_srem h
    have hst : st.WF m id := (Holds.of_set (hval ▸ ha : Holds m a.type (.set st))).2
    obtain rfl : st₁ = st' := Value.set.inj (hval'.symm.trans hv')
    exact hst.remove_filled (hf st hval) (hm st hval) hrem (of_decide_eq_false hempty.symm)
  | set | hset | push | del | pop | hdel | lrem | lset => cases htype

end Filled
end HtableOp

/-! ### The keyspace -/

section Keyspace
variable {m : IntMode} {ht ht' : HashTable Value} {op : HtableOp} {key : Bytes} {a a' : HashTableItem Value} {b : Bool}

/-- Every entry that the operation makes a resize move finds a free slot. -/
structure HtableOp.Moves (m : IntMode) (ht : HashTable Value) (op : HtableOp) : Prop where
  grow : ∀ a, op.create m = .ok (some a) → htableFind m ht op.key = .ok none →
    ht.GrowMoves m HashTableItem.key false a
  shrink : op.Deletes m ht → ht.ShrinkMoves m HashTableItem.key false op.key
  hash : op.KeepsFields m ht
  set : ∀ ix a, htableFind m ht op.key = .ok (some (ix, a)) → op.SetMoves m a.value

theorem Change.keeps (h : Change m op ht ht') (hk : Keyed m ht) (hm : op.Moves m ht) : Keeps op.key ht ht' := by
  cases h with
  | stay _ h => exact h ▸ .refl
  | insert hfind hcreate hadd =>
    exact .insert hk (hm.grow _ hcreate hfind) (HtableOp.create_key hcreate).1 hadd
  | put hfind hact h => exact h ▸ .put hfind (HtableOp.act_key hact (htableFind_key hfind))
  | drop hfind hact hdel =>
    have hkey := HtableOp.act_key hact (htableFind_key hfind)
    have hshrink := hm.shrink (HtableOp.act_deletes hfind hact)
    exact (Keeps.put hfind hkey).trans (.del (hk.put hfind hkey) (ShrinkMoves.put hk hshrink hfind hkey) hdel)

/-- What holds of an item as long as the resizes lose nothing: it is sound, and a hash or set counts its elements and
    has one. -/
structure Kept (m : IntMode) (a : HashTableItem Value) : Prop where
  tagged : Tagged m a
  hash : HashFilled a.value
  set : SetFilled a.value

theorem Sound.step_kept (h : Sound m (Kept m) ht) (hm : op.Moves m ht) (hs : op.step m ht = .ok ht') :
    Sound m (Kept m) ht' := by
  refine h.step hs (fun a hc => ?_) fun ix a a' hfind ha hact => ?_
  · exact ⟨HtableOp.create_tagged hc, HtableOp.create_hashFilled hc, HtableOp.create_setFilled hc⟩
  · exact ⟨HtableOp.act_tagged ha.tagged hact, HtableOp.act_hashFilled ha.tagged ha.hash (hm.hash ix a hfind) hact,
      HtableOp.act_setFilled ha.tagged ha.set (hm.set ix a hfind) hact⟩

/-- An operation on another key leaves the item. -/
theorem HtableOp.step_other (hs : op.step m ht = .ok ht') (hk : Keyed m ht) (hm : op.Moves m ht) (hne : key ≠ op.key)
    (ha : htableSearch m ht key = .ok (some a)) : htableSearch m ht' key = .ok (some a) :=
  (((HtableOp.change hs).keeps hk hm).search hk ((HtableOp.effect hs).keyed hk) hne a).mpr ha

/-- An operation on the key makes of the item what its action says. -/
theorem HtableOp.step_own (hs : op.step m ht = .ok ht') (hk : Keyed m ht)
    (ha : htableSearch m ht op.key = .ok (some a)) : ∃ a' empty, op.act m a = .ok (a', empty) ∧
      (empty = false → htableSearch m ht' op.key = .ok (some a')) ∧
      (empty = true → ∀ b ∈ ht'.entries, b.key ≠ op.key) := by
  obtain ⟨hmem, hkey⟩ := hk.search_iff.mp ha
  have hfound {r : Option (ℕ × HashTableItem Value)} (h : htableFind m ht op.key = .ok r) : r.map (·.2) = some a := by
    rw [htableSearch, h] at ha
    exact Except.ok.inj ha
  cases HtableOp.change hs with
  | stay hfind h => cases hfound hfind
  | insert hfind hcreate hadd => cases hfound hfind
  | @put ix c c' hfind hact h =>
    obtain rfl : c = a := Option.some.inj (hfound hfind)
    subst h
    exact ⟨c', false, hact, fun _ => hk.search_put hfind (HtableOp.act_key hact hkey), fun h => Bool.noConfusion h⟩
  | @drop ix c c' b hfind hact hdel =>
    obtain rfl : c = a := Option.some.inj (hfound hfind)
    have hput := hk.put hfind (HtableOp.act_key hact hkey)
    exact ⟨c', true, hact, fun h => Bool.noConfusion h, fun _ => ((hput.1.remove_spec op.key).of_ok hdel).absent hput.2⟩

/-- An operation that does not insert leaves a missing key missing. -/
theorem HtableOp.step_missing (hs : op.step m ht = .ok ht') (hk : Keyed m ht) (hop : ¬op.Inserts)
    (habs : ∀ c ∈ ht.entries, c.key ≠ key) : ∀ c ∈ ht'.entries, c.key ≠ key := by
  intro c hc
  rcases (HtableOp.change hs).mem hk hc with hc | hcreate | ⟨ix, a, hfind, hact⟩
  · exact habs c hc
  · exact absurd (HtableOp.create_key hcreate).2 hop
  · have hkey := htableFind_key hfind
    rw [HtableOp.act_key hact hkey, ← hkey]
    exact habs a (mem_entries.mpr ⟨ix, (Table.find_some hfind).1⟩)

end Keyspace
end MemKey
