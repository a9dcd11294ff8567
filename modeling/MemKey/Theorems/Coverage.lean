import MemKey.Lib.Stride
import MemKey.Theorems.Hash
import MemKey.Theorems.Load
import MemKey.Theorems.Nested
import MemKey.Theorems.Refinement

/-! What the double hashing of `hash_func` covers. The probes of a key come to every slot of a table, because its size is
    a prime, unless the second hash of the key is 0 modulo that size. A table always has a free slot, so an insertion
    finds one, unless its probes all go to one slot and that is taken. -/

namespace MemKey
open Probing Outcome

namespace Table

variable {α : Type} {key : α → Bytes} {compare : Bool} {t t' : Table α} {a : α} {k : Bytes} {l : List α} {b : Bool}

/-- The probes of `k` do not all go to a slot that is taken. -/
def Finds (t : Table α) (k : Bytes) : Prop := sdbm k t.size = 0 → ∀ b, t.slots[djb2 k t.size]? ≠ some (.live b)

instance (t : Table α) (k : Bytes) : Decidable (t.Finds k) :=
  decidable_of_iff (sdbm k t.size = 0 → ∀ b ∈ t.slots[djb2 k t.size]?, b.vacant = true) (by
    refine imp_congr_right fun _ => ⟨fun h b hb => ?_, fun h b hb => ?_⟩
    · cases h _ hb
    · cases b with
      | live b => exact absurd hb (h b)
      | null | deleted => rfl)

/-! ### The probes of an insertion -/

theorem probePath_stride (k : Bytes) (size : ℕ) :
    probePath .exact size k = Stride.path size (djb2 k size) (sdbm k size) :=
  funext fun i => probePath_exact k size i

theorem addStop_vacant {c : Slot α} (hc : c.vacant = true) : addStop key compare a c = true := by
  cases c with
  | live b => cases hc
  | null | deleted => rfl

theorem addStop_eq_false {c : Slot α} :
    addStop key compare a c = false ↔ ∃ b, c = .live b ∧ (compare = true → key b ≠ key a) := by
  cases c with
  | live b => cases compare <;> simp [addStop]
  | null | deleted => simp [addStop]

/-- An insertion without overflow stops, unless its probes all go to the slot of an entry that does not stop it. -/
theorem WF.addWalk_miss_iff (hw : t.WF .exact key) (hp : t.size.Prime) (hused : t.used < t.size) (a : α) :
    addWalk .exact key compare t a = .miss ↔ sdbm (key a) t.size = 0 ∧
      ∃ b, t.slots[djb2 (key a) t.size]? = some (.live b) ∧ (compare = true → key b ≠ key a) := by
  have hmiss := Stride.walk_miss_iff (fun p => addStop key compare a p.2) hp hw.length (djb2 (key a) t.size)
    (sdbm (key a) t.size) (fun _ _ hc => addStop_vacant hc) (hw.vacant hused)
  rw [addWalk, probePath_stride, hmiss, Nat.mod_eq_of_lt (sdbm_lt _ hp.pos), Nat.mod_eq_of_lt (djb2_lt _ hp.pos)]
  simp only [addStop_eq_false]
  constructor
  · rintro ⟨hzero, c, hc, b, rfl, hne⟩
    exact ⟨hzero, b, hc, hne⟩
  · rintro ⟨hzero, b, hb, hne⟩
    exact ⟨hzero, _, hb, b, rfl, hne⟩

theorem WF.addWalk_stops (hw : t.WF .exact key) (compare : Bool) (hp : t.size.Prime) (hused : t.used < t.size)
    (hf : t.Finds (key a)) : ∃ p, addWalk .exact key compare t a = .hit p := by
  cases hwalk : addWalk .exact key compare t a with
  | hit p => exact ⟨p, rfl⟩
  | miss =>
    obtain ⟨hzero, b, hb, -⟩ := (hw.addWalk_miss_iff hp hused a).mp hwalk
    exact absurd hb (hf hzero b)
  | outside => cases hw.wraps hwalk

/-- A stop at an entry is one at its own key. -/
theorem addWalk_hit {ix : ℕ} {c : Slot α} (h : addWalk .exact key compare t a = .hit (ix, c)) :
    t.slots[ix]? = some c ∧ (c.vacant = true ∨ compare = true ∧ ∃ b, c = .live b ∧ key b = key a) := by
  obtain ⟨j, -, -, hlook, hstop, -⟩ := walk_eq_hit.mp h
  refine ⟨(look_eq_some.mp hlook).2, ?_⟩
  cases c with
  | live b =>
    simp only [addStop, Bool.and_eq_true, decide_eq_true_eq] at hstop
    exact .inr ⟨hstop.1, b, rfl, hstop.2⟩
  | null | deleted => exact .inl rfl

theorem Loaded.free (hl : Loaded key t) : t.used < t.size := by
  have := hl.used
  omega

/-- An insertion of a missing key stores its entry if it finds a slot, and changes nothing otherwise. -/
theorem Loaded.add_cases (hl : Loaded key t) (compare : Bool) (a : α)
    (hnew : compare = true → ∀ b ∈ t.entries, key b ≠ key a) (depth : ℕ) :
    t.Finds (key a) ∧ (∃ t', Table.add .exact key compare (depth + 2) t a = .ok (t', true) ∧ t'.used = t.used + 1) ∨
    ¬t.Finds (key a) ∧ Table.add .exact key compare (depth + 2) t a = .ok (t, false) := by
  by_cases hf : t.Finds (key a)
  · refine .inl ⟨hf, ?_⟩
    obtain ⟨⟨ix, c⟩, hwalk⟩ := hl.wf.addWalk_stops compare hl.prime hl.free hf
    obtain ⟨hix, hc⟩ := addWalk_hit hwalk
    have hvac : c.vacant = true := by
      rcases hc with hvac | ⟨hcomp, b, rfl, hk⟩
      · exact hvac
      · exact absurd hk (hnew hcomp b (mem_entries.mpr ⟨ix, hix⟩))
    obtain ⟨-, -, hadd⟩ := hl.wf.add_hit hwalk hvac (depth + 1)
    have hspec : Ensures (Table.add .exact key compare (depth + 2) t a) _ _ := hl.wf.add_spec depth a
    cases hrun : Table.add .exact key compare (depth + 2) t a with
    | error e => exact (hspec.of_error hrun).exact.elim
    | ok r =>
      obtain ⟨t₁, -, heq⟩ := bind_eq_ok.mp (hadd.symm.trans hrun)
      cases heq
      exact ⟨t₁, rfl, (hspec.of_ok hrun).used⟩
  · refine .inr ⟨hf, ?_⟩
    unfold Finds at hf
    push Not at hf
    obtain ⟨hzero, b, hb⟩ := hf
    have hne : compare = true → key b ≠ key a := fun hcomp => hnew hcomp b (mem_entries.mpr ⟨_, hb⟩)
    rw [Table.add, (hl.wf.addWalk_miss_iff hl.prime hl.free a).mpr ⟨hzero, b, hb, hne⟩]

/-! ### Resizes -/

/-- The entries all find a slot in a table with room for them in which no step of theirs is 0. -/
theorem WF.places (hw : t.WF .exact key) (hp : t.size.Prime) (hroom : Room t l)
    (hd : compare = true → Distinct key (l ++ t.entries)) (hs : ∀ a ∈ l, sdbm (key a) t.size ≠ 0) :
    Places .exact key compare Slot.vacant t l := by
  induction l generalizing t with
  | nil => trivial
  | cons a l ih =>
    have hused : t.used < t.size := by
      have := hroom.head
      have := hw.counted
      omega
    have hfinds : t.Finds (key a) := fun hzero => absurd hzero (hs a List.mem_cons_self)
    obtain ⟨⟨ix, c⟩, hwalk⟩ := hw.addWalk_stops compare hp hused hfinds
    obtain ⟨hix, hc⟩ := addWalk_hit hwalk
    have hvac : c.vacant = true := by
      rcases hc with hvac | ⟨hcomp, b, rfl, hk⟩
      · exact hvac
      · have hnodup := hd hcomp
        rw [List.cons_append, Distinct, List.map_cons, List.nodup_cons] at hnodup
        refine absurd (List.mem_map.mpr ⟨b, ?_, hk⟩) hnodup.1
        exact List.mem_append_right l (mem_entries.mpr ⟨ix, hix⟩)
    obtain ⟨hplace, hperm, -⟩ := hw.add_hit hwalk hvac 0
    refine ⟨ix, c, hwalk, hvac, ?_⟩
    rw [if_pos hvac]
    refine ih hplace hp (room_place.mpr hroom) (fun hcomp => ?_) fun b hb => ?_
    · exact (hd hcomp).perm ((hperm.append_left l).trans List.perm_middle)
    · exact hs b (List.mem_cons_of_mem a hb)

/-- In the table that a resize to `new` slots makes, no step of the keys is 0. -/
def Steps (new : Int) (keys : List Bytes) : Prop := ∀ k ∈ keys, sdbm k (nextPrime new).toNat ≠ 0

theorem Steps.places {new : Int} (hs : Steps new (l.map key)) (hroom : (l.length : Int) * 100 < 71 * new)
    (hd : compare = true → Distinct key l) : Places .exact key compare Slot.vacant (init new) l := by
  refine (init_loaded new).wf.places (prime_init new) (room_init hroom) (fun hcomp => ?_) fun a ha => ?_
  · rw [entries_init, List.append_nil]
    exact hd hcomp
  · exact hs _ (List.mem_map_of_mem ha)

/-- An insertion of `k` finds a slot, and if the table then grows, no key has step 0 in the larger one. -/
structure Takes (key : α → Bytes) (t : Table α) (k : Bytes) : Prop where
  finds : t.Finds k
  grows : 71 * t.size ≤ (t.used + 1) * 100 → Steps (t.size * 2) (k :: t.entries.map key)

/-- If `k` is there and the table shrinks as it goes, no other key has step 0 in the smaller one. -/
def Yields (key : α → Bytes) (t : Table α) (k : Bytes) : Prop :=
  k ∈ t.entries.map key → (t.used - 1) * 100 < 10 * t.size → 2 ≤ t.size / 2 →
    Steps (t.size / 2 : ℕ) ((t.entries.map key).erase k)

instance (new : Int) (keys : List Bytes) : Decidable (Steps new keys) := by
  unfold Steps
  infer_instance

instance (key : α → Bytes) (t : Table α) (k : Bytes) : Decidable (Takes key t k) :=
  decidable_of_iff (t.Finds k ∧ (71 * (t.size : Int) ≤ (t.used + 1) * 100 → Steps (t.size * 2) (k :: t.entries.map key)))
    ⟨fun h => ⟨h.1, h.2⟩, fun h => ⟨h.finds, h.grows⟩⟩

instance (key : α → Bytes) (t : Table α) (k : Bytes) : Decidable (Yields key t k) :=
  decidable_of_iff
    ((∃ a ∈ t.entries, key a = k) → (t.used - 1) * 100 < 10 * (t.size : Int) → 2 ≤ t.size / 2 →
      Steps (t.size / 2 : ℕ) ((t.entries.map key).erase k))
    (by simp only [Yields, List.mem_map])

theorem Takes.growMoves (ht : Takes key t (key a)) (hl : Loaded key t)
    (hd : compare = true → Distinct key (a :: t.entries)) : GrowMoves .exact key compare t a := by
  intro ix c hwalk hc hload _
  obtain ⟨hplace, hperm, -⟩ := hl.wf.add_hit hwalk hc 0
  have hfull : 71 * (t.size : Int) ≤ (t.used + 1) * 100 := by
    by_contra hlt
    have := hl.wf.place_load (by omega) hwalk hc
    omega
  have hsteps : Steps (t.size * 2) ((t.place ix a).entries.map key) :=
    fun k hk => ht.grows hfull k ((hperm.map key).mem_iff.mp hk)
  have hroom := hplace.grow_room (by have := hplace.two_le; change 2 ≤ ((t.place ix a).size * 2 : Int); omega)
  exact hsteps.places hroom fun hcomp => (hd hcomp).perm hperm

/-- An insertion of a missing key that takes is admitted. -/
theorem Takes.admits (ht : Takes key t (key a)) (hl : Loaded key t)
    (hd : compare = true → Distinct key (a :: t.entries)) : t.Admits .exact key compare a where
  stops := hl.wf.addWalk_stops compare hl.prime hl.free ht.finds
  moves := ht.growMoves hl hd

theorem Yields.shrinkMoves (hy : Yields key t k) (hl : Loaded key t) (hd : compare = true → Distinct key t.entries) :
    ShrinkMoves .exact key compare t k := by
  intro ix a hfind hload
  obtain ⟨hix, rfl⟩ := find_some hfind
  refine ⟨rfl, fun hsize => ?_⟩
  have hbury := hl.wf.bury hix
  have hperm := bury_perm hix
  have hlow : (t.used - 1) * 100 < 10 * (t.size : Int) := hbury.load_lt rfl hload
  have hsteps : Steps (t.size / 2 : ℕ) ((t.bury ix).entries.map key) := by
    have hmem : key a ∈ t.entries.map key := List.mem_map_of_mem (mem_entries.mpr ⟨ix, hix⟩)
    refine fun k hk => hy hmem hlow (by exact_mod_cast hsize) k (((hperm.map key).erase (key a)).mem_iff.mpr ?_)
    rwa [List.map_cons, List.erase_cons_head]
  exact hsteps.places (hbury.half_room rfl hload) fun hcomp =>
    (hd hcomp).subperm ((List.sublist_cons_self a _).subperm.trans hperm.symm.subperm)

end Table

/-! ### Insertions over runs -/

section Insertions
variable {P : HashTable Value → HtableOp → Prop} {Q : CSet → SetOp → Prop} {ht : HashTable Value} {st : CSet} {key : Bytes}

/-- Whatever was done before, without overflow: an insertion of a missing key is lost exactly if the second hash of the key
    is 0 modulo the size and its first slot is taken, and otherwise it is stored and counted. -/
theorem insertion_lost_iff (hht : HtableReached .exact P ht) (hst : SetReached .exact Q st) :
    (∀ type key value,
      (ht.Finds key ↔ ∃ ht', htableInsert .exact ht type key value = .ok ht' ∧ ht'.used = ht.used + 1) ∧
      (¬ht.Finds key ↔ htableInsert .exact ht type key value = .ok ht)) ∧
    ∀ key ∉ setMembers st,
      (st.Finds key ↔ ∃ st', setAdd .exact st key = .ok (st', true) ∧ st'.used = st.used + 1) ∧
      (¬st.Finds key ↔ setAdd .exact st key = .ok (st, false)) := by
  constructor
  · intro type key value
    have hins : ∀ r, Table.add .exact HashTableItem.key false Table.depth ht ⟨type, key, value⟩ = .ok r →
        htableInsert .exact ht type key value = .ok r.1 := fun r hr => htableInsert_eq_ok.mpr ⟨r.2, hr⟩
    rcases hht.loaded.add_cases false ⟨type, key, value⟩ (fun h => Bool.noConfusion h) 0 with
      ⟨hf, ht', hadd, hused⟩ | ⟨hf, hadd⟩
    · refine ⟨iff_of_true hf ⟨ht', hins _ hadd, hused⟩, iff_of_false (not_not.mpr hf) fun h => ?_⟩
      obtain rfl : ht' = ht := Except.ok.inj ((hins _ hadd).symm.trans h)
      omega
    · refine ⟨iff_of_false hf ?_, iff_of_true hf (hins _ hadd)⟩
      rintro ⟨ht', h, hused⟩
      obtain rfl : ht = ht' := Except.ok.inj ((hins _ hadd).symm.trans h)
      omega
  · intro key hnew
    have hne : ∀ b ∈ st.entries, id b ≠ id key := fun b hb hk => hnew ((show b = key from hk) ▸ hb)
    rcases hst.loaded.add_cases true key (fun _ => hne) 0 with
      ⟨hf, st', hadd, hused⟩ | ⟨hf, hadd⟩
    · exact ⟨iff_of_true hf ⟨st', hadd, hused⟩, iff_of_false (not_not.mpr hf) fun h => nomatch hadd.symm.trans h⟩
    · refine ⟨iff_of_false hf ?_, iff_of_true hf hadd⟩
      rintro ⟨st', h, -⟩
      cases hadd.symm.trans h

/-- `SET b 1; SET d 2`: the first slot of `d` in a table of two is that of `b`, and its step is 0. -/
theorem insertion_lost_iff_pair : htableInsert .exact (oneString 1 (str "b") (str "1")) .STR_T (str "d") (.str (str "2")) =
    .ok (oneString 1 (str "b") (str "1")) := by
  have hht : HtableReached .exact (fun _ _ => True) (oneString 1 (str "b") (str "1")) :=
    .step .init trivial (show HtableOp.step .exact _ (.set (str "b") (str "1")) = _ from rfl)
  have hst : SetReached .exact (fun _ _ => True) (setInit htBaseSize) := .init
  exact ((insertion_lost_iff hht hst).1 .STR_T (str "d") (.str (str "2"))).2.mp fun h => h (by decide) _ rfl

end Insertions

/-! ### Operations -/

namespace HtableOp

/-- What the operation inserts into the value finds a slot, what it makes a resize of the value move has no step 0 in the
    new table, and a member that it inserts again lies ahead of the tombstones. -/
def TakesIn (v : Value) : HtableOp → Prop
  | hset _ field _ => ∀ tmp, v = .hash tmp → htableFind .exact tmp field = .ok none → tmp.Takes HashTableItem.key field
  | hdel _ field => ∀ tmp, v = .hash tmp → tmp.Yields HashTableItem.key field
  | sadd _ value => ∀ st, v = .set st → Clear .exact st value ∧ (value ∉ setMembers st → st.Takes id value)
  | srem _ value => ∀ st, v = .set st → st.Yields id value
  | _ => True

/-- The same for the keyspace and the value of the key. -/
structure Strides (ht : Keyspace) (op : HtableOp) : Prop where
  insert : op.Inserts → htableFind .exact ht op.key = .ok none → ht.Takes HashTableItem.key op.key
  delete : op.Deletes .exact ht → ht.Yields HashTableItem.key op.key
  value : ∀ ix a, htableFind .exact ht op.key = .ok (some (ix, a)) → op.TakesIn a.value

instance (v : Value) : (op : HtableOp) → Decidable (op.TakesIn v)
  | .hset _ field _ => inferInstanceAs (Decidable (∀ tmp, v = .hash tmp → htableFind .exact tmp field = .ok none →
      tmp.Takes HashTableItem.key field))
  | .hdel _ field => inferInstanceAs (Decidable (∀ tmp, v = .hash tmp → tmp.Yields HashTableItem.key field))
  | .sadd _ value =>
      inferInstanceAs (Decidable (∀ st, v = .set st → Clear .exact st value ∧ (value ∉ setMembers st → st.Takes id value)))
  | .srem _ value => inferInstanceAs (Decidable (∀ st, v = .set st → st.Yields id value))
  | .set .. | .push .. | .del .. | .pop .. | .lrem .. | .lset .. => .isTrue trivial

instance (ht : Keyspace) (op : HtableOp) : Decidable (op.Strides ht) :=
  decidable_of_iff
    ((op.Inserts → htableFind .exact ht op.key = .ok none → ht.Takes HashTableItem.key op.key) ∧
      (op.Deletes .exact ht → ht.Yields HashTableItem.key op.key) ∧
      ∀ ix a, htableFind .exact ht op.key = .ok (some (ix, a)) → op.TakesIn a.value)
    ⟨fun h => ⟨h.1, h.2.1, h.2.2⟩, fun h => ⟨h.insert, h.delete, h.value⟩⟩

end HtableOp

/-- The set between two operations. -/
structure SetReady (st : CSet) : Prop where
  loaded : st.Loaded id
  distinct : Distinct id st.entries

/-- The keyspace between two operations. -/
structure Ready (ht : Keyspace) : Prop where
  loaded : ht.Loaded HashTableItem.key
  sound : Sound .exact (Nests (·.Loaded HashTableItem.key) SetReady) ht

section Ready
variable {ht ht' : Keyspace} {op : HtableOp} {a a' : HashTableItem Value} {key field value : Bytes} {st st' : CSet}
  {tmp tmp' : HashTable Value} {b : Bool}

theorem Ready.init : Ready (htableInit htBaseSize) := ⟨Table.init_loaded htBaseSize, .init⟩

theorem HtableOp.step_loaded (hs : op.step .exact ht = .ok ht') (hl : ht.Loaded HashTableItem.key) :
    ht'.Loaded HashTableItem.key := (HtableOp.effect hs).loaded hl

theorem SetOp.step_loaded {op : SetOp} (hs : op.step .exact st = .ok st') (hl : st.Loaded id) : st'.Loaded id := by
  obtain ⟨⟨st', ok⟩, hr, heq⟩ := bind_eq_ok.mp hs
  cases heq
  cases op with
  | add key => exact hl.add hr
  | rem key => exact hl.remove hr

theorem SetReady.init : SetReady (setInit htBaseSize) :=
  ⟨Table.init_loaded htBaseSize, by rw [setInit, Table.entries_init]; exact List.nodup_nil⟩

theorem setInit_clear (m : IntMode) (value : Bytes) : Clear m (setInit htBaseSize) value := by
  intro hmem
  rw [setMembers, setInit, Table.entries_init] at hmem
  cases hmem

theorem SetReady.step {op : SetOp} (h : SetReady st) (hc : op.Clear .exact st) (hs : op.step .exact st = .ok st') :
    SetReady st' := ⟨SetOp.step_loaded hs h.loaded, SetOp.distinct h.loaded.wf h.distinct hc hs⟩

theorem HtableOp.TakesIn.clear (h : op.TakesIn a.value) {o : SetOp} (ho : op.memberOp = some o) (hv : a.value = .set st) :
    o.Clear .exact st := by
  cases op with
  | sadd key value =>
    cases ho
    exact (h st hv).1
  | srem key value =>
    cases ho
    trivial
  | set | hset | push | del | pop | hdel | lrem | lset => cases ho

theorem memberOp_clear {o : SetOp} (ho : op.memberOp = some o) (m : IntMode) : o.Clear m (setInit htBaseSize) := by
  cases o with
  | add value => exact setInit_clear m value
  | rem value => trivial

theorem Ready.step (h : Ready ht) (hop : op.Strides ht) (hs : op.step .exact ht = .ok ht') : Ready ht' where
  loaded := HtableOp.step_loaded hs h.loaded
  sound := by
    refine h.sound.step hs (fun a hcreate => ?_) fun ix a a' hfind ha hact => ?_
    · refine create_nests (fun o tmp _ ho => HtableOp.step_loaded ho (Table.init_loaded htBaseSize)) (fun o st ho hst => ?_)
        hcreate
      exact SetReady.init.step (memberOp_clear ho .exact) hst
    · refine act_nests (fun o tmp tmp' _ hv ho => HtableOp.step_loaded ho (ha.hash tmp hv)) ?_ hact
      intro o st st' ho hv hst
      exact (ha.set st hv).step ((hop.value ix a hfind).clear ho hv) hst

/-! ### Operations that lose nothing -/

/-- An insertion of a member stops at it, or before. -/
theorem Table.WF.addWalk_of_member (hw : st.WF .exact id) (hmem : value ∈ st.entries) :
    ∃ p, st.addWalk .exact id true value = .hit p := by
  obtain ⟨ix, hix⟩ := mem_entries.mp hmem
  obtain ⟨j, hj, hlook, hin⟩ := (hw.reaches ix value hix).live hix
  have hstop : Table.addStop id true value (.live value) = true := by simp [Table.addStop]
  obtain ⟨_, _, p, _, _, hwalk⟩ := walk_of_stop (fun p => Table.addStop id true value p.2) hj hlook hstop fun i hi => by
    obtain ⟨jx, c, hc, -⟩ := hin i hi.le
    exact Option.isSome_iff_exists.mpr ⟨_, hc⟩
  exact ⟨p, hwalk⟩

theorem SetReady.admits (h : SetReady st) (hc : Clear .exact st value) (ht : value ∉ setMembers st → st.Takes id value) :
    st.Admits .exact id true value := by
  have hw := h.loaded.wf
  by_cases hmem : value ∈ st.entries
  · refine ⟨hw.addWalk_of_member hmem, fun ix c hwalk hvac => ?_⟩
    cases hvac.symm.trans (hw.addWalk_member hmem hc hwalk)
  · refine (ht hmem).admits h.loaded fun _ => h.distinct.cons fun b hb hk => hmem ?_
    obtain rfl : b = value := hk
    exact hb

theorem Nests.spares (ha : Nests (·.Loaded HashTableItem.key) SetReady a) (ht : op.TakesIn a.value) :
    op.Spares .exact a.value := by
  cases op with
  | hset key field value =>
    exact fun tmp hv hnone => (ht tmp hv hnone).admits (ha.hash tmp hv) fun hcomp => Bool.noConfusion hcomp
  | hdel key field => exact fun tmp hv => (ht tmp hv).shrinkMoves (ha.hash tmp hv) fun hcomp => Bool.noConfusion hcomp
  | sadd key value =>
    intro st hv
    obtain ⟨hclear, htakes⟩ := ht st hv
    exact ⟨(ha.set st hv).admits hclear htakes, hclear⟩
  | srem key value => exact fun st hv => (ht st hv).shrinkMoves (ha.set st hv).loaded fun _ => (ha.set st hv).distinct
  | set | push | del | pop | lrem | lset => trivial

theorem Ready.lossless (h : Ready ht) (hop : op.Strides ht) : op.Lossless .exact ht where
  insert a hcreate hfind := by
    obtain ⟨hkey, hins⟩ := HtableOp.create_key hcreate
    have htakes := hop.insert hins hfind
    rw [← hkey] at htakes
    exact htakes.admits h.loaded fun hcomp => Bool.noConfusion hcomp
  delete hdel := (hop.delete hdel).shrinkMoves h.loaded fun hcomp => Bool.noConfusion hcomp
  value ix a hfind :=
    (h.sound.items a (mem_entries.mpr ⟨ix, (Table.find_some hfind).1⟩)).spares (hop.value ix a hfind)

/-! ### Commands -/

theorem Ready.meets {cmd : Command} (h : Ready ht) (hc : cmd.Meets .exact (fun ht op => op.Strides ht) ht) :
    cmd.Meets .exact (HtableOp.Lossless .exact) ht :=
  Runs.along_of_invariant Ready hc h (fun _ _ hr hop => hr.lossless hop) fun _ _ _ hr hop hs => hr.step hop hs

theorem Ready.serve {cmd : Command} (h : Ready ht) (hc : cmd.Meets .exact (fun ht op => op.Strides ht) ht)
    (hs : serve .exact ht cmd = .ok ht') : Ready ht' :=
  Runs.run_along Ready hc (serve_ops hs) h fun _ _ _ _ hr hop hs => hr.step hop hs

end Ready
end MemKey
