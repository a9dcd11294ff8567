import MemKey.Theorems.Htable
import MemKey.Theorems.Rehash

/-! What a `HashTable` keeps. An insertion, also one of a resize, drops its item without a word when every
    slot on the probe path of the key is taken, although others are free. As long as that does not happen,
    the table is a map and its counter is right. -/

namespace MemKey
open Probing Outcome

/-- Every item that an insertion of a missing key puts into a table finds a slot. -/
def InsertFits (m : IntMode) (ht : HashTable Value) (key : Bytes) : Prop :=
  (∀ b ∈ ht.entries, b.key ≠ key) → ∀ a : HashTableItem Value, a.key = key → ht.AddFits m HashTableItem.key a

/-- The condition under which an operation keeps the items of the table: its insertion fits, or its
    removal. -/
def HtableOp.Fits (m : IntMode) (ht : HashTable Value) (op : HtableOp) : Prop :=
  (op.Inserts → InsertFits m ht op.key) ∧ (op.Deletes m ht → ht.RemoveFits m HashTableItem.key op.key)

/-- The first insertion into a table fits. -/
theorem htableInit_fits {V : Type} (m : IntMode) (a : HashTableItem V) :
    (htableInit htBaseSize : HashTable V).AddFits m HashTableItem.key a := by
  obtain ⟨ix, hwalk⟩ := Table.addWalk_init htBaseSize false a
  exact ⟨ix, .null, hwalk, fun hload => absurd hload (Table.init_place_load m ix a)⟩

/-- The items with other keys. -/
def others {V : Type} (key : Bytes) (t : HashTable V) : List (HashTableItem V) :=
  t.entries.filter fun a => a.key ≠ key

/-- The change from `t` to `t'` is one of the item of `key`, and the counter follows it. -/
structure Keeps {V : Type} (key : Bytes) (t t' : HashTable V) : Prop where
  others : (others key t').Perm (others key t)
  counted : t.used = t.entries.length → t'.used = t'.entries.length

section Keeps
variable {V : Type} {m : IntMode} {key : Bytes} {t t' t'' : HashTable V} {a a' : HashTableItem V} {b : Bool}

theorem Keeps.refl : Keeps key t t := ⟨List.Perm.refl _, id⟩

theorem Keeps.trans (h : Keeps key t t') (h' : Keeps key t' t'') : Keeps key t t'' :=
  ⟨h'.others.trans h.others, fun hc => h'.counted (h.counted hc)⟩

theorem others_cons {l : List (HashTableItem V)} (h : t.entries.Perm (a :: l)) (ha : a.key = key) :
    (others key t).Perm (l.filter fun b => b.key ≠ key) := by
  have := h.filter fun b => b.key ≠ key
  rwa [List.filter_cons_of_neg (by simpa using ha)] at this

theorem Keeps.insert (hk : Keyed m t) (hg : t.GrowMoves m HashTableItem.key false a) (ha : a.key = key)
    (hadd : Table.add m HashTableItem.key false Table.depth t a = .ok (t', b)) : Keeps key t t' := by
  rcases hk.1.add_moves hg 0 hadd with ⟨-, rfl⟩ | ⟨-, hperm, hused⟩
  · exact .refl
  · refine ⟨others_cons hperm ha, fun hc => ?_⟩
    rw [hused, hc, hperm.length_eq]
    rfl

theorem Keeps.put {ix : ℕ} (hfind : htableFind m t key = .ok (some (ix, a))) (ha' : a'.key = key) :
    Keeps key t (t.put ix a') := by
  obtain ⟨hix, ha⟩ := Table.find_some hfind
  obtain ⟨rest, hperm, hput⟩ := Table.put_perm hix a'
  refine ⟨(others_cons hput ha').trans (others_cons hperm ha).symm, fun hc => ?_⟩
  have hlen : t.entries.length = (t.put ix a').entries.length := by
    rw [hperm.length_eq, hput.length_eq, List.length_cons, List.length_cons]
  rw [← hlen]
  exact hc

theorem Keeps.del (hk : Keyed m t) (hs : t.ShrinkMoves m HashTableItem.key false key)
    (hdel : htableDel m t key = .ok (t', b)) : Keeps key t t' := by
  rcases hk.1.remove_moves hs hdel with ⟨-, rfl, -⟩ | ⟨-, a, ha, hperm, hused⟩
  · exact .refl
  · refine ⟨(others_cons hperm ha).symm, fun hc => ?_⟩
    have hlen := hperm.length_eq
    rw [List.length_cons] at hlen
    omega

/-- What a removal moves does not depend on the value of the item that it removes. -/
theorem ShrinkMoves.put (hk : Keyed m t) (hs : t.ShrinkMoves m HashTableItem.key false key) {ix : ℕ}
    (hfind : htableFind m t key = .ok (some (ix, a))) (ha' : a'.key = key) :
    (t.put ix a').ShrinkMoves m HashTableItem.key false key := by
  intro jx c hc hload
  have hlt := (List.getElem?_eq_some_iff.mp (Table.find_some hfind).1).1
  have hix : (t.put ix a').slots[ix]? = some (.live a') := List.getElem?_set_self hlt
  obtain ⟨hjx, hck⟩ := Table.find_some hc
  obtain rfl : jx = ix := (hk.put hfind ha').2.slots_inj hjx hix (hck.trans ha'.symm)
  have hbury : (t.put jx a').bury jx = t.bury jx := by
    simp [Table.bury, Table.put]
  rw [hbury] at hload ⊢
  exact hs jx a hfind hload

end Keeps

section Ops
variable {m : IntMode} {ht ht' : HashTable Value} {op : HtableOp}

theorem Effect.keeps (h : Effect m op ht ht') (hk : Keyed m ht) (hf : op.Fits m ht) : Keeps op.key ht ht' := by
  cases h with
  | stay h => exact h ▸ .refl
  | insert hop ha hfind hadd => exact .insert hk (hf.1 hop (hk.1.find_none hfind) _ ha).growMoves ha hadd
  | put hfind ha h => exact h ▸ .put hfind ha
  | del hop hdel => exact .del hk (hf.2 hop).shrinkMoves hdel
  | drop hop hfind ha hdel =>
    have hshrink := ShrinkMoves.put hk (hf.2 hop).shrinkMoves hfind ha
    exact (Keeps.put hfind ha).trans (.del (hk.put hfind ha) hshrink hdel)

theorem Keeps.search {V : Type} {t t' : HashTable V} {key key' : Bytes} (h : Keeps key t t') (hk : Keyed m t)
    (hk' : Keyed m t') (hne : key' ≠ key) (a : HashTableItem V) :
    htableSearch m t' key' = .ok (some a) ↔ htableSearch m t key' = .ok (some a) := by
  rw [hk.search_iff, hk'.search_iff]
  refine and_congr_left fun ha => ?_
  have hmem := h.others.mem_iff (a := a)
  simpa [MemKey.others, ha, hne] using hmem

theorem HtableReached.counted (h : HtableReached m (fun ht op => op.Fits m ht) ht) :
    ht.used = ht.entries.length := by
  refine (h.invariant (fun ht => Keyed m ht ∧ ht.used = ht.entries.length) ?_ ?_).2
  · exact ⟨htableInit_keyed, by simp [htableInit]⟩
  · rintro ht op ht' ⟨hk, hc⟩ hf hs
    have heff := HtableOp.effect hs
    exact ⟨heff.keyed hk, (heff.keeps hk hf).counted hc⟩

/-- As long as every item that an operation puts into a table finds a slot, resizes keep the items and the
    counter is the number of live ones, so that an operation on one key changes no other. The condition is
    exact: an insertion keeps the items only if it fits, and without overflow so does a removal. -/
theorem resize_keeps_items (h : HtableReached m (fun ht op => op.Fits m ht) ht) :
    ht.used = ht.entries.length ∧
    (∀ (op : HtableOp) ht', op.Fits m ht → op.step m ht = .ok ht' →
      ht'.used = ht'.entries.length ∧ (others op.key ht').Perm (others op.key ht) ∧
      ∀ key ≠ op.key, ∀ a, htableSearch m ht' key = .ok (some a) ↔ htableSearch m ht key = .ok (some a)) ∧
    (∀ type key value ht', htableInsert m ht type key value = .ok ht' →
      (ht.AddFits m HashTableItem.key ⟨type, key, value⟩ ↔ ht'.entries.Perm (⟨type, key, value⟩ :: ht.entries))) ∧
    ∀ key ht', htableDel m ht key = .ok (ht', true) →
      (ht.RemoveFits m HashTableItem.key key → ∃ a ∈ ht.entries, a.key = key ∧ ht.entries.Perm (a :: ht'.entries)) ∧
      (m = .exact → (∃ a ∈ ht.entries, a.key = key ∧ ht.entries.Perm (a :: ht'.entries)) →
        ht.RemoveFits m HashTableItem.key key) := by
  have hk := h.keyed
  refine ⟨h.counted, fun op ht' hf hs => ?_, fun type key value ht' hins => ?_, fun key ht' hdel => ⟨?_, ?_⟩⟩
  · have heff := HtableOp.effect hs
    have hkeeps := heff.keeps hk hf
    exact ⟨hkeeps.counted h.counted, hkeeps.others, fun key hne => hkeeps.search hk (heff.keyed hk) hne⟩
  · obtain ⟨b, hadd⟩ := htableInsert_eq_ok.mp hins
    rw [hk.1.add_fits 0]
    constructor
    · rintro ⟨t', b', h', hp⟩
      cases h'.symm.trans hadd
      exact hp
    · exact fun hp => ⟨ht', b, hadd, hp⟩
  · intro hf
    obtain ⟨a, ha, hsub, -⟩ := ((hk.1.remove_spec key).of_ok hdel).gone rfl
    have hmem : a ∈ ht.entries := hsub.subset (by simp)
    obtain ⟨ix, hfind⟩ := hk.1.find_eq hk.2 hmem
    rw [ha] at hfind
    obtain ⟨t', h', hp⟩ := hk.1.remove_fits hf hfind
    cases h'.symm.trans hdel
    exact ⟨a, hmem, ha, hp⟩
  · rintro rfl ⟨a, ha, rfl, hp⟩
    refine hk.1.fits_of_remove hdel fun c hc hkey => ?_
    rw [hk.2.eq_of_key hc ha hkey]
    exact hp

/-! ### A write and the read after it -/

/-- A write of `value` under `key` stores it: a read then gives the value, the reply tells whether the key
    is new, and no item that the write puts into a table is dropped. -/
def Stores (m : IntMode) (ht : HashTable Value) (key value : Bytes) : Prop :=
  ∃ ht' new, htableSet m ht key value = .ok (ht', new) ∧ htableGet m ht' key = .ok (some value) ∧
    (new = true ↔ ∀ a ∈ ht.entries, a.key ≠ key) ∧
    (new = true → ht'.entries.Perm (⟨.STR_T, key, .str value⟩ :: ht.entries))

theorem Keyed.get (hk : Keyed m ht) {key value : Bytes} {type : ItemType}
    (h : ⟨type, key, .str value⟩ ∈ ht.entries) : htableGet m ht key = .ok (some value) := by
  rw [htableGet, htableRead, hk.search_iff.mpr ⟨h, rfl⟩]
  rfl

/-- A write stores its value if the key is there or the insertion fits. -/
theorem Keyed.stores (hk : Keyed m ht) {key : Bytes} (value : Bytes) {r : Option (ℕ × HashTableItem Value)}
    (hfind : htableFind m ht key = .ok r)
    (hfits : (∀ a ∈ ht.entries, a.key ≠ key) → ht.AddFits m HashTableItem.key ⟨.STR_T, key, .str value⟩) :
    Stores m ht key value := by
  cases r with
  | none =>
    have habs := hk.1.find_none hfind
    obtain ⟨ht', b, hadd, hp⟩ := (hk.1.add_fits 0 _).mp (hfits habs)
    have hins : htableInsert m ht .STR_T key (.str value) = .ok ht' := htableInsert_eq_ok.mpr ⟨b, hadd⟩
    have hmem : ⟨.STR_T, key, .str value⟩ ∈ ht'.entries := hp.symm.subset List.mem_cons_self
    have hkey : Keyed m ht' := hk.insert (a := ⟨.STR_T, key, .str value⟩) hfind hadd
    have hset : htableSet m ht key value = .ok (ht', true) := by
      rw [htableSet_none hfind, hins]
      rfl
    exact ⟨ht', true, hset, hkey.get hmem, ⟨fun _ => habs, fun _ => rfl⟩, fun _ => hp⟩
  | some p =>
    obtain ⟨ix, a⟩ := p
    obtain ⟨hix, ha⟩ := Table.find_some hfind
    have hlt := (List.getElem?_eq_some_iff.mp hix).1
    have hmem : (⟨.STR_T, key, .str value⟩ : HashTableItem Value) ∈ (ht.put ix ⟨.STR_T, key, .str value⟩).entries :=
      mem_entries.mpr ⟨ix, List.getElem?_set_self hlt⟩
    have hput : Keyed m (ht.put ix ⟨.STR_T, key, .str value⟩) := hk.put hfind rfl
    refine ⟨_, false, htableSet_some hfind, hput.get hmem, ⟨nofun, fun habs => ?_⟩, nofun⟩
    exact absurd ha (habs a (mem_entries.mpr ⟨ix, hix⟩))

/-- A write stores its value exactly when the key is there or the insertion fits, and the search for the
    key stays inside the table. -/
theorem set_then_get {P : HashTable Value → HtableOp → Prop} (h : HtableReached m P ht) (key value : Bytes) :
    Stores m ht key value ↔ (∃ r, htableFind m ht key = .ok r) ∧
      ((∀ a ∈ ht.entries, a.key ≠ key) → ht.AddFits m HashTableItem.key ⟨.STR_T, key, .str value⟩) := by
  have hk := h.keyed
  refine ⟨?_, fun ⟨⟨r, hfind⟩, hfits⟩ => hk.stores value hfind hfits⟩
  rintro ⟨ht', new, hset, -, hnew, hperm⟩
  rcases htableSet_cases hset with ⟨ix, a, hfind, -, -⟩ | ⟨hfind, hins, rfl⟩
  · refine ⟨⟨_, hfind⟩, fun habs => ?_⟩
    obtain ⟨hix, ha⟩ := Table.find_some hfind
    exact absurd ha (habs a (mem_entries.mpr ⟨ix, hix⟩))
  · obtain ⟨b, hadd⟩ := htableInsert_eq_ok.mp hins
    exact ⟨⟨_, hfind⟩, fun _ => (hk.1.add_fits 0 _).mpr ⟨ht', b, hadd, hperm rfl⟩⟩

/-- The insertion of `f` after `SET a 1` fits: the table grows to 5 slots, where the home slot of `f` is that of `a`. -/
theorem grown_fits {a : HashTableItem Value} (ha : a.key = str "f") :
    (oneString 0 (str "a") (str "1")).AddFits .wrap HashTableItem.key a := by
  have hwalk : (oneString 0 (str "a") (str "1")).addWalk .wrap HashTableItem.key false ⟨.STR_T, str "f", .str []⟩ =
      .hit (1, .null) := rfl
  have hgrows : (oneString 0 (str "a") (str "1")).Grows .wrap HashTableItem.key false Slot.vacant 1
      ⟨.STR_T, str "f", .str []⟩ := by decide +kernel
  refine ⟨1, .null, (Table.addWalk_key ha).trans hwalk, fun hload hnew => ?_⟩
  obtain ⟨ix, b, hfirst, hb, jx, c, hsecond, hc, -⟩ := hgrows hload hnew
  exact ⟨ix, b, hfirst, hb, jx, c, (Table.addWalk_key ha).trans hsecond, hc, trivial⟩

end Ops

/-- `SET a 1; SET f 2`: the second write makes the table grow to 5 slots, where `f` finds a slot at a later probe. -/
theorem set_then_get_grown : Stores .wrap (oneString 0 (str "a") (str "1")) (str "f") (str "2") := by
  have h : HtableReached .wrap (fun _ _ => True) (oneString 0 (str "a") (str "1")) :=
    .step .init trivial (show HtableOp.step .wrap _ (.set (str "a") (str "1")) = _ from rfl)
  exact (set_then_get h (str "f") (str "2")).mpr ⟨⟨none, rfl⟩, fun _ => grown_fits rfl⟩

/-- `SET i 1; SET d 2`: the second write makes the table grow to 5 slots, where the home slot of `d` is
    taken and its step is 0. -/
theorem set_then_get_fails :
    ∃ ht ht', HtableReached .wrap (fun _ _ => True) ht ∧ htableExists .wrap ht (str "d") = .ok false ∧
      htableSet .wrap ht (str "d") (str "2") = .ok (ht', true) ∧ htableGet .wrap ht' (str "d") = .ok none := by
  have hreach : HtableReached .wrap (fun _ _ => True) (oneString 0 (str "i") (str "1")) :=
    .step .init trivial (show HtableOp.step .wrap _ (.set (str "i") (str "1")) = _ from rfl)
  have hrun : (do
      let r ← htableSet .wrap (oneString 0 (str "i") (str "1")) (str "d") (str "2")
      .ok (r.2, htableGet .wrap r.1 (str "d"))) = .ok (true, .ok none) := by decide +kernel
  obtain ⟨⟨ht', new⟩, hset, heq⟩ := bind_eq_ok.mp hrun
  obtain ⟨rfl, hget⟩ := Prod.mk.inj (Except.ok.inj heq)
  exact ⟨_, ht', hreach, rfl, hset, hget⟩

/-- `SET a 1; SET f 2`: the table that has grown counts its two items, and the read of `a` is what it was. -/
theorem resize_keeps_items_grown :
    ∃ ht, HtableOp.step .wrap (oneString 0 (str "a") (str "1")) (.set (str "f") (str "2")) = .ok ht ∧ ht.size = 5 ∧
      ht.used = ht.entries.length ∧ htableSearch .wrap ht (str "a") = .ok (some ⟨.STR_T, str "a", .str (str "1")⟩) := by
  have hfirst : (HtableOp.set (str "a") (str "1")).Fits .wrap (htableInit htBaseSize) :=
    ⟨fun _ _ a _ => htableInit_fits .wrap a, nofun⟩
  have hsecond : (HtableOp.set (str "f") (str "2")).Fits .wrap (oneString 0 (str "a") (str "1")) :=
    ⟨fun _ _ _ ha => grown_fits ha, nofun⟩
  have h : HtableReached .wrap (fun ht op => op.Fits .wrap ht) (oneString 0 (str "a") (str "1")) :=
    .step .init hfirst rfl
  have hrun : (do
      let ht ← HtableOp.step .wrap (oneString 0 (str "a") (str "1")) (.set (str "f") (str "2"))
      .ok ht.size) = .ok 5 := by decide +kernel
  obtain ⟨ht, hstep, hsize⟩ := bind_eq_ok.mp hrun
  obtain ⟨hused, -, hothers⟩ := (resize_keeps_items h).2.1 _ ht hsecond hstep
  exact ⟨ht, hstep, Except.ok.inj hsize, hused, (hothers (str "a") (by decide) _).mpr rfl⟩

/-- `SET d 1; SET i 2`: growing to 5 slots drops the item of `d`, which nobody named, and counts it. -/
theorem resize_drops_item :
    ∃ ht ht', HtableReached .wrap (fun _ _ => True) ht ∧ htableGet .wrap ht (str "d") = .ok (some (str "1")) ∧
      htableSet .wrap ht (str "i") (str "2") = .ok (ht', true) ∧ htableGet .wrap ht' (str "d") = .ok none ∧
      ht'.used = 2 ∧ ht'.entries.length = 1 := by
  have hreach : HtableReached .wrap (fun _ _ => True) (oneString 1 (str "d") (str "1")) :=
    .step .init trivial (show HtableOp.step .wrap _ (.set (str "d") (str "1")) = _ from rfl)
  have hrun : (do
      let r ← htableSet .wrap (oneString 1 (str "d") (str "1")) (str "i") (str "2")
      .ok (r.2, htableGet .wrap r.1 (str "d"), r.1.used, r.1.entries.length)) = .ok (true, .ok none, 2, 1) := by
    decide +kernel
  obtain ⟨⟨ht', new⟩, hset, heq⟩ := bind_eq_ok.mp hrun
  simp only [Except.ok.injEq, Prod.mk.injEq] at heq
  obtain ⟨rfl, hget, hused, hlen⟩ := heq
  exact ⟨_, ht', hreach, rfl, hset, hget, hused, hlen⟩

end MemKey
