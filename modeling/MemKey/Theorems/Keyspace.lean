import MemKey.Theorems.Htable
import MemKey.Theorems.List

/-! The invariant of the keyspace: what an item holds is what its tag says, all the way down. Each operation
    of `htable.c` on a value of its own type keeps it, and runs into no fault but a wrapped probe. -/

namespace MemKey
open Probing Outcome Linked

/-- A table whose items all satisfy `I`. -/
structure Sound (m : IntMode) (I : HashTableItem Value → Prop) (ht : HashTable Value) : Prop where
  keyed : Keyed m ht
  items : ∀ a ∈ ht.entries, I a

/-- The items of a hash. -/
def IsString (a : HashTableItem Value) : Prop := a.type = .STR_T ∧ ∃ s, a.value = .str s

/-- The value is a sound one of the type that the tag says; a list is never empty. -/
inductive Holds (m : IntMode) : ItemType → Value → Prop
  | str (s : Bytes) : Holds m .STR_T (.str s)
  | hash {ht : HashTable Value} (h : Sound m IsString ht) : Holds m .HASH_T (.hash ht)
  | list {ls : CList} {cells : List (ℕ × Bytes)} (h : Rep ls cells) (hne : cells ≠ []) : Holds m .LIST_T (.list ls)
  | set {st : CSet} (h : st.WF m id) : Holds m .SET_T (.set st)

/-- The items of the keyspace. -/
def Tagged (m : IntMode) (a : HashTableItem Value) : Prop := Holds m a.type a.value

/-- The items of the keyspace when the one of `key`, if any, has the type `T`. -/
def TaggedAt (m : IntMode) (key : Bytes) (T : ItemType) (a : HashTableItem Value) : Prop :=
  Tagged m a ∧ (a.key = key → a.type = T)

section Keyspace
variable {m : IntMode} {ht ht' : HashTable Value} {I I' : HashTableItem Value → Prop} {key : Bytes} {T : ItemType}
  {ρ : Type} {a a' : HashTableItem Value} {ix : ℕ} {b : Bool}

theorem Sound.mono (h : Sound m I ht) (hI : ∀ a ∈ ht.entries, I a → I' a) : Sound m I' ht :=
  ⟨h.keyed, fun a ha => hI a ha (h.items a ha)⟩

theorem Sound.tagged (h : Sound m (TaggedAt m key T) ht) : Sound m (Tagged m) ht :=
  h.mono fun _ _ ha => ha.1

/-! ### The primitive steps -/

theorem Sound.init : Sound m I (htableInit htBaseSize) :=
  ⟨htableInit_keyed, by simp [htableInit]⟩

theorem Sound.find_spec (h : Sound m I ht) (key : Bytes) :
    Ensures (htableFind m ht key) (fun r => ∀ ix a, r = some (ix, a) → I a ∧ a.key = key) (Escapes m) := by
  cases hfind : htableFind m ht key with
  | error e => exact h.keyed.1.find_error hfind
  | ok r =>
    rintro ix a rfl
    obtain ⟨hix, hk⟩ := Table.find_some hfind
    exact ⟨h.items a (mem_entries.mpr ⟨ix, hix⟩), hk⟩

theorem Sound.insert (h : Sound m I ht) (hfind : htableFind m ht a.key = .ok none) (hI : I a)
    (hadd : Table.add m HashTableItem.key false Table.depth ht a = .ok (ht', b)) : Sound m I ht' := by
  refine ⟨h.keyed.insert hfind hadd, fun c hc => ?_⟩
  have hsub := ((h.keyed.1.add_spec 0 a).of_ok hadd).sub
  rcases List.mem_cons.mp (hsub.subset hc) with rfl | hc
  · exact hI
  · exact h.items c hc

theorem mem_put (hfind : htableFind m ht key = .ok (some (ix, a))) {c : HashTableItem Value}
    (hc : c ∈ (ht.put ix a').entries) : c = a' ∨ c ∈ ht.entries := by
  obtain ⟨rest, hperm, hput⟩ := Table.put_perm (Table.find_some hfind).1 a'
  rcases List.mem_cons.mp (hput.subset hc) with rfl | hc
  · exact .inl rfl
  · exact .inr (hperm.symm.subset (List.mem_cons_of_mem _ hc))

theorem Sound.put (h : Sound m I ht) (hfind : htableFind m ht key = .ok (some (ix, a))) (hk : a'.key = key)
    (hI : I a') : Sound m I (ht.put ix a') := by
  refine ⟨h.keyed.put hfind hk, fun c hc => ?_⟩
  rcases mem_put hfind hc with rfl | hc
  · exact hI
  · exact h.items c hc

theorem Table.Removed.subset {α : Type} {key : α → Bytes} {t : Table α} {k : Bytes} {r : Table α × Bool}
    (h : Table.Removed m key t k r) : r.1.entries ⊆ t.entries := by
  cases hb : r.2 with
  | false => rw [(h.stays hb).1]; exact List.Subset.refl _
  | true =>
    obtain ⟨a, -, hsub, -⟩ := h.gone hb
    exact fun c hc => hsub.subset (List.mem_cons_of_mem a hc)

theorem Sound.del (h : Sound m I ht) (hdel : htableDel m ht key = .ok (ht', b)) : Sound m I ht' :=
  ⟨h.keyed.del hdel, fun c hc => h.items c (((h.keyed.1.remove_spec key).of_ok hdel).subset hc)⟩

/-- The value that a deletion follows need not be sound. -/
theorem Sound.drop (h : Sound m I ht) (hfind : htableFind m ht key = .ok (some (ix, a))) (hk : a'.key = key)
    (hdel : htableDel m (ht.put ix a') key = .ok (ht', b)) : Sound m I ht' := by
  have hput := h.keyed.put hfind hk
  have hrem := (hput.1.remove_spec key).of_ok hdel
  refine ⟨hput.del hdel, fun c hc => ?_⟩
  rcases mem_put hfind (hrem.subset hc) with rfl | hmem
  · exact absurd hk (hrem.absent hput.2 c hc)
  · exact h.items c hmem

/-! ### One operation -/

/-- The items after an operation: old ones, a new one for the key, or what the operation makes of its item. -/
theorem Change.mem {op : HtableOp} (h : Change m op ht ht') (hk : Keyed m ht) {c : HashTableItem Value}
    (hc : c ∈ ht'.entries) : c ∈ ht.entries ∨ op.create m = .ok (some c) ∨
      ∃ ix a, htableFind m ht op.key = .ok (some (ix, a)) ∧ op.act m a = .ok (c, false) := by
  cases h with
  | stay hfind h => exact .inl (h ▸ hc)
  | @insert a b hfind hcreate hadd =>
    have hsub := ((hk.1.add_spec 0 a).of_ok hadd).sub
    rcases List.mem_cons.mp (hsub.subset hc) with rfl | hc
    · exact .inr (.inl hcreate)
    · exact .inl hc
  | @put ix a a' hfind hact h =>
    subst h
    rcases mem_put hfind hc with rfl | hc
    · exact .inr (.inr ⟨ix, a, hfind, hact⟩)
    · exact .inl hc
  | drop hfind hact hdel =>
    have hkey := HtableOp.act_key hact (htableFind_key hfind)
    have hput := hk.put hfind hkey
    have hrem := (hput.1.remove_spec op.key).of_ok hdel
    rcases mem_put hfind (hrem.subset hc) with rfl | hmem
    · exact absurd hkey (hrem.absent hput.2 c hc)
    · exact .inl hmem

/-- An operation keeps what holds of the item that it inserts and of the one that it changes. -/
theorem Sound.step {op : HtableOp} (h : Sound m I ht) (hs : op.step m ht = .ok ht')
    (hcreate : ∀ a, op.create m = .ok (some a) → I a)
    (hact : ∀ ix a a', htableFind m ht op.key = .ok (some (ix, a)) → I a → op.act m a = .ok (a', false) → I a') :
    Sound m I ht' := by
  refine ⟨(HtableOp.effect hs).keyed h.keyed, fun c hc => ?_⟩
  rcases (HtableOp.change hs).mem h.keyed hc with hc | hc | ⟨ix, a, hfind, hc⟩
  · exact h.items c hc
  · exact hcreate c hc
  · exact hact ix a c hfind (h.items a (mem_entries.mpr ⟨ix, (Table.find_some hfind).1⟩)) hc

/-! ### The operations -/

theorem Sound.insert_spec (h : Sound m I ht) {type : ItemType} {value : Value}
    (hfind : htableFind m ht key = .ok none) (hI : I ⟨type, key, value⟩) :
    Ensures (htableInsert m ht type key value) (Sound m I) (Escapes m) := by
  refine (h.keyed.1.add_spec 0 ⟨type, key, value⟩).bind fun ⟨ht', b⟩ hadd _ => ?_
  exact h.insert (a := ⟨type, key, value⟩) hfind hI hadd

theorem Sound.del_spec (h : Sound m I ht) (key : Bytes) :
    Ensures (htableDel m ht key) (fun r => Sound m I r.1) (Escapes m) :=
  (h.keyed.1.remove_spec key).result fun _ hdel => h.del hdel

theorem Sound.set_spec (h : Sound m I ht) {value : Bytes} (hI : I ⟨.STR_T, key, .str value⟩) :
    Ensures (htableSet m ht key value) (fun r => Sound m I r.1) (Escapes m) := by
  cases hfind : htableFind m ht key with
  | error e =>
    have hexists : htableSet m ht key value = .error e := by
      rw [htableSet, htableExists, htableSearch, hfind]
      rfl
    rw [hexists]
    exact h.keyed.1.find_error hfind
  | ok r =>
    cases r with
    | none =>
      rw [htableSet_none hfind]
      exact (h.insert_spec hfind hI).bind fun _ _ hs => hs
    | some p =>
      rw [htableSet_some hfind]
      exact h.put hfind rfl hI

/-- An action on the value of the item with the key, in place. -/
theorem Sound.update_spec (h : Sound m (TaggedAt m key T) ht) {act : Value → Except Fault (Value × ρ)}
    {missing : ρ} (hact : ∀ v, Holds m T v → Ensures (act v) (fun r => Holds m T r.1) (Escapes m)) :
    Ensures (htableUpdate m ht key act missing) (fun r => Sound m (TaggedAt m key T) r.1) (Escapes m) := by
  refine (h.find_spec key).bind fun r hfind hr => ?_
  cases r with
  | none => exact h
  | some p =>
    obtain ⟨ix, a⟩ := p
    obtain ⟨⟨htag, htype⟩, hk⟩ := hr ix a rfl
    have ha : Holds m T a.value := htype hk ▸ htag
    refine (hact a.value ha).bind fun ⟨value, reply⟩ _ hv => ?_
    have hk' : ({ a with value } : HashTableItem Value).key = key := hk
    have hv : Holds m a.type value := (htype hk).symm ▸ hv
    exact h.put hfind hk' ⟨hv, htype⟩

/-- An action on the value of the item with the key, which goes if its value is then empty. -/
theorem Sound.shrink_spec (h : Sound m (TaggedAt m key T) ht) {act : Value → Except Fault (Value × Bool × ρ)}
    {missing : ρ}
    (hact : ∀ v, Holds m T v → Ensures (act v) (fun r => r.2.1 = false → Holds m T r.1) (Escapes m)) :
    Ensures (htableShrink m ht key act missing) (fun r => Sound m (TaggedAt m key T) r.1) (Escapes m) := by
  refine (h.find_spec key).bind fun r hfind hr => ?_
  cases r with
  | none => exact h
  | some p =>
    obtain ⟨ix, a⟩ := p
    obtain ⟨⟨htag, htype⟩, hk⟩ := hr ix a rfl
    have ha : Holds m T a.value := htype hk ▸ htag
    refine (hact a.value ha).bind fun ⟨value, empty, reply⟩ _ hv => ?_
    have hk' : ({ a with value } : HashTableItem Value).key = key := hk
    cases empty with
    | false =>
      have hv : Holds m a.type value := (htype hk).symm ▸ hv rfl
      exact h.put hfind hk' ⟨hv, htype⟩
    | true =>
      have hput := h.keyed.put hfind hk'
      refine (hput.1.remove_spec key).bind fun ⟨ht', b⟩ hdel _ => ?_
      exact h.drop hfind hk' hdel

theorem Sound.exists_spec {β : Type} {x y : Except Fault β} {Q : β → Prop} (h : Sound m I ht)
    (hx : Ensures x Q (Escapes m)) (hy : htableFind m ht key = .ok none → Ensures y Q (Escapes m)) :
    Ensures (do if ← htableExists m ht key then x else y) Q (Escapes m) := by
  unfold htableExists htableSearch
  cases hfind : htableFind m ht key with
  | error e => exact h.keyed.1.find_error hfind
  | ok r =>
    cases r with
    | none => exact hy hfind
    | some p => exact hx

/-! ### The values of one type -/

theorem asStr_spec {v : Value} (h : Holds m .STR_T v) : ∃ s, v = .str s := by
  cases h with
  | str s => exact ⟨s, rfl⟩

theorem asHash_spec {v : Value} (h : Holds m .HASH_T v) : ∃ ht, v = .hash ht ∧ Sound m IsString ht := by
  cases h with
  | hash h => exact ⟨_, rfl, h⟩

theorem asList_spec {v : Value} (h : Holds m .LIST_T v) : ∃ ls cells, v = .list ls ∧ Rep ls cells ∧ cells ≠ [] := by
  cases h with
  | list h hne => exact ⟨_, _, rfl, h, hne⟩

theorem asSet_spec {v : Value} (h : Holds m .SET_T v) : ∃ st, v = .set st ∧ st.WF m id := by
  cases h with
  | set h => exact ⟨_, rfl, h⟩

theorem asStr_eq_ok {v : Value} {s : Bytes} (h : v.asStr = .ok s) : v = .str s := by
  cases v <;> cases h
  rfl

theorem asHash_eq_ok {v : Value} {tmp : HashTable Value} (h : v.asHash = .ok tmp) : v = .hash tmp := by
  cases v <;> cases h
  rfl

theorem asList_eq_ok {v : Value} {ls : CList} (h : v.asList = .ok ls) : v = .list ls := by
  cases v <;> cases h
  rfl

theorem asSet_eq_ok {v : Value} {st : CSet} (h : v.asSet = .ok st) : v = .set st := by
  cases v <;> cases h
  rfl

theorem Holds.of_hash {tmp : HashTable Value} (h : Holds m T (.hash tmp)) : T = .HASH_T ∧ Sound m IsString tmp := by
  cases h with
  | hash h => exact ⟨rfl, h⟩

theorem Holds.of_list {ls : CList} (h : Holds m T (.list ls)) : T = .LIST_T ∧ ∃ cells, Rep ls cells ∧ cells ≠ [] := by
  cases h with
  | list h hne => exact ⟨rfl, _, h, hne⟩

theorem Holds.of_set {st : CSet} (h : Holds m T (.set st)) : T = .SET_T ∧ st.WF m id := by
  cases h with
  | set h => exact ⟨rfl, h⟩

theorem IsString.item (key value : Bytes) : IsString ⟨.STR_T, key, .str value⟩ := ⟨rfl, value, rfl⟩

theorem listPush_spec {ls : CList} {cells : List (ℕ × Bytes)} (h : Rep ls cells) (value : Bytes)
    (dir : ListDirection) : ∃ ls' cells', listPush ls value dir = .ok ls' ∧ Rep ls' cells' ∧ cells' ≠ [] := by
  cases dir with
  | LEFT =>
    obtain ⟨ls', hpush, hrep⟩ := listLpush_spec h value
    exact ⟨ls', _, hpush, hrep, List.cons_ne_nil _ _⟩
  | RIGHT =>
    obtain ⟨ls', hpush, hrep⟩ := listRpush_spec h value
    exact ⟨ls', _, hpush, hrep, by simp⟩

theorem listPop_spec {ls : CList} {cells : List (ℕ × Bytes)} (h : Rep ls cells) (hne : cells ≠ [])
    (dir : ListDirection) : ∃ ls' cells' a v, listPop ls dir = .ok (ls', some a) ∧ Rep ls' cells' ∧
      deref ls'.nodes (some a) = .ok (a, ⟨v, none, none⟩) ∧ ls'.len = ls.len - 1 := by
  have hlen := h.len
  cases dir with
  | LEFT =>
    obtain ⟨⟨a, v⟩, cells, rfl⟩ := List.exists_cons_of_ne_nil hne
    obtain ⟨ls', hpop, hrep, hread⟩ := listLpop_spec h
    rw [List.length_cons] at hlen
    exact ⟨ls', cells, a, v, hpop, hrep, hread, by rw [hrep.len, hlen]; omega⟩
  | RIGHT =>
    rcases List.eq_nil_or_concat cells with rfl | ⟨cells, ⟨a, v⟩, rfl⟩
    · exact absurd rfl hne
    · rw [List.concat_eq_append] at h hlen
      obtain ⟨ls', hpop, hrep, hread⟩ := listRpop_spec h
      rw [List.length_append, List.length_singleton] at hlen
      exact ⟨ls', cells, a, v, hpop, hrep, hread, by rw [hrep.len, hlen]; omega⟩

theorem Rep.ne_nil {ls : CList} {cells : List (ℕ × Bytes)} (h : Rep ls cells) (hlen : ls.len ≠ 0) :
    cells ≠ [] := by
  rintro rfl
  exact hlen h.len

/-! ### What the operations do with a value -/

/-- The fault of a wrapped probe, or that of an operation on values of the type `U` that meets one of the type `T`. -/
def Mistakes (m : IntMode) (T U : ItemType) (e : Fault) : Prop := Escapes m e ∨ T ≠ U

theorem Mistakes.escapes {e : Fault} (h : Mistakes m T T e) : Escapes m e := h.resolve_right fun hne => hne rfl

section Values
variable {v : Value}

theorem asHash_holds (h : Holds m T v) :
    Ensures v.asHash (fun tmp => T = .HASH_T ∧ Sound m IsString tmp) (Mistakes m T .HASH_T) := by
  cases h with
  | hash h => exact ⟨rfl, h⟩
  | str | list | set => exact .inr (by decide)

theorem asList_holds (h : Holds m T v) :
    Ensures v.asList (fun ls => T = .LIST_T ∧ ∃ cells, Rep ls cells ∧ cells ≠ []) (Mistakes m T .LIST_T) := by
  cases h with
  | list h hne => exact ⟨rfl, _, h, hne⟩
  | str | hash | set => exact .inr (by decide)

theorem asSet_holds (h : Holds m T v) :
    Ensures v.asSet (fun st => T = .SET_T ∧ st.WF m id) (Mistakes m T .SET_T) := by
  cases h with
  | set h => exact ⟨rfl, h⟩
  | str | hash | list => exact .inr (by decide)

theorem hsetValue_holds (h : Holds m T v) (field value : Bytes) :
    Ensures (hsetValue m field value v) (fun r => Holds m T r.1) (Mistakes m T .HASH_T) := by
  refine (asHash_holds h).bind fun tmp _ htmp => ?_
  obtain ⟨rfl, htmp⟩ := htmp
  have hset := htmp.set_spec (IsString.item field value)
  exact (hset.mono (fun _ => id) fun _ => .inl).bind fun _ _ hs => .hash hs

theorem pushValue_holds (h : Holds m T v) (value : Bytes) (dir : ListDirection) :
    Ensures (pushValue value dir v) (fun r => Holds m T r.1) (Mistakes m T .LIST_T) := by
  refine (asList_holds h).bind fun ls _ hls => ?_
  obtain ⟨rfl, cells, hrep, -⟩ := hls
  obtain ⟨ls', cells', hpush, hrep', hne'⟩ := listPush_spec hrep value dir
  rw [hpush]
  exact .list hrep' hne'

theorem saddValue_holds (h : Holds m T v) (value : Bytes) :
    Ensures (saddValue m value v) (fun r => Holds m T r.1) (Mistakes m T .SET_T) := by
  refine (asSet_holds h).bind fun st _ hst => ?_
  obtain ⟨rfl, hst⟩ := hst
  exact ((hst.add_spec 0 value).mono (fun _ => id) fun _ => .inl).bind fun _ _ hr => .set hr.wf

theorem popValue_holds (h : Holds m T v) (dir : ListDirection) :
    Ensures (popValue dir v) (fun r => r.2.1 = false → Holds m T r.1) (Mistakes m T .LIST_T) := by
  refine (asList_holds h).bind fun ls _ hls => ?_
  obtain ⟨rfl, cells, hrep, hne⟩ := hls
  obtain ⟨ls', cells', a, v, hpop, hrep', hread, -⟩ := listPop_spec hrep hne dir
  rw [hpop, ok_bind]
  dsimp only
  rw [hread]
  exact fun hlen => .list hrep' (hrep'.ne_nil (by simpa using hlen))

theorem hdelValue_holds (h : Holds m T v) (field : Bytes) :
    Ensures (hdelValue m field v) (fun r => r.2.1 = false → Holds m T r.1) (Mistakes m T .HASH_T) := by
  refine (asHash_holds h).bind fun tmp _ htmp => ?_
  obtain ⟨rfl, htmp⟩ := htmp
  exact ((htmp.del_spec field).mono (fun _ => id) fun _ => .inl).bind fun _ _ hs _ => .hash hs

theorem lremValue_holds (h : Holds m T v) (count : Int) (value : Bytes) :
    Ensures (lremValue count value v) (fun r => r.2.1 = false → Holds m T r.1) (Mistakes m T .LIST_T) := by
  refine (asList_holds h).bind fun ls _ hls => ?_
  obtain ⟨rfl, cells, hrep, -⟩ := hls
  obtain ⟨ls', hrep', hrem⟩ := listRem_spec hrep count value
  rw [hrem]
  exact fun hlen => .list hrep' (hrep'.ne_nil (by simpa using hlen))

theorem sremValue_holds (h : Holds m T v) (value : Bytes) :
    Ensures (sremValue m value v) (fun r => r.2.1 = false → Holds m T r.1) (Mistakes m T .SET_T) := by
  refine (asSet_holds h).bind fun st _ hst => ?_
  obtain ⟨rfl, hst⟩ := hst
  exact ((hst.remove_spec value).mono (fun _ => id) fun _ => .inl).bind fun _ _ hr _ => .set hr.wf

theorem lsetValue_holds (h : Holds m T v) (id : Int) (value : Bytes) :
    Ensures (lsetValue id value v) (fun r => Holds m T r.1) (Mistakes m T .LIST_T) := by
  refine (asList_holds h).bind fun ls _ hls => ?_
  obtain ⟨rfl, cells, hrep, hne⟩ := hls
  obtain ⟨ls', cells', hset, hrep', hmap⟩ := listSet_spec hrep id value
  rw [hset]
  refine .list hrep' fun hnil => hne ?_
  have hlen := congrArg List.length hmap
  simpa [hnil, eq_comm] using hlen

end Values

/-! ### The operations on a key of their type -/

theorem Sound.hset_spec (h : Sound m (TaggedAt m key .HASH_T) ht) (field value : Bytes) :
    Ensures (htableHset m ht key field value) (fun r => Sound m (TaggedAt m key .HASH_T) r.1) (Escapes m) := by
  refine h.exists_spec (h.update_spec fun v hv => ?_) fun hfind => ?_
  · exact (hsetValue_holds hv field value).mono (fun _ => id) fun _ => Mistakes.escapes
  · refine (Sound.init.set_spec (IsString.item field value)).bind fun _ _ hnew => ?_
    exact (h.insert_spec hfind ⟨.hash hnew, fun _ => rfl⟩).bind fun _ _ hs => hs

theorem Sound.push_spec (h : Sound m (TaggedAt m key .LIST_T) ht) (value : Bytes) (dir : ListDirection) :
    Ensures (htablePush m ht key value dir) (fun r => Sound m (TaggedAt m key .LIST_T) r.1) (Escapes m) := by
  refine h.exists_spec (h.update_spec fun v hv => ?_) fun hfind => ?_
  · exact (pushValue_holds hv value dir).mono (fun _ => id) fun _ => Mistakes.escapes
  · obtain ⟨new, cells', hpush, hrep', hne'⟩ := listPush_spec Rep.init value dir
    rw [hpush]
    exact (h.insert_spec hfind ⟨.list hrep' hne', fun _ => rfl⟩).bind fun _ _ hs => hs

theorem Sound.sadd_spec (h : Sound m (TaggedAt m key .SET_T) ht) (value : Bytes) :
    Ensures (htableSadd m ht key value) (fun r => Sound m (TaggedAt m key .SET_T) r.1) (Escapes m) := by
  refine h.exists_spec (h.update_spec fun v hv => ?_) fun hfind => ?_
  · exact (saddValue_holds hv value).mono (fun _ => id) fun _ => Mistakes.escapes
  · refine (setInit_wf.add_spec 0 value).bind fun _ _ hr => ?_
    exact (h.insert_spec hfind ⟨.set hr.wf, fun _ => rfl⟩).bind fun _ _ hs => hs

theorem Sound.pop_spec (h : Sound m (TaggedAt m key .LIST_T) ht) (dir : ListDirection) :
    Ensures (htablePop m ht key dir) (fun r => Sound m (TaggedAt m key .LIST_T) r.1) (Escapes m) :=
  h.shrink_spec fun _ hv => (popValue_holds hv dir).mono (fun _ => id) fun _ => Mistakes.escapes

theorem Sound.hdel_spec (h : Sound m (TaggedAt m key .HASH_T) ht) (field : Bytes) :
    Ensures (htableHdel m ht key field) (fun r => Sound m (TaggedAt m key .HASH_T) r.1) (Escapes m) :=
  h.shrink_spec fun _ hv => (hdelValue_holds hv field).mono (fun _ => id) fun _ => Mistakes.escapes

theorem Sound.lrem_spec (h : Sound m (TaggedAt m key .LIST_T) ht) (count : Int) (value : Bytes) :
    Ensures (htableLrem m ht key count value) (fun r => Sound m (TaggedAt m key .LIST_T) r.1) (Escapes m) :=
  h.shrink_spec fun _ hv => (lremValue_holds hv count value).mono (fun _ => id) fun _ => Mistakes.escapes

theorem Sound.srem_spec (h : Sound m (TaggedAt m key .SET_T) ht) (value : Bytes) :
    Ensures (htableSrem m ht key value) (fun r => Sound m (TaggedAt m key .SET_T) r.1) (Escapes m) :=
  h.shrink_spec fun _ hv => (sremValue_holds hv value).mono (fun _ => id) fun _ => Mistakes.escapes

theorem Sound.lset_spec (h : Sound m (TaggedAt m key .LIST_T) ht) (id : Int) (value : Bytes) :
    Ensures (htableLset m ht key id value) (fun r => Sound m (TaggedAt m key .LIST_T) r.1) (Escapes m) :=
  h.update_spec fun _ hv => (lsetValue_holds hv id value).mono (fun _ hv => hv) fun _ => Mistakes.escapes

/-! ### Reads -/

theorem Sound.search_spec (h : Sound m I ht) (key : Bytes) :
    Ensures (htableSearch m ht key) (fun r => ∀ a, r = some a → I a ∧ a.key = key) (Escapes m) := by
  refine (h.find_spec key).bind fun r _ hr a ha => ?_
  obtain ⟨⟨ix, a'⟩, rfl, rfl⟩ := Option.map_eq_some_iff.mp ha
  exact hr ix a' rfl

theorem Sound.read_spec (h : Sound m (TaggedAt m key T) ht) {act : Value → Except Fault ρ} {missing : ρ}
    (hact : ∀ v, Holds m T v → Ensures (act v) (fun _ => True) (Escapes m)) :
    Ensures (htableRead m ht key act missing) (fun _ => True) (Escapes m) := by
  refine (h.search_spec key).bind fun r _ hr => ?_
  cases r with
  | none => trivial
  | some a =>
    obtain ⟨⟨htag, htype⟩, hk⟩ := hr a rfl
    exact hact a.value (htype hk ▸ htag)

theorem Sound.get_spec (h : Sound m (TaggedAt m key .STR_T) ht) :
    Ensures (htableGet m ht key) (fun _ => True) (Escapes m) := by
  refine h.read_spec fun v hv => ?_
  obtain ⟨s, rfl⟩ := asStr_spec hv
  trivial

theorem IsString.get_spec (h : Sound m IsString ht) (field : Bytes) :
    Ensures (htableGet m ht field) (fun _ => True) (Escapes m) := by
  refine (h.search_spec field).bind fun r _ hr => ?_
  cases r with
  | none => trivial
  | some a =>
    obtain ⟨⟨-, s, hs⟩, -⟩ := hr a rfl
    dsimp only
    rw [hs]
    trivial

theorem Sound.hget_spec (h : Sound m (TaggedAt m key .HASH_T) ht) (field : Bytes) :
    Ensures (htableHget m ht key field) (fun _ => True) (Escapes m) := by
  refine h.read_spec fun v hv => ?_
  obtain ⟨tmp, rfl, htmp⟩ := asHash_spec hv
  exact IsString.get_spec htmp field

theorem Sound.sismember_spec (h : Sound m (TaggedAt m key .SET_T) ht) (value : Bytes) :
    Ensures (htableSismember m ht key value) (fun _ => True) (Escapes m) := by
  refine h.read_spec fun v hv => ?_
  obtain ⟨st, rfl, hst⟩ := asSet_spec hv
  exact (setIsmember_spec hst value).post fun _ _ => trivial

theorem Sound.hlen_spec (h : Sound m (TaggedAt m key .HASH_T) ht) :
    Ensures (htableHlen m ht key) (fun _ => True) (Escapes m) := by
  refine h.read_spec fun v hv => ?_
  obtain ⟨tmp, rfl, -⟩ := asHash_spec hv
  trivial

theorem Sound.llen_spec (h : Sound m (TaggedAt m key .LIST_T) ht) :
    Ensures (htableLlen m ht key) (fun _ => True) (Escapes m) := by
  refine h.read_spec fun v hv => ?_
  obtain ⟨ls, cells, rfl, -⟩ := asList_spec hv
  trivial

theorem Sound.check_id_spec (h : Sound m (TaggedAt m key .LIST_T) ht) (id : Int) :
    Ensures (htableCheckId m ht key id) (fun _ => True) (Escapes m) := by
  refine h.read_spec fun v hv => ?_
  obtain ⟨ls, cells, rfl, -⟩ := asList_spec hv
  trivial

theorem Sound.check_ids_spec (h : Sound m (TaggedAt m key .LIST_T) ht) (b e : Int) :
    Ensures (htableCheckIds m ht key b e) (fun _ => True) (Escapes m) := by
  refine h.read_spec fun v hv => ?_
  obtain ⟨ls, cells, rfl, -⟩ := asList_spec hv
  trivial

theorem Sound.lindex_spec (h : Sound m (TaggedAt m key .LIST_T) ht) (id : Int) :
    Ensures (htableLindex m ht key id) (fun _ => True) (Escapes m) := by
  refine h.read_spec fun v hv => ?_
  obtain ⟨ls, cells, rfl, hrep, -⟩ := asList_spec hv
  rw [Value.asList, ok_bind]
  rcases listIndex_spec hrep id with ⟨hnone, -⟩ | ⟨a, nd, hsome, hread, -⟩
  · rw [hnone]
    trivial
  · rw [hsome, ok_bind]
    dsimp only
    rw [hread]
    trivial

theorem Sound.lpos_spec (h : Sound m (TaggedAt m key .LIST_T) ht) (value : Bytes) :
    Ensures (htableLpos m ht key value) (fun _ => True) (Escapes m) := by
  refine h.read_spec fun v hv => ?_
  obtain ⟨ls, cells, rfl, hrep, -⟩ := asList_spec hv
  rw [Value.asList, ok_bind, listPos_spec hrep]
  trivial

/-- The slots of a hash are read under the tags of its items. -/
theorem hashLoop_spec {out : HashTableItem Value → Except Fault (List Bytes)} {full : Int}
    {slots : List (Probing.Slot (HashTableItem Value))} (res : List Bytes)
    (hout : ∀ a, .live a ∈ slots → Ensures (out a) (fun _ => True) (Escapes m)) :
    Ensures (hashLoop out full res slots) (fun _ => True) (Escapes m) := by
  induction slots generalizing res with
  | nil => trivial
  | cons slot slots ih =>
    have hgo (add : List Bytes) : Ensures (if (res ++ add).length = full then .ok (some (res ++ add))
        else hashLoop out full (res ++ add) slots) (fun _ => True) (Escapes m) :=
      .ite (fun _ => trivial) fun _ => ih _ fun a ha => hout a (List.mem_cons_of_mem _ ha)
    cases slot with
    | live a => exact (hout a (List.mem_cons_self ..)).bind fun add _ _ => hgo add
    | null => exact hgo []
    | deleted => exact hgo []

theorem IsString.live (h : Sound m IsString ht) (ha : .live a ∈ ht.slots) : ∃ s, a.value = .str s :=
  (h.items a (mem_entries.mpr (List.mem_iff_getElem?.mp ha))).2

theorem Sound.hgetall_spec (h : Sound m (TaggedAt m key .HASH_T) ht) :
    Ensures (htableHgetall m ht key) (fun _ => True) (Escapes m) := by
  refine h.read_spec fun v hv => ?_
  obtain ⟨tmp, rfl, htmp⟩ := asHash_spec hv
  refine hashLoop_spec [] fun a ha => ?_
  obtain ⟨s, hs⟩ := IsString.live htmp ha
  rw [hs]
  trivial

theorem Sound.hkeyvals_spec (h : Sound m (TaggedAt m key .HASH_T) ht) (ky : Int) :
    Ensures (htableHkeyvals m ht key ky) (fun _ => True) (Escapes m) := by
  refine h.read_spec fun v hv => ?_
  obtain ⟨tmp, rfl, htmp⟩ := asHash_spec hv
  refine hashLoop_spec [] fun a ha => ?_
  obtain ⟨s, hs⟩ := IsString.live htmp ha
  rw [hs]
  exact .ite (fun _ => trivial) fun _ => trivial

/-- What it means that `htable_check_ids` accepts: the indices that it returns lie in the list, in order. -/
theorem htableCheckIds_accepts {b e b' e' code : Int} (h : htableCheckIds m ht key b e = .ok (code, b', e'))
    (hcode : code > 0) : ∃ a ls, htableSearch m ht key = .ok (some a) ∧ a.value.asList = .ok ls ∧
      0 ≤ b' ∧ b' ≤ e' ∧ e' < ls.len := by
  obtain ⟨r, hsearch, h⟩ := bind_eq_ok.mp h
  cases r with
  | none =>
    cases h
    exact absurd hcode (by decide)
  | some a =>
    obtain ⟨ls, hls, h⟩ := bind_eq_ok.mp h
    simp only [Except.ok.injEq, Prod.mk.injEq] at h
    obtain ⟨hc, rfl, rfl⟩ := h
    split at hc
    · obtain ⟨hle, ⟨hb, -⟩, -, he⟩ := ‹_ ∧ _›
      exact ⟨a, ls, hsearch, hls, hb, hle, he⟩
    · omega

/-- `htable_lrange` between indices that `htable_check_ids` has accepted. -/
theorem Sound.lrange_spec (h : Sound m (TaggedAt m key .LIST_T) ht) {b e b' e' code : Int}
    (hids : htableCheckIds m ht key b e = .ok (code, b', e')) (hcode : code > 0) :
    Ensures (htableLrange m ht key b' e') (fun _ => True) (Escapes m) := by
  obtain ⟨a, ls, hsearch, hls, hb, hle, he⟩ := htableCheckIds_accepts hids hcode
  obtain ⟨⟨htag, htype⟩, hk⟩ := (h.search_spec key).of_ok hsearch a rfl
  have htype := htype hk
  obtain ⟨tmp, cells, hv, hrep, -⟩ := asList_spec (htype ▸ htag : Holds m .LIST_T a.value)
  rw [hv] at hls
  obtain rfl : tmp = ls := Except.ok.inj hls
  have hlist : htableType m ht key = .ok (str "list") := by
    rw [htableType, hsearch, ok_bind]
    dsimp only
    rw [htype]
    rfl
  obtain ⟨b', rfl⟩ := Int.eq_ofNat_of_zero_le hb
  obtain ⟨e', rfl⟩ := Int.eq_ofNat_of_zero_le (hb.trans hle)
  have hlen := hrep.len
  rw [htableLrange, hlist, ok_bind, if_pos (by decide), hsearch, ok_bind]
  dsimp only
  rw [hv, Value.asList, ok_bind, listRange_spec hrep (by omega) (by omega)]
  trivial

theorem Sound.smembers_spec (h : Sound m (TaggedAt m key .SET_T) ht) :
    Ensures (htableSmembers m ht key) (fun _ => True) (Escapes m) := by
  refine h.read_spec fun v hv => ?_
  obtain ⟨st, rfl, -⟩ := asSet_spec hv
  trivial

end Keyspace
end MemKey
