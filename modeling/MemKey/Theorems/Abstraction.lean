import MemKey.Theorems.Store
import MemKey.Theorems.Moves
import MemKey.Theorems.Members
import MemKey.Theorems.Deque

/-! Tables, sets and lists as the maps, sets and sequences that they stand for. As long as every entry that is inserted
    or moved finds a free slot, and no insertion into a set meets a tombstone ahead of its member, each operation does
    to the table what it is meant to do to the map. -/

namespace MemKey
open Probing Outcome Listing Linked

/-- An insertion of `a` finds a slot, and every entry that it makes the table move finds a free one. -/
structure Table.Admits {α : Type} (m : IntMode) (key : α → Bytes) (compare : Bool) (t : Table α) (a : α) : Prop where
  stops : ∃ p, Table.addWalk m key compare t a = .hit p
  moves : t.GrowMoves m key compare a

instance {α : Type} (m : IntMode) (key : α → Bytes) (compare : Bool) (t : Table α) (a : α) :
    Decidable (t.Admits m key compare a) :=
  decidable_of_iff ((∃ p, Table.addWalk m key compare t a = .hit p) ∧ t.GrowMoves m key compare a)
    ⟨fun h => ⟨h.1, h.2⟩, fun h => ⟨h.stops, h.moves⟩⟩

/-- The table holds the map, item by item, and counts its keys. -/
structure Maps (m : IntMode) {V γ : Type} (R : HashTableItem V → γ → Prop) (t : HashTable V)
    (f : Finmap fun _ : Bytes => γ) : Prop where
  wf : t.WF m HashTableItem.key
  items : Lists HashTableItem.key R t.entries f
  used : t.used = f.keys.card

/-- An item of a hash. -/
def Entry (a : HashTableItem Value) (v : Bytes) : Prop := a.type = .STR_T ∧ a.value = .str v

/-- The set holds the members, each once, and counts them. -/
structure Collects (m : IntMode) (st : CSet) (t : Finset Bytes) : Prop where
  wf : st.WF m id
  members : Members (setMembers st) t
  used : st.used = t.card

/-- The list holds the values. -/
def Strings (ls : CList) (l : List Bytes) : Prop := ∃ cells, Rep ls cells ∧ cells.map Prod.snd = l

/-- The item of a key holds the content. -/
inductive Shows (m : IntMode) : HashTableItem Value → Content → Prop
  | str {key s : Bytes} : Shows m ⟨.STR_T, key, .str s⟩ (.str s)
  | hash {key : Bytes} {tmp : HashTable Value} {h : Finmap fun _ : Bytes => Bytes} (hmaps : Maps m Entry tmp h)
      (hne : h ≠ ∅) : Shows m ⟨.HASH_T, key, .hash tmp⟩ (.hash h)
  | list {key : Bytes} {ls : CList} {l : List Bytes} (hls : Strings ls l) (hne : l ≠ []) :
      Shows m ⟨.LIST_T, key, .list ls⟩ (.list l)
  | set {key : Bytes} {st : CSet} {t : Finset Bytes} (hst : Collects m st t) (hne : t ≠ ∅) :
      Shows m ⟨.SET_T, key, .set st⟩ (.set t)

/-- The keyspace holds the store. -/
abbrev Represents (m : IntMode) (ht : Keyspace) (s : Store) : Prop := Maps m (Shows m) ht s

/-! ### Tables -/

section Tables
variable {V γ : Type} {m : IntMode} {R R' : HashTableItem V → γ → Prop} {t t' : HashTable V}
  {f : Finmap fun _ : Bytes => γ} {a a' : HashTableItem V} {k : Bytes} {c : γ} {ix : ℕ}

theorem Maps.keyed (h : Maps m R t f) : Keyed m t := ⟨h.wf, h.items.distinct⟩

theorem Maps.init : Maps m R (htableInit htBaseSize) ∅ := by
  refine ⟨htableInit_keyed.1, ?_, by simp [htableInit]⟩
  rw [htableInit, Table.entries_init]
  exact .nil

theorem Maps.mono (h : Maps m R t f) (hR : ∀ a ∈ t.entries, ∀ c, R a c → R' a c) : Maps m R' t f := by
  refine ⟨h.wf, ⟨h.items.distinct, fun a ha => ?_, h.items.absent⟩, h.used⟩
  obtain ⟨c, hc, hac⟩ := h.items.entry a ha
  exact ⟨c, hc, hR a ha c hac⟩

/-- The entries decide the map, and the counter counts them. -/
theorem Maps.of_lists (hw : t'.WF m HashTableItem.key) (h : Lists HashTableItem.key R t'.entries f)
    (hused : t'.used = t'.entries.length) : Maps m R t' f := ⟨hw, h, by rw [hused, h.card]⟩

theorem Maps.counted (h : Maps m R t f) : t.used = t.entries.length := by rw [h.used, h.items.card]

/-- What a search finds is the item of what the map holds. -/
theorem Maps.find_spec (h : Maps m R t f) (k : Bytes) :
    Ensures (htableFind m t k) (fun r => r = none ∧ f.lookup k = none ∨
      ∃ ix a c, r = some (ix, a) ∧ a.key = k ∧ f.lookup k = some c ∧ R a c) (Escapes m) := by
  cases hfind : htableFind m t k with
  | error e => exact h.wf.find_error hfind
  | ok r =>
    cases r with
    | none =>
      refine .inl ⟨rfl, h.items.absent k fun hmem => ?_⟩
      obtain ⟨a, ha, hk⟩ := List.mem_map.mp hmem
      exact h.wf.find_none hfind a ha hk
    | some p =>
      obtain ⟨ix, a⟩ := p
      obtain ⟨hix, rfl⟩ := Table.find_some hfind
      obtain ⟨c, hc, hac⟩ := h.items.entry a (mem_entries.mpr ⟨ix, hix⟩)
      exact .inr ⟨ix, a, c, rfl, rfl, hc, hac⟩

theorem Maps.search_spec (h : Maps m R t f) (k : Bytes) :
    Ensures (htableSearch m t k) (fun r => r = none ∧ f.lookup k = none ∨
      ∃ a c, r = some a ∧ a.key = k ∧ f.lookup k = some c ∧ R a c) (Escapes m) := by
  refine (h.find_spec k).bind fun r _ hr => ?_
  rcases hr with ⟨rfl, hnone⟩ | ⟨ix, a, c, rfl, hk, hc, hac⟩
  · exact .inl ⟨rfl, hnone⟩
  · exact .inr ⟨a, c, rfl, hk, hc, hac⟩

/-- An insertion that stops at a free slot stores its entry. -/
theorem Table.WF.add_admits {α : Type} {key : α → Bytes} {compare : Bool} {t t' : Table α} {a : α} {b : Bool}
    (hw : t.WF m key) (hg : t.GrowMoves m key compare a) {p : ℕ × Slot α}
    (hwalk : Table.addWalk m key compare t a = .hit p) (hvac : p.2.vacant = true)
    (h : Table.add m key compare Table.depth t a = .ok (t', b)) :
    b = true ∧ t'.entries.Perm (a :: t.entries) ∧ t'.used = t.used + 1 := by
  rcases hw.add_moves hg 0 h with ⟨rfl, -⟩ | hstored
  · obtain ⟨-, -, hadd⟩ := hw.add_hit (b := p.2) hwalk hvac 1
    obtain ⟨_, -, heq⟩ := bind_eq_ok.mp (hadd.symm.trans h)
    cases heq
  · exact hstored

theorem Maps.insert_spec (h : Maps m R t f) (hnew : f.lookup a.key = none) (hadm : t.Admits m HashTableItem.key false a)
    (hR : R a c) :
    Ensures (Table.add m HashTableItem.key false Table.depth t a) (fun r => Maps m R r.1 (f.insert a.key c))
      (Escapes m) := by
  refine (h.wf.add_spec 0 a).result fun ⟨t', b⟩ hadd => ?_
  obtain ⟨p, hwalk⟩ := hadm.stops
  obtain ⟨-, hperm, hused⟩ := h.wf.add_admits hadm.moves hwalk (Table.addWalk_vacant hwalk) hadd
  have hfresh : a.key ∉ t.entries.map HashTableItem.key := fun hmem =>
    Finmap.lookup_eq_none.mp hnew (h.items.mem_iff.mpr hmem)
  refine Maps.of_lists ((h.wf.add_spec 0 a).of_ok hadd).wf ((h.items.cons hfresh hR).perm hperm) ?_
  rw [hused, hperm.length_eq, h.counted]
  rfl

theorem Maps.put (h : Maps m R t f) (hfind : htableFind m t k = .ok (some (ix, a))) (hk : a'.key = k) (hR : R a' c) :
    Maps m R (t.put ix a') (f.insert k c) := by
  obtain ⟨hix, hka⟩ := Table.find_some hfind
  obtain ⟨rest, hperm, hput⟩ := Table.put_perm hix a'
  have hreplace := ((h.items.perm hperm.symm).replace (hk.trans hka.symm) hR).perm hput
  rw [hka] at hreplace
  refine Maps.of_lists (h.keyed.put hfind hk).1 hreplace ?_
  rw [hput.length_eq, List.length_cons, ← List.length_cons, ← hperm.length_eq]
  exact h.counted

theorem erase_of_absent (h : k ∉ f) : f.erase k = f := by
  refine Finmap.ext_lookup fun k' => ?_
  by_cases heq : k' = k
  · subst heq
    rw [Finmap.lookup_erase, Finmap.lookup_eq_none.mpr h]
  · exact Finmap.lookup_erase_ne heq

theorem Maps.del_spec (h : Maps m R t f) (hs : t.ShrinkMoves m HashTableItem.key false k) :
    Ensures (htableDel m t k) (fun r => Maps m R r.1 (f.erase k) ∧ (r.2 = true ↔ k ∈ f)) (Escapes m) := by
  refine (h.wf.remove_spec k).result fun ⟨t', b⟩ hdel => ?_
  have hwf := ((h.wf.remove_spec k).of_ok hdel).wf
  rcases h.wf.remove_moves hs hdel with ⟨rfl, rfl, habs⟩ | ⟨rfl, a, rfl, hperm, hused⟩
  · have hk : k ∉ f := fun hmem => by
      obtain ⟨a, ha, hk⟩ := List.mem_map.mp (h.items.mem_iff.mp hmem)
      exact habs a ha hk
    rw [erase_of_absent hk]
    exact ⟨h, by simp [hk]⟩
  · have hlists := h.items.perm hperm.symm
    refine ⟨Maps.of_lists hwf hlists.tail ?_, iff_of_true rfl (hlists.mem_iff.mpr (by simp))⟩
    have hlen := hperm.length_eq
    rw [List.length_cons] at hlen
    rw [hused, h.counted, hlen]
    push_cast
    ring

/-- The item that a deletion follows need not hold anything. -/
theorem Maps.drop_spec (h : Maps m R t f) (hfind : htableFind m t k = .ok (some (ix, a))) (hk : a'.key = k)
    (hs : t.ShrinkMoves m HashTableItem.key false k) :
    Ensures (htableDel m (t.put ix a') k) (fun r => Maps m R r.1 (f.erase k)) (Escapes m) := by
  obtain ⟨hix, hka⟩ := Table.find_some hfind
  obtain ⟨c, hc, -⟩ := h.items.entry a (mem_entries.mpr ⟨ix, hix⟩)
  have hloose : Maps m (fun b c => b.key = k ∨ R b c) (t.put ix a') (f.insert k c) :=
    (h.mono fun _ _ _ => .inr).put hfind hk (.inl hk)
  have hdel := hloose.del_spec (ShrinkMoves.put h.keyed hs hfind hk)
  refine hdel.post fun r hr => ?_
  have herase : (f.insert k c).erase k = f.erase k := Finmap.ext_lookup fun k' => by
    by_cases heq : k' = k
    · subst heq
      rw [Finmap.lookup_erase, Finmap.lookup_erase]
    · rw [Finmap.lookup_erase_ne heq, Finmap.lookup_erase_ne heq, Finmap.lookup_insert_of_ne f heq]
  rw [herase] at hr
  refine hr.1.mono fun b hb c hbc => hbc.resolve_left fun hkb => ?_
  have hmem : k ∈ f.erase k := hr.1.items.mem_iff.mpr (List.mem_map.mpr ⟨b, hb, hkb⟩)
  exact Finmap.notMem_erase_self hmem

end Tables

/-! ### Values -/

section Values
variable {m : IntMode} {γ : Type} {R : HashTableItem Value → γ → Prop} {tmp : HashTable Value}
  {f : Finmap fun _ : Bytes => γ} {key value : Bytes} {c : γ} {st : CSet} {t : Finset Bytes} {ls : CList} {l : List Bytes}

/-- `htable_set` on any map: the keyspace or a hash. -/
theorem Maps.set_spec (h : Maps m R tmp f) (hR : R ⟨.STR_T, key, .str value⟩ c)
    (hadm : htableFind m tmp key = .ok none → tmp.Admits m HashTableItem.key false ⟨.STR_T, key, .str value⟩) :
    Ensures (htableSet m tmp key value) (fun r => Maps m R r.1 (f.insert key c) ∧ (r.2 = true ↔ key ∉ f)) (Escapes m) := by
  have hspec := h.find_spec key
  cases hfind : htableFind m tmp key with
  | error e =>
    have hexists : htableSet m tmp key value = .error e := by
      rw [htableSet, htableExists, htableSearch, hfind]
      rfl
    rw [hexists]
    exact hspec.of_error hfind
  | ok r =>
    rcases hspec.of_ok hfind with ⟨rfl, hnone⟩ | ⟨ix, a, c', rfl, hk, hc', -⟩
    · rw [htableSet_none hfind]
      have hadd := h.insert_spec (a := ⟨.STR_T, key, .str value⟩) hnone (hadm hfind) hR
      refine Ensures.bind (Q := fun tmp' => Maps m R tmp' (f.insert key c)) ?_ fun _ _ hmaps =>
        ⟨hmaps, iff_of_true rfl (Finmap.lookup_eq_none.mp hnone)⟩
      exact hadd.bind fun _ _ hmaps => hmaps
    · rw [htableSet_some hfind]
      have hmem : key ∈ f := Finmap.mem_of_lookup_eq_some hc'
      exact ⟨h.put hfind rfl hR, by simp [hmem]⟩

/-- The first insertion into a table finds a slot and makes nothing move. -/
theorem init_admits {α : Type} {name : α → Bytes} {compare : Bool} {a : α} :
    (Table.init htBaseSize : Table α).Admits m name compare a := by
  obtain ⟨ix, hwalk⟩ : ∃ ix, Table.addWalk m name compare (Table.init htBaseSize) a = .hit (ix, .null) :=
    Table.addWalk_init htBaseSize compare a
  exact ⟨⟨_, hwalk⟩, Table.init_growMoves⟩

theorem Collects.init : Collects m (setInit htBaseSize) ∅ := by
  refine ⟨setInit_wf, ?_, by simp [setInit]⟩
  rw [setMembers, setInit, Table.entries_init]
  exact .nil

theorem Collects.counted (h : Collects m st t) : st.used = st.entries.length := by
  rw [h.used, h.members.card]
  rfl

/-- The members decide the set, and the counter counts them. -/
theorem Collects.of_members (hw : st.WF m id) (h : Members (setMembers st) t) (hused : st.used = st.entries.length) :
    Collects m st t := ⟨hw, h, by rw [hused, h.card]; rfl⟩

theorem Collects.add_spec (h : Collects m st t) (hadm : st.Admits m id true value) (hclear : Clear m st value) :
    Ensures (setAdd m st value) (fun r => Collects m r.1 (insert value t) ∧ (r.2 = true ↔ value ∉ t)) (Escapes m) := by
  refine (h.wf.add_spec 0 value).result fun ⟨st', b⟩ hadd => ?_
  obtain ⟨⟨ix, slot⟩, hwalk⟩ := hadm.stops
  by_cases hmem : value ∈ t
  · -- No tombstone comes first, so that the insertion stops at the member.
    have hlive := h.wf.addWalk_member ((h.members.mem value).mpr hmem) hclear hwalk
    cases slot with
    | null | deleted => cases hlive
    | live b' =>
      cases (Table.add_live (m := m) hwalk 1).1.symm.trans hadd
      rw [Finset.insert_eq_of_mem hmem]
      exact ⟨h, by simp [hmem]⟩
  · have hvac : slot.vacant = true := by
      cases slot with
      | null | deleted => rfl
      | live b' =>
        obtain ⟨-, hb, hk⟩ := Table.add_live (m := m) hwalk 1
        obtain rfl : b' = value := hk
        exact absurd ((h.members.mem _).mp hb) hmem
    obtain ⟨rfl, hperm, hused⟩ := h.wf.add_admits hadm.moves hwalk hvac hadd
    refine ⟨.of_members ((h.wf.add_spec 0 value).of_ok hadd).wf ((h.members.cons hmem).perm hperm) ?_, by simp [hmem]⟩
    rw [hused, hperm.length_eq, h.counted]
    rfl

theorem Collects.rem_spec (h : Collects m st t) (hs : st.ShrinkMoves m id true value) :
    Ensures (setRem m st value) (fun r => Collects m r.1 (t.erase value) ∧ (r.2 = true ↔ value ∈ t)) (Escapes m) := by
  refine (h.wf.remove_spec value).result fun ⟨st', b⟩ hrem => ?_
  have hwf := ((h.wf.remove_spec value).of_ok hrem).wf
  rcases h.wf.remove_moves hs hrem with ⟨rfl, rfl, habs⟩ | ⟨rfl, a, rfl, hperm, hused⟩
  · have hmem : value ∉ t := fun hmem => habs value ((h.members.mem value).mpr hmem) rfl
    rw [Finset.erase_eq_of_notMem hmem]
    exact ⟨h, by simp [hmem]⟩
  · have hmembers : Members (id a :: setMembers st') t := h.members.perm hperm.symm
    refine ⟨.of_members hwf hmembers.tail ?_, iff_of_true rfl ((hmembers.mem _).mp List.mem_cons_self)⟩
    have hlen := hperm.length_eq
    rw [List.length_cons] at hlen
    rw [hused, h.counted, hlen]
    push_cast
    ring

theorem Strings.init : Strings listInit [] := ⟨[], Rep.init, rfl⟩

theorem Strings.len (h : Strings ls l) : ls.len = l.length := by
  obtain ⟨cells, hrep, rfl⟩ := h
  rw [hrep.len, List.length_map]

theorem Strings.push_spec (h : Strings ls l) (value : Bytes) (dir : ListDirection) :
    ∃ ls', listPush ls value dir = .ok ls' ∧ Strings ls' (Store.pushed dir l value) := by
  obtain ⟨cells, hrep, rfl⟩ := h
  cases dir with
  | LEFT =>
    obtain ⟨ls', hpush, hrep'⟩ := listLpush_spec hrep value
    exact ⟨ls', hpush, _, hrep', rfl⟩
  | RIGHT =>
    obtain ⟨ls', hpush, hrep'⟩ := listRpush_spec hrep value
    exact ⟨ls', hpush, _, hrep', by rw [List.map_append]; rfl⟩

theorem Strings.pop_spec (h : Strings ls l) (hne : l ≠ []) (dir : ListDirection) :
    ∃ ls' a v, listPop ls dir = .ok (ls', some a) ∧ Strings ls' (Store.popped dir l).1 ∧
      deref ls'.nodes (some a) = .ok (a, ⟨v, none, none⟩) ∧ (Store.popped dir l).2 = some v := by
  obtain ⟨cells, hrep, rfl⟩ := h
  have hcells : cells ≠ [] := fun hnil => hne (by rw [hnil]; rfl)
  cases dir with
  | LEFT =>
    obtain ⟨⟨a, v⟩, cells, rfl⟩ := List.exists_cons_of_ne_nil hcells
    obtain ⟨ls', hpop, hrep', hread⟩ := listLpop_spec hrep
    exact ⟨ls', a, v, hpop, ⟨cells, hrep', rfl⟩, hread, rfl⟩
  | RIGHT =>
    obtain ⟨cells, ⟨a, v⟩, rfl⟩ := (List.eq_nil_or_concat cells).resolve_left hcells
    rw [List.concat_eq_append] at hrep ⊢
    obtain ⟨ls', hpop, hrep', hread⟩ := listRpop_spec hrep
    refine ⟨ls', a, v, hpop, ⟨cells, hrep', ?_⟩, hread, ?_⟩
    · simp [Store.popped]
    · simp [Store.popped]

theorem dropFirst_eq_diff (value : Bytes) (n : ℕ) (l : List Bytes) :
    dropFirst (· = value) n l = l.diff (List.replicate n value) := by
  induction l generalizing n with
  | nil => cases n <;> simp [dropFirst, List.nil_diff]
  | cons v l ih =>
    cases n with
    | zero => rfl
    | succ n =>
      rw [dropFirst]
      by_cases hv : v = value
      · rw [if_pos (by simpa using hv), ih, hv, List.replicate_succ, List.diff_cons, List.erase_cons_head]
      · have hnot : v ∉ List.replicate (n + 1) value := fun hmem => hv (List.eq_of_mem_replicate hmem)
        rw [if_neg (by simpa using hv), ih, List.cons_diff_of_not_mem hnot]

theorem length_remaining_le (count : Int) (value : Bytes) (cells : List (ℕ × Bytes)) :
    (remaining count value cells).length ≤ cells.length := by
  unfold remaining
  split
  · rw [List.length_reverse]
    exact (length_dropFirst_le _ _ _).trans (by rw [List.length_reverse])
  · exact length_dropFirst_le _ _ _

theorem remaining_eq_removal (count : Int) (value : Bytes) (cells : List (ℕ × Bytes)) :
    (remaining count value cells).map Prod.snd = removal count value (cells.map Prod.snd) := by
  have hremoves := remaining_removes count value cells
  unfold removal
  split
  · rw [remaining, if_pos ‹_›, List.map_reverse, dropFirst_map, dropFirst_eq_diff, List.map_reverse]
  · split
    · exact (hremoves.all ‹_›).1
    · rw [remaining, if_neg ‹_›, if_neg ‹_›, dropFirst_map, dropFirst_eq_diff]

theorem Strings.rem_spec (h : Strings ls l) (count : Int) (value : Bytes) : ∃ ls',
    listRem ls count value = .ok (ls', (l.length - (removal count value l).length : ℕ)) ∧
      Strings ls' (removal count value l) ∧ (removal count value l).length ≤ l.length := by
  obtain ⟨cells, hrep, rfl⟩ := h
  obtain ⟨ls', hrep', hrem⟩ := listRem_spec hrep count value
  have hlen : (removal count value (cells.map Prod.snd)).length = (remaining count value cells).length := by
    rw [← remaining_eq_removal, List.length_map]
  refine ⟨ls', by rw [hrem, hlen, List.length_map], ⟨_, hrep', remaining_eq_removal _ _ _⟩, ?_⟩
  rw [hlen, List.length_map]
  exact length_remaining_le count value cells

theorem Strings.set_spec (h : Strings ls l) (id : Int) (value : Bytes) : ∃ ls',
    listSet ls id value = .ok (ls', decide (id.toNat < l.length)) ∧ Strings ls' (l.set id.toNat value) := by
  obtain ⟨cells, hrep, rfl⟩ := h
  obtain ⟨ls', cells', hset, hrep', hmap⟩ := listSet_spec hrep id value
  exact ⟨ls', by rw [hset, List.length_map], cells', hrep', hmap⟩

end Values

end MemKey
