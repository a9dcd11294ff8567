import MemKey.Pointer.Htable
import MemKey.Theorems.Pointer.List
import MemKey.Theorems.Pointer.Table
import MemKey.Theorems.Parametric
import MemKey.Theorems.Lossless

/-! The tables of items in memory. An item owns its key and the value that it points at; a resize moves the
    values, so that every block is freed once. -/

namespace MemKey.Pointer
open Probing Memory Outcome

/-! ### Items -/

/-- The end of an item is the end of its value, its key and itself. -/
theorem itemFree_does {depth q k : ℕ} {it : Item} {key : Bytes} {m V : Owned}
    (hm : m = own q (.item it) + own k (.chars key)) (hk : it.key = k)
    (hvalue : Does (valueFree (itemFree depth) it.value it.type) V fun _ m' => m' = 0) :
    Does (itemFree (depth + 1) q) (m + V) fun _ m' => m' = 0 := by
  subst hm hk
  refine .seq (.loadAs (add_assoc ..) rfl (.seq (.call hvalue (add_comm ..) ?_)))
  rintro _ _ rfl
  exact .seq (.release (n := own q (.item it)) (by rw [zero_add, add_comm]) (.release (add_zero _).symm rfl))

theorem valueFree_null {itemFree : ℕ → Prog Unit} (type : ItemType) :
    Does (valueFree itemFree none type) 0 fun _ m' => m' = 0 := by
  cases type <;> exact .pure rfl

/-- An item is a block and its key. -/
def itemEntries : Entries (HashTableItem (Option ℕ)) where
  toKind := items
  Own := fun q a m => ∃ k, m = own q (.item ⟨a.type, k, a.value⟩) + own k (.chars a.key)
  hollow := fun a => { a with value := none }
  init_does := fun a => .seq (.alloc fun k => .alloc fun q => ⟨k, by rw [add_zero]⟩)
  keyAt_does := by
    rintro q a _ ⟨k, rfl⟩
    exact .seq (.loadAs rfl rfl (.loadAs (add_comm ..) rfl ⟨rfl, rfl⟩))
  read_does := by
    rintro q a _ ⟨k, rfl⟩
    exact .seq (.loadAs rfl rfl (.seq (.loadAs (add_comm ..) rfl (.pure ⟨rfl, rfl⟩))))
  moved_does := by
    rintro q a _ ⟨k, rfl⟩
    exact .seq (.loadAs rfl rfl (.store rfl ⟨k, rfl⟩))
  free_does := by
    rintro q a _ ⟨k, rfl⟩
    rw [← add_zero (own q _ + _)]
    exact itemFree_does rfl rfl (valueFree_null a.type)

/-! ### Tables of items -/

/-- Which blocks are a value of a type at an address. -/
abbrev Values := ℕ → ItemType → Value → Owned → Prop

/-- A value in memory. -/
structure Held (R : Values) where
  ptr : ℕ
  type : ItemType
  value : Value
  blocks : Owned
  shows : R ptr type value blocks

/-- A key with its value in memory. -/
structure Binding (R : Values) where
  key : Bytes
  held : Held R

namespace Binding
variable {R : Values}

/-- The item as it lies in memory. -/
def raw (b : Binding R) : HashTableItem (Option ℕ) := ⟨b.held.type, b.key, some b.held.ptr⟩

/-- The item of the model. -/
def item (b : Binding R) : HashTableItem Value := ⟨b.held.type, b.key, b.held.value⟩

end Binding

/-- The blocks of the values. -/
def heldBlocks {R : Values} (l : List (Held R)) : Owned := (l.map Held.blocks).sum

theorem heldBlocks_cons {R : Values} (v : Held R) (l : List (Held R)) : heldBlocks (v :: l) = v.blocks + heldBlocks l := by
  rw [heldBlocks, List.map_cons, List.sum_cons]
  rfl

theorem heldBlocks_perm {R : Values} {l l' : List (Binding R)} (h : l.Perm l') :
    heldBlocks (l.map Binding.held) = heldBlocks (l'.map Binding.held) := ((h.map _).map _).sum_eq

/-- The blocks are the table of items with their values. -/
def IsHtable (R : Values) (p : ℕ) (ht : HashTable Value) (m : Owned) : Prop :=
  ∃ (g : Table (Binding R)) (n : Owned), ht = g.map Binding.item ∧ IsTable itemEntries p (g.map Binding.raw) n ∧
    m = n + heldBlocks (g.entries.map Binding.held)

/-- The switch of `item_free` ends every value. -/
def Frees (R : Values) (depth : ℕ) : Prop :=
  ∀ v : Held R, Does (valueFree (itemFree depth) (some v.ptr) v.type) v.blocks fun _ m' => m' = 0

/-- Values that nothing points at any more, and none of them if `C` holds. -/
def Strays (R : Values) (C : Prop) (x : Owned) : Prop := ∃ lost : List (Held R), x = heldBlocks lost ∧ (C → lost = [])

/-- What is meant to be left and, unless `C`, values that nothing points at any more. -/
def Leaves (R : Values) (P : Owned → Prop) (C : Prop) (m : Owned) : Prop := ∃ n x, P n ∧ m = n + x ∧ Strays R C x

section Strays
variable {R : Values} {P : Owned → Prop} {C D : Prop} {m n x y : Owned}

theorem Strays.zero : Strays R C 0 := ⟨[], rfl, fun _ => rfl⟩

theorem Strays.mono (h : Strays R C x) (hD : D → C) : Strays R D x := by
  obtain ⟨lost, hx, hnone⟩ := h
  exact ⟨lost, hx, hnone ∘ hD⟩

theorem Strays.add (hx : Strays R C x) (hy : Strays R C y) : Strays R C (x + y) := by
  obtain ⟨xs, rfl, hxs⟩ := hx
  obtain ⟨ys, rfl, hys⟩ := hy
  refine ⟨xs ++ ys, ?_, fun hC => by rw [hxs hC, hys hC]; rfl⟩
  rw [heldBlocks, heldBlocks, heldBlocks, List.map_append, List.sum_append]

theorem Leaves.of (h : P m) : Leaves R P C m := ⟨m, 0, h, (add_zero m).symm, .zero⟩

theorem Leaves.mono (h : Leaves R P C m) (hD : D → C) : Leaves R P D m := by
  obtain ⟨n, x, hn, rfl, hx⟩ := h
  exact ⟨n, x, hn, rfl, hx.mono hD⟩

theorem Leaves.add (h : Leaves R P C n) (hx : Strays R C x) : Leaves R P C (n + x) := by
  obtain ⟨n, y, hn, rfl, hy⟩ := h
  exact ⟨n, y + x, hn, add_assoc .., hy.add hx⟩

end Strays

section Htable
variable {R : Values} {mode : IntMode} {p ix : ℕ} {ht ht' : HashTable Value} {m n : Owned} {key : Bytes}
  {g g' : Table (Binding R)} {b : Binding R} {depth : ℕ}

theorem key_raw (b : Binding R) : itemEntries.key b.raw = b.key := rfl

theorem key_item (b : Binding R) : b.item.key = b.key := rfl

/-- The entries that are no longer in a table leave their values behind. -/
theorem exists_strays {l : List (Binding R)} (h : g'.entries.Subperm l) : ∃ x,
    heldBlocks (l.map Binding.held) = heldBlocks (g'.entries.map Binding.held) + x ∧
      Strays R (g'.entries.length = l.length) x := by
  obtain ⟨l₁, hperm, hsub⟩ := h
  obtain ⟨rest, hrest⟩ := hsub.exists_perm_append
  have hl : l.Perm (g'.entries ++ rest) := hrest.trans (hperm.append_right rest)
  refine ⟨heldBlocks (rest.map Binding.held), ?_, _, rfl, fun hlen => ?_⟩
  · rw [heldBlocks_perm hl, List.map_append, heldBlocks, List.map_append, List.sum_append]
    rfl
  · have hcount := hl.length_eq
    rw [List.length_append, ← hlen] at hcount
    obtain rfl := List.eq_nil_of_length_eq_zero (by omega : rest.length = 0)
    rfl

theorem IsHtable.free (h : IsHtable R p ht m) (hR : Frees R depth) :
    Does (tableFree (itemFree (depth + 1)) (some p)) m fun _ m' => m' = 0 := by
  obtain ⟨g, n, rfl, ⟨items, gs, rfl, hslots, hlen⟩, rfl⟩ := h
  obtain ⟨zs, rfl, hzs, hpairs⟩ := exists_pairs hslots.symm
  have hfree : ∀ z ∈ entries (zs.map (Slot.map fun z => (z.1, z.2.held.blocks))),
      Does (itemFree (depth + 1) z.1.addr) (z.1.blocks + z.2) fun _ m' => m' = 0 := by
    intro w hw
    rw [entries_map] at hw
    obtain ⟨z, hz, rfl⟩ := List.mem_map.mp hw
    obtain ⟨k, hblocks⟩ := z.1.own
    refine itemFree_does hblocks rfl ?_
    rw [hpairs z hz]
    exact hR z.2.held
  rw [List.length_map] at hlen
  have hend := tableFree_does (p := p) (t := ⟨g.size, g.used, items⟩) _ ((List.length_map ..).trans hlen) hfree
  rw [map_map_slots, entries_map, List.map_map] at hend
  have hheld : (g.entries.map Binding.held).map Held.blocks = (entries zs).map fun z => z.2.held.blocks := by
    rw [Table.entries, ← hzs, entries_map, List.map_map, List.map_map]
    rfl
  rw [heldBlocks, hheld]
  exact hend

theorem IsHtable.head (h : IsHtable R p ht m) : ∃ arr f, m = own p (.table ⟨ht.size, ht.used, arr⟩) + f := by
  obtain ⟨g, n, rfl, hraw, rfl⟩ := h
  obtain ⟨arr, f, rfl⟩ := hraw.head
  exact ⟨arr, _, add_assoc ..⟩

theorem does_htableInit (size : Int) : Does (htableInit size) 0 fun p m' => IsHtable R p (MemKey.htableInit size) m' := by
  refine (does_tableInit (E := itemEntries) size).mono fun p n hn => ?_
  refine ⟨Table.init size, n, (Table.map_init ..).symm, by rwa [Table.map_init], ?_⟩
  rw [Table.entries_init]
  exact (add_zero n).symm

/-- What a table needs for an insertion to lose nothing. -/
def Stores (mode : IntMode) (ht : HashTable Value) (a : HashTableItem Value) : Prop :=
  ht.WF mode HashTableItem.key ∧ ht.Admits mode HashTableItem.key false a

/-- What a table needs for a removal to lose nothing. -/
def Shrinks (mode : IntMode) (ht : HashTable Value) (key : Bytes) : Prop :=
  ht.WF mode HashTableItem.key ∧ ht.ShrinkMoves mode HashTableItem.key false key

theorem htableInsert_does (h : IsHtable R p ht m) (b : Binding R)
    (hins : MemKey.htableInsert mode ht b.held.type b.key b.held.value = .ok ht') :
    Does (htableInsert mode p b.held.type b.key (some b.held.ptr)) (m + b.held.blocks) fun _ m' =>
      Leaves R (IsHtable R p ht') (Stores mode ht b.item) m' := by
  obtain ⟨g, n, rfl, hraw, rfl⟩ := h
  obtain ⟨r, hadd⟩ := htableInsert_eq_ok.mp hins
  obtain ⟨⟨g', r'⟩, hg, heq⟩ := map_eq_ok.mp ((Table.add_map key_item Table.depth g b).symm.trans hadd)
  cases heq
  have hadd' := (Table.add_map key_raw Table.depth g b).trans (congrArg _ hg)
  obtain ⟨x, hblocks, hx⟩ := exists_strays (Table.add_conserves Table.depth hg)
  refine .seq (.call (addRefines mode false _ hraw hadd') (add_assoc ..) ?_)
  rintro _ n' ⟨-, hn'⟩
  refine .pure ⟨_, x, ⟨g', n', rfl, hn', rfl⟩, ?_, hx.mono fun hfit => ?_⟩
  · rw [add_assoc, ← hblocks, List.map_cons, heldBlocks_cons, add_comm b.held.blocks]
  · obtain ⟨s, hwalk⟩ := hfit.2.stops
    obtain ⟨-, hperm, -⟩ := hfit.1.add_admits hfit.2.moves hwalk (Table.addWalk_vacant hwalk) hadd
    simpa using hperm.length_eq

/-- The end of an item whose value the switch of `item_free` ends. -/
theorem items_free_does (hR : Frees R 1) (v : Held R) {w : Placed itemEntries} (hw : w.entry.type = v.type)
    (hv : w.entry.value = some v.ptr) : Does (items.free w.addr) (w.blocks + v.blocks) fun _ m' => m' = 0 := by
  obtain ⟨k, hblocks⟩ := w.own
  refine itemFree_does hblocks rfl ?_
  rw [hw, hv]
  exact hR v

theorem htableDel_does (h : IsHtable R p ht m) (hR : Frees R 1) {r : Bool}
    (hdel : MemKey.htableDel mode ht key = .ok (ht', r)) :
    Does (htableDel mode p key) m fun r' m' => r' = r ∧ Leaves R (IsHtable R p ht') (Shrinks mode ht key) m' := by
  obtain ⟨g, n, rfl, hraw, rfl⟩ := h
  obtain ⟨⟨g', r'⟩, hg, heq⟩ := map_eq_ok.mp ((Table.remove_map key_item).symm.trans hdel)
  cases heq
  obtain ⟨s, hfind, hrem⟩ := bind_eq_ok.mp hg
  have hfind' : Table.find mode itemEntries.key (g.map Binding.raw) key = _ :=
    (Table.find_map key_raw).trans (congrArg _ hfind)
  cases s with
  | none =>
    cases hrem
    refine .call (remove_does_none hraw hfind') rfl ?_
    rintro _ _ ⟨rfl, rfl⟩
    exact ⟨rfl, .of ⟨g, _, rfl, hraw, rfl⟩⟩
  | some s =>
    obtain ⟨ix, b⟩ := s
    obtain ⟨g₁, hdown, hrem⟩ := bind_eq_ok.mp hrem
    cases hrem
    have hperm := Table.bury_perm (Table.find_some hfind).1
    have hdown' := (Table.resizeDown_map (Table.add_map key_raw Table.depth)).trans (congrArg _ hdown)
    rw [Table.map_bury] at hdown'
    obtain ⟨x, hblocks, hx⟩ := exists_strays (Table.resizeDown_conserves hdown)
    rw [heldBlocks_perm hperm, List.map_cons, heldBlocks_cons]
    refine .call (remove_does_some hraw hfind' (V := b.held.blocks) ?_ hdown') (add_assoc ..).symm ?_
    · intro w hw
      exact items_free_does hR b.held (congrArg HashTableItem.type hw) (congrArg HashTableItem.value hw)
    · rintro _ n' ⟨rfl, hn'⟩
      refine ⟨rfl, _, x, ⟨_, n', rfl, hn', rfl⟩, by rw [add_assoc, ← hblocks], hx.mono fun hfit => ?_⟩
      rcases hfit.1.remove_moves hfit.2 hdel with ⟨hfalse, -⟩ | ⟨-, a, -, hafter, -⟩
      · cases hfalse
      · have hbefore := hperm.length_eq
        have hcount := hafter.length_eq
        simp only [Table.entries_map, List.length_map, List.length_cons] at hbefore hcount ⊢
        omega

/-! ### The item of a key -/

/-- The blocks of an item with its key, its value and the rest. -/
def itemAt {R : Values} (p : ℕ) (t : Head) (slots : List (Slot ℕ)) (q k : ℕ) (b : Binding R) (rest : Owned) : Owned :=
  own p (.table t) + (own t.items (.array slots) + (own q (.item ⟨b.held.type, k, some b.held.ptr⟩) +
    (own k (.chars b.key) + (b.held.blocks + rest))))

/-- Slot `ix` points at an item at `q`, and any other item can take its place. -/
def Focus (R : Values) (p ix : ℕ) (ht : HashTable Value) (a : HashTableItem Value) (q : ℕ) (m : Owned) : Prop :=
  ∃ (t : Head) (slots : List (Slot ℕ)) (k : ℕ) (b : Binding R) (rest : Owned), slots[ix]? = some (.live q) ∧ b.item = a ∧
    m = itemAt p t slots q k b rest ∧
    ∀ (q' k' : ℕ) (b' : Binding R), IsHtable R p (ht.put ix b'.item) (itemAt p t (slots.set ix (.live q')) q' k' b' rest)

theorem htableFind_none_does (h : IsHtable R p ht m) (hfind : htableFind mode ht key = .ok none) :
    Does (find items mode p key) m fun r m' => m' = m ∧ r = none := by
  obtain ⟨g, n, rfl, ⟨arr, gs, rfl, hslots, hlen⟩, rfl⟩ := h
  obtain ⟨s, hg, heq⟩ := map_eq_ok.mp ((Table.find_map key_item).symm.trans hfind)
  obtain rfl := Option.map_eq_none_iff.mp heq
  have hfind' := (Table.find_map key_raw).trans (congrArg _ hg)
  refine .call (find_does (t := ⟨g.size, g.used, arr⟩) hslots rfl hfind') rfl ?_
  rintro r _ ⟨rfl, hr⟩
  cases hr
  exact ⟨rfl, rfl⟩

theorem htableFind_some_does {a : HashTableItem Value} (h : IsHtable R p ht m)
    (hfind : htableFind mode ht key = .ok (some (ix, a))) :
    Does (find items mode p key) m fun r m' => m' = m ∧ ∃ q, r = some (ix, q) ∧ Focus R p ix ht a q m := by
  obtain ⟨g, n, rfl, ⟨arr, gs, rfl, hslots, hlen⟩, rfl⟩ := h
  obtain ⟨s, hg, heq⟩ := map_eq_ok.mp ((Table.find_map key_item).symm.trans hfind)
  obtain ⟨⟨jx, b⟩, rfl, heq⟩ := Option.map_eq_some_iff.mp heq
  cases heq
  have hfind' : Table.find mode itemEntries.key (g.map Binding.raw) key = .ok (some (jx, b.raw)) :=
    (Table.find_map key_raw).trans (congrArg _ hg)
  refine .call (find_does (t := ⟨g.size, g.used, arr⟩) hslots rfl hfind') rfl ?_
  rintro r _ ⟨rfl, hr⟩
  -- The slot holds a binding in the table of bindings and its item, without the value, in memory.
  obtain ⟨w, hw, hwb, rfl⟩ := hr.some_inv
  obtain ⟨k, hown⟩ := w.own
  obtain ⟨others, hblocks, hexchange⟩ := blocksOf_set hw
  obtain ⟨rest, hperm, hset⟩ := entries_set (Table.find_some hg).1
  have hheld : heldBlocks (g.entries.map Binding.held) = b.held.blocks + heldBlocks (rest.map Binding.held) :=
    (heldBlocks_perm hperm).trans (heldBlocks_cons ..)
  have hput : ∀ b' : Binding R, heldBlocks ((g.put jx b').entries.map Binding.held) =
      b'.held.blocks + heldBlocks (rest.map Binding.held) := fun b' =>
    (heldBlocks_perm (hset (.live b'))).trans (heldBlocks_cons ..)
  refine ⟨rfl, w.addr, rfl, ⟨g.size, g.used, arr⟩, gs.map (Slot.map Placed.addr), k, b,
    others + heldBlocks (rest.map Binding.held), by rw [List.getElem?_map, hw]; rfl, rfl, ?_, fun q' k' b' => ?_⟩
  · rw [hheld, tableAt, hblocks, blocksOf_live, hown, hwb, itemAt]
    simp only [Binding.raw, Table.map]
    abel
  · refine ⟨g.put jx b', _, (Table.map_put ..).symm, ⟨arr, gs.set jx (.live ⟨q', b'.raw, _, k', rfl⟩), rfl, ?_, ?_⟩, ?_⟩
    · rw [Table.map_put, List.map_set, ← hslots]
      rfl
    · rw [List.length_set, hlen]
      rfl
    · rw [hput, tableAt, hexchange, blocksOf_live, itemAt, List.map_set]
      simp only [Binding.raw, Table.map, Table.put, Slot.map_live]
      abel

/-- Another value in the place of the one that the item points at. -/
theorem Focus.update {a : HashTableItem Value} {q : ℕ} (h : Focus R p ix ht a q m) :
    ∃ (it : Item) (v : Held R) (rest : Owned),
    it.value = some v.ptr ∧ v.type = a.type ∧ v.value = a.value ∧ m = own q (.item it) + (v.blocks + rest) ∧
      ∀ value n, R v.ptr v.type value n → IsHtable R p (ht.put ix { a with value }) (own q (.item it) + (n + rest)) := by
  obtain ⟨t, slots, k, b, rest, hix, rfl, rfl, hput⟩ := h
  have hfront : ∀ b' : Binding R, b'.key = b.key → itemAt p t slots q k b' rest =
      own q (.item ⟨b'.held.type, k, some b'.held.ptr⟩) +
        (b'.held.blocks + (own p (.table t) + (own t.items (.array slots) + (own k (.chars b.key) + rest)))) := by
    intro b' hb'
    rw [itemAt, hb']
    abel
  refine ⟨_, b.held, _, rfl, rfl, rfl, hfront b rfl, fun value n hn => ?_⟩
  have hsame : slots.set ix (.live q) = slots := by
    obtain ⟨hlt, hget⟩ := List.getElem?_eq_some_iff.mp hix
    rw [← hget, List.set_getElem_self]
  have := hput q k ⟨b.key, b.held.ptr, b.held.type, value, n, hn⟩
  rw [hsame, hfront ⟨b.key, b.held.ptr, b.held.type, value, n, hn⟩ rfl] at this
  exact this

theorem htableExists_does (h : IsHtable R p ht m) {r : Bool} (hex : MemKey.htableExists mode ht key = .ok r) :
    Does (htableExists mode p key) m fun r' m' => r' = r ∧ m' = m := by
  obtain ⟨s, hfind, rfl⟩ := htableExists_eq_ok.mp hex
  cases s with
  | none =>
    refine .seq ((htableFind_none_does h hfind).mono ?_)
    rintro _ _ ⟨rfl, rfl⟩
    exact .pure ⟨rfl, rfl⟩
  | some s =>
    refine .seq ((htableFind_some_does h hfind).mono ?_)
    rintro _ _ ⟨rfl, q, rfl, -⟩
    exact .pure ⟨rfl, rfl⟩

section Branches
variable {γ : Type} {c d : Prog γ} {Q : γ → Owned → Prop}

theorem IsHtable.present {s : ℕ × HashTableItem Value} (h : IsHtable R p ht m)
    (hfind : htableFind mode ht key = .ok (some s)) (hc : Does c m Q) :
    Does (do if ← htableExists mode p key then c else d) m Q := by
  refine .seq ((htableExists_does h (htableExists_eq_ok.mpr ⟨_, hfind, rfl⟩)).mono ?_)
  rintro _ _ ⟨rfl, rfl⟩
  exact hc

theorem IsHtable.absent (h : IsHtable R p ht m) (hfind : htableFind mode ht key = .ok none) (hd : Does d m Q) :
    Does (do if ← htableExists mode p key then c else d) m Q := by
  refine .seq ((htableExists_does h (htableExists_eq_ok.mpr ⟨_, hfind, rfl⟩)).mono ?_)
  rintro _ _ ⟨rfl, rfl⟩
  exact hd

end Branches

section Act
variable {ρ ρ' : Type} {S : ρ' → ρ → Owned → Prop} {actP : ℕ → Prog ρ'} {missing' : ρ'} {missing r : ρ}

/-- What a function makes of a value in memory, with a reply and blocks that it leaves besides. -/
def Acts (R : Values) (S : ρ' → ρ → Owned → Prop) (c : Prog ρ') (v : Held R) (value : Value) (r : ρ) : Prop :=
  Does c v.blocks fun r' m' => ∃ n x, R v.ptr v.type value n ∧ m' = n + x ∧ S r' r x

theorem htableUpdate_does {act : Value → Except Fault (Value × ρ)} (h : IsHtable R p ht m)
    (hupd : MemKey.htableUpdate mode ht key act missing = .ok (ht', r)) (hmissing : S missing' missing 0)
    (hact : ∀ (v : Held R) ix value, htableFind mode ht key = .ok (some (ix, ⟨v.type, key, v.value⟩)) →
      act v.value = .ok (value, r) → Acts R S (actP v.ptr) v value r) :
    Does (htableUpdate mode p key actP missing') m fun r' m' => ∃ n x, IsHtable R p ht' n ∧ m' = n + x ∧ S r' r x := by
  rcases htableUpdate_cases hupd with ⟨hfind, rfl, rfl⟩ | ⟨ix, ⟨type, k, v₀⟩, ⟨type', k', value⟩, hfind, hv₀, hk, htype, rfl⟩
  · refine .seq ((htableFind_none_does h hfind).mono ?_)
    rintro _ _ ⟨rfl, rfl⟩
    exact .pure ⟨_, 0, h, (add_zero _).symm, hmissing⟩
  · obtain rfl : k = key := htableFind_key hfind
    obtain rfl : k' = k := hk
    obtain rfl : type' = type := htype
    refine .seq ((htableFind_some_does h hfind).mono ?_)
    rintro _ _ ⟨rfl, q, rfl, hfocus⟩
    obtain ⟨it, v, rest, hptr, rfl, rfl, hm, hput⟩ := hfocus.update
    refine .seq (.loadAs hm rfl ?_)
    rw [hptr]
    refine .seq (.pure (.call (hact v ix value hfind hv₀) (hm.trans (add_left_comm ..)) ?_))
    rintro r' _ ⟨n, x, hn, rfl, hx⟩
    exact ⟨_, x, hput value n hn, by rw [add_right_comm, add_left_comm n], hx⟩

theorem htableShrink_does {act : Value → Except Fault (Value × Bool × ρ)} {actP : ℕ → Prog (Bool × ρ')}
    (h : IsHtable R p ht m) (hR : Frees R 1)
    (hshr : MemKey.htableShrink mode ht key act missing = .ok (ht', r)) (hmissing : S missing' missing 0)
    (hact : ∀ (v : Held R) ix value empty, htableFind mode ht key = .ok (some (ix, ⟨v.type, key, v.value⟩)) →
      act v.value = .ok (value, empty, r) →
        Acts R (fun r' r x => r'.1 = r.1 ∧ S r'.2 r.2 x) (actP v.ptr) v value (empty, r)) :
    Does (htableShrink mode p key actP missing') m fun r' m' => ∃ n x, m' = n + x ∧ S r' r x ∧
      Leaves R (IsHtable R p ht') (∀ ix a value, htableFind mode ht key = .ok (some (ix, a)) →
        act a.value = .ok (value, true, r) → Shrinks mode (ht.put ix { a with value }) key) n := by
  rcases htableShrink_cases hshr with
    ⟨hfind, rfl, rfl⟩ | ⟨ix, ⟨type, k, v₀⟩, ⟨type', k', value⟩, empty, hfind, hv₀, hk, htype, hend⟩
  · refine .seq ((htableFind_none_does h hfind).mono ?_)
    rintro _ _ ⟨rfl, rfl⟩
    exact .pure ⟨_, 0, (add_zero _).symm, hmissing, .of h⟩
  · obtain rfl : k = key := htableFind_key hfind
    obtain rfl : k' = k := hk
    obtain rfl : type' = type := htype
    refine .seq ((htableFind_some_does h hfind).mono ?_)
    rintro _ _ ⟨rfl, q, rfl, hfocus⟩
    obtain ⟨it, v, rest, hptr, rfl, rfl, hm, hput⟩ := hfocus.update
    refine .seq (.loadAs hm rfl ?_)
    rw [hptr]
    refine .seq (.pure (.seq (.call (hact v ix value empty hfind hv₀) (hm.trans (add_left_comm ..)) ?_)))
    rintro ⟨empty', r'⟩ _ ⟨n, x, hn, rfl, hempty, hx⟩
    obtain rfl : empty = empty' := hempty.symm
    have hkept := hput value n hn
    have hsum : n + x + (own q (.item it) + rest) = own q (.item it) + (n + rest) + x := by
      rw [add_right_comm, add_left_comm n]
    cases empty with
    | false =>
      obtain rfl := hend
      exact .pure ⟨_, x, hsum, hx, .of hkept⟩
    | true =>
      obtain ⟨b, hdel⟩ := hend
      refine .seq (.call (htableDel_does hkept hR hdel) hsum ?_)
      rintro _ n' ⟨-, hleaves⟩
      exact .pure ⟨_, x, rfl, hx, hleaves.mono fun hfit => hfit ix _ value hfind hv₀⟩

end Act

/-- An item whose address, key and value are new. -/
theorem htableUpdateStr_does {a : HashTableItem Value} (h : IsHtable R p ht m) (hR : Frees R 1)
    (hfind : htableFind mode ht key = .ok (some (ix, a))) (v : Held R) (hv : v.type = .STR_T) :
    Does (htableUpdateStr mode p key (some v.ptr)) (m + v.blocks) fun _ m' =>
      IsHtable R p (ht.put ix ⟨.STR_T, key, v.value⟩) m' := by
  refine .seq (.call (htableFind_some_does h hfind) rfl ?_)
  rintro _ _ ⟨rfl, q, rfl, t, slots, k, b, rest, -, -, rfl, hput⟩
  have hold : Does (itemFree nesting q)
      (own q (.item ⟨b.held.type, k, some b.held.ptr⟩) + own k (.chars b.key) + b.held.blocks) fun _ m' => m' = 0 :=
    itemFree_does rfl rfl (hR b.held)
  refine .seq (.call (f := own p (.table t) + (own t.items (.array slots) + rest) + v.blocks) hold ?_ ?_)
  · rw [itemAt]
    abel
  rintro _ _ rfl
  refine .seq (.seq (.alloc fun k' => .alloc fun q' => ?_))
  have hm : own q' (.item ⟨.STR_T, k', some v.ptr⟩) + (own k' (.chars key) +
      (0 + (own p (.table t) + (own t.items (.array slots) + rest) + v.blocks))) =
        own p (.table t) + (own t.items (.array slots) + (own q' (.item ⟨.STR_T, k', some v.ptr⟩) +
          (own k' (.chars key) + (v.blocks + rest)))) := by
    abel
  rw [hm]
  have := hput q' k' ⟨key, v⟩
  rw [itemAt, Binding.item, hv] at this
  exact does_setSlot this

theorem htableSet_does (h : IsHtable R p ht m) (hR : Frees R 1) {value : Bytes} {r : Bool}
    (hstr : ∀ a, R a .STR_T (.str value) (own a (.chars value)))
    (hset : MemKey.htableSet mode ht key value = .ok (ht', r)) :
    Does (htableSet mode p key value) m fun r' m' => r' = r ∧
      Leaves R (IsHtable R p ht') (htableFind mode ht key = .ok none → Stores mode ht ⟨.STR_T, key, .str value⟩) m' := by
  refine .seq (.alloc fun a => .seq ?_)
  rw [add_comm]
  rcases htableSet_cases hset with ⟨ix, b, hfind, rfl, rfl⟩ | ⟨hfind, hins, rfl⟩
  · refine .call (htableExists_does h (htableExists_eq_ok.mpr ⟨_, hfind, rfl⟩)) rfl ?_
    rintro _ _ ⟨rfl, rfl⟩
    refine .seq ((htableUpdateStr_does h hR hfind ⟨a, .STR_T, .str value, _, hstr a⟩ rfl).mono fun _ _ hm => ?_)
    exact .pure ⟨rfl, .of hm⟩
  · refine .call (htableExists_does h (htableExists_eq_ok.mpr ⟨_, hfind, rfl⟩)) rfl ?_
    rintro _ _ ⟨rfl, rfl⟩
    refine .seq ((htableInsert_does h ⟨key, a, .STR_T, .str value, _, hstr a⟩ hins).mono ?_)
    exact fun _ _ hm => .pure ⟨rfl, hm.mono fun hfit => hfit hfind⟩

end Htable

end MemKey.Pointer
